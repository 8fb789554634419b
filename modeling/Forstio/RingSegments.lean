import Forstio.RingFifo

/-!
# Walking the read segments

A caller that wants all readable bytes without copying goes from segment to
segment: from offset 0, each time by `readSegmentLength` of the offset. Over any
buffer the walk loads the readable bytes in order. Over a ring it comes to two
segments at most, since it wraps around once.
-/

namespace Forstio

open Buffer ReadLaws Memory

namespace Buffer

variable {β : Type} [Buffer β]

/-- The segments in `fuel` passes of `offset += readSegmentLength(offset)`, by address and length, and the last
offset. -/
def walk (b : β) : Nat → Nat → Option (List (Nat × Nat) × Nat)
  | 0, offset => some ([], offset)
  | fuel + 1, offset => do
    if offset < (← readCompositeLength b) then
      let segment ← readSegmentLength b offset
      let address ← read b offset
      let (segments, last) ← walk b fuel (offset + segment)
      return ((address, segment) :: segments, last)
    else return ([], offset)

def addresses (segments : List (Nat × Nat)) : List Nat := segments.flatMap fun s => List.range' s.1 s.2

/-- **A walk loads what it passes**, and every pass brings it on. -/
theorem walk_loads [ReadLaws β] {b : β} (hb : ReadValid b) : ∀ fuel offset : Nat, offset ≤ (readable b).length →
    ∃ segments last blocks, walk b fuel offset = some (segments, last) ∧ offset ≤ last ∧
      last ≤ (readable b).length ∧ min (offset + fuel) (readable b).length ≤ last ∧
      segments.mapM (fun s => load b s.1 s.2) = some blocks ∧
      blocks.flatten = slice (readable b) offset (last - offset)
  | 0, offset, hle => by
    refine ⟨[], offset, [], rfl, Nat.le_refl _, hle, Nat.min_le_left _ _, rfl, ?_⟩
    rw [Nat.sub_self]
    exact (List.take_zero).symm
  | fuel + 1, offset, hle => by
    unfold walk
    simp only [readCompositeLength_eq hb, Option.bind_eq_bind, Option.bind_some]
    by_cases hlt : offset < (readable b).length
    · obtain ⟨segment, address, hsegment, hpos, hfits, haddress, hload⟩ := readSegment hb hlt
      obtain ⟨segments, last, blocks, hwalk, hon, hend, hfar, hblocks, hflat⟩ :=
        walk_loads hb fuel (offset + segment) hfits
      refine ⟨(address, segment) :: segments, last, slice (readable b) offset segment :: blocks, ?_, by omega, hend,
        by omega, ?_, ?_⟩
      · simp only [if_pos hlt, hsegment, haddress, hwalk, Option.bind_some, Option.pure_def]
      · simp only [List.mapM_cons, hload segment (Nat.le_refl _), hblocks, Option.bind_eq_bind, Option.bind_some,
          Option.pure_def]
      · have hsplit : last - offset = segment + (last - (offset + segment)) := by omega
        rw [List.flatten_cons, hflat, hsplit]
        simp only [slice, List.take_add, List.drop_drop]
    · rw [if_neg hlt]
      refine ⟨[], offset, [], rfl, Nat.le_refl _, hle, by omega, rfl, ?_⟩
      rw [Nat.sub_self]
      exact (List.take_zero).symm

end Buffer

namespace RingBuffer

section
variable (b : RingBuffer)

theorem read_segment {i : Nat} (hi : i < b.readCompositeLength) : ∃ p, b.read i = some p ∧
    p = b.wrap (b.readPosition + i) ∧ p < b.size ∧
      b.readSegmentLength i = some (min (b.readCompositeLength - i) (b.size - p)) := by
  have hle := b.readCompositeLength_le
  have hp := b.wrap_cases (b.readPosition + i)
  have hr := b.read_lt_size
  refine ⟨b.wrap (b.readPosition + i), ?_, rfl, by omega, b.readSegmentLength_eq (Nat.le_of_lt hi)⟩
  simp only [read, assert_pos hi, Option.bind_eq_bind, Option.bind_some, Option.pure_def]

theorem readSegmentLength_end : b.readSegmentLength b.readCompositeLength = some 0 := by
  rw [b.readSegmentLength_eq (Nat.le_refl _), Nat.sub_self, Nat.zero_min]

theorem walk_end (fuel : Nat) : walk b fuel b.readCompositeLength = some ([], b.readCompositeLength) := by
  cases fuel with
  | zero => rfl
  | succ fuel =>
    unfold walk
    exact if_neg (Nat.lt_irrefl b.readCompositeLength)

theorem walk_pass {i p s : Nat} (hi : i < b.readCompositeLength) (hp : b.read i = some p)
    (hs : b.readSegmentLength i = some s) (fuel : Nat) :
    walk b (fuel + 1) i = (walk b fuel (i + s)).map fun r => ((p, s) :: r.1, r.2) := by
  have hlen : Buffer.readCompositeLength b = some b.readCompositeLength := rfl
  have hs' : Buffer.readSegmentLength b i = some s := hs
  have hp' : Buffer.read b i = some p := hp
  simp only [walk, hlen, hs', hp', Option.bind_eq_bind, Option.bind_some, if_pos hi, Option.pure_def]
  cases walk b fuel (i + s) with
  | none => rfl
  | some r => rfl

/-- The readable bytes up to the physical end, and those behind the wrap. -/
def readSegments : List (Nat × Nat) :=
  if b.readCompositeLength = 0 then []
  else if b.readCompositeLength ≤ b.size - b.readPosition then [(b.readPosition, b.readCompositeLength)]
  else [(b.readPosition, b.size - b.readPosition), (0, b.readCompositeLength - (b.size - b.readPosition))]

theorem walk_readSegments (fuel : Nat) : walk b (fuel + 2) 0 = some (b.readSegments, b.readCompositeLength) := by
  have hle := b.readCompositeLength_le
  have hr := b.read_lt_size
  unfold readSegments
  by_cases h0 : b.readCompositeLength = 0
  · have hend := b.walk_end (fuel + 2)
    rw [h0] at hend
    rw [if_pos h0, hend, h0]
  · rw [if_neg h0]
    obtain ⟨p, hp, hwrap, -, hs⟩ := b.read_segment (Nat.pos_of_ne_zero h0)
    have hp0 := b.wrap_cases (b.readPosition + 0)
    obtain rfl : p = b.readPosition := by omega
    rw [b.walk_pass (Nat.pos_of_ne_zero h0) hp hs, Nat.zero_add, Nat.sub_zero]
    by_cases hone : b.readCompositeLength ≤ b.size - b.readPosition
    · rw [if_pos hone, Nat.min_eq_left hone, b.walk_end]
      rfl
    · rw [if_neg hone, Nat.min_eq_right (by omega)]
      have hlt : b.size - b.readPosition < b.readCompositeLength := by omega
      obtain ⟨q, hq, hwrap', -, hs'⟩ := b.read_segment hlt
      have hq0 := b.wrap_cases (b.readPosition + (b.size - b.readPosition))
      obtain rfl : q = 0 := by omega
      rw [b.walk_pass hlt hq hs', Nat.min_eq_left (by omega),
        show b.size - b.readPosition + (b.readCompositeLength - (b.size - b.readPosition)) = b.readCompositeLength by
          omega, b.walk_end]
      rfl

theorem length_readSegments : b.readSegments.length ≤ 2 := by
  unfold readSegments
  split_ifs
  · exact Nat.zero_le 2
  · exact Nat.le_succ 1
  · exact Nat.le_refl 2

theorem range_wrap {p s i : Nat} (h : ∀ j < s, b.wrap (b.readPosition + (i + j)) = p + j) :
    List.range' p s = (List.range s).map fun j => b.wrap (b.readPosition + (i + j)) := by
  rw [List.range'_eq_map_range]
  exact List.map_congr_left fun j hj => (h j (List.mem_range.mp hj)).symm

/-- **The segments are the readable memory**, in the order of the bytes. -/
theorem addresses_readSegments :
    addresses b.readSegments = (List.range b.readCompositeLength).map fun i => b.wrap (b.readPosition + i) := by
  have hle := b.readCompositeLength_le
  have hr := b.read_lt_size
  have hfirst : ∀ s ≤ b.size - b.readPosition,
      List.range' b.readPosition s = (List.range s).map fun i => b.wrap (b.readPosition + i) := by
    intro s hs
    have heq := b.range_wrap (p := b.readPosition) (s := s) (i := 0) fun j hj => by
      have hp := b.wrap_cases (b.readPosition + (0 + j))
      omega
    simpa only [Nat.zero_add] using heq
  unfold readSegments
  by_cases h0 : b.readCompositeLength = 0
  · rw [if_pos h0, h0]
    rfl
  · rw [if_neg h0]
    by_cases hone : b.readCompositeLength ≤ b.size - b.readPosition
    · rw [if_pos hone, addresses, List.flatMap_singleton, hfirst _ hone]
    · have hsum : b.readCompositeLength =
          b.size - b.readPosition + (b.readCompositeLength - (b.size - b.readPosition)) := by omega
      have hsecond := b.range_wrap (p := 0) (s := b.readCompositeLength - (b.size - b.readPosition))
        (i := b.size - b.readPosition) fun j hj => by
          have hp := b.wrap_cases (b.readPosition + (b.size - b.readPosition + j))
          omega
      rw [if_neg hone, addresses, List.flatMap_cons, List.flatMap_singleton, hfirst _ (Nat.le_refl _), hsecond]
      conv => rhs; rw [hsum, List.range_add, List.map_append, List.map_map]
      rfl

theorem nodup_addresses : (addresses b.readSegments).Nodup := by
  rw [addresses_readSegments]
  refine List.Nodup.map_on (fun i hi j hj heq => ?_) List.nodup_range
  have hle := b.readCompositeLength_le
  have hr := b.read_lt_size
  have hi := List.mem_range.mp hi
  have hj := List.mem_range.mp hj
  have hp := b.wrap_cases (b.readPosition + i)
  have hq := b.wrap_cases (b.readPosition + j)
  omega

theorem read_addresses {i : Nat} (hi : i < b.readCompositeLength) : b.read i = (addresses b.readSegments)[i]? := by
  obtain ⟨p, hp, rfl, -⟩ := b.read_segment hi
  rw [hp, addresses_readSegments, List.getElem?_map, List.getElem?_range hi, Option.map_some]

theorem load_readSegments : ∃ blocks, b.readSegments.mapM (fun s => load b s.1 s.2) = some blocks ∧
    blocks.flatten = readable b := by
  obtain ⟨segments, last, blocks, hwalk, -, -, -, hblocks, hflat⟩ :=
    walk_loads (b := b) trivial 2 0 (Nat.zero_le _)
  rw [b.walk_readSegments] at hwalk
  obtain ⟨rfl, rfl⟩ := Prod.mk.inj (Option.some.inj hwalk)
  refine ⟨blocks, hblocks, ?_⟩
  rw [hflat, slice_zero, Nat.sub_zero, List.take_of_length_le]
  rw [length_readable]

end

/-- **Read segments describe exactly the readable memory** of every ring that pushes and pops reach. -/
theorem read_segments_exact (n : Nat) (h : n < 2 ^ 63) (ops : List BufferOp) :
    ∃ answers b, Run.exec step (new n h) ops = some (answers, b) ∧
      (∀ offset < b.readCompositeLength, ∃ p, b.read offset = some p ∧ p < n ∧
        b.readSegmentLength offset = some (min (b.readCompositeLength - offset) (n - p))) ∧
      b.readSegmentLength b.readCompositeLength = some 0 ∧
      ∀ fuel, ∃ segments blocks, walk b (fuel + 2) 0 = some (segments, b.readCompositeLength) ∧
        segments.length ≤ 2 ∧ (addresses segments).length = b.readCompositeLength ∧
        (∀ i < b.readCompositeLength, b.read i = (addresses segments)[i]?) ∧ (addresses segments).Nodup ∧
        segments.mapM (fun s => load b s.1 s.2) = some blocks ∧ blocks.flatten = readable b := by
  obtain ⟨b, hrun, hR⟩ := represents_run n h ops
  refine ⟨_, b, hrun, ?_, b.readSegmentLength_end, ?_⟩
  · intro offset hlt
    obtain ⟨p, hp, -, hpn, hs⟩ := b.read_segment hlt
    rw [hR.size] at hpn hs
    exact ⟨p, hp, hpn, hs⟩
  · intro fuel
    obtain ⟨blocks, hblocks, hflat⟩ := b.load_readSegments
    refine ⟨b.readSegments, blocks, b.walk_readSegments fuel, b.length_readSegments, ?_,
      fun i hi => b.read_addresses hi, b.nodup_addresses, hblocks, hflat⟩
    rw [addresses_readSegments, List.length_map, List.length_range]

theorem read_segments_exact_wraps : ∃ answers b,
    Run.exec step (new 4 (by decide)) [.push [1, 2, 3], .pop 2, .push [4, 5, 6]] = some (answers, b) ∧
      b.readSegmentLength b.readCompositeLength = some 0 ∧
      ∃ segments blocks, walk b 2 0 = some (segments, b.readCompositeLength) ∧ segments.length ≤ 2 ∧
        segments.mapM (fun s => load b s.1 s.2) = some blocks ∧ blocks.flatten = readable b := by
  obtain ⟨answers, b, hrun, -, hend, hwalk⟩ :=
    read_segments_exact 4 (by decide) [.push [1, 2, 3], .pop 2, .push [4, 5, 6]]
  obtain ⟨segments, blocks, hwalk, hlen, -, -, -, hblocks, hflat⟩ := hwalk 0
  exact ⟨answers, b, hrun, hend, segments, blocks, hwalk, hlen, hblocks, hflat⟩

end RingBuffer

end Forstio
