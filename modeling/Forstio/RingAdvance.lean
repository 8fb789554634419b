import Forstio.RingFifo

/-!
# Advances and write segments of a ring

Both advances recompute the flag that tells full from empty. `readAdvance`
keeps it on an advance of length zero and `writeAdvance` does not: on a full
ring such an advance loses everything that was readable. A write segment is
the writable memory up to the physical end, except behind the last writable
byte, where `writeSegmentLength` finds the unread bytes instead.
-/

namespace Forstio

open Buffer Memory

namespace RingBuffer

/-! ## Advances -/

/-- `write(i) = byte` and the two advances. -/
inductive RingOp where
  | write (i : Nat) (byte : UInt8)
  | writeAdvance (bytes : Nat)
  | readAdvance (bytes : Nat)

def ringStep (b : RingBuffer) : RingOp → Option (Unit × RingBuffer)
  | .write i byte => do
    let b ← b.store (← b.write i) [byte]
    return ((), b)
  | .writeAdvance bytes => do
    let b ← b.writeAdvance bytes
    return ((), b)
  | .readAdvance bytes => do
    let b ← b.readAdvance bytes
    return ((), b)

def Within (b : RingBuffer) : RingOp → Prop
  | .write i _ => i < b.writeCompositeLength
  | .writeAdvance bytes => bytes ≤ b.writeCompositeLength
  | .readAdvance bytes => bytes ≤ b.readCompositeLength

/-- What each operation is for: a write sets one free byte, `writeAdvance`
appends the first free bytes, where they are, to the readable ones, and
`readAdvance` drops the oldest. -/
def Effect (b b' : RingBuffer) : RingOp → Prop
  | .write i byte => readable b' = readable b ∧ writable b' = (writable b).set i byte ∧
      b'.readPosition = b.readPosition ∧ b'.writePosition = b.writePosition
  | .writeAdvance bytes => readable b' = readable b ++ (writable b).take bytes ∧
      writable b' = (writable b).drop bytes ∧ b'.buffer = b.buffer ∧ b'.readPosition = b.readPosition ∧
      (∀ i < b.readCompositeLength, b'.read i = b.read i) ∧
      ∀ i < bytes, b'.read (b.readCompositeLength + i) = b.write i
  | .readAdvance bytes => readable b' = (readable b).drop bytes ∧
      writable b' = writable b ++ (readable b).take bytes ∧ b'.buffer = b.buffer ∧
      b'.writePosition = b.writePosition

/-- One step accounts for every byte of the `n`. -/
def Accounts (n : Nat) (b : RingBuffer) (op : RingOp) : Prop :=
  b.readCompositeLength + b.writeCompositeLength = n ∧
    ∃ b', ringStep b op = some ((), b') ∧ b'.readCompositeLength + b'.writeCompositeLength = n ∧ Effect b b' op

instance (b : RingBuffer) : (op : RingOp) → Decidable (Within b op)
  | .write i _ => inferInstanceAs (Decidable (i < b.writeCompositeLength))
  | .writeAdvance bytes => inferInstanceAs (Decidable (bytes ≤ b.writeCompositeLength))
  | .readAdvance bytes => inferInstanceAs (Decidable (bytes ≤ b.readCompositeLength))

def Advances (b : RingBuffer) : RingOp → Prop
  | .writeAdvance bytes => 0 < bytes ∨ b.writeReachedRead = false
  | _ => True

instance (b : RingBuffer) : (op : RingOp) → Decidable (Advances b op)
  | .write .. => isTrue trivial
  | .writeAdvance bytes => inferInstanceAs (Decidable (0 < bytes ∨ b.writeReachedRead = false))
  | .readAdvance _ => isTrue trivial

theorem lengths_add (b : RingBuffer) : b.readCompositeLength + b.writeCompositeLength = b.size := by
  have := b.readCompositeLength_le
  rw [writeCompositeLength_eq_sub]
  omega

section
variable {b b' : RingBuffer}

theorem readable_def (b : RingBuffer) : readable b = b.cells.take b.readCompositeLength := rfl

theorem writable_def (b : RingBuffer) : writable b = b.cells.drop b.readCompositeLength := rfl

theorem cells_eq_append (b : RingBuffer) : b.cells = readable b ++ writable b :=
  (List.take_append_drop ..).symm

theorem write_effect {i : Nat} (hi : i < b.writeCompositeLength) (byte : UInt8) :
    ∃ b', ringStep b (.write i byte) = some ((), b') ∧ b'.size = b.size ∧ Effect b b' (.write i byte) := by
  have hw := length_writable b
  rw [← writeCompositeLength_eq_sub] at hw
  obtain ⟨s, a, -, hs, -, ha, hst⟩ := WriteLaws.writeSegment (b := b) trivial (hw ▸ hi)
  obtain ⟨b₁, h₁, -, hwr, hwd, hr⟩ := hst [byte] hs
  have hset : overwrite (writable b) i [byte] = (writable b).set i byte := by
    rw [List.set_eq_take_append_cons_drop, if_pos (hw ▸ hi)]
    simp [overwrite]
  have hfit : a + 1 ≤ b.size := by
    refine Classical.byContradiction fun hno => ?_
    have hnone : b.store a [byte] = none := dif_neg hno
    exact absurd (h₁.symm.trans hnone) (Option.some_ne_none b₁)
  obtain ⟨b₂, h₂, -, -, hp, -⟩ := store_fields [byte] hfit
  obtain rfl : b₂ = b₁ := Option.some.inj (h₂.symm.trans h₁)
  have ha' : b.write i = some a := ha
  refine ⟨b₂, by simp [ringStep, ha', h₂], (store_length hfit h₂).1, hwd, hwr.trans hset, hr, hp⟩

theorem readAdvance_effect {k : Nat} (hk : k ≤ b.readCompositeLength) :
    ∃ b', ringStep b (.readAdvance k) = some ((), b') ∧ b'.size = b.size ∧ Effect b b' (.readAdvance k) := by
  obtain ⟨b₁, h₁, hbuf, -, hp, -⟩ := readAdvance_fields hk
  have hlen := readAdvance_length hk h₁
  have hcells := readAdvance_cells hk h₁
  have hfit : k ≤ (readable b).length := by rwa [length_readable]
  rw [cells_eq_append b, List.drop_append_of_le_length hfit, List.take_append_of_le_length hfit,
    List.append_assoc] at hcells
  have hdrop : ((readable b).drop k).length = b₁.readCompositeLength := by
    rw [List.length_drop, length_readable, hlen]
  refine ⟨b₁, by simp [ringStep, h₁], congrArg List.length hbuf, ?_, ?_, hbuf, hp⟩
  · rw [readable_def, hcells]
    exact List.take_left' hdrop
  · rw [writable_def, hcells]
    exact List.drop_left' hdrop

theorem writeAdvance_zero (hf : b.writeReachedRead = false) : b.writeAdvance 0 = some b := by
  obtain ⟨b₁, h₁, hbuf, hr, hw, hf₁⟩ := writeAdvance_fields (Nat.zero_le b.writeCompositeLength)
  have hp : b.wrap (b.writePosition + 0) = b.writePosition := by
    have := b.write_lt_size
    have := b.wrap_cases (b.writePosition + 0)
    omega
  have hflag : b₁.writeReachedRead = b.writeReachedRead := by simp [hf₁, hf]
  rw [hp] at hw
  rw [h₁]
  cases b
  cases b₁
  simp_all

theorem writeAdvance_zero_full (hf : b.writeReachedRead = true) :
    ∃ b', b.writeAdvance 0 = some b' ∧ b'.readCompositeLength = 0 := by
  obtain ⟨b₁, h₁, -, hr, hw, hf₁⟩ := writeAdvance_fields (Nat.zero_le b.writeCompositeLength)
  obtain ⟨heq, hpos⟩ := b.full hf
  have hp : b.wrap (b.writePosition + 0) = b.writePosition := by
    have := b.write_lt_size
    have := b.wrap_cases (b.writePosition + 0)
    unfold size at *
    omega
  refine ⟨b₁, h₁, ?_⟩
  have hw₁ : b₁.writePosition = b.readPosition := hw.trans (hp.trans heq)
  simp [readCompositeLength, hr, hw₁, hf₁]

theorem writeAdvance_effect {k : Nat} (hk : k ≤ b.writeCompositeLength)
    (hok : 0 < k ∨ b.writeReachedRead = false) :
    ∃ b', ringStep b (.writeAdvance k) = some ((), b') ∧ b'.size = b.size ∧ Effect b b' (.writeAdvance k) := by
  obtain ⟨b₁, h₁, hbuf, hr, -, -⟩ := writeAdvance_fields hk
  have hcells : b₁.cells = b.cells := by
    unfold cells
    rw [hbuf, hr]
  have hlen : b₁.readCompositeLength = b.readCompositeLength + k := by
    rcases Nat.eq_zero_or_pos k with rfl | h0
    · obtain rfl : b = b₁ := Option.some.inj ((writeAdvance_zero (hok.resolve_left (Nat.lt_irrefl 0))).symm.trans h₁)
      rfl
    · exact writeAdvance_length h0 hk h₁
  have hsz : b₁.size = b.size := congrArg List.length hbuf
  have hwrap : ∀ p, b₁.wrap p = b.wrap p := by
    intro p
    unfold wrap
    rw [hsz]
  refine ⟨b₁, by simp [ringStep, h₁], hsz, ?_, ?_, hbuf, hr, ?_, ?_⟩
  · rw [readable_def, hcells, hlen, List.take_add]
    rfl
  · rw [writable_def, hcells, hlen, writable_def, List.drop_drop]
  · intro i hi
    simp [read, hwrap, hr, assert_pos hi, assert_pos (show i < b₁.readCompositeLength by omega)]
  · intro i hi
    have hi' : i < b.writeCompositeLength := by omega
    simp only [read, write, hwrap, hr, assert_pos hi', Option.bind_eq_bind, Option.bind_some, Option.pure_def,
      assert_pos (show b.readCompositeLength + i < b₁.readCompositeLength by omega), b.wrap_write hi']

theorem step_accounts_iff {op : RingOp} (hwithin : Within b op) : Accounts b.size b op ↔ Advances b op := by
  -- an operation with its effect accounts for every byte
  have haccounts : (∃ b', ringStep b op = some ((), b') ∧ b'.size = b.size ∧ Effect b b' op) →
      Accounts b.size b op := by
    intro ⟨b', h, hsz, heff⟩
    exact ⟨b.lengths_add, b', h, b'.lengths_add.trans hsz, heff⟩
  cases op with
  | write i byte => exact ⟨fun _ => trivial, fun _ => haccounts (write_effect hwithin byte)⟩
  | readAdvance k => exact ⟨fun _ => trivial, fun _ => haccounts (readAdvance_effect hwithin)⟩
  | writeAdvance k =>
    refine ⟨fun ⟨_, b₁, h₁, _, hr, _⟩ => ?_, fun hok => haccounts (writeAdvance_effect hwithin hok)⟩
    rcases Nat.eq_zero_or_pos k with rfl | h0
    · refine Or.inr (Bool.eq_false_iff.mpr fun hf => ?_)
      obtain ⟨b₂, h₂, hzero⟩ := writeAdvance_zero_full hf
      obtain rfl : b₂ = b₁ := by simpa [ringStep, h₂] using h₁
      obtain ⟨hlen, hpos⟩ := (full_iff b).mp hf
      have := congrArg List.length hr
      rw [length_readable, hzero, List.take_zero, List.append_nil, length_readable] at this
      omega
    · exact Or.inl h0

theorem ringStep_size {op : RingOp} (h : ringStep b op = some ((), b')) : b'.size = b.size := by
  cases op with
  | write i byte =>
    simp only [ringStep, Option.bind_eq_bind, Option.bind_eq_some_iff] at h
    obtain ⟨a, -, b₁, hst, heq⟩ := h
    obtain rfl : b₁ = b' := by simpa using heq
    unfold store at hst
    split at hst
    · obtain rfl := Option.some.inj hst
      exact length_overwrite ‹_›
    · cases hst
  | writeAdvance k =>
    simp only [ringStep, Option.bind_eq_bind, Option.bind_eq_some_iff] at h
    obtain ⟨b₁, hadv, heq⟩ := h
    obtain rfl : b₁ = b' := by simpa using heq
    unfold writeAdvance at hadv
    split at hadv
    · obtain rfl := Option.some.inj hadv
      rfl
    · cases hadv
  | readAdvance k =>
    simp only [ringStep, Option.bind_eq_bind, Option.bind_eq_some_iff] at h
    obtain ⟨b₁, hadv, heq⟩ := h
    obtain rfl : b₁ = b' := by simpa using heq
    simp only [readAdvance, Option.bind_eq_bind, Option.bind_eq_some_iff] at hadv
    obtain ⟨-, -, hadv⟩ := hadv
    obtain rfl := Option.some.inj hadv
    rfl

end

/-- **Advances account exactly** along a run of operations on a fresh ring
exactly when no `writeAdvance(0)` is called while the ring is full. -/
theorem advances_account_iff (n : Nat) (h : n < 2 ^ 63) (ops : List RingOp)
    (hwithin : Run.Along ringStep Within (new n h) ops) :
    Run.Along ringStep (Accounts n) (new n h) ops ↔ Run.Along ringStep Advances (new n h) ops := by
  refine Run.along_iff (fun b => b.size = n) ?_ ?_ ops (new n h) List.length_replicate hwithin
  · intro b op _ b' hn _ _ hstep
    exact (ringStep_size hstep).trans hn
  · intro b op hn hin
    subst hn
    exact step_accounts_iff hin

theorem advances_account_iff_wraps : Run.Along ringStep (Accounts 2) (new 2 (by decide))
    [.write 0 1, .write 1 2, .writeAdvance 2, .readAdvance 1, .write 0 3, .readAdvance 0, .writeAdvance 1] :=
  (advances_account_iff 2 (by decide) _ (by decide)).mpr (by decide)

/-- A full ring of one byte loses it to an advance of length zero. -/
theorem advances_account_fails : ∃ b b', Run.exec ringStep (new 1 (by decide)) [.write 0 7, .writeAdvance 1] =
      some ([(), ()], b) ∧ readable b = [7] ∧ Within b (.writeAdvance 0) ∧
    ringStep b (.writeAdvance 0) = some ((), b') ∧ readable b' = [] ∧ ¬ Accounts 1 b (.writeAdvance 0) := by
  have hok : ¬ Advances ⟨[7], 0, 0, true, by decide, by decide, by decide, by decide⟩ (.writeAdvance 0) := by decide
  refine ⟨⟨[7], 0, 0, true, by decide, by decide, by decide, by decide⟩,
    ⟨[7], 0, 0, false, by decide, by decide, by decide, by decide⟩, rfl, rfl, by decide, rfl, rfl, ?_⟩
  exact fun hacc => hok ((step_accounts_iff (by decide)).mp hacc)

/-! ## Write segments -/

/-- A write segment is the writable memory up to the physical end, so it is
empty only behind the last writable byte, for a view too, and filling it
overwrites no unread byte. -/
structure SegmentExact (b : RingBuffer) (offset : Nat) : Prop where
  length : b.writeSegmentLength offset =
    some (min (b.writeCompositeLength - offset) (b.size - b.wrap (b.writePosition + offset)))
  zero_iff : b.writeSegmentLength offset = some 0 ↔ offset = b.writeCompositeLength
  view : ∀ v : BufferView RingBuffer, v.buffer = b → v.writeOffset = offset →
    v.writeCompositeLength = some 0 → v.writeSegmentLength 0 = some 0
  unread : ∀ s xs, b.writeSegmentLength offset = some s → xs.length ≤ s →
    ∃ b', b.store (b.wrap (b.writePosition + offset)) xs = some b' ∧ readable b' = readable b

section
variable {b : RingBuffer}

theorem writeSegmentLength_end (h0 : 0 < b.writeCompositeLength) :
    b.writeSegmentLength b.writeCompositeLength = some (b.size - b.readPosition) := by
  have hr := b.read_lt_size
  have hw := b.write_lt_size
  have hs := b.shape
  have hp := b.wrap_cases (b.writePosition + b.writeCompositeLength)
  have hend : b.wrap (b.writePosition + b.writeCompositeLength) = b.readPosition := by omega
  have hf : b.writeReachedRead = false := by
    refine Bool.eq_false_iff.mpr fun hf => ?_
    have hsub := b.writeCompositeLength_eq_sub
    have hlen := ((full_iff b).mp hf).1
    omega
  simp [writeSegmentLength, assert_pos, hend, hf]

theorem store_segment {offset : Nat} (hlt : offset < b.writeCompositeLength) {s : Nat} {xs : List UInt8}
    (hs : b.writeSegmentLength offset = some s) (hxs : xs.length ≤ s) :
    ∃ b', b.store (b.wrap (b.writePosition + offset)) xs = some b' ∧ readable b' = readable b := by
  have hw : offset < (writable b).length := by
    rwa [length_writable, ← writeCompositeLength_eq_sub]
  obtain ⟨s', a, hs', -, -, ha, hst⟩ := WriteLaws.writeSegment (b := b) trivial hw
  obtain rfl : s' = s := Option.some.inj (hs'.symm.trans hs)
  obtain rfl : b.wrap (b.writePosition + offset) = a := by
    have : b.write offset = some (b.wrap (b.writePosition + offset)) := by
      simp [write, assert_pos hlt]
    exact Option.some.inj (this.symm.trans ha)
  obtain ⟨b', h, -, -, hwd, -⟩ := hst xs hxs
  exact ⟨b', h, hwd⟩

theorem segment_exact_lt {offset : Nat} (hlt : offset < b.writeCompositeLength) : SegmentExact b offset := by
  have hpos := b.write_lt_size
  have hle := Nat.le_of_lt hlt
  have hlen := b.writeSegmentLength_eq hlt
  have hp := b.wrap_cases (b.writePosition + offset)
  have hne : b.writeSegmentLength offset ≠ some 0 := by
    rw [hlen]
    intro h
    have := Option.some.inj h
    have := b.writeCompositeLength_le
    omega
  refine ⟨hlen, ⟨fun h => absurd h hne, fun h => absurd h (Nat.ne_of_lt hlt)⟩, ?_, ?_⟩
  · -- the view has `writeCompositeLength() - offset` bytes to write
    intro v hb ho hv
    simp only [BufferView.writeCompositeLength, Buffer.writeCompositeLength, hb, ho, Option.bind_eq_bind,
      Option.bind_some, assert_pos hle, if_neg (Nat.not_lt.mpr hle), Option.pure_def, Option.some.injEq] at hv
    omega
  · intro s xs hs hxs
    exact store_segment hlt hs hxs

theorem segment_exact_full (hz : b.writeCompositeLength = 0) : SegmentExact b 0 := by
  have hpos := b.write_lt_size
  have hlen := b.writeSegmentLength_full hz
  refine ⟨?_, ⟨fun _ => hz.symm, fun _ => hlen⟩, ?_, ?_⟩
  · rw [hlen, hz, Nat.sub_zero, Nat.zero_min]
  · intro v hb ho _
    simp [BufferView.writeSegmentLength, Buffer.writeCompositeLength, Buffer.writeSegmentLength, hb, ho,
      sizeAdd, hlen, assert_pos]
  · intro s xs hs hxs
    obtain rfl : s = 0 := Option.some.inj (hs.symm.trans hlen)
    obtain rfl : xs = [] := List.eq_nil_of_length_eq_zero (by omega)
    have hp := b.wrap_cases (b.writePosition + 0)
    obtain ⟨b', h, hbuf, hr, -⟩ := store_fields (b := b) (a := b.wrap (b.writePosition + 0)) []
      (by simp only [List.length_nil]; omega)
    obtain ⟨-, hrc⟩ := store_length (by simp only [List.length_nil]; omega) h
    refine ⟨b', h, ?_⟩
    rw [readable_def, readable_def, hrc]
    unfold cells
    rw [hbuf, hr, overwrite_nil]

theorem segment_exact_iff {offset : Nat} (hle : offset ≤ b.writeCompositeLength) :
    SegmentExact b offset ↔ offset < b.writeCompositeLength ∨ b.writeCompositeLength = 0 := by
  constructor
  · intro hex
    refine Classical.byContradiction fun hno => ?_
    obtain rfl : offset = b.writeCompositeLength := by omega
    have hzero := hex.zero_iff.mpr rfl
    have hlt := b.read_lt_size
    have hsz := b.writeCompositeLength_le
    rw [writeSegmentLength_end (by omega)] at hzero
    have := Option.some.inj hzero
    omega
  · rintro (hlt | hz)
    · exact segment_exact_lt hlt
    · obtain rfl : offset = 0 := by omega
      exact segment_exact_full hz

end

/-- **Write segments describe the writable memory** at exactly the offsets in
front of the last writable byte, in every ring that pushes and pops reach. -/
theorem write_segment_iff (n : Nat) (h : n < 2 ^ 63) (ops : List BufferOp) :
    ∃ answers b, Run.exec step (new n h) ops = some (answers, b) ∧ b.size = n ∧
      ∀ offset ≤ b.writeCompositeLength,
        (SegmentExact b offset ↔ offset < b.writeCompositeLength ∨ b.writeCompositeLength = 0) := by
  obtain ⟨b, hrun, hR⟩ := represents_run n h ops
  exact ⟨_, b, hrun, hR.size, fun offset hle => segment_exact_iff hle⟩

theorem write_segment_iff_three : ∃ answers b, Run.exec step (new 3 (by decide)) [.push [1, 2], .pop 1] =
      some (answers, b) ∧ b.size = 3 ∧ ∀ offset ≤ b.writeCompositeLength,
        (SegmentExact b offset ↔ offset < b.writeCompositeLength ∨ b.writeCompositeLength = 0) :=
  write_segment_iff 3 (by decide) [.push [1, 2], .pop 1]

/-- One byte in a ring of two: a view behind the free one is told it may fill
two, and filling them overwrites the unread one. -/
theorem write_segment_fails : ∃ b b', Run.exec step (new 2 (by decide)) [.pushByte 1] = some ([(noError, [])], b) ∧
    b.writeCompositeLength = 1 ∧ b.writeSegmentLength 1 = some 2 ∧
    BufferView.writeCompositeLength ⟨b, 0, 1⟩ = some 0 ∧ BufferView.writeSegmentLength ⟨b, 0, 1⟩ 0 = some 2 ∧
    b.store (b.wrap (b.writePosition + 1)) [9, 9] = some b' ∧ readable b = [1] ∧ readable b' = [9] ∧
    ¬ SegmentExact b 1 := by
  refine ⟨⟨[1, 0], 0, 1, false, by decide, by decide, by decide, by decide⟩,
    ⟨[9, 9], 0, 1, false, by decide, by decide, by decide, by decide⟩, rfl, rfl, rfl, rfl, rfl, rfl, rfl, rfl, ?_⟩
  exact fun hex => absurd hex.length (by decide)

end RingBuffer

end Forstio
