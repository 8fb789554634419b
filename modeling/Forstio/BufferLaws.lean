import Forstio.Buffer

/-!
# What a buffer promises its callers

`ReadLaws` and `WriteLaws` describe a buffer by lists of bytes: `readable` is
what a reader still gets, `writable` the free memory in the order it will be
filled, `written` everything handed over so far. The copying loops, the views
and the codec are proved over these laws; each kind of buffer proves them once.
-/

namespace Forstio

open Buffer Memory

class ReadLaws (β : Type) [Buffer β] where
  ReadValid : β → Prop
  readable : β → List UInt8
  /-- Reading on moves neither the write position nor any byte of memory. -/
  ReadFrame : β → β → Prop
  frame_refl : ∀ b, ReadFrame b b
  frame_trans : ∀ {b₁ b₂ b₃}, ReadFrame b₁ b₂ → ReadFrame b₂ b₃ → ReadFrame b₁ b₃
  readable_lt : ∀ {b}, ReadValid b → (readable b).length < 2 ^ 63
  readCompositeLength_eq : ∀ {b}, ReadValid b → readCompositeLength b = some (readable b).length
  /-- The bytes up to the end of a segment lie side by side in memory. -/
  readSegment : ∀ {b i}, ReadValid b → i < (readable b).length →
    ∃ s a, readSegmentLength b i = some s ∧ 0 < s ∧ i + s ≤ (readable b).length ∧
      read b i = some a ∧ ∀ k ≤ s, load b a k = some (slice (readable b) i k)
  readAdvance_eq : ∀ {b k}, ReadValid b → k ≤ (readable b).length →
    ∃ b', readAdvance b k = some b' ∧ ReadValid b' ∧ readable b' = (readable b).drop k ∧ ReadFrame b b'

class WriteLaws (β : Type) [Buffer β] where
  WriteValid : β → Prop
  writable : β → List UInt8
  written : β → List UInt8
  /-- Free bytes of the underlying buffer that views have already claimed. -/
  viewed : β → Nat
  /-- Writing moves neither the read position nor anything behind a view. -/
  WriteFrame : β → β → Prop
  frame_refl : ∀ b, WriteFrame b b
  frame_trans : ∀ {b₁ b₂ b₃}, WriteFrame b₁ b₂ → WriteFrame b₂ b₃ → WriteFrame b₁ b₃
  room : ∀ {b}, WriteValid b → (writable b).length + viewed b < 2 ^ 63
  writeCompositeLength_eq : ∀ {b}, WriteValid b → writeCompositeLength b = some (writable b).length
  writeSegment : ∀ {b i}, WriteValid b → i < (writable b).length →
    ∃ s a, writeSegmentLength b i = some s ∧ 0 < s ∧ i + s ≤ (writable b).length ∧
      write b i = some a ∧ ∀ xs, xs.length ≤ s → ∃ b', store b a xs = some b' ∧ WriteValid b' ∧
        writable b' = overwrite (writable b) i xs ∧ written b' = written b ∧ WriteFrame b b'
  /-- An advance of length zero is not covered: it is not harmless everywhere. -/
  writeAdvance_eq : ∀ {b k}, WriteValid b → 0 < k → k ≤ (writable b).length →
    ∃ b', writeAdvance b k = some b' ∧ WriteValid b' ∧ writable b' = (writable b).drop k ∧
      written b' = written b ++ (writable b).take k ∧ WriteFrame b b'
  writeRequireLength_eq : ∀ {b k}, WriteValid b → k + viewed b < 2 ^ 64 →
    writeRequireLength b k =
      some (if (writable b).length < k then recoverableError "Buffer too small" else noError)

export ReadLaws (ReadValid readable ReadFrame)
export WriteLaws (WriteValid writable written viewed WriteFrame)

theorem take_overwrite_zero (l xs : List UInt8) : (overwrite l 0 xs).take xs.length = xs := by
  simp [overwrite]

theorem drop_overwrite_zero (l xs : List UInt8) : (overwrite l 0 xs).drop xs.length = l.drop xs.length := by
  simp [overwrite]

theorem slice_zero (l : List UInt8) (k : Nat) : slice l 0 k = l.take k := by simp [slice]

/-! ## Reading -/

section
variable {β : Type} [Buffer β] [ReadLaws β] {b : β}

theorem read_load {i : Nat} (hb : ReadValid b) (hi : i < (readable b).length) :
    ∃ a, read b i = some a ∧ load b a 1 = some [(readable b)[i]] := by
  obtain ⟨s, a, -, hs, -, ha, hl⟩ := ReadLaws.readSegment hb hi
  refine ⟨a, ha, ?_⟩
  rw [hl 1 hs]
  simp [slice, List.take_one, List.head?_drop, hi]

theorem popByte_spec (hb : ReadValid b) (value : UInt8) :
    (∀ x rest, readable b = x :: rest → ∃ b', popByte b value = some (noError, x, b') ∧ ReadValid b' ∧
      readable b' = rest ∧ ReadFrame b b') ∧
    (readable b = [] → popByte b value = some (recoverableError "Buffer too small", value, b)) := by
  refine ⟨fun x rest h => ?_, fun h => ?_⟩
  · obtain ⟨a, ha, hl⟩ := read_load hb (i := 0) (by rw [h]; simp)
    obtain ⟨b', hadv, hb', hr, hfr⟩ := ReadLaws.readAdvance_eq hb (k := 1) (by rw [h]; simp)
    refine ⟨b', ?_, hb', by rw [hr, h]; rfl, hfr⟩
    simp [popByte, ReadLaws.readCompositeLength_eq hb, ha, hl, hadv, h]
  · simp [popByte, ReadLaws.readCompositeLength_eq hb, h]

theorem popLoop_spec : ∀ (fuel : Nat) (b : β) (size : Nat), ReadValid b → size ≤ fuel →
    size ≤ (readable b).length → ∃ b', popLoop fuel b size = some ((readable b).take size, b') ∧
      ReadValid b' ∧ readable b' = (readable b).drop size ∧ ReadFrame b b'
  | fuel, b, 0, hb, _, _ => ⟨b, by cases fuel <;> rfl, hb, by simp, ReadLaws.frame_refl b⟩
  | 0, _, _ + 1, _, hf, _ => by omega
  | fuel + 1, b, size + 1, hb, hf, hlen => by
    obtain ⟨s, a, hs, hpos, hle, ha, hl⟩ := ReadLaws.readSegment hb (i := 0) (by omega)
    -- the pass copies `k` bytes and leaves `size + 1 - k` to the next ones
    obtain ⟨k, hk⟩ : ∃ k, k = min s (size + 1) := ⟨_, rfl⟩
    have hk0 : k ≠ 0 := by omega
    obtain ⟨b₁, hadv, hb₁, hr₁, hf₁⟩ := ReadLaws.readAdvance_eq hb (k := k) (by omega)
    obtain ⟨b₂, hloop, hb₂, hr₂, hf₂⟩ := popLoop_spec fuel b₁ (size + 1 - k) hb₁ (by omega)
      (by rw [hr₁, List.length_drop]; omega)
    refine ⟨b₂, ?_, hb₂, ?_, ReadLaws.frame_trans hf₁ hf₂⟩
    · have hsplit : (readable b).take k ++ (readable b₁).take (size + 1 - k) = (readable b).take (size + 1) := by
        rw [hr₁, ← List.take_add, Nat.add_sub_cancel' (by omega)]
      simp only [popLoop, Option.bind_eq_bind, hs, ha, Option.bind_some, ← hk, hl k (by omega), slice_zero, hadv,
        if_neg hk0, hloop, Option.pure_def, hsplit]
    · rw [hr₂, hr₁, List.drop_drop]
      congr 1
      omega

theorem pop_spec (hb : ReadValid b) (size : Nat) :
    (size ≤ (readable b).length → ∃ b', pop b size = some (noError, (readable b).take size, b') ∧
      ReadValid b' ∧ readable b' = (readable b).drop size ∧ ReadFrame b b') ∧
    ((readable b).length < size → pop b size = some (recoverableError "Buffer too small", [], b)) := by
  refine ⟨fun h => ?_, fun h => ?_⟩
  · obtain ⟨b', hloop, hb', hr, hfr⟩ := popLoop_spec size b size hb (Nat.le_refl _) h
    exact ⟨b', by simp [pop, ReadLaws.readCompositeLength_eq hb, h, hloop], hb', hr, hfr⟩
  · simp [pop, ReadLaws.readCompositeLength_eq hb, Nat.not_le.mpr h]

end

/-! ## Writing -/

section
variable {β : Type} [Buffer β] [WriteLaws β] {b : β}

theorem writeRequireLength_fits {k : Nat} (hb : WriteValid b) (h : k ≤ (writable b).length) :
    writeRequireLength b k = some noError := by
  have := WriteLaws.room hb
  rw [WriteLaws.writeRequireLength_eq hb (by omega), if_neg (by omega)]

theorem pushByte_spec (hb : WriteValid b) (value : UInt8) :
    (writable b ≠ [] → ∃ b', pushByte b value = some (noError, b') ∧ WriteValid b' ∧
      writable b' = (writable b).drop 1 ∧ written b' = written b ++ [value] ∧
      WriteFrame b b') ∧
    (writable b = [] → pushByte b value = some (recoverableError "Buffer too small", b)) := by
  refine ⟨fun h => ?_, fun h => ?_⟩
  · have hpos : 0 < (writable b).length := List.length_pos_iff.mpr h
    obtain ⟨s, a, -, hs, -, ha, hst⟩ := WriteLaws.writeSegment hb hpos
    obtain ⟨b₁, h₁, hb₁, hw₁, ho₁, hp₁⟩ := hst [value] hs
    have hlen : (writable b₁).length = (writable b).length := by
      rw [hw₁, length_overwrite (by simp; omega)]
    obtain ⟨b₂, h₂, hb₂, hw₂, ho₂, hp₂⟩ := WriteLaws.writeAdvance_eq hb₁ (k := 1) (by omega) (by omega)
    refine ⟨b₂, ?_, hb₂, ?_, ?_, WriteLaws.frame_trans hp₁ hp₂⟩
    · simp [pushByte, WriteLaws.writeCompositeLength_eq hb, ha, h₁, h₂, hpos]
    · rw [hw₂, hw₁]
      exact drop_overwrite_zero _ [value]
    · rw [ho₂, ho₁, hw₁]
      exact congrArg _ (take_overwrite_zero _ [value])
  · simp [pushByte, WriteLaws.writeCompositeLength_eq hb, h]

theorem pushLoop_spec : ∀ (fuel : Nat) (b : β) (data : List UInt8), WriteValid b → data.length ≤ fuel →
    data.length ≤ (writable b).length → ∃ b', pushLoop fuel b data = some b' ∧ WriteValid b' ∧
      writable b' = (writable b).drop data.length ∧ written b' = written b ++ data ∧
      WriteFrame b b'
  | fuel, b, [], hb, _, _ => ⟨b, by cases fuel <;> rfl, hb, rfl, (List.append_nil _).symm, WriteLaws.frame_refl b⟩
  | 0, _, _ :: _, _, hf, _ => by simp at hf
  | fuel + 1, b, x :: data, hb, hf, hlen => by
    have hpos : 0 < (writable b).length := by simp at hlen; omega
    obtain ⟨s, a, hs, hs0, hle, ha, hst⟩ := WriteLaws.writeSegment hb hpos
    obtain ⟨k, hk⟩ : ∃ k, k = min s (x :: data).length := ⟨_, rfl⟩
    have hk0 : k ≠ 0 := by simp at hk; omega
    have htake : ((x :: data).take k).length = k := by simp only [List.length_take]; omega
    obtain ⟨b₁, h₁, hb₁, hw₁, ho₁, hp₁⟩ := hst ((x :: data).take k) (by omega)
    have hlen₁ : (writable b₁).length = (writable b).length := by
      rw [hw₁, length_overwrite (by omega)]
    obtain ⟨b₂, h₂, hb₂, hw₂, ho₂, hp₂⟩ := WriteLaws.writeAdvance_eq hb₁ (k := k) (by omega) (by omega)
    have hw₂' : writable b₂ = (writable b).drop k := by
      rw [hw₂, hw₁]
      have := drop_overwrite_zero (writable b) ((x :: data).take k)
      rwa [htake] at this
    have ho₂' : written b₂ = written b ++ (x :: data).take k := by
      rw [ho₂, ho₁, hw₁]
      have := take_overwrite_zero (writable b) ((x :: data).take k)
      rw [htake] at this
      rw [this]
    obtain ⟨b₃, h₃, hb₃, hw₃, ho₃, hp₃⟩ := pushLoop_spec fuel b₂ ((x :: data).drop k) hb₂
      (by simp only [List.length_drop]; omega) (by rw [hw₂']; simp only [List.length_drop]; omega)
    refine ⟨b₃, ?_, hb₃, ?_, ?_, WriteLaws.frame_trans hp₁ (WriteLaws.frame_trans hp₂ hp₃)⟩
    · simp only [pushLoop, Option.bind_eq_bind, hs, ha, Option.bind_some, ← hk, h₁, h₂, if_neg hk0, h₃]
    · rw [hw₃, hw₂', List.drop_drop, List.length_drop]
      congr 1
      omega
    · rw [ho₃, ho₂', List.append_assoc, List.take_append_drop]

theorem push_spec (hb : WriteValid b) (data : List UInt8) (hd : data.length + viewed b < 2 ^ 64) :
    (data.length ≤ (writable b).length → ∃ b', push b data = some (noError, b') ∧ WriteValid b' ∧
      writable b' = (writable b).drop data.length ∧ written b' = written b ++ data ∧
      WriteFrame b b') ∧
    ((writable b).length < data.length → push b data = some (recoverableError "Buffer too small", b)) := by
  refine ⟨fun h => ?_, fun h => ?_⟩
  · obtain ⟨b', hloop, hb', hw, ho, hp⟩ := pushLoop_spec data.length b data hb (Nat.le_refl _) h
    refine ⟨b', ?_, hb', hw, ho, hp⟩
    simp [push, writeRequireLength_fits hb h, hloop]
  · simp [push, WriteLaws.writeRequireLength_eq hb hd, h]

end

/-! ## Views -/

theorem sizeAdd_eq {a b : Nat} (h : a + b < 2 ^ 64) : sizeAdd a b = a + b := Nat.mod_eq_of_lt h

section
variable {β : Type} [Buffer β]

instance [ReadLaws β] : ReadLaws (BufferView β) where
  ReadValid v := ReadValid v.buffer ∧ v.readOffset ≤ (readable v.buffer).length
  readable v := (readable v.buffer).drop v.readOffset
  ReadFrame v v' := v'.buffer = v.buffer ∧ v'.writeOffset = v.writeOffset
  frame_refl _ := ⟨rfl, rfl⟩
  frame_trans h h' := ⟨h'.1.trans h.1, h'.2.trans h.2⟩
  readable_lt := by
    rintro v ⟨hb, -⟩
    have := ReadLaws.readable_lt hb
    rw [List.length_drop]
    omega
  readCompositeLength_eq := by
    intro v ⟨hb, ho⟩
    show v.readCompositeLength = _
    simp [BufferView.readCompositeLength, ReadLaws.readCompositeLength_eq hb, assert_pos ho, Nat.not_lt.mpr ho]
  readSegment := by
    intro v i ⟨hb, ho⟩ hi
    rw [List.length_drop] at hi
    have hlt := ReadLaws.readable_lt hb
    obtain ⟨s, a, hs, hpos, hle, ha, hl⟩ := ReadLaws.readSegment hb (i := v.readOffset + i) (by omega)
    have hsum : sizeAdd i v.readOffset = v.readOffset + i := by rw [sizeAdd_eq (by omega), Nat.add_comm]
    refine ⟨s, a, ?_, hpos, by rw [List.length_drop]; omega, ?_, fun k hk => ?_⟩
    · show v.readSegmentLength i = _
      simp [BufferView.readSegmentLength, hsum, ReadLaws.readCompositeLength_eq hb, hs,
        assert_pos (show v.readOffset + i ≤ (readable v.buffer).length by omega),
        show ¬ (readable v.buffer).length < v.readOffset + i by omega]
    · show v.read i = _
      simp [BufferView.read, hsum, ReadLaws.readCompositeLength_eq hb, ha,
        assert_pos (show v.readOffset + i < (readable v.buffer).length by omega)]
    · rw [slice_drop]
      exact hl k hk
  readAdvance_eq := by
    intro v k ⟨hb, ho⟩ hk
    rw [List.length_drop] at hk
    have hlt := ReadLaws.readable_lt hb
    refine ⟨{ v with readOffset := v.readOffset + k }, ?_, ⟨hb, by dsimp only; omega⟩, ?_, rfl, rfl⟩
    · show v.readAdvance k = _
      simp [BufferView.readAdvance, sizeAdd_eq (show k + v.readOffset < 2 ^ 64 by omega),
        sizeAdd_eq (show v.readOffset + k < 2 ^ 64 by omega), ReadLaws.readCompositeLength_eq hb,
        assert_pos (show k + v.readOffset ≤ (readable v.buffer).length by omega),
        show ¬ (readable v.buffer).length < k + v.readOffset by omega]
    · rw [List.drop_drop]

/-- A view may also advance by nothing. -/
theorem BufferView.writeAdvance_spec [WriteLaws β] {v : BufferView β} {k : Nat} (hb : WriteValid v.buffer)
    (hk : v.writeOffset + k ≤ (writable v.buffer).length) :
    Buffer.writeAdvance v k = some { v with writeOffset := v.writeOffset + k } := by
  have hroom := WriteLaws.room hb
  show v.writeAdvance k = _
  simp [BufferView.writeAdvance, sizeAdd_eq (show k + v.writeOffset < 2 ^ 64 by omega),
    sizeAdd_eq (show v.writeOffset + k < 2 ^ 64 by omega), WriteLaws.writeCompositeLength_eq hb,
    assert_pos (show k + v.writeOffset ≤ (writable v.buffer).length by omega),
    show ¬ (writable v.buffer).length < k + v.writeOffset by omega]

instance [WriteLaws β] : WriteLaws (BufferView β) where
  WriteValid v := WriteValid v.buffer ∧ v.writeOffset ≤ (writable v.buffer).length
  writable v := (writable v.buffer).drop v.writeOffset
  written v := written v.buffer ++ (writable v.buffer).take v.writeOffset
  viewed v := viewed v.buffer + v.writeOffset
  WriteFrame v v' :=
    v'.readOffset = v.readOffset ∧ written v'.buffer = written v.buffer ∧ WriteFrame v.buffer v'.buffer
  frame_refl v := ⟨rfl, rfl, WriteLaws.frame_refl v.buffer⟩
  frame_trans h h' := ⟨h'.1.trans h.1, h'.2.1.trans h.2.1, WriteLaws.frame_trans h.2.2 h'.2.2⟩
  room := by
    intro v ⟨hb, ho⟩
    have := WriteLaws.room hb
    rw [List.length_drop]
    omega
  writeCompositeLength_eq := by
    intro v ⟨hb, ho⟩
    show v.writeCompositeLength = _
    simp [BufferView.writeCompositeLength, WriteLaws.writeCompositeLength_eq hb, assert_pos ho, Nat.not_lt.mpr ho]
  writeSegment := by
    intro v i ⟨hb, ho⟩ hi
    rw [List.length_drop] at hi
    have hroom := WriteLaws.room hb
    obtain ⟨s, a, hs, hpos, hle, ha, hst⟩ := WriteLaws.writeSegment hb (i := v.writeOffset + i) (by omega)
    have hsum : sizeAdd i v.writeOffset = v.writeOffset + i := by rw [sizeAdd_eq (by omega), Nat.add_comm]
    refine ⟨s, a, ?_, hpos, by rw [List.length_drop]; omega, ?_, fun xs hxs => ?_⟩
    · show v.writeSegmentLength i = _
      simp [BufferView.writeSegmentLength, hsum, WriteLaws.writeCompositeLength_eq hb, hs,
        assert_pos (show v.writeOffset + i ≤ (writable v.buffer).length by omega),
        show ¬ (writable v.buffer).length < v.writeOffset + i by omega]
    · show v.write i = _
      simp [BufferView.write, hsum, WriteLaws.writeCompositeLength_eq hb, ha,
        assert_pos (show v.writeOffset + i < (writable v.buffer).length by omega)]
    · obtain ⟨b', h₁, hb', hw, hwr, hp⟩ := hst xs hxs
      refine ⟨{ v with buffer := b' }, ?_, ⟨hb', ?_⟩, ?_, ?_, rfl, hwr, hp⟩
      · show (do return { v with buffer := ← Buffer.store v.buffer a xs }) = _
        rw [h₁]
        rfl
      · show v.writeOffset ≤ (writable b').length
        rw [hw, length_overwrite (by omega)]
        exact ho
      · show (writable b').drop v.writeOffset = _
        rw [hw, drop_overwrite ho]
      · show written b' ++ (writable b').take v.writeOffset = _
        rw [hw, hwr, take_overwrite ho]
  writeAdvance_eq := by
    rintro v k ⟨hb, ho⟩ - hk
    rw [List.length_drop] at hk
    refine ⟨_, v.writeAdvance_spec hb (by omega), ⟨hb, ?_⟩, ?_, ?_, rfl, rfl, WriteLaws.frame_refl _⟩
    · dsimp only
      omega
    · rw [List.drop_drop]
    · rw [List.append_assoc, ← List.take_add]
  writeRequireLength_eq := by
    intro v k ⟨hb, ho⟩ hk
    show Buffer.writeRequireLength v.buffer (sizeAdd k v.writeOffset) = _
    rw [sizeAdd_eq (by omega), WriteLaws.writeRequireLength_eq hb (by omega), List.length_drop]
    congr 1
    exact if_congr (by omega) rfl rfl

end

end Forstio
