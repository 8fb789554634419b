import Forstio.BufferLaws

/-!
# The one-time buffer

An `ArrayBuffer` is written once from front to back; what has been read is not
reused.
-/

namespace Forstio

open Memory

structure ArrayBuffer where
  buffer : List UInt8
  readPosition : Nat
  writePosition : Nat
  small : buffer.length < 2 ^ 63
  read_le : readPosition ≤ writePosition
  write_le : writePosition ≤ buffer.length

namespace ArrayBuffer

def new (size : Nat) (h : size < 2 ^ 63) : ArrayBuffer where
  buffer := List.replicate size 0
  readPosition := 0
  writePosition := 0
  small := by rwa [List.length_replicate]
  read_le := Nat.le_refl 0
  write_le := Nat.zero_le _

def size (b : ArrayBuffer) : Nat := b.buffer.length

def readCompositeLength (b : ArrayBuffer) : Nat := b.writePosition - b.readPosition

def readSegmentLength (b : ArrayBuffer) (offset : Nat) : Option Nat := do
  let readComposite := b.readCompositeLength
  assert (offset ≤ readComposite)
  let offset := min readComposite offset
  let readOffset := b.readPosition + offset
  return b.writePosition - readOffset

def readAdvance (b : ArrayBuffer) (bytes : Nat) : Option ArrayBuffer :=
  if h : bytes ≤ b.readCompositeLength then
    some { b with
      readPosition := b.readPosition + bytes
      read_le := by have := b.read_le; unfold readCompositeLength at h; omega }
  else none

def read (b : ArrayBuffer) (i : Nat) : Option Nat := do
  assert (i < b.readCompositeLength)
  return i + b.readPosition

def writeCompositeLength (b : ArrayBuffer) : Option Nat := do
  assert (b.writePosition ≤ b.size)
  return b.size - b.writePosition

def writeSegmentLength (b : ArrayBuffer) (offset : Nat) : Option Nat := do
  assert (b.writePosition ≤ b.size)
  let writeComposite ← b.writeCompositeLength
  assert (offset ≤ writeComposite)
  let offset := min writeComposite offset
  let writeOffset := b.writePosition + offset
  return b.size - writeOffset

def writeAdvance (b : ArrayBuffer) (bytes : Nat) : Option ArrayBuffer := do
  let writeComposite ← b.writeCompositeLength
  assert (bytes ≤ writeComposite)
  if h : b.writePosition + bytes ≤ b.buffer.length then
    return { b with
      writePosition := b.writePosition + bytes
      read_le := Nat.le_add_right_of_le b.read_le
      write_le := h }
  else none

def write (b : ArrayBuffer) (i : Nat) : Option Nat := do
  assert (i < (← b.writeCompositeLength))
  return i + b.writePosition

def writeRequireLength (b : ArrayBuffer) (bytes : Nat) : Option Error := do
  let writeRemain ← b.writeCompositeLength
  if bytes > writeRemain then return recoverableError "Buffer too small" else return noError

def load (b : ArrayBuffer) (a k : Nat) : Option (List UInt8) :=
  if a + k ≤ b.size then some (slice b.buffer a k) else none

def store (b : ArrayBuffer) (a : Nat) (bytes : List UInt8) : Option ArrayBuffer :=
  if h : a + bytes.length ≤ b.size then
    have hlen : (overwrite b.buffer a bytes).length = b.buffer.length := length_overwrite h
    some { b with
      buffer := overwrite b.buffer a bytes
      small := by rw [hlen]; exact b.small
      write_le := by rw [hlen]; exact b.write_le }
  else none

instance : Buffer ArrayBuffer where
  readPosition := readPosition
  readCompositeLength b := some b.readCompositeLength
  readSegmentLength := readSegmentLength
  readAdvance := readAdvance
  read := read
  writePosition := writePosition
  writeCompositeLength := writeCompositeLength
  writeSegmentLength := writeSegmentLength
  writeAdvance := writeAdvance
  write := write
  writeRequireLength := writeRequireLength
  load := load
  store := store

/-! ## The laws -/

theorem writeCompositeLength_some (b : ArrayBuffer) :
    b.writeCompositeLength = some (b.size - b.writePosition) := by
  simp [writeCompositeLength, assert_pos (show b.writePosition ≤ b.size from b.write_le)]

theorem length_slice_read (b : ArrayBuffer) :
    (slice b.buffer b.readPosition b.readCompositeLength).length = b.readCompositeLength := by
  have hr := b.read_le
  have hw := b.write_le
  exact length_slice (by unfold readCompositeLength; omega)

theorem length_slice_lt (b : ArrayBuffer) :
    (slice b.buffer b.readPosition b.readCompositeLength).length < 2 ^ 63 := by
  have := b.small
  have := b.write_le
  rw [length_slice_read, readCompositeLength]
  omega

theorem readSegment_spec (b : ArrayBuffer) {i : Nat} (hi : i < b.readCompositeLength) :
    ∃ s a, b.readSegmentLength i = some s ∧ 0 < s ∧ i + s ≤ b.readCompositeLength ∧ b.read i = some a ∧
      ∀ k ≤ s, b.load a k = some (slice (slice b.buffer b.readPosition b.readCompositeLength) i k) := by
  have hr := b.read_le
  have hw := b.write_le
  have hlen : b.readCompositeLength = b.writePosition - b.readPosition := rfl
  refine ⟨b.readCompositeLength - i, i + b.readPosition, ?_, by omega, by omega, ?_, fun k hk => ?_⟩
  · simp only [readSegmentLength, assert_pos (Nat.le_of_lt hi), Nat.min_eq_right (Nat.le_of_lt hi),
      Option.bind_eq_bind, Option.bind_some, Option.pure_def]
    congr 1
    omega
  · simp [read, assert_pos hi]
  · rw [load, if_pos (by unfold size; omega), slice_slice (by omega), Nat.add_comm]

theorem readAdvance_spec (b : ArrayBuffer) {k : Nat} (hk : k ≤ b.readCompositeLength) :
    ∃ b', b.readAdvance k = some b' ∧ slice b'.buffer b'.readPosition b'.readCompositeLength =
      (slice b.buffer b.readPosition b.readCompositeLength).drop k ∧
      b'.buffer = b.buffer ∧ b'.writePosition = b.writePosition := by
  have hadv : b.readAdvance k = some _ := dif_pos hk
  refine ⟨_, hadv, ?_, rfl, rfl⟩
  simp only [slice, readCompositeLength, List.drop_take, List.drop_drop]
  congr 1
  omega

instance : ReadLaws ArrayBuffer where
  ReadValid _ := True
  readable b := slice b.buffer b.readPosition b.readCompositeLength
  ReadFrame b b' := b'.buffer = b.buffer ∧ b'.writePosition = b.writePosition
  frame_refl _ := ⟨rfl, rfl⟩
  frame_trans h h' := ⟨h'.1.trans h.1, h'.2.trans h.2⟩
  readable_lt _ := length_slice_lt _
  readCompositeLength_eq _ := congrArg some (length_slice_read _).symm
  readSegment := by
    intro b i _ hi
    rw [length_slice_read] at hi ⊢
    exact b.readSegment_spec hi
  readAdvance_eq := by
    intro b k _ hk
    rw [length_slice_read] at hk
    obtain ⟨b', hb', hslice, hframe⟩ := b.readAdvance_spec hk
    exact ⟨b', hb', trivial, hslice, hframe⟩

theorem length_drop_lt (b : ArrayBuffer) : (b.buffer.drop b.writePosition).length + 0 < 2 ^ 63 := by
  have := b.small
  rw [List.length_drop]
  omega

theorem writeSegment_spec (b : ArrayBuffer) {i : Nat} (hi : i < b.size - b.writePosition) :
    ∃ s a, b.writeSegmentLength i = some s ∧ 0 < s ∧ i + s ≤ b.size - b.writePosition ∧ b.write i = some a ∧
      ∀ xs, xs.length ≤ s → ∃ b', b.store a xs = some b' ∧
        b'.buffer.drop b'.writePosition = overwrite (b.buffer.drop b.writePosition) i xs ∧
        slice b'.buffer b'.readPosition b'.readCompositeLength =
          slice b.buffer b.readPosition b.readCompositeLength ∧ b'.readPosition = b.readPosition := by
  have hr := b.read_le
  have hw := b.write_le
  have hlen : b.readCompositeLength = b.writePosition - b.readPosition := rfl
  refine ⟨b.size - b.writePosition - i, i + b.writePosition, ?_, by omega, by omega, ?_, fun xs hxs => ?_⟩
  · simp only [writeSegmentLength, writeCompositeLength_some, assert_pos (show b.writePosition ≤ b.size from hw),
      assert_pos (Nat.le_of_lt hi), Nat.min_eq_right (Nat.le_of_lt hi), Option.bind_eq_bind, Option.bind_some,
      Option.pure_def, Nat.sub_add_eq]
  · simp [write, writeCompositeLength_some, assert_pos hi]
  · have hst : b.store (i + b.writePosition) xs = some _ := dif_pos (by unfold size at *; omega)
    refine ⟨_, hst, ?_, ?_, rfl⟩
    · show (overwrite b.buffer _ xs).drop b.writePosition = _
      rw [Nat.add_comm i, drop_overwrite hw]
    · show slice (overwrite b.buffer _ xs) b.readPosition b.readCompositeLength = _
      -- the block starts behind the readable bytes
      rw [← slice_take (n := b.writePosition) (by omega), Nat.add_comm i, take_overwrite hw,
        slice_take (by omega)]

theorem writeAdvance_spec (b : ArrayBuffer) {k : Nat} (hk : k ≤ b.size - b.writePosition) :
    ∃ b', b.writeAdvance k = some b' ∧
      b'.buffer.drop b'.writePosition = (b.buffer.drop b.writePosition).drop k ∧
      slice b'.buffer b'.readPosition b'.readCompositeLength =
        slice b.buffer b.readPosition b.readCompositeLength ++ (b.buffer.drop b.writePosition).take k ∧
      b'.readPosition = b.readPosition := by
  have hr := b.read_le
  have hw := b.write_le
  have hadv : b.writeAdvance k = some { b with
      writePosition := b.writePosition + k
      read_le := Nat.le_add_right_of_le b.read_le
      write_le := by unfold size at hk; omega } := by
    simp only [writeAdvance, writeCompositeLength_some, Option.bind_eq_bind, Option.bind_some, assert_pos hk]
    exact dif_pos _
  refine ⟨_, hadv, ?_, ?_, rfl⟩
  · rw [List.drop_drop]
  · show slice b.buffer b.readPosition (b.writePosition + k - b.readPosition) = _
    simp only [slice, readCompositeLength]
    rw [show b.writePosition + k - b.readPosition = b.writePosition - b.readPosition + k by omega, List.take_add,
      List.drop_drop, show b.readPosition + (b.writePosition - b.readPosition) = b.writePosition by omega]

theorem writeRequireLength_some (b : ArrayBuffer) (k : Nat) : b.writeRequireLength k =
    some (if b.size - b.writePosition < k then recoverableError "Buffer too small" else noError) := by
  simp only [writeRequireLength, writeCompositeLength_some, Option.bind_eq_bind, Option.bind_some,
    Option.pure_def, ← apply_ite some]

instance : WriteLaws ArrayBuffer where
  WriteValid _ := True
  writable b := b.buffer.drop b.writePosition
  written b := slice b.buffer b.readPosition b.readCompositeLength
  viewed _ := 0
  WriteFrame b b' := b'.readPosition = b.readPosition
  frame_refl _ := rfl
  frame_trans h h' := h'.trans h
  room _ := length_drop_lt _
  writeCompositeLength_eq := by
    intro b _
    rw [List.length_drop]
    exact b.writeCompositeLength_some
  writeSegment := by
    intro b i _ hi
    rw [List.length_drop] at hi ⊢
    obtain ⟨s, a, hs, h0, hle, ha, hstore⟩ := b.writeSegment_spec hi
    refine ⟨s, a, hs, h0, hle, ha, fun xs hxs => ?_⟩
    obtain ⟨b', hb', hw, hr, hp⟩ := hstore xs hxs
    exact ⟨b', hb', trivial, hw, hr, hp⟩
  writeAdvance_eq := by
    intro b k _ h0 hk
    rw [List.length_drop] at hk
    obtain ⟨b', hb', hw, hr, hp⟩ := b.writeAdvance_spec hk
    exact ⟨b', hb', trivial, hw, hr, hp⟩
  writeRequireLength_eq := by
    intro b k _ _
    rw [List.length_drop]
    exact b.writeRequireLength_some k

theorem readable_eq_written (b : ArrayBuffer) : readable b = written b := rfl

end ArrayBuffer

end Forstio
