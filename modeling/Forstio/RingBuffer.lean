import Forstio.BufferLaws

/-!
# The ring buffer

Two positions and the flag `writeReachedRead`: equal positions mean empty or,
with the flag, full. A `std::vector` of bytes is shorter than `2 ^ 63`, so no
sum of a position and a checked length leaves `size_t`.

`cells` is the memory seen from the read position. The readable bytes are its
front and the writable ones its back, at every wrap position; the laws of
`BufferLaws` follow from what each operation does to `cells`.
-/

namespace Forstio

open Memory

structure RingBuffer where
  buffer : List UInt8
  readPosition : Nat
  writePosition : Nat
  writeReachedRead : Bool
  small : buffer.length < 2 ^ 63
  read_lt : readPosition < buffer.length ∨ readPosition = 0
  write_lt : writePosition < buffer.length ∨ writePosition = 0
  full : writeReachedRead = true → writePosition = readPosition ∧ 0 < buffer.length

namespace RingBuffer

theorem length_replicate_lt {n : Nat} (h : n < 2 ^ 63) : (List.replicate n (0 : UInt8)).length < 2 ^ 63 := by
  rwa [List.length_replicate]

/-- `RingBuffer(size_t size)`; a larger vector cannot be allocated. -/
def new (size : Nat) (h : size < 2 ^ 63) : RingBuffer where
  buffer := List.replicate size 0
  readPosition := 0
  writePosition := 0
  writeReachedRead := false
  small := length_replicate_lt h
  read_lt := Or.inr rfl
  write_lt := Or.inr rfl
  full := nofun

def size (b : RingBuffer) : Nat := b.buffer.length

def wrap (b : RingBuffer) (p : Nat) : Nat := if p ≥ b.size then p - b.size else p

theorem wrap_lt {b : RingBuffer} {p k : Nat} (hp : p < b.size ∨ p = 0) (hk : k ≤ b.size) :
    b.wrap (p + k) < b.size ∨ b.wrap (p + k) = 0 := by
  unfold wrap
  split <;> omega

theorem wrap_of_lt {b : RingBuffer} {p : Nat} (hp : p < b.size) : b.wrap p = p :=
  if_neg (Nat.not_le.mpr hp)

def readCompositeLength (b : RingBuffer) : Nat :=
  if b.writePosition < b.readPosition then b.size - (b.readPosition - b.writePosition)
  else if b.writeReachedRead then b.size else b.writePosition - b.readPosition

def readSegmentLength (b : RingBuffer) (offset : Nat) : Option Nat := do
  let readComposite := b.readCompositeLength
  assert (offset ≤ readComposite)
  let offset := min offset readComposite
  let remaining := readComposite - offset
  let readOffset := b.wrap (b.readPosition + offset)
  if b.writePosition < readOffset then return b.size - readOffset
  else if b.writePosition = readOffset then
    if remaining > 0 then return b.size - readOffset else return 0
  else return b.writePosition - readOffset

theorem readCompositeLength_le (b : RingBuffer) : b.readCompositeLength ≤ b.size := by
  have hw := b.write_lt
  simp only [readCompositeLength, size] at *
  split <;> (try split) <;> omega

def readAdvance (b : RingBuffer) (bytes : Nat) : Option RingBuffer := do
  let readComposite := b.readCompositeLength
  assert (bytes ≤ readComposite)
  let bytes' := min bytes readComposite
  have hle : bytes' ≤ b.size := Nat.le_trans (Nat.min_le_right _ _) b.readCompositeLength_le
  return { b with
    readPosition := b.wrap (b.readPosition + bytes')
    writeReachedRead := if bytes' > 0 then false else b.writeReachedRead
    read_lt := wrap_lt b.read_lt hle
    full := by
      intro h
      split at h
      · cases h
      · obtain ⟨heq, hpos⟩ := b.full h
        have hz : bytes' = 0 := by omega
        have hr := b.read_lt
        refine ⟨?_, hpos⟩
        rw [hz, Nat.add_zero, wrap_of_lt (by unfold size; omega)]
        exact heq }

def read (b : RingBuffer) (i : Nat) : Option Nat := do
  assert (i < b.readCompositeLength)
  return b.wrap (b.readPosition + i)

def writeCompositeLength (b : RingBuffer) : Nat :=
  if b.readPosition > b.writePosition then b.readPosition - b.writePosition
  else if b.writeReachedRead then 0 else b.size - (b.writePosition - b.readPosition)

def writeSegmentLength (b : RingBuffer) (offset : Nat) : Option Nat := do
  let writeComposite := b.writeCompositeLength
  assert (offset ≤ writeComposite)
  let offset := min offset writeComposite
  let writeOffset := b.wrap (b.writePosition + offset)
  if b.readPosition > writeOffset then return b.readPosition - writeOffset
  else if b.writeReachedRead then return 0
  else return b.size - writeOffset

theorem writeCompositeLength_le (b : RingBuffer) : b.writeCompositeLength ≤ b.size := by
  have hr := b.read_lt
  simp only [writeCompositeLength, size] at *
  split <;> (try split) <;> omega

/-- The flag is recomputed from the new positions: an advance of length zero
clears it. -/
def writeAdvance (b : RingBuffer) (bytes : Nat) : Option RingBuffer :=
  if h : bytes ≤ b.writeCompositeLength then
    some { b with
      writePosition := b.wrap (b.writePosition + bytes)
      writeReachedRead := b.wrap (b.writePosition + bytes) = b.readPosition ∧ bytes > 0
      write_lt := wrap_lt b.write_lt (Nat.le_trans h b.writeCompositeLength_le)
      full := by
        intro hf
        have := of_decide_eq_true hf
        exact ⟨this.1, Nat.lt_of_lt_of_le this.2 (Nat.le_trans h b.writeCompositeLength_le)⟩ }
  else none

def write (b : RingBuffer) (i : Nat) : Option Nat := do
  assert (i < b.writeCompositeLength)
  return b.wrap (b.writePosition + i)

def writeRequireLength (b : RingBuffer) (bytes : Nat) : Error :=
  if bytes > b.writeCompositeLength then recoverableError "Buffer too small" else noError

def load (b : RingBuffer) (a k : Nat) : Option (List UInt8) :=
  if a + k ≤ b.size then some (slice b.buffer a k) else none

def store (b : RingBuffer) (a : Nat) (bytes : List UInt8) : Option RingBuffer :=
  if h : a + bytes.length ≤ b.size then
    have hlen : (overwrite b.buffer a bytes).length = b.buffer.length := length_overwrite h
    some { b with
      buffer := overwrite b.buffer a bytes
      small := by rw [hlen]; exact b.small
      read_lt := by rw [hlen]; exact b.read_lt
      write_lt := by rw [hlen]; exact b.write_lt
      full := by rw [hlen]; exact b.full }
  else none

instance : Buffer RingBuffer where
  readPosition := readPosition
  readCompositeLength b := some b.readCompositeLength
  readSegmentLength := readSegmentLength
  readAdvance := readAdvance
  read := read
  writePosition := writePosition
  writeCompositeLength b := some b.writeCompositeLength
  writeSegmentLength := writeSegmentLength
  writeAdvance := writeAdvance
  write := write
  writeRequireLength b bytes := some (b.writeRequireLength bytes)
  load := load
  store := store

/-! ## Geometry -/

section
variable (b : RingBuffer)

theorem wrap_cases (p : Nat) : (p < b.size ∧ b.wrap p = p) ∨ (b.size ≤ p ∧ b.wrap p = p - b.size) := by
  unfold wrap
  split <;> omega

/-- Writing is behind reading, has caught up with it, or is ahead. -/
theorem shape : (b.writePosition < b.readPosition ∧ b.writeReachedRead = false ∧
      b.readCompositeLength = b.size - (b.readPosition - b.writePosition) ∧
      b.writeCompositeLength = b.readPosition - b.writePosition) ∨
    (b.writePosition = b.readPosition ∧ b.writeReachedRead = true ∧ 0 < b.size ∧
      b.readCompositeLength = b.size ∧ b.writeCompositeLength = 0) ∨
    (b.readPosition ≤ b.writePosition ∧ b.writeReachedRead = false ∧
      b.readCompositeLength = b.writePosition - b.readPosition ∧
      b.writeCompositeLength = b.size - (b.writePosition - b.readPosition)) := by
  cases hf : b.writeReachedRead with
  | true =>
    obtain ⟨heq, hpos⟩ := b.full hf
    refine Or.inr (Or.inl ⟨heq, rfl, hpos, ?_, ?_⟩)
    · simp [readCompositeLength, heq, hf]
    · simp [writeCompositeLength, heq, hf]
  | false =>
    rcases Nat.lt_or_ge b.writePosition b.readPosition with h | h
    · exact Or.inl ⟨h, rfl, by simp [readCompositeLength, h], by simp [writeCompositeLength, h]⟩
    · exact Or.inr (Or.inr ⟨h, rfl, by simp [readCompositeLength, hf, Nat.not_lt.mpr h],
        by simp [writeCompositeLength, hf, Nat.not_lt.mpr h]⟩)

theorem read_lt_size : b.readPosition < b.size ∨ b.readPosition = 0 := b.read_lt

theorem write_lt_size : b.writePosition < b.size ∨ b.writePosition = 0 := b.write_lt

theorem writeCompositeLength_eq_sub : b.writeCompositeLength = b.size - b.readCompositeLength := by
  have hr := b.read_lt_size
  have hw := b.write_lt_size
  rcases b.shape with ⟨hs, -, hc, hf⟩ | ⟨hs, -, -, hc, hf⟩ | ⟨hs, -, hc, hf⟩
  · rw [hc, hf]
    omega
  · rw [hc, hf, Nat.sub_self]
  · rw [hc, hf]

theorem writePosition_eq (hn : 0 < b.size) :
    b.writePosition = b.wrap (b.readPosition + b.readCompositeLength) := by
  have hr := b.read_lt_size
  have hw := b.write_lt_size
  have hp := b.wrap_cases (b.readPosition + b.readCompositeLength)
  rcases b.shape with ⟨hs, -, hc, -⟩ | ⟨hs, -, -, hc, -⟩ | ⟨hs, -, hc, -⟩
  · omega
  · omega
  · omega

/-- A read segment ends at the last readable byte or at the physical end. -/
theorem readSegmentLength_eq {i : Nat} (hi : i ≤ b.readCompositeLength) :
    b.readSegmentLength i =
      some (min (b.readCompositeLength - i) (b.size - b.wrap (b.readPosition + i))) := by
  have hr := b.read_lt_size
  have hw := b.write_lt_size
  have hp := b.wrap_cases (b.readPosition + i)
  simp only [readSegmentLength, assert_pos hi, Nat.min_eq_left hi, Option.bind_eq_bind, Option.bind_some,
    Option.pure_def]
  rcases b.shape with ⟨hs, -, hc, -⟩ | ⟨hs, -, -, hc, -⟩ | ⟨hs, -, hc, -⟩
  · split_ifs <;> (congr 1; omega)
  · split_ifs <;> (congr 1; omega)
  · split_ifs <;> (congr 1; omega)

theorem writeSegmentLength_eq {i : Nat} (hi : i < b.writeCompositeLength) :
    b.writeSegmentLength i =
      some (min (b.writeCompositeLength - i) (b.size - b.wrap (b.writePosition + i))) := by
  have hr := b.read_lt_size
  have hw := b.write_lt_size
  have hp := b.wrap_cases (b.writePosition + i)
  simp only [writeSegmentLength, assert_pos (Nat.le_of_lt hi), Nat.min_eq_left (Nat.le_of_lt hi),
    Option.bind_eq_bind, Option.bind_some, Option.pure_def]
  rcases b.shape with ⟨hs, hf, -, hc⟩ | ⟨hs, -, -, -, hc⟩ | ⟨hs, hf, -, hc⟩
  · rw [if_pos (by omega)]
    congr 1
    omega
  · omega
  · rw [hf, if_neg Bool.false_ne_true]
    split_ifs <;> (congr 1; omega)

theorem writeSegmentLength_full (hz : b.writeCompositeLength = 0) : b.writeSegmentLength 0 = some 0 := by
  have hr := b.read_lt_size
  have hw := b.write_lt_size
  have hs := b.shape
  have hp := b.wrap_cases (b.writePosition + 0)
  simp only [writeSegmentLength, hz, assert_pos (Nat.le_refl 0), Nat.min_self, Option.bind_eq_bind,
    Option.bind_some, Option.pure_def]
  split
  · congr 1; omega
  split
  · rfl
  · rename_i hf
    simp only [hf, Bool.false_eq_true, false_and, and_false, false_or] at hs
    congr 1; omega

end

/-! ## The memory from the read position on -/

section
variable (b : RingBuffer)

def cells : List UInt8 := b.buffer.rotate b.readPosition

theorem length_cells : b.cells.length = b.size := List.length_rotate ..

theorem physical (i : Nat) :
    b.wrap (b.readPosition + i) = if i + b.readPosition < b.buffer.length then i + b.readPosition
      else i + b.readPosition - b.buffer.length := by
  have hp := b.wrap_cases (b.readPosition + i)
  unfold size at hp
  split <;> omega

/-- The `i`-th writable byte is the cell behind the readable ones and `i` more. -/
theorem wrap_write {i : Nat} (hi : i < b.writeCompositeLength) :
    b.wrap (b.writePosition + i) = b.wrap (b.readPosition + (b.readCompositeLength + i)) := by
  have hr := b.read_lt_size
  have hw := b.write_lt_size
  have hp := b.wrap_cases (b.writePosition + i)
  have hq := b.wrap_cases (b.readPosition + (b.readCompositeLength + i))
  rcases b.shape with ⟨hs, -, hc, hf⟩ | ⟨hs, -, -, hc, hf⟩ | ⟨hs, -, hc, hf⟩
  · rw [hf] at hi
    rw [hc] at hq ⊢
    omega
  · rw [hf] at hi
    exact absurd hi (Nat.not_lt_zero i)
  · rw [hf] at hi
    rw [hc] at hq ⊢
    omega

theorem rotate_wrap (p : Nat) : b.buffer.rotate (b.wrap p) = b.buffer.rotate p := by
  rcases b.wrap_cases p with ⟨-, h⟩ | ⟨hle, h⟩
  · rw [h]
  · rw [h, ← List.rotate_mod _ (p - b.size), ← List.rotate_mod _ p]
    congr 1
    exact (Nat.mod_eq_sub_mod hle).symm

end

/-! ## What the operations do -/

section
variable {b : RingBuffer}

theorem readAdvance_fields {k : Nat} (hk : k ≤ b.readCompositeLength) :
    ∃ b', b.readAdvance k = some b' ∧ b'.buffer = b.buffer ∧
      b'.readPosition = b.wrap (b.readPosition + k) ∧ b'.writePosition = b.writePosition ∧
      b'.writeReachedRead = (if k > 0 then false else b.writeReachedRead) := by
  simp [readAdvance, assert_pos hk, Nat.min_eq_left hk]

theorem readAdvance_length {b' : RingBuffer} {k : Nat} (hk : k ≤ b.readCompositeLength)
    (h : b.readAdvance k = some b') : b'.readCompositeLength = b.readCompositeLength - k := by
  obtain ⟨b₁, h₁, hbuf, hr₁, hw₁, hf₁⟩ := readAdvance_fields hk
  obtain rfl : b₁ = b' := Option.some.inj (h₁.symm.trans h)
  have hsz : b₁.size = b.size := congrArg List.length hbuf
  have hr := b.read_lt_size
  have hw := b.write_lt_size
  have hp := b.wrap_cases (b.readPosition + k)
  rcases Nat.eq_zero_or_pos k with rfl | h0
  · have hwrap : b.wrap (b.readPosition + 0) = b.readPosition := by omega
    unfold readCompositeLength
    rw [hr₁, hw₁, hf₁, hsz, hwrap, if_neg (Nat.lt_irrefl 0), Nat.sub_zero]
  · rw [readCompositeLength, hr₁, hw₁, hf₁, hsz, if_pos h0, if_neg Bool.false_ne_true]
    rcases b.shape with ⟨hs, -, hc, -⟩ | ⟨hs, -, -, hc, -⟩ | ⟨hs, -, hc, -⟩
    · split_ifs <;> omega
    · split_ifs <;> omega
    · split_ifs <;> omega

/-- Reading forward turns the cells: what was read becomes the last free memory. -/
theorem readAdvance_cells {b' : RingBuffer} {k : Nat} (hk : k ≤ b.readCompositeLength)
    (h : b.readAdvance k = some b') : b'.cells = b.cells.drop k ++ b.cells.take k := by
  obtain ⟨b₁, h₁, hbuf, hr₁, -, -⟩ := readAdvance_fields hk
  obtain rfl : b₁ = b' := Option.some.inj (h₁.symm.trans h)
  have hle := b.readCompositeLength_le
  unfold cells
  rw [hbuf, hr₁, rotate_wrap, ← List.rotate_rotate, List.rotate_eq_drop_append_take]
  rw [List.length_rotate]
  exact Nat.le_trans hk hle

theorem writeAdvance_fields {k : Nat} (hk : k ≤ b.writeCompositeLength) :
    ∃ b', b.writeAdvance k = some b' ∧ b'.buffer = b.buffer ∧ b'.readPosition = b.readPosition ∧
      b'.writePosition = b.wrap (b.writePosition + k) ∧
      b'.writeReachedRead = decide (b.wrap (b.writePosition + k) = b.readPosition ∧ k > 0) := by
  simp [writeAdvance, hk]

theorem writeAdvance_length {b' : RingBuffer} {k : Nat} (h0 : 0 < k) (hk : k ≤ b.writeCompositeLength)
    (h : b.writeAdvance k = some b') : b'.readCompositeLength = b.readCompositeLength + k := by
  obtain ⟨b₁, h₁, hbuf, hr₁, hw₁, hf₁⟩ := writeAdvance_fields hk
  obtain rfl : b₁ = b' := Option.some.inj (h₁.symm.trans h)
  have hsz : b₁.size = b.size := congrArg List.length hbuf
  have hr := b.read_lt_size
  have hw := b.write_lt_size
  have hp := b.wrap_cases (b.writePosition + k)
  rw [readCompositeLength, hr₁, hw₁, hf₁, hsz]
  simp only [decide_eq_true_eq]
  rcases b.shape with ⟨hs, -, hc, hf⟩ | ⟨hs, -, -, -, hf⟩ | ⟨hs, -, hc, hf⟩
  · split_ifs <;> omega
  · omega
  · split_ifs <;> omega

theorem store_fields {a : Nat} (xs : List UInt8) (h : a + xs.length ≤ b.size) :
    ∃ b', b.store a xs = some b' ∧ b'.buffer = overwrite b.buffer a xs ∧ b'.readPosition = b.readPosition ∧
      b'.writePosition = b.writePosition ∧ b'.writeReachedRead = b.writeReachedRead := by
  simp [store, h]

theorem store_length {b' : RingBuffer} {a : Nat} {xs : List UInt8} (ha : a + xs.length ≤ b.size)
    (h : b.store a xs = some b') : b'.size = b.size ∧ b'.readCompositeLength = b.readCompositeLength := by
  obtain ⟨b₁, h₁, hbuf, hr₁, hw₁, hf₁⟩ := store_fields xs ha
  obtain rfl : b₁ = b' := Option.some.inj (h₁.symm.trans h)
  have hsz : b₁.size = b.size := by
    unfold size
    rw [hbuf, length_overwrite ha]
  refine ⟨hsz, ?_⟩
  unfold readCompositeLength
  rw [hr₁, hw₁, hf₁, hsz]

end

/-! ## The laws -/

instance : ReadLaws RingBuffer where
  ReadValid _ := True
  readable b := b.cells.take b.readCompositeLength
  ReadFrame b b' := b'.buffer = b.buffer ∧ b'.writePosition = b.writePosition
  frame_refl _ := ⟨rfl, rfl⟩
  frame_trans h h' := ⟨h'.1.trans h.1, h'.2.trans h.2⟩
  readable_lt := by
    intro b _
    have := b.readCompositeLength_le
    have := b.small
    rw [List.length_take, length_cells]
    unfold size at *
    omega
  readCompositeLength_eq := by
    intro b _
    show some b.readCompositeLength = _
    rw [List.length_take, length_cells, Nat.min_eq_left b.readCompositeLength_le]
  readSegment := by
    intro b i _ hi
    have hle := b.readCompositeLength_le
    rw [List.length_take, length_cells, Nat.min_eq_left hle] at hi
    have hp := b.wrap_cases (b.readPosition + i)
    have hr := b.read_lt_size
    refine ⟨_, b.wrap (b.readPosition + i), b.readSegmentLength_eq (Nat.le_of_lt hi), by omega, ?_, ?_, ?_⟩
    · rw [List.length_take, length_cells]
      omega
    · show b.read i = _
      simp [read, assert_pos hi]
    · intro k hk
      show b.load _ k = _
      rw [load, if_pos (by omega), slice_take (by omega)]
      refine congrArg some (slice_rotate ?_ (b.physical i) ?_ ?_).symm <;> (unfold size at *; omega)
  readAdvance_eq := by
    intro b k _ hk
    have hle := b.readCompositeLength_le
    rw [List.length_take, length_cells, Nat.min_eq_left hle] at hk
    obtain ⟨b', h, hbuf, -, hw, -⟩ := readAdvance_fields hk
    refine ⟨b', h, trivial, ?_, hbuf, hw⟩
    rw [readAdvance_length hk h, readAdvance_cells hk h, List.drop_take, List.take_append_of_le_length]
    rw [List.length_drop, length_cells]
    omega

instance : WriteLaws RingBuffer where
  WriteValid _ := True
  writable b := b.cells.drop b.readCompositeLength
  written b := b.cells.take b.readCompositeLength
  viewed _ := 0
  WriteFrame b b' := b'.readPosition = b.readPosition
  frame_refl _ := rfl
  frame_trans h h' := h'.trans h
  room := by
    intro b _
    have := b.small
    rw [List.length_drop, length_cells]
    unfold size
    omega
  writeCompositeLength_eq := by
    intro b _
    show some b.writeCompositeLength = _
    rw [List.length_drop, length_cells, writeCompositeLength_eq_sub]
  writeSegment := by
    intro b i _ hi
    have hle := b.readCompositeLength_le
    rw [List.length_drop, length_cells, ← writeCompositeLength_eq_sub] at hi
    have hsub := b.writeCompositeLength_eq_sub
    have hp := b.wrap_cases (b.readPosition + (b.readCompositeLength + i))
    have hr := b.read_lt_size
    have hw := b.wrap_write hi
    refine ⟨_, b.wrap (b.writePosition + i), b.writeSegmentLength_eq hi, by omega, ?_, ?_, ?_⟩
    · rw [List.length_drop, length_cells]
      omega
    · show b.write i = _
      simp [write, assert_pos hi]
    · intro xs hxs
      obtain ⟨b', h, hbuf, hr', -⟩ := store_fields (b := b) (a := b.wrap (b.writePosition + i)) xs (by omega)
      obtain ⟨-, hlen⟩ := store_length (by omega) h
      -- the block lands behind the readable cells
      have hcells : b'.cells = overwrite b.cells (b.readCompositeLength + i) xs := by
        unfold cells
        rw [hbuf, hr']
        refine rotate_overwrite ?_ (hw.trans (b.physical _)) ?_ ?_ <;> (unfold size at *; omega)
      refine ⟨b', h, trivial, ?_, ?_, hr'⟩
      · rw [hlen, hcells, drop_overwrite (by rw [length_cells]; exact hle)]
      · rw [hlen, hcells, take_overwrite (by rw [length_cells]; exact hle)]
  writeAdvance_eq := by
    intro b k _ h0 hk
    rw [List.length_drop, length_cells, ← writeCompositeLength_eq_sub] at hk
    obtain ⟨b', h, hbuf, hr, -⟩ := writeAdvance_fields hk
    have hcells : b'.cells = b.cells := by
      unfold cells
      rw [hbuf, hr]
    refine ⟨b', h, trivial, ?_, ?_, hr⟩
    · rw [hcells, writeAdvance_length h0 hk h, List.drop_drop]
    · rw [hcells, writeAdvance_length h0 hk h, List.take_add]
  writeRequireLength_eq := by
    intro b k _ _
    show some (b.writeRequireLength k) = _
    rw [List.length_drop, length_cells, ← writeCompositeLength_eq_sub]
    rfl

theorem readable_eq_written (b : RingBuffer) : readable b = written b := rfl

theorem length_readable (b : RingBuffer) : (readable b).length = b.readCompositeLength := by
  show (b.cells.take _).length = _
  rw [List.length_take, length_cells, Nat.min_eq_left b.readCompositeLength_le]

theorem length_writable (b : RingBuffer) : (writable b).length = b.size - b.readCompositeLength := by
  show (b.cells.drop _).length = _
  rw [List.length_drop, length_cells]

end RingBuffer

end Forstio
