import Forstio.Error
import Forstio.Lib.Memory
import Mathlib.Algebra.Group.Nat.Defs

/-!
# Buffers

`Buffer` is the virtual interface of `buffer.h`. A reference `uint8_t &` that
`read(i)` or `write(i)` returns is an index into the backing vector, and
`load` and `store` access that vector: they are what dereferencing and
`memcpy` do, and end the run outside its bounds. `push` and `pop` are the
copying loops written over the interface; `BufferView` is a cursor over
another buffer.
-/

namespace Forstio

/-- `size_t` addition. -/
def sizeAdd (a b : Nat) : Nat := (a + b) % 2 ^ 64

class Buffer (β : Type) where
  readPosition : β → Nat
  readCompositeLength : β → Option Nat
  readSegmentLength : β → Nat → Option Nat
  readAdvance : β → Nat → Option β
  read : β → Nat → Option Nat
  writePosition : β → Nat
  writeCompositeLength : β → Option Nat
  writeSegmentLength : β → Nat → Option Nat
  writeAdvance : β → Nat → Option β
  write : β → Nat → Option Nat
  writeRequireLength : β → Nat → Option Error
  /-- The `k` bytes of backing memory from an address on. -/
  load : β → Nat → Nat → Option (List UInt8)
  /-- Backing memory with the given bytes copied to an address. -/
  store : β → Nat → List UInt8 → Option β

namespace Buffer

variable {β : Type} [Buffer β]

def pushByte (b : β) (value : UInt8) : Option (Error × β) := do
  let writeRemain ← writeCompositeLength b
  if writeRemain > 0 then
    let b ← store b (← write b 0) [value]
    let b ← writeAdvance b 1
    return (noError, b)
  else
    return (recoverableError "Buffer too small", b)

/-- The copy loop of `push`. A pass that copies nothing leaves the buffer as
it was, so the loop would spin forever; every other pass shortens `data`, so
`data.length` passes are enough. -/
def pushLoop : Nat → β → List UInt8 → Option β
  | _, b, [] => some b
  | 0, _, _ :: _ => none
  | fuel + 1, b, data => do
    let segment := min (← writeSegmentLength b 0) data.length
    let b ← store b (← write b 0) (data.take segment)
    let b ← writeAdvance b segment
    if segment = 0 then none else pushLoop fuel b (data.drop segment)

def push (b : β) (data : List UInt8) : Option (Error × β) := do
  let error ← writeRequireLength b data.length
  if error.failed then
    return (error, b)
  else
    let b ← pushLoop data.length b data
    return (noError, b)

/-- The byte is the caller's `value` after the call. -/
def popByte (b : β) (value : UInt8) : Option (Error × UInt8 × β) := do
  if (← readCompositeLength b) > 0 then
    match ← load b (← read b 0) 1 with
    | [value] =>
      let b ← readAdvance b 1
      return (noError, value, b)
    | _ => none
  else
    return (recoverableError "Buffer too small", value, b)

/-- The copy loop of `pop`, with the bytes it has copied; as for `pushLoop`. -/
def popLoop : Nat → β → Nat → Option (List UInt8 × β)
  | _, b, 0 => some ([], b)
  | 0, _, _ + 1 => none
  | fuel + 1, b, size => do
    let segment := min (← readSegmentLength b 0) size
    let bytes ← load b (← read b 0) segment
    let b ← readAdvance b segment
    if segment = 0 then none
    else
      let (rest, b) ← popLoop fuel b (size - segment)
      return (bytes ++ rest, b)

/-- The bytes `pop` copies to the caller's memory; none when it fails. -/
def pop (b : β) (size : Nat) : Option (Error × List UInt8 × β) := do
  if (← readCompositeLength b) ≥ size then
    let (bytes, b) ← popLoop size b size
    return (noError, bytes, b)
  else
    return (recoverableError "Buffer too small", [], b)

end Buffer

/-! ## Views -/

structure BufferView (β : Type) where
  buffer : β
  readOffset : Nat
  writeOffset : Nat

namespace BufferView

variable {β : Type} [Buffer β]

def new (buffer : β) : BufferView β := ⟨buffer, 0, 0⟩

def readPosition (v : BufferView β) : Nat := sizeAdd v.readOffset (Buffer.readPosition v.buffer)

def readCompositeLength (v : BufferView β) : Option Nat := do
  let length ← Buffer.readCompositeLength v.buffer
  assert (v.readOffset ≤ length)
  if v.readOffset > length then return 0 else return length - v.readOffset

def readSegmentLength (v : BufferView β) (offset : Nat) : Option Nat := do
  let off := sizeAdd offset v.readOffset
  let length ← Buffer.readCompositeLength v.buffer
  assert (off ≤ length)
  if off > length then return 0 else Buffer.readSegmentLength v.buffer off

def readAdvance (v : BufferView β) (bytes : Nat) : Option (BufferView β) := do
  let offset := sizeAdd bytes v.readOffset
  let length ← Buffer.readCompositeLength v.buffer
  assert (offset ≤ length)
  if offset > length then
    return { v with readOffset := sizeAdd v.readOffset length }
  else
    return { v with readOffset := sizeAdd v.readOffset bytes }

def read (v : BufferView β) (i : Nat) : Option Nat := do
  let pos := sizeAdd i v.readOffset
  assert (pos < (← Buffer.readCompositeLength v.buffer))
  Buffer.read v.buffer pos

def writePosition (v : BufferView β) : Nat := sizeAdd v.writeOffset (Buffer.writePosition v.buffer)

def writeCompositeLength (v : BufferView β) : Option Nat := do
  let length ← Buffer.writeCompositeLength v.buffer
  assert (v.writeOffset ≤ length)
  if v.writeOffset > length then return 0 else return length - v.writeOffset

def writeSegmentLength (v : BufferView β) (offset : Nat) : Option Nat := do
  let off := sizeAdd offset v.writeOffset
  let length ← Buffer.writeCompositeLength v.buffer
  assert (off ≤ length)
  if off > length then return 0 else Buffer.writeSegmentLength v.buffer off

def writeAdvance (v : BufferView β) (bytes : Nat) : Option (BufferView β) := do
  let offset := sizeAdd bytes v.writeOffset
  let length ← Buffer.writeCompositeLength v.buffer
  assert (offset ≤ length)
  if offset > length then
    return { v with writeOffset := sizeAdd v.writeOffset length }
  else
    return { v with writeOffset := sizeAdd v.writeOffset bytes }

def write (v : BufferView β) (i : Nat) : Option Nat := do
  let pos := sizeAdd i v.writeOffset
  assert (pos < (← Buffer.writeCompositeLength v.buffer))
  Buffer.write v.buffer pos

def writeRequireLength (v : BufferView β) (bytes : Nat) : Option Error :=
  Buffer.writeRequireLength v.buffer (sizeAdd bytes v.writeOffset)

instance : Buffer (BufferView β) where
  readPosition := readPosition
  readCompositeLength := readCompositeLength
  readSegmentLength := readSegmentLength
  readAdvance := readAdvance
  read := read
  writePosition := writePosition
  writeCompositeLength := writeCompositeLength
  writeSegmentLength := writeSegmentLength
  writeAdvance := writeAdvance
  write := write
  writeRequireLength := writeRequireLength
  load v := Buffer.load v.buffer
  store v a bytes := do return { v with buffer := ← Buffer.store v.buffer a bytes }

end BufferView

end Forstio
