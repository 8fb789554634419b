import Forstio.Schema
import Forstio.StreamEndian

/-!
# The ProtoKel codec

A packet is its length followed by the message. Encoder and decoder recurse
over the schema. Both get the message by reference, so each returns the message
it leaves behind, also when it fails; the decoder also keeps the lengths it has
passed to `resize`.
-/

namespace Forstio

open Buffer

namespace ProtoKel

/-! ## Sizes -/

/-- `for (; n > 0; --n, ++i) members += size(data.get(i))`. -/
def sizeElements {α : Type} (size : α → Option (Nat × α)) : Nat → Nat → Nat → Vec α → Option (Nat × Vec α)
  | 0, _, members, m => some (members, m)
  | n + 1, i, members, m => do
    let (k, x) ← size (← m.at? i)
    sizeElements size n (i + 1) (sizeAdd members k) (m.set i x)

mutual

def size : (S : Schema) → Message S → Option (Nat × Message S)
  | .primitive p, m => some (p.width, m)
  | .string, m => some (sizeAdd 8 (Vec.size m), m)
  | .tuple ts, m => sizeMembers ts m
  | .struct _ vs, m => sizeMembers vs m
  | .union _ vs, m => do
    let (k, m) ← sizeMember vs m
    return (sizeAdd 4 k, m)
  | .array t, m => sizeElements (size t) (Vec.size m) 0 8 m

def sizeMembers : (ts : Pack) → Record ts → Option (Nat × Record ts)
  | .nil, m => some (0, m)
  | .cons t ts, (m, ms) => do
    let (k, m) ← size t m
    let (ks, ms) ← sizeMembers ts ms
    return (sizeAdd k ks, (m, ms))

/-- `sizeMembers<i>` of a union, where `reader.index() == i` is the case that
the variant holds the first of the alternatives from `i` on. -/
def sizeMember : (ts : Alternatives) → Variant ts → Option (Nat × Variant ts)
  | .one t, m => size t m
  | .cons t _, .inl m => do
    let (k, m) ← size t m
    return (k, .inl m)
  | .cons _ ts, .inr v => do
    let (k, v) ← sizeMember ts v
    return (k, .inr v)

end

/-! ## Encoding -/

section
variable {β : Type} [Buffer β]

/-- `for (; n > 0; --n, ++i) buffer.write(i) = view[i]`. -/
def writeBytes (view : Vec UInt8) : Nat → Nat → β → Option β
  | 0, _, b => some b
  | n + 1, i, b => do
    let x ← view.at? i
    let b ← store b (← write b i) [x]
    writeBytes view n (i + 1) b

/-- `for (; n > 0; --n, ++i) encode(data.get(i), buffer)`. -/
def encodeElements {α : Type} (encode : α → β → Option (Error × α × β)) :
    Nat → Nat → Vec α → β → Option (Error × Vec α × β)
  | 0, _, m, b => some (noError, m, b)
  | n + 1, i, m, b => do
    let (error, x, b) ← encode (← m.at? i) b
    let m := m.set i x
    if error.failed then return (error, m, b) else encodeElements encode n (i + 1) m b

mutual

def encodeImpl : (S : Schema) → Message S → β → Option (Error × Message S × β)
  | .primitive p, m, b => do
    let (error, b) ← StreamValue.encode p.width m b
    return (error, m, b)
  | .string, m, b => do
    let size := Vec.size m
    let error ← writeRequireLength b (sizeAdd 8 size)
    if error.failed then
      return (error, m, b)
    else
      let (error, b) ← StreamValue.encode 8 (BitVec.ofNat 64 size) b
      if error.failed then
        return (error, m, b)
      else
        let b ← writeBytes m size 0 b
        let b ← writeAdvance b size
        return (noError, m, b)
  | .tuple ts, m, b => encodeMembers ts m b
  | .struct _ vs, m, b => encodeMembers vs m b
  | .union _ vs, m, b => encodeMember vs 0 m b
  | .array t, m, b => do
    let arrayLength := Vec.size m
    let (error, b) ← StreamValue.encode 8 (BitVec.ofNat 64 arrayLength) b
    if error.failed then return (error, m, b) else encodeElements (encodeImpl t) arrayLength 0 m b

def encodeMembers : (ts : Pack) → Record ts → β → Option (Error × Record ts × β)
  | .nil, m, b => some (noError, m, b)
  | .cons t ts, (m, ms), b => do
    let (error, m, b) ← encodeImpl t m b
    if error.failed then
      return (error, (m, ms), b)
    else
      let (error, ms, b) ← encodeMembers ts ms b
      return (error, (m, ms), b)

/-- `encodeMembers<i>` of a union; the cases are those of `sizeMember`. -/
def encodeMember : (ts : Alternatives) → Nat → Variant ts → β → Option (Error × Variant ts × β)
  | .one t, i, m, b => do
    let (error, b) ← StreamValue.encode 4 (BitVec.ofNat 32 i) b
    if error.failed then return (error, m, b) else encodeImpl t m b
  | .cons t _, i, .inl m, b => do
    let (error, b) ← StreamValue.encode 4 (BitVec.ofNat 32 i) b
    if error.failed then
      return (error, .inl m, b)
    else
      let (error, m, b) ← encodeImpl t m b
      return (error, .inl m, b)
  | .cons _ ts, i, .inr v, b => do
    let (error, v, b) ← encodeMember ts (i + 1) v b
    return (error, .inr v, b)

end

end

/-! ## Decoding -/

/-- The buffer a decoder works on and every length it has resized to. -/
structure Decoding (β : Type) where
  buffer : β
  resizes : List Nat

def Decoding.resize {β : Type} (d : Decoding β) (k : Nat) : Decoding β := { d with resizes := d.resizes ++ [k] }

section
variable {β : Type} [Buffer β]

/-- `StreamValue<T>::decode` into a variable that is zero. -/
def decodeValue (w : Nat) (d : Decoding β) : Option (Error × BitVec (8 * w) × Decoding β) := do
  let (error, val, b) ← StreamValue.decode w 0 d.buffer
  return (error, val, { d with buffer := b })

/-- `for (; n > 0; --n, ++i) value[i] = buffer.read(i)`. -/
def readBytes (b : β) : Nat → Nat → Vec UInt8 → Option (Vec UInt8)
  | 0, _, value => some value
  | n + 1, i, value => do
    match ← load b (← read b i) 1 with
    | [x] => readBytes b n (i + 1) (value.set i x)
    | _ => none

/-- `for (; n > 0; --n, ++i) decode(data.init(i), buffer)`. -/
def decodeElements {α : Type} (decode : α → Decoding β → Option (Error × α × Decoding β)) :
    Nat → Nat → Vec α → Decoding β → Option (Error × Vec α × Decoding β)
  | 0, _, m, d => some (noError, m, d)
  | n + 1, i, m, d => do
    let (error, x, d) ← decode (← m.at? i) d
    let m := m.set i x
    if error.failed then return (error, m, d) else decodeElements decode n (i + 1) m d

mutual

def decodeImpl : (S : Schema) → Message S → Decoding β → Option (Error × Message S × Decoding β)
  | .primitive p, _, d => decodeValue p.width d
  | .string, m, d => do
    if 8 > (← readCompositeLength d.buffer) then
      return (recoverableError "Buffer too small", m, d)
    else
      let (error, size, d) ← decodeValue 8 d
      if error.failed then
        return (error, m, d)
      else if size.toNat > (← readCompositeLength d.buffer) then
        return (recoverableError "Buffer too small", m, d)
      else
        let value := Vec.empty.resize 0 size
        let d := d.resize size.toNat
        if size.toNat > (← readCompositeLength d.buffer) then
          return (recoverableError "Buffer too small", m, d)
        else
          let value ← readBytes d.buffer value.size 0 value
          let b ← readAdvance d.buffer value.size
          return (noError, value, { d with buffer := b })
  | .tuple ts, m, d => decodeMembers ts m d
  | .struct _ vs, m, d => decodeMembers vs m d
  | .union _ vs, m, d => do
    let (error, id, d) ← decodeValue 4 d
    if error.failed then
      return (error, m, d)
    else if id.toNat ≥ vs.count then
      return (criticalError "Union doesn't have this many id's", m, d)
    else
      let (error, v, d) ← decodeMember vs id.toNat 0 (some m) d
      return (error, v.getD m, d)
  | .array t, m, d => do
    let (error, arrayLength, d) ← decodeValue 8 d
    if error.failed then
      return (error, m, d)
    else
      let m := Vec.resize (Message.init t) m arrayLength
      decodeElements (decodeImpl t) arrayLength.toNat 0 m (d.resize arrayLength.toNat)

def decodeMembers : (ts : Pack) → Record ts → Decoding β → Option (Error × Record ts × Decoding β)
  | .nil, m, d => some (noError, m, d)
  | .cons t ts, (m, ms), d => do
    let (error, m, d) ← decodeImpl t m d
    if error.failed then
      return (error, (m, ms), d)
    else
      let (error, ms, d) ← decodeMembers ts ms d
      return (error, (m, ms), d)

/-- `decodeMembers<i>` of a union; the variant is `none` while it holds an
alternative before the `i`-th. -/
def decodeMember : (ts : Alternatives) → (id i : Nat) → Option (Variant ts) → Decoding β →
    Option (Error × Option (Variant ts) × Decoding β)
  | .one t, id, i, held, d => do
    if id = i then
      let (error, m, d) ← decodeImpl t (held.getD (Message.init t)) d
      return (error, some m, d)
    else
      return (noError, held, d)
  | .cons t ts, id, i, held, d => do
    if id = i then
      let (error, m, d) ← decodeImpl t (Variant.get held) d
      if error.failed then
        return (error, some (.inl m), d)
      else
        let (error, v, d) ← decodeMember ts id (i + 1) none d
        return (error, some (v.elim (.inl m) .inr), d)
    else
      let (error, v, d) ← decodeMember ts id (i + 1) (Variant.next held) d
      return (error, (v.map .inr).or held, d)

end

end

end ProtoKel

/-! ## Packets -/

namespace ProtoKelCodec

variable {β : Type} [Buffer β]

/-- `Limits::packet_size` unless the caller gives one. -/
def defaultPacketSize : Nat := 4096

def encode (S : Schema) (m : Message S) (buffer : β) : Option (Error × Message S × β) := do
  let view := BufferView.new buffer
  let (packetLength, m) ← ProtoKel.size S m
  let error ← writeRequireLength view (sizeAdd packetLength 8)
  if error.failed then
    return (error, m, view.buffer)
  else
    let (error, view) ← StreamValue.encode 8 (BitVec.ofNat 64 packetLength) view
    if error.failed then
      return (error, m, view.buffer)
    else
      let (error, m, view) ← ProtoKel.encodeImpl S m view
      if error.failed then
        return (error, m, view.buffer)
      else
        let buffer ← writeAdvance view.buffer view.writeOffset
        return (noError, m, buffer)

/-- The result, with the lengths that were passed to `resize`. -/
def decode (S : Schema) (m : Message S) (buffer : β) (packetSize : Nat) :
    Option (Error × Message S × ProtoKel.Decoding β) := do
  let (error, packetLength, d) ← ProtoKel.decodeValue 8 ⟨BufferView.new buffer, []⟩
  if error.failed then
    return (error, m, ⟨d.buffer.buffer, d.resizes⟩)
  else if packetLength.toNat > packetSize then
    return (criticalError ("Packet size too big: " ++ toString packetLength.toNat), m, ⟨d.buffer.buffer, d.resizes⟩)
  else
    let (error, m, d) ← ProtoKel.decodeImpl S m d
    if error.failed then
      return (error, m, ⟨d.buffer.buffer, d.resizes⟩)
    else
      let (size, m) ← ProtoKel.size S m
      if size ≠ packetLength.toNat then
        return (criticalError "Bad packet format", m, ⟨d.buffer.buffer, d.resizes⟩)
      else
        let buffer ← readAdvance d.buffer.buffer d.buffer.readOffset
        return (noError, m, ⟨buffer, d.resizes⟩)

end ProtoKelCodec

end Forstio
