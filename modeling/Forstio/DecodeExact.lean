import Forstio.AnyBuffer
import Forstio.Packet

/-!
# Decoding accepts exactly what encoding produces

The bytes in front of the buffer are a packet of `m` when they are the length
of its body and then the body, both as the encoder has them. The decoder
returns `m` on such bytes and on no others.
-/

namespace Forstio

open Buffer LittleEndian Format

namespace ProtoKelCodec

section
variable {β : Type} [Buffer β] [ReadLaws β] {S : Schema} {b : β}

theorem decode_iff (old : Message S) (limit : Nat) (hb : ReadValid b) (m : Message S) (rest : List UInt8) :
    (∃ d, decode S old b limit = some (noError, m, d) ∧ readable d.buffer = rest) ↔
      (Wire.packet S limit).run (readable b) = .ok (m, rest) := by
  constructor
  · rintro ⟨d, hd, hr⟩
    cases h : (Wire.packet S limit).run (readable b) with
    | error e =>
      obtain ⟨hfail, m', h'⟩ := decode_error old hb h
      rw [h'] at hd
      obtain ⟨rfl, -⟩ := Prod.mk.inj (Option.some.inj hd)
      cases hfail
    | ok c =>
      obtain ⟨b', h', -, -, hr'⟩ := decode_ok old hb h
      rw [h'] at hd
      obtain ⟨-, hd⟩ := Prod.mk.inj (Option.some.inj hd)
      obtain ⟨rfl, rfl⟩ := Prod.mk.inj hd
      rw [← hr, hr']
  · intro h
    obtain ⟨b', h', -, -, hr⟩ := decode_ok old hb h
    exact ⟨_, h', hr⟩

end

/-- **The decoder accepts exactly the image of the encoder.** -/
theorem decode_accepts_image (S : Schema) (hS : S.wellFormed) :
    (∀ m, ProtoKel.size S m = some ((Wire.body S m).length % 2 ^ 64, m)) ∧
    (∀ (m : Message S) (v : BufferView AnyBuffer), WriteValid v → (Wire.body S m).length ≤ (writable v).length →
      ∃ v', ProtoKel.encodeImpl S m v = some (noError, m, v') ∧ written v' = written v ++ Wire.body S m) ∧
    ∀ (b : AnyBuffer) (limit : Nat) (old m : Message S) (rest : List UInt8),
      (∃ d, decode S old b limit = some (noError, m, d) ∧ readable d.buffer = rest) ↔
        ∃ size, ProtoKel.size S m = some (size, m) ∧
          readable b = leBytes 8 size ++ Wire.body S m ++ rest ∧ size ≤ limit := by
  refine ⟨ProtoKel.size_spec S, fun m v hv h => ?_, fun b limit old m rest => ?_⟩
  · obtain ⟨v', h', hw⟩ := ProtoKel.encodeImpl_writes S hS m v hv h
    exact ⟨v', h', hw.written⟩
  · have hlt := ReadLaws.readable_lt (b := b) trivial
    rw [decode_iff old limit trivial]
    constructor
    · intro h
      have hlen := Wire.body_lt hS (by omega) h
      obtain ⟨hbs, hle⟩ := (Wire.packet_exact hS hlen).mp h
      exact ⟨_, by rw [ProtoKel.size_spec, Nat.mod_eq_of_lt hlen], hbs, hle⟩
    · rintro ⟨size, hsize, hbs, hle⟩
      have hlen : (Wire.body S m).length < 2 ^ 64 := by
        rw [hbs, List.length_append, List.length_append] at hlt
        omega
      rw [ProtoKel.size_spec, Nat.mod_eq_of_lt hlen] at hsize
      obtain rfl := (Prod.mk.inj (Option.some.inj hsize)).1
      exact (Wire.packet_exact hS hlen).mpr ⟨hbs, hle⟩

def sampleSchema : Schema := .union ["number", "names"] (.cons (.primitive .uint16) (.one (.array .string)))

def sampleMessage : Message sampleSchema :=
  (.inr (⟨[⟨[104, 105], by decide⟩], by simp⟩ : Vec (Vec UInt8)) : BitVec 16 ⊕ Vec (Vec UInt8))

/-- Its packet, wrapped around the physical end, and one byte more. -/
def sampleRing : RingBuffer where
  buffer := [1, 0, 0, 0, 0, 0, 0, 0, 2, 0, 0, 0, 0, 0, 0, 0, 104, 105, 7, 9, 9, 9, 22, 0, 0, 0, 0, 0, 0, 0, 1, 0, 0, 0]
  readPosition := 22
  writePosition := 19
  writeReachedRead := false
  small := by decide
  read_lt := by decide
  write_lt := by decide
  full := by decide

theorem decode_accepts_image_wrapped :
    ∃ d, decode sampleSchema (Message.init sampleSchema) (AnyBuffer.ring sampleRing) 4096 =
      some (noError, sampleMessage, d) ∧ readable d.buffer = [7] :=
  ((decode_accepts_image sampleSchema (by decide)).2.2 (AnyBuffer.ring sampleRing) 4096 _ sampleMessage [7]).mpr
    ⟨22, by rfl, by decide, by decide⟩

end ProtoKelCodec

end Forstio
