import Forstio.DecodeExact

/-!
# Encoding is exact and atomic

One comparison with the free space, made before anything is written, decides
the call: behind it no encoder can run out of room.
-/

namespace Forstio

open Buffer LittleEndian

namespace ProtoKelCodec

section
variable {β : Type} [Buffer β] [WriteLaws β] {S : Schema} {b : β} {m : Message S}

/-- No space check behind the first one fails: the encoders of header and body both report success. -/
theorem encoders_fit (hS : S.wellFormed) (hb : WriteValid b)
    (h : 8 + (Wire.body S m).length ≤ (writable b).length) :
    ∃ v v', StreamValue.encode 8 (BitVec.ofNat 64 (Wire.body S m).length) (BufferView.new b) = some (noError, v) ∧
      ProtoKel.encodeImpl S m v = some (noError, m, v') := by
  have hroom := WriteLaws.room hb
  have hv : WriteValid (BufferView.new b) := ⟨hb, Nat.zero_le _⟩
  have hfit : (Wire.packetOf S m).length ≤ (writable (BufferView.new b)).length := by
    rw [Wire.length_packetOf]
    exact h
  obtain ⟨v, hv₁, hw⟩ := ProtoKel.encodeNat_wrote hv (w := 8) (by omega)
    (show (Wire.body S m).length < 2 ^ (8 * 8) by omega)
    (by rw [length_leBytes]; exact Nat.le_trans (Nat.le_add_right 8 _) h)
  obtain ⟨v', hv₂, -⟩ := ProtoKel.encodeImpl_writes S hS m v hw.valid (hw.room hfit)
  exact ⟨v, v', hv₁, hv₂⟩

end

/-- **Encoding is exact and atomic.** It fails exactly when the packet is longer than the free space,
and then the buffer is the one it was given; otherwise the packet is appended and nothing else changes. -/
theorem encode_is_atomic (S : Schema) (hS : S.wellFormed) (m : Message S)
    (hm : 8 + (Wire.body S m).length < 2 ^ 64) (b : AnyBuffer) :
    ProtoKel.size S m = some ((Wire.body S m).length, m) ∧
    ∃ free, writeCompositeLength b = some free ∧
      ∃ error b', encode S m b = some (error, m, b') ∧
        (error.failed = true ↔ free < 8 + (Wire.body S m).length) ∧
        (error.failed = true → error.isRecoverable = true ∧ b' = b) ∧
        (error.failed = false →
          (∃ v v', StreamValue.encode 8 (BitVec.ofNat 64 (Wire.body S m).length) (BufferView.new b) =
              some (noError, v) ∧ ProtoKel.encodeImpl S m v = some (noError, m, v')) ∧
          readable b' = readable b ++ (leBytes 8 (Wire.body S m).length ++ Wire.body S m) ∧
          writeCompositeLength b' = some (free - (8 + (Wire.body S m).length)) ∧ WriteFrame b b') := by
  have hlen := Wire.length_packetOf S m
  refine ⟨by rw [ProtoKel.size_spec, Nat.mod_eq_of_lt (by omega)], _, WriteLaws.writeCompositeLength_eq trivial, ?_⟩
  by_cases h : (writable b).length < 8 + (Wire.body S m).length
  · have hfull := encode_full (b := b) (m := m) trivial (by rw [hlen]; exact hm) (by rw [hlen]; exact h)
    refine ⟨_, b, hfull, ⟨fun _ => h, fun _ => rfl⟩, fun _ => ⟨rfl, rfl⟩, fun hok => ?_⟩
    cases hok
  · have hfit : (Wire.packetOf S m).length ≤ (writable b).length := by omega
    obtain ⟨b', hb', -, hw, ho, hf⟩ := encode_fits hS (b := b) trivial hfit
    refine ⟨noError, b', hb', ⟨fun hfail => ?_, fun hlt => absurd hlt h⟩, fun hfail => ?_, fun _ => ⟨?_, ?_, ?_, hf⟩⟩
    · cases hfail
    · cases hfail
    · exact encoders_fit hS trivial (Nat.not_lt.mp h)
    · rw [AnyBuffer.readable_eq_written, AnyBuffer.readable_eq_written, ho]
      rfl
    · rw [WriteLaws.writeCompositeLength_eq trivial, hw, List.length_drop, hlen]

/-- The sample's packet has 30 bytes, so a fresh ring of 40 takes it. -/
theorem encode_is_atomic_sample :
    ∃ error b', encode sampleSchema sampleMessage (AnyBuffer.ring (RingBuffer.new 40 (by decide))) =
        some (error, sampleMessage, b') ∧ error.failed = false ∧ writeCompositeLength b' = some 10 := by
  obtain ⟨-, free, hfree, error, b', h, hiff, -, hok⟩ := encode_is_atomic sampleSchema (by decide) sampleMessage
    (by decide) (AnyBuffer.ring (RingBuffer.new 40 (by decide)))
  have hlen : (Wire.body sampleSchema sampleMessage).length = 22 := by decide
  have hforty : free = 40 := Option.some.inj (hfree.symm.trans (by decide))
  rw [hlen, hforty] at hiff
  have hgood : error.failed = false := by
    cases hf : error.failed with
    | false => rfl
    | true => exact absurd (hiff.mp hf) (by decide)
  refine ⟨error, b', h, hgood, ?_⟩
  rw [(hok hgood).2.2.1, hlen, hforty]

end ProtoKelCodec

end Forstio
