import Forstio.DecodeSound
import Forstio.EncodeSound

/-!
# Packets

The codec commits a view in one step: `decode` takes a whole packet off the
buffer or nothing, `encode` appends a whole packet or nothing.
-/

namespace Forstio

open Buffer LittleEndian Format

namespace Wire

/-- The word of a packet. -/
def packetOf (S : Schema) (m : Message S) : List UInt8 := leBytes 8 (body S m).length ++ body S m

def packet (S : Schema) (limit : Nat) : Parser UInt8 Error (Message S) := do
  let k ← number 8
  if k.toNat > limit then throw (criticalError ("Packet size too big: " ++ toString k.toNat))
  else
    let m ← parse S
    if (body S m).length % 2 ^ 64 ≠ k.toNat then throw (criticalError "Bad packet format") else return m

def packetAllocs (S : Schema) (limit : Nat) (bs : List UInt8) : List Nat :=
  after (number 8) bs fun k rest => if k.toNat > limit then [] else allocs S rest

theorem length_packetOf (S : Schema) (m : Message S) : (packetOf S m).length = 8 + (body S m).length := by
  rw [packetOf, List.length_append, length_leBytes]

theorem packet_steady (S : Schema) (limit : Nat) : Steady tooSmall critical (packet S limit) := by
  refine (number_steady 8).bind fun k => ?_
  split
  · exact Steady.throw rfl
  · refine (parse_steady S).bind fun m => ?_
    split
    · exact Steady.throw rfl
    · exact Steady.pure m

/-- **Packets are accepted exactly as they are written**, if their length has
room in the header. -/
theorem packet_exact {S : Schema} (hS : S.wellFormed) {limit : Nat} {bs rest : List UInt8} {m : Message S}
    (hm : (body S m).length < 2 ^ 64) : (packet S limit).run bs = .ok (m, rest) ↔
      bs = packetOf S m ++ rest ∧ (body S m).length ≤ limit := by
  rw [packet, run_bind_ok]
  constructor
  · rintro ⟨k, r, hk, h⟩
    have hr := (number_exact 8 _ _ _).mp hk
    split at h
    · cases run_throw_ok.mp h
    · rename_i hle
      obtain ⟨m', r', hm', h⟩ := run_bind_ok.mp h
      have hbody := (parse_exact S hS _ _ _).mp hm'
      split at h
      · cases run_throw_ok.mp h
      · rename_i heq
        obtain ⟨rfl, rfl⟩ := Prod.mk.inj (run_pure_ok.mp h)
        rw [not_not, Nat.mod_eq_of_lt hm] at heq
        refine ⟨?_, by omega⟩
        rw [hr, hbody, packetOf, heq, leBits, List.append_assoc]
  · rintro ⟨hbs, hle⟩
    have hk : (BitVec.ofNat 64 (body S m).length).toNat = (body S m).length := by
      rw [BitVec.toNat_ofNat, Nat.mod_eq_of_lt hm]
    refine ⟨BitVec.ofNat 64 (body S m).length, body S m ++ rest, (number_exact 8 _ _ _).mpr ?_, ?_⟩
    · rw [hbs, packetOf, leBits, hk, List.append_assoc]
    · rw [hk, if_neg (by omega), run_bind_ok]
      refine ⟨m, rest, (parse_exact S hS _ _ _).mpr rfl, ?_⟩
      rw [if_neg (by rw [not_not, Nat.mod_eq_of_lt hm])]
      exact run_pure_ok.mpr rfl

theorem body_lt {S : Schema} (hS : S.wellFormed) {limit : Nat} {bs rest : List UInt8} {m : Message S}
    (hbs : bs.length < 2 ^ 64) (h : (packet S limit).run bs = .ok (m, rest)) : (body S m).length < 2 ^ 64 := by
  obtain ⟨k, r, hk, h⟩ := run_bind_ok.mp h
  have hr := (number_steady 8).le hk
  split at h
  · cases run_throw_ok.mp h
  · obtain ⟨m', r', hm, h⟩ := run_bind_ok.mp h
    split at h
    · cases run_throw_ok.mp h
    · obtain ⟨rfl, rfl⟩ := Prod.mk.inj (run_pure_ok.mp h)
      have hlen := congrArg List.length ((parse_exact S hS _ _ _).mp hm)
      rw [List.length_append] at hlen
      omega

theorem packetOf_inj {S : Schema} (hS : S.wellFormed) {m m' : Message S} {r r' : List UInt8}
    (hm : (body S m).length < 2 ^ 64) (hm' : (body S m').length < 2 ^ 64)
    (h : packetOf S m ++ r = packetOf S m' ++ r') : m = m' ∧ r = r' := by
  have h₁ := (packet_exact hS hm).mpr ⟨rfl (a := packetOf S m ++ r), Nat.le_max_left _ (body S m').length⟩
  have h₂ := (packet_exact hS hm').mpr ⟨h, Nat.le_max_right (body S m).length _⟩
  exact Prod.mk.inj (Except.ok.inj (h₁.symm.trans h₂))

end Wire

namespace ProtoKelCodec

/-! ## Decoding -/

section
variable {β : Type} [Buffer β] [ReadLaws β] {S : Schema} {b : β} {limit : Nat} (old : Message S)

theorem view_eq {d : ProtoKel.Decoding (BufferView β)} {log : List Nat}
    (h : ProtoKel.Advanced ⟨BufferView.new b, []⟩ d log) : d.buffer.buffer = b ∧ d.resizes = log :=
  ⟨h.frame.1, h.resizes.trans (List.nil_append log)⟩

theorem decode_ok {m : Message S} {rest : List UInt8} (hb : ReadValid b)
    (h : (Wire.packet S limit).run (readable b) = .ok (m, rest)) :
    ∃ b', decode S old b limit = some (noError, m, ⟨b', Wire.packetAllocs S limit (readable b)⟩) ∧
      ReadValid b' ∧ ReadFrame b b' ∧ readable b' = rest := by
  have hv : ReadValid (BufferView.new b) := ⟨hb, Nat.zero_le _⟩
  obtain ⟨k, r, hk, h⟩ := run_bind_ok.mp h
  obtain ⟨d₁, h₁, ha₁, hr₁⟩ := (ProtoKel.decodeValue_implements 8).ok (d := ⟨BufferView.new b, []⟩) hv hk
  split at h
  · cases run_throw_ok.mp h
  rename_i hle
  obtain ⟨m', r', hm, h⟩ := run_bind_ok.mp h
  obtain ⟨d₂, h₂, ha₂, hr₂⟩ := (ProtoKel.decodeImpl_implements S old).ok ha₁.valid (by rw [hr₁]; exact hm)
  split at h
  · cases run_throw_ok.mp h
  rename_i heq
  obtain ⟨rfl, rfl⟩ := Prod.mk.inj (run_pure_ok.mp h)
  have hsize : ProtoKel.size S m = some (k.toNat, m) := by rw [ProtoKel.size_spec, not_not.mp heq]
  obtain ⟨hbuf, hlog⟩ := view_eq (ha₁.trans ha₂)
  rw [hr₁, List.nil_append] at hlog
  have hoff : d₂.buffer.readOffset ≤ (readable b).length := hbuf ▸ ha₂.valid.2
  obtain ⟨b', hadv, hb', hr', hf⟩ := ReadLaws.readAdvance_eq hb hoff
  refine ⟨b', ?_, hb', hf, ?_⟩
  · have hallocs : Wire.packetAllocs S limit (readable b) = d₂.resizes := by
      rw [hlog, Wire.packetAllocs, ProtoKel.after_ok hk, if_neg hle]
    simp [decode, h₁, hle, h₂, hsize, hbuf, hadv, hallocs]
  · rw [hr', ← hr₂]
    show _ = (readable d₂.buffer.buffer).drop _
    rw [hbuf]

theorem decode_error {e : Error} (hb : ReadValid b) (h : (Wire.packet S limit).run (readable b) = .error e) :
    e.failed = true ∧ ∃ m, decode S old b limit = some (e, m, ⟨b, Wire.packetAllocs S limit (readable b)⟩) := by
  have hv : ReadValid (BufferView.new b) := ⟨hb, Nat.zero_le _⟩
  rcases run_bind_error.mp h with he | ⟨k, r, hk, h⟩
  · obtain ⟨hfail, x, d, h₁, ha⟩ := (ProtoKel.decodeValue_implements 8).error (d := ⟨BufferView.new b, []⟩) hv he
    obtain ⟨hbuf, hlog⟩ := view_eq ha
    have hallocs : Wire.packetAllocs S limit (readable b) = [] := ProtoKel.after_error he
    exact ⟨hfail, old, by simp [decode, h₁, hfail, hbuf, hlog, hallocs]⟩
  obtain ⟨d₁, h₁, ha₁, hr₁⟩ := (ProtoKel.decodeValue_implements 8).ok (d := ⟨BufferView.new b, []⟩) hv hk
  split at h
  · rename_i hgt
    cases h
    obtain ⟨hbuf, hlog⟩ := view_eq ha₁
    have hallocs : Wire.packetAllocs S limit (readable b) = [] := by
      rw [Wire.packetAllocs, ProtoKel.after_ok hk, if_pos hgt]
    exact ⟨rfl, old, by simp [decode, h₁, hgt, hbuf, hlog, hallocs]⟩
  rename_i hle
  have hallocs : Wire.packetAllocs S limit (readable b) = Wire.allocs S r := by
    rw [Wire.packetAllocs, ProtoKel.after_ok hk, if_neg hle]
  rcases run_bind_error.mp h with he | ⟨m, r', hm, h⟩
  · obtain ⟨hfail, x, d₂, h₂, ha₂⟩ := (ProtoKel.decodeImpl_implements S old).error ha₁.valid (by rw [hr₁]; exact he)
    obtain ⟨hbuf, hlog⟩ := view_eq (ha₁.trans ha₂)
    rw [hr₁, List.nil_append] at hlog
    exact ⟨hfail, x, by simp [decode, h₁, hle, h₂, hfail, hbuf, hlog, hallocs]⟩
  · obtain ⟨d₂, h₂, ha₂, hr₂⟩ := (ProtoKel.decodeImpl_implements S old).ok ha₁.valid (by rw [hr₁]; exact hm)
    obtain ⟨hbuf, hlog⟩ := view_eq (ha₁.trans ha₂)
    rw [hr₁, List.nil_append] at hlog
    split at h
    · rename_i hne
      cases h
      obtain ⟨n, hn⟩ : ∃ n, n = (Wire.body S m).length % 2 ^ 64 := ⟨_, rfl⟩
      have hsize : ProtoKel.size S m = some (n, m) := by rw [ProtoKel.size_spec, hn]
      rw [← hn] at hne
      exact ⟨rfl, m, by simp [decode, h₁, hle, h₂, hsize, hne, hbuf, hlog, hallocs]⟩
    · cases h

end

/-! ## Encoding -/

section
variable {β : Type} [Buffer β] [WriteLaws β] {S : Schema} {b : β} {m : Message S}

theorem encode_fits (hS : S.wellFormed) (hb : WriteValid b)
    (h : (Wire.packetOf S m).length ≤ (writable b).length) : ∃ b', encode S m b = some (noError, m, b') ∧
      WriteValid b' ∧ writable b' = (writable b).drop (Wire.packetOf S m).length ∧
      written b' = written b ++ Wire.packetOf S m ∧ WriteFrame b b' := by
  have hroom := WriteLaws.room hb
  have hlen := Wire.length_packetOf S m
  have hv : WriteValid (BufferView.new b) := ⟨hb, Nat.zero_le _⟩
  have hfit : (Wire.packetOf S m).length ≤ (writable (BufferView.new b)).length := h
  have hsize : ProtoKel.size S m = some ((Wire.body S m).length, m) := by
    rw [ProtoKel.size_spec, Nat.mod_eq_of_lt (by omega)]
  have hreq : writeRequireLength (BufferView.new b) (sizeAdd (Wire.body S m).length 8) = some noError :=
    writeRequireLength_fits hv (by rw [sizeAdd_eq (by omega)]; omega)
  obtain ⟨v₁, h₁, hw₁⟩ := ProtoKel.encodeNat_wrote hv (w := 8) (by omega)
    (show (Wire.body S m).length < 2 ^ (8 * 8) by omega) (by rw [length_leBytes]; omega)
  have h₁ : StreamValue.encode 8 (BitVec.ofNat 64 (Wire.body S m).length) (BufferView.new b) =
    some (noError, v₁) := h₁
  obtain ⟨v₂, h₂, hw₂⟩ := ProtoKel.encodeImpl_writes S hS m v₁ hw₁.valid (hw₁.room hfit)
  have hw : ProtoKel.Wrote (BufferView.new b) v₂ (Wire.packetOf S m) := hw₁.trans hw₂
  obtain ⟨-, hwb, hfb⟩ : _ ∧ written v₂.buffer = written b ∧ WriteFrame b v₂.buffer := hw.frame
  have hout : written v₂.buffer ++ (writable v₂.buffer).take v₂.writeOffset =
      written b ++ (writable b).take 0 ++ Wire.packetOf S m := hw.written
  rw [hwb, List.take_zero, List.append_nil, List.append_cancel_left_eq] at hout
  have hoff : v₂.writeOffset = (Wire.packetOf S m).length := by
    rw [← hout, List.length_take, Nat.min_eq_left hw.valid.2]
  -- the packet has a header, so the last advance is not empty
  obtain ⟨b', h₃, hb', hw₃, ho₃, hf₃⟩ := WriteLaws.writeAdvance_eq hw.valid.1 (k := v₂.writeOffset) (by omega) hw.valid.2
  refine ⟨b', ?_, hb', ?_, ?_, WriteLaws.frame_trans hfb hf₃⟩
  · simp [encode, hsize, hreq, h₁, h₂, h₃]
  · rw [hw₃]
    exact hw.writable
  · rw [ho₃, hwb, hout]

theorem encode_full (hb : WriteValid b) (hlen : (Wire.packetOf S m).length + viewed b < 2 ^ 64)
    (h : (writable b).length < (Wire.packetOf S m).length) :
    encode S m b = some (recoverableError "Buffer too small", m, b) := by
  rw [Wire.length_packetOf] at hlen h
  have hv : WriteValid (BufferView.new b) := ⟨hb, Nat.zero_le _⟩
  have hsize : ProtoKel.size S m = some ((Wire.body S m).length, m) := by
    rw [ProtoKel.size_spec, Nat.mod_eq_of_lt (by omega)]
  have hreq : writeRequireLength (BufferView.new b) (sizeAdd (Wire.body S m).length 8) =
      some (recoverableError "Buffer too small") := by
    have hview : viewed (BufferView.new b) = viewed b := rfl
    rw [sizeAdd_eq (by omega), WriteLaws.writeRequireLength_eq hv (by omega), if_pos]
    show (writable b).length < _
    omega
  simp only [encode, hsize, hreq, Option.bind_eq_bind, Option.bind_some, recoverableError_failed]
  rfl

end

end ProtoKelCodec

end Forstio
