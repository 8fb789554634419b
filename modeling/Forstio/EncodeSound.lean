import Forstio.ProtoKel
import Forstio.Wire

/-!
# The encoder writes the wire format

`size` counts the bytes of `body`, and on a view with room for them the encoder
writes exactly these. Reading through a `Reader` leaves the message as it was.
-/

namespace Forstio

open Buffer Memory LittleEndian

namespace ProtoKel

/-! ## Sizes -/

theorem sizeAdd_mod (a b : Nat) : sizeAdd (a % 2 ^ 64) (b % 2 ^ 64) = (a + b) % 2 ^ 64 :=
  (Nat.add_mod a b (2 ^ 64)).symm

theorem set_getElem {α : Type} (m : Vec α) {i : Nat} (h : i < m.1.length) : m.set i m.1[i] = m :=
  Subtype.ext (List.set_getElem_self h)

theorem sizeElements_spec {α : Type} {size : α → Option (Nat × α)} {enc : α → List UInt8}
    (hs : ∀ x, size x = some ((enc x).length % 2 ^ 64, x)) (m : Vec α) :
    ∀ n i members, i + n = m.1.length → sizeElements size n i (members % 2 ^ 64) m =
      some ((members + ((m.1.drop i).flatMap enc).length) % 2 ^ 64, m)
  | 0, i, members, hi => by
    rw [List.drop_of_length_le (by omega)]
    rfl
  | n + 1, i, members, hi => by
    have hlt : i < m.1.length := by omega
    have hat : m.at? i = some m.1[i] := List.getElem?_eq_getElem hlt
    simp only [sizeElements, hat, hs, Option.bind_eq_bind, Option.bind_some, sizeAdd_mod, set_getElem m hlt]
    rw [sizeElements_spec hs m n (i + 1) _ (by omega), List.drop_eq_getElem_cons hlt, List.flatMap_cons,
      List.length_append, Nat.add_assoc]

mutual

theorem size_spec : ∀ (S : Schema) (m : Message S), size S m = some ((Wire.body S m).length % 2 ^ 64, m)
  | .primitive p, m => by
    have hw : (Wire.body (.primitive p) m).length = p.width := length_leBits (w := p.width) m
    rw [hw, Nat.mod_eq_of_lt (by cases p <;> decide)]
    rfl
  | .string, m => by
    have hl : (Wire.body .string m).length = 8 + Vec.size m := by
      show (leBytes 8 (Vec.size m) ++ m.1).length = _
      rw [List.length_append, length_leBytes]
      rfl
    rw [hl]
    rfl
  | .tuple ts, m => sizeMembers_spec ts m
  | .struct _ vs, m => sizeMembers_spec vs m
  | .union _ vs, m => by
    have hl : (Wire.body (.union _ vs) m).length = 4 + (Wire.bodyVariant vs m).length := by
      show (leBytes 4 (Variant.index vs m) ++ Wire.bodyVariant vs m).length = _
      rw [List.length_append, length_leBytes]
    rw [hl, size, sizeMember_spec vs m]
    exact congrArg (fun k => some (k, m)) (sizeAdd_mod 4 _)
  | .array t, m => by
    have hl : (Wire.body (.array t) m).length = 8 + ((m.1.drop 0).flatMap (Wire.body t)).length := by
      show (leBytes 8 (Vec.size m) ++ m.1.flatMap (Wire.body t)).length = _
      rw [List.length_append, length_leBytes, List.drop_zero]
    rw [hl]
    exact sizeElements_spec (size_spec t) m (Vec.size m) 0 8 (Nat.zero_add _)

theorem sizeMembers_spec : ∀ (ts : Pack) (m : Record ts),
    sizeMembers ts m = some ((Wire.bodyRecord ts m).length % 2 ^ 64, m)
  | .nil, _ => rfl
  | .cons t ts, (m, ms) => by
    simp only [sizeMembers, size_spec t m, sizeMembers_spec ts ms, Option.bind_eq_bind, Option.bind_some, sizeAdd_mod,
      Wire.bodyRecord, List.length_append]
    rfl

theorem sizeMember_spec : ∀ (ts : Alternatives) (v : Variant ts),
    sizeMember ts v = some ((Wire.bodyVariant ts v).length % 2 ^ 64, v)
  | .one t, m => size_spec t m
  | .cons t _, .inl m => by
    rw [sizeMember, size_spec t m]
    rfl
  | .cons _ ts, .inr v => by
    rw [sizeMember, sizeMember_spec ts v]
    rfl

end

/-! ## Bytes -/

section
variable {β : Type} [Buffer β] [WriteLaws β]

structure Wrote (v v' : BufferView β) (w : List UInt8) : Prop where
  valid : WriteValid v'
  writable : writable v' = (writable v).drop w.length
  written : written v' = written v ++ w
  frame : WriteFrame v v'

theorem Wrote.refl {v : BufferView β} (h : WriteValid v) : Wrote v v [] :=
  ⟨h, rfl, (List.append_nil _).symm, WriteLaws.frame_refl v⟩

theorem Wrote.trans {v₁ v₂ v₃ : BufferView β} {w w' : List UInt8} (h : Wrote v₁ v₂ w) (h' : Wrote v₂ v₃ w') :
    Wrote v₁ v₃ (w ++ w') :=
  ⟨h'.valid, by rw [h'.writable, h.writable, List.drop_drop, List.length_append],
    by rw [h'.written, h.written, List.append_assoc], WriteLaws.frame_trans h.frame h'.frame⟩

theorem Wrote.room {v v' : BufferView β} {w w' : List UInt8} (h : Wrote v v' w)
    (hfit : (w ++ w').length ≤ (Forstio.writable v).length) : w'.length ≤ (Forstio.writable v').length := by
  rw [h.writable, List.length_drop]
  rw [List.length_append] at hfit
  omega

theorem encodeValue_wrote {v : BufferView β} (hv : WriteValid v) {w : Nat} (hw : 0 < w) (val : BitVec (8 * w))
    (h : (leBits val).length ≤ (writable v).length) :
    ∃ v', StreamValue.encode w val v = some (noError, v') ∧ Wrote v v' (leBits val) := by
  rw [length_leBits] at h
  obtain ⟨v', h', hv', hwr, ho, hf⟩ := StreamValue.encode_spec hv w hw val h
  exact ⟨v', h', hv', by rw [hwr, length_leBits], ho, hf⟩

theorem writeBytes_spec (view : Vec UInt8) : ∀ (n i : Nat) (v : BufferView β), WriteValid v →
    i + n = view.1.length → i + n ≤ (writable v).length → ∃ v', writeBytes view n i v = some v' ∧ WriteValid v' ∧
      writable v' = overwrite (writable v) i (view.1.drop i) ∧ written v' = written v ∧ WriteFrame v v'
  | 0, i, v, hv, hi, _ =>
    ⟨v, rfl, hv, by rw [List.drop_of_length_le (by omega), overwrite_nil], rfl, WriteLaws.frame_refl v⟩
  | n + 1, i, v, hv, hi, hfit => by
    have hlt : i < view.1.length := by omega
    obtain ⟨a, v₁, ha, h₁, hv₁, hw₁, ho₁, hf₁⟩ := store_byte hv (show i < _ by omega) view.1[i]
    have hlen : (writable v₁).length = (writable v).length := by
      rw [hw₁, length_overwrite (by simp; omega)]
    obtain ⟨v₂, h₂, hv₂, hw₂, ho₂, hf₂⟩ := writeBytes_spec view n (i + 1) v₁ hv₁ (by omega) (by omega)
    have hat : view.at? i = some view.1[i] := List.getElem?_eq_getElem hlt
    refine ⟨v₂, by simp [writeBytes, hat, ha, h₁, h₂], hv₂, ?_, ho₂.trans ho₁,
      WriteLaws.frame_trans hf₁ hf₂⟩
    have hsplit : view.1.drop i = [view.1[i]] ++ view.1.drop (i + 1) := List.drop_eq_getElem_cons hlt
    rw [hw₂, hw₁, hsplit, ← overwrite_overwrite]
    · rfl
    · simp only [List.length_cons, List.length_nil, List.length_drop]
      omega

/-- A view may also advance by nothing, as it does behind an empty string. -/
theorem view_writeAdvance {v : BufferView β} {k : Nat} (hv : WriteValid v) (hk : k ≤ (writable v).length) :
    ∃ v', writeAdvance v k = some v' ∧ WriteValid v' ∧ writable v' = (writable v).drop k ∧
      written v' = written v ++ (writable v).take k ∧ WriteFrame v v' := by
  rcases Nat.eq_zero_or_pos k with rfl | h0
  · refine ⟨v, v.writeAdvance_spec hv.1 hv.2, hv, rfl, ?_, WriteLaws.frame_refl v⟩
    rw [List.take_zero, List.append_nil]
  · exact WriteLaws.writeAdvance_eq hv h0 hk

theorem string_wrote {v : BufferView β} (hv : WriteValid v) (m : Vec UInt8)
    (h : m.1.length ≤ (writable v).length) : ∃ v₁ v₂, writeBytes m m.size 0 v = some v₁ ∧
      writeAdvance v₁ m.size = some v₂ ∧ Wrote v v₂ m.1 := by
  obtain ⟨v₁, h₁, hv₁, hw₁, ho₁, hf₁⟩ := writeBytes_spec m m.size 0 v hv (Nat.zero_add _)
    (by rw [Nat.zero_add]; exact h)
  rw [List.drop_zero] at hw₁
  have hlen : (writable v₁).length = (writable v).length := by
    rw [hw₁, length_overwrite (by omega)]
  obtain ⟨v₂, h₂, hv₂, hw₂, ho₂, hf₂⟩ := view_writeAdvance hv₁ (k := m.size) (by rw [hlen]; exact h)
  refine ⟨v₁, v₂, h₁, h₂, hv₂, ?_, ?_, WriteLaws.frame_trans hf₁ hf₂⟩
  · rw [hw₂, hw₁]
    exact drop_overwrite_zero _ _
  · rw [ho₂, ho₁, hw₁]
    exact congrArg _ (take_overwrite_zero _ _)

def Writes {α : Type} (f : α → BufferView β → Option (Error × α × BufferView β)) (enc : α → List UInt8) : Prop :=
  ∀ x v, WriteValid v → (enc x).length ≤ (writable v).length →
    ∃ v', f x v = some (noError, x, v') ∧ Wrote v v' (enc x)

theorem encodeElements_spec {α : Type} {f : α → BufferView β → Option (Error × α × BufferView β)}
    {enc : α → List UInt8} (hf : Writes f enc) (m : Vec α) : ∀ (n i : Nat) (v : BufferView β), WriteValid v →
      i + n = m.1.length → ((m.1.drop i).flatMap enc).length ≤ (writable v).length →
      ∃ v', encodeElements f n i m v = some (noError, m, v') ∧ Wrote v v' ((m.1.drop i).flatMap enc)
  | 0, i, v, hv, hi, _ => by
    rw [List.drop_of_length_le (by omega)]
    exact ⟨v, rfl, Wrote.refl hv⟩
  | n + 1, i, v, hv, hi, hfit => by
    have hlt : i < m.1.length := by omega
    have hat : m.at? i = some m.1[i] := List.getElem?_eq_getElem hlt
    rw [List.drop_eq_getElem_cons hlt, List.flatMap_cons] at hfit ⊢
    obtain ⟨v₁, h₁, hw₁⟩ := hf m.1[i] v hv (by rw [List.length_append] at hfit; omega)
    obtain ⟨v₂, h₂, hw₂⟩ := encodeElements_spec hf m n (i + 1) v₁ hw₁.valid (by omega) (hw₁.room hfit)
    refine ⟨v₂, ?_, hw₁.trans hw₂⟩
    simp [encodeElements, hat, h₁, set_getElem m hlt, h₂]

theorem encodeNat_wrote {v : BufferView β} (hv : WriteValid v) {w : Nat} (hw : 0 < w) {n : Nat}
    (hn : n < 2 ^ (8 * w)) (h : (leBytes w n).length ≤ (writable v).length) :
    ∃ v', StreamValue.encode w (BitVec.ofNat (8 * w) n) v = some (noError, v') ∧ Wrote v v' (leBytes w n) := by
  have hb : leBits (BitVec.ofNat (8 * w) n) = leBytes w n := by
    rw [leBits, BitVec.toNat_ofNat, Nat.mod_eq_of_lt hn]
  rw [← hb] at h ⊢
  exact encodeValue_wrote hv hw _ h

theorem string_writes : Writes (β := β) (encodeImpl .string) (Wire.body .string) := by
  intro m v hv h
  have hbody : Wire.body .string m = leBytes 8 (Vec.size m) ++ m.1 := rfl
  rw [hbody] at h ⊢
  have hlen : (leBytes 8 (Vec.size m) ++ m.1).length = 8 + Vec.size m := by
    rw [List.length_append, length_leBytes]
    rfl
  have hroom := WriteLaws.room hv
  obtain ⟨v₁, h₁, hw₁⟩ := encodeNat_wrote hv (w := 8) (by omega) m.2 (by rw [length_leBytes]; omega)
  obtain ⟨v₂, v₃, h₂, h₃, hw₃⟩ := string_wrote hw₁.valid m (hw₁.room h)
  refine ⟨v₃, ?_, hw₁.trans hw₃⟩
  have hreq : writeRequireLength v (sizeAdd 8 (Vec.size m)) = some noError := by
    rw [sizeAdd_eq (by omega)]
    exact writeRequireLength_fits hv (by omega)
  have h₁ : StreamValue.encode 8 (BitVec.ofNat 64 (Vec.size m)) v = some (noError, v₁) := h₁
  simp [encodeImpl, hreq, h₁, h₂, h₃]

theorem array_writes {t : Schema} (ht : Writes (β := β) (encodeImpl t) (Wire.body t)) :
    Writes (β := β) (encodeImpl (.array t)) (Wire.body (.array t)) := by
  intro m v hv h
  have hbody : Wire.body (.array t) m = leBytes 8 (Vec.size m) ++ (m.1.drop 0).flatMap (Wire.body t) := rfl
  rw [hbody] at h ⊢
  obtain ⟨v₁, h₁, hw₁⟩ := encodeNat_wrote hv (w := 8) (by omega) m.2
    (Nat.le_trans (by rw [List.length_append]; exact Nat.le_add_right _ _) h)
  obtain ⟨v₂, h₂, hw₂⟩ := encodeElements_spec ht m (Vec.size m) 0 v₁ hw₁.valid (Nat.zero_add _) (hw₁.room h)
  refine ⟨v₂, ?_, hw₁.trans hw₂⟩
  have h₁ : StreamValue.encode 8 (BitVec.ofNat 64 (Vec.size m)) v = some (noError, v₁) := h₁
  rw [encodeImpl, h₁]
  exact h₂

mutual

/-- **The encoder writes the word of the message** and leaves the message alone. -/
theorem encodeImpl_writes : ∀ S : Schema, S.wellFormed → Writes (β := β) (encodeImpl S) (Wire.body S)
  | .primitive p, _, m, v, hv, h => by
    obtain ⟨v', h', hw⟩ := encodeValue_wrote hv (w := p.width) (by cases p <;> decide) m h
    exact ⟨v', by rw [encodeImpl, h']; rfl, hw⟩
  | .string, _, m, v, hv, h => string_writes m v hv h
  | .tuple ts, hS, m, v, hv, h => encodeMembers_writes ts hS m v hv h
  | .struct _ vs, hS, m, v, hv, h => by
    simp only [Schema.wellFormed, Bool.and_eq_true] at hS
    exact encodeMembers_writes vs hS.2 m v hv h
  | .union _ vs, hS, m, v, hv, h => by
    simp only [Schema.wellFormed, Bool.and_eq_true, decide_eq_true_eq] at hS
    exact encodeMember_writes vs hS.2 0 (by omega) m v hv h
  | .array t, hS, m, v, hv, h => by
    simp only [Schema.wellFormed, Bool.and_eq_true] at hS
    exact array_writes (encodeImpl_writes t hS.2) m v hv h

theorem encodeMembers_writes : ∀ ts : Pack, ts.wellFormed → Writes (β := β) (encodeMembers ts) (Wire.bodyRecord ts)
  | .nil, _, m, v, hv, _ => ⟨v, rfl, Wrote.refl hv⟩
  | .cons t ts, hS, (m, ms), v, hv, h => by
    simp only [Pack.wellFormed, Bool.and_eq_true] at hS
    have hbody : Wire.bodyRecord (.cons t ts) (m, ms) = Wire.body t m ++ Wire.bodyRecord ts ms := rfl
    rw [hbody] at h ⊢
    obtain ⟨v₁, h₁, hw₁⟩ := encodeImpl_writes t hS.1 m v hv (by rw [List.length_append] at h; omega)
    obtain ⟨v₂, h₂, hw₂⟩ := encodeMembers_writes ts hS.2 ms v₁ hw₁.valid (hw₁.room h)
    refine ⟨v₂, ?_, hw₁.trans hw₂⟩
    simp [encodeMembers, h₁, h₂]

theorem encodeMember_writes : ∀ ts : Alternatives, ts.wellFormed → ∀ i, ts.count + i ≤ 2 ^ 32 →
    Writes (β := β) (fun m v => encodeMember ts i m v)
      (fun m => leBytes 4 (Variant.index ts m + i) ++ Wire.bodyVariant ts m)
  | .one t, hS, i, hi, m, v, hv, h => by
    have hn : 0 + i < 2 ^ (8 * 4) := by simp only [Alternatives.count] at hi; omega
    obtain ⟨v₁, h₁, hw₁⟩ := encodeNat_wrote hv (w := 4) (by omega) hn
      (Nat.le_trans (by rw [List.length_append]; exact Nat.le_add_right _ _) h)
    obtain ⟨v₂, h₂, hw₂⟩ := encodeImpl_writes t hS m v₁ hw₁.valid (hw₁.room h)
    refine ⟨v₂, ?_, hw₁.trans hw₂⟩
    rw [Nat.zero_add] at h₁
    simp only [encodeMember]
    rw [h₁]
    exact h₂
  | .cons t ts, hS, i, hi, .inl m, v, hv, h => by
    simp only [Alternatives.wellFormed, Bool.and_eq_true] at hS
    have hn : 0 + i < 2 ^ (8 * 4) := by simp only [Alternatives.count] at hi; omega
    obtain ⟨v₁, h₁, hw₁⟩ := encodeNat_wrote hv (w := 4) (by omega) hn
      (Nat.le_trans (by rw [List.length_append]; exact Nat.le_add_right _ _) h)
    obtain ⟨v₂, h₂, hw₂⟩ := encodeImpl_writes t hS.1 m v₁ hw₁.valid (hw₁.room h)
    refine ⟨v₂, ?_, hw₁.trans hw₂⟩
    rw [Nat.zero_add] at h₁
    simp only [encodeMember]
    rw [h₁, Option.bind_eq_bind, Option.bind_some]
    simp only [noError_failed, h₂]
    rfl
  | .cons t ts, hS, i, hi, .inr m, v, hv, h => by
    simp only [Alternatives.wellFormed, Bool.and_eq_true] at hS
    have hidx : Variant.index (.cons t ts) (.inr m) + i = Variant.index ts m + (i + 1) := by
      simp only [Variant.index]
      omega
    simp only [hidx] at h ⊢
    obtain ⟨v', h', hw⟩ := encodeMember_writes ts hS.2 (i + 1) (by simp only [Alternatives.count] at hi; omega) m v hv h
    refine ⟨v', ?_, hw⟩
    simp only [encodeMember]
    simp only [h']
    rfl

end

end

end ProtoKel

end Forstio
