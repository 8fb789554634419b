import Forstio.ProtoKel
import Forstio.Wire

/-!
# The decoder reads the wire format

`Implements f p log` ties a decoder `f` over any lawful buffer to the parser
`p` of the readable bytes: same result, same errors, the buffer advanced by
what the parser took, and the lengths of `log` passed to `resize`. It composes
as the decoder does, so the proof follows the schema; whatever the message held
before does not matter.
-/

namespace Forstio

open Buffer LittleEndian Format

namespace ProtoKel

section
variable {β : Type} [Buffer β] [ReadLaws β]

/-- `d'` is `d` read further, with the lengths `log` resized to on the way. -/
structure Advanced (d d' : Decoding β) (log : List Nat) : Prop where
  valid : ReadValid d'.buffer
  frame : ReadFrame d.buffer d'.buffer
  resizes : d'.resizes = d.resizes ++ log

theorem Advanced.refl {d : Decoding β} (h : ReadValid d.buffer) : Advanced d d [] :=
  ⟨h, ReadLaws.frame_refl _, by simp⟩

theorem Advanced.trans {d₁ d₂ d₃ : Decoding β} {l l' : List Nat} (h : Advanced d₁ d₂ l) (h' : Advanced d₂ d₃ l') :
    Advanced d₁ d₃ (l ++ l') :=
  ⟨h'.valid, ReadLaws.frame_trans h.frame h'.frame, by rw [h'.resizes, h.resizes, List.append_assoc]⟩

structure Implements {α : Type} (f : Decoding β → Option (Error × α × Decoding β)) (p : Parser UInt8 Error α)
    (log : List UInt8 → List Nat) : Prop where
  ok : ∀ {d x rest}, ReadValid d.buffer → p.run (readable d.buffer) = .ok (x, rest) →
    ∃ d', f d = some (noError, x, d') ∧ Advanced d d' (log (readable d.buffer)) ∧ readable d'.buffer = rest
  error : ∀ {d e}, ReadValid d.buffer → p.run (readable d.buffer) = .error e →
    e.failed = true ∧ ∃ x d', f d = some (e, x, d') ∧ Advanced d d' (log (readable d.buffer))

/-! ## Rules -/

section
variable {α γ : Type} {f : Decoding β → Option (Error × α × Decoding β)} {p : Parser UInt8 Error α}
  {log : List UInt8 → List Nat}

theorem after_ok {bs rest : List UInt8} {x : α} {g : α → List UInt8 → List Nat} (h : p.run bs = .ok (x, rest)) :
    Wire.after p bs g = g x rest := by
  simp only [Wire.after, h]

theorem after_error {bs : List UInt8} {e : Error} {g : α → List UInt8 → List Nat} (h : p.run bs = .error e) :
    Wire.after p bs g = [] := by
  simp only [Wire.after, h]

/-- Decode, give up on an error, go on with the value otherwise. -/
theorem Implements.seq (hf : Implements f p log) (g : α → γ) {k : α → Decoding β → Option (Error × γ × Decoding β)}
    {q : α → Parser UInt8 Error γ} {log' : α → List UInt8 → List Nat} (hk : ∀ x, Implements (k x) (q x) (log' x)) :
    Implements (fun d => do
        let (error, m, d) ← f d
        if error.failed then return (error, g m, d) else k m d)
      (p >>= q) (fun bs => log bs ++ Wire.after p bs log') := by
  constructor
  · intro d c rest hd h
    obtain ⟨x, r, hx, hc⟩ := run_bind_ok.mp h
    obtain ⟨d₁, h₁, ha₁, hr₁⟩ := hf.ok hd hx
    obtain ⟨d₂, h₂, ha₂, hr₂⟩ := (hk x).ok ha₁.valid (by rw [hr₁]; exact hc)
    refine ⟨d₂, by simp [h₁, h₂], ?_, hr₂⟩
    rw [after_ok hx, ← hr₁]
    exact ha₁.trans ha₂
  · intro d e hd h
    rcases run_bind_error.mp h with he | ⟨x, r, hx, he⟩
    · obtain ⟨hfail, x, d₁, h₁, ha₁⟩ := hf.error hd he
      refine ⟨hfail, g x, d₁, by simp [h₁, hfail], ?_⟩
      rw [after_error he, List.append_nil]
      exact ha₁
    · obtain ⟨d₁, h₁, ha₁, hr₁⟩ := hf.ok hd hx
      obtain ⟨hfail, y, d₂, h₂, ha₂⟩ := (hk x).error ha₁.valid (by rw [hr₁]; exact he)
      refine ⟨hfail, y, d₂, by simp [h₁, h₂], ?_⟩
      rw [after_ok hx, ← hr₁]
      exact ha₁.trans ha₂

theorem Implements.map (hf : Implements f p log) (g : α → γ) :
    Implements (fun d => do
        let (error, m, d) ← f d
        return (error, g m, d))
      (do let m ← p; return g m) log := by
  constructor
  · intro d c rest hd h
    obtain ⟨x, rfl, hx⟩ := run_map_ok.mp h
    obtain ⟨d', h', ha, hr⟩ := hf.ok hd hx
    exact ⟨d', by simp [h'], ha, hr⟩
  · intro d e hd h
    rcases run_bind_error.mp h with he | ⟨x, r, hx, he⟩
    · obtain ⟨hfail, x, d', h', ha⟩ := hf.error hd he
      exact ⟨hfail, g x, d', by simp [h'], ha⟩
    · cases he

theorem Implements.pure (x : α) :
    Implements (fun d : Decoding β => some (noError, x, d)) (Pure.pure x) (fun _ => []) := by
  constructor
  · intro d c rest hd h
    obtain ⟨rfl, rfl⟩ := Prod.mk.inj (run_pure_ok.mp h)
    exact ⟨d, rfl, Advanced.refl hd, rfl⟩
  · intro d e _ h
    cases h

end

/-! ## Fields -/

theorem number_run {w : Nat} (bs : List UInt8) :
    (bs.length < w → (Wire.number w).run bs = .error Wire.tooSmall) ∧
    (w ≤ bs.length → (Wire.number w).run bs = .ok (BitVec.ofNat _ (leNat (bs.take w)), bs.drop w)) := by
  refine ⟨fun h => ?_, fun h => ?_⟩
  · refine run_bind_error.mpr (Or.inl ?_)
    rw [run_block, if_pos h]
  · refine run_bind_ok.mpr ⟨bs.take w, bs.drop w, ?_, rfl⟩
    rw [run_block, if_neg (by omega)]

theorem decodeValue_implements (w : Nat) : Implements (decodeValue (β := β) w) (Wire.number w) (fun _ => []) := by
  constructor
  · intro d x rest hd h
    rcases Nat.lt_or_ge (readable d.buffer).length w with hlt | hge
    · rw [(number_run _).1 hlt] at h
      cases h
    · rw [(number_run _).2 hge] at h
      obtain ⟨rfl, rfl⟩ := Prod.mk.inj (Except.ok.inj h)
      obtain ⟨b', h', hb', hr, hf⟩ := (StreamValue.decode_spec hd w 0).1 hge
      exact ⟨{ d with buffer := b' }, by rw [decodeValue, h']; rfl, ⟨hb', hf, by simp⟩, hr⟩
  · intro d e hd h
    rcases Nat.lt_or_ge (readable d.buffer).length w with hlt | hge
    · rw [(number_run _).1 hlt] at h
      cases h
      exact ⟨rfl, 0, d, by rw [decodeValue, (StreamValue.decode_spec hd w 0).2 hlt]; rfl, Advanced.refl hd⟩
    · rw [(number_run _).2 hge] at h
      cases h

/-! ## Strings -/

theorem readBytes_spec {b : β} (hb : ReadValid b) : ∀ (n i : Nat) (value : Vec UInt8), i + n = value.1.length →
    value.1.length ≤ (readable b).length → ∃ v : Vec UInt8, readBytes b n i value = some v ∧
      v.1 = value.1.take i ++ ((readable b).drop i).take n
  | 0, i, value, hi, _ => ⟨value, rfl, by rw [List.take_zero, List.append_nil, List.take_of_length_le (by omega)]⟩
  | n + 1, i, value, hi, hlen => by
    obtain ⟨a, ha, hl⟩ := read_load hb (i := i) (by omega)
    have hset : ((value.set i (readable b)[i]).1).length = value.1.length := List.length_set ..
    obtain ⟨v, hv, hv'⟩ := readBytes_spec hb n (i + 1) (value.set i (readable b)[i]) (by omega) (by omega)
    refine ⟨v, by simp [readBytes, ha, hl, hv], ?_⟩
    rw [hv', List.drop_eq_getElem_cons (show i < (readable b).length by omega), List.take_succ_cons,
      List.append_cons]
    congr 1
    rw [Vec.set, List.take_succ_eq_append_getElem (by rw [List.length_set]; omega), List.take_set_of_le (by omega),
      List.getElem_set_self]

theorem string_implements (m : Vec UInt8) (size : BitVec 64) :
    Implements (β := β) (fun d => do
        if size.toNat > (← readCompositeLength d.buffer) then
          return (recoverableError "Buffer too small", m, d)
        else
          let value := Vec.empty.resize 0 size
          let d := d.resize size.toNat
          if size.toNat > (← readCompositeLength d.buffer) then
            return (recoverableError "Buffer too small", m, d)
          else
            let value ← readBytes d.buffer value.size 0 value
            let b ← readAdvance d.buffer value.size
            return (noError, value, { d with buffer := b }))
      (do let xs ← block Wire.tooSmall size.toNat; return Wire.vec size xs)
      (fun rest => if rest.length < size.toNat then [] else [size.toNat]) := by
  constructor
  · intro d c rest hd h
    obtain ⟨xs, hc, hx⟩ := run_map_ok.mp h
    obtain ⟨hlen, hbs⟩ := run_block_ok.mp hx
    have hle : size.toNat ≤ (readable d.buffer).length := by rw [hbs, List.length_append]; omega
    have hsize : (Vec.empty.resize (0 : UInt8) size).1.length = size.toNat := Vec.length_resize ..
    obtain ⟨v, hv, hv'⟩ := readBytes_spec hd size.toNat 0 (Vec.empty.resize 0 size) (by omega) (by omega)
    rw [List.take_zero, List.nil_append, List.drop_zero, hbs, List.take_left' hlen] at hv'
    have hvl : v.1.length = size.toNat := by rw [hv', hlen]
    obtain ⟨b', hadv, hb', hr, hf⟩ := ReadLaws.readAdvance_eq hd hle
    have hcv : c = v := by
      rw [hc]
      exact Subtype.ext ((List.take_of_length_le (by omega)).trans hv'.symm)
    refine ⟨{ buffer := b', resizes := d.resizes ++ [size.toNat] }, ?_, ⟨hb', hf, ?_⟩, ?_⟩
    · simp [ReadLaws.readCompositeLength_eq hd, Nat.not_lt.mpr hle, Decoding.resize, Vec.size, hsize, hv, hvl, hadv,
        hcv]
    · rw [if_neg (Nat.not_lt.mpr hle)]
    · rw [hr, hbs, List.drop_left' hlen]
  · intro d e hd h
    rcases run_bind_error.mp h with he | ⟨x, r, hx, he⟩
    · rw [run_block] at he
      split at he
      · rename_i hlt
        cases he
        refine ⟨rfl, m, d, ?_, ?_⟩
        · simp [ReadLaws.readCompositeLength_eq hd, hlt, Wire.tooSmall]
        · rw [if_pos hlt]
          exact Advanced.refl hd
      · cases he
    · cases he

/-! ## Arrays -/

/-- Decoding in place replaces the items one by one, whatever they were. -/
theorem decodeElements_implements {α : Type} {f : α → Decoding β → Option (Error × α × Decoding β)}
    {p : Parser UInt8 Error α} {log : List UInt8 → List Nat} (hf : ∀ x, Implements (f x) p log) (k : BitVec 64) :
    ∀ (n i : Nat) (m : Vec α), i + n = m.1.length → m.1.length = k.toNat →
      Implements (decodeElements f n i m)
        (do let xs ← repeated p n; return Wire.vec k (m.1.take i ++ xs)) (Wire.allocsRepeated p log n)
  | 0, i, m, hi, hk => by
    have hm : Wire.vec k (m.1.take i ++ []) = m := by
      apply Subtype.ext
      simp only [Wire.vec, List.append_nil, List.take_take]
      exact List.take_of_length_le (by omega)
    have h := Implements.pure (β := β) m
    have hlog : Wire.allocsRepeated p log 0 = fun _ => [] := rfl
    simpa only [repeated, pure_bind, decodeElements, hm, hlog] using h
  | n + 1, i, m, hi, hk => by
    have hlt : i < m.1.length := by omega
    have hnext : ∀ x xs, Wire.vec k ((m.set i x).1.take (i + 1) ++ xs) = Wire.vec k (m.1.take i ++ (x :: xs)) := by
      intro x xs
      rw [Vec.set, List.take_succ_eq_append_getElem (by rw [List.length_set]; omega),
        List.take_set_of_le (Nat.le_refl i), List.getElem_set_self, List.append_assoc, List.singleton_append]
    have h := (hf m.1[i]).seq (fun x => m.set i x) (k := fun x => decodeElements f n (i + 1) (m.set i x)) fun x =>
      decodeElements_implements hf k n (i + 1) (m.set i x) (by simp only [Vec.set, List.length_set]; omega)
        (by simp only [Vec.set, List.length_set]; exact hk)
    simp only [hnext] at h
    have hat : m.at? i = some m.1[i] := List.getElem?_eq_getElem hlt
    have hlog : Wire.allocsRepeated p log (n + 1) =
        fun bs => log bs ++ Wire.after p bs fun _ => Wire.allocsRepeated p log n := rfl
    simpa only [repeated, bind_assoc, pure_bind, decodeElements, hat, hlog, Option.bind_eq_bind,
      Option.bind_some] using h

/-! ## Unions -/

theorem parseVariant_bad : ∀ (ts : Alternatives) (i : Nat), ts.count ≤ i → ∀ bs,
    (Wire.parseVariant ts i).run bs = .error Wire.badId ∧ Wire.allocsVariant ts i bs = []
  | .one _, 0, h, _ => by simp [Alternatives.count] at h
  | .one _, _ + 1, _, _ => ⟨rfl, rfl⟩
  | .cons _ _, 0, h, _ => by simp [Alternatives.count] at h
  | .cons _ ts, i + 1, h, bs => by
    obtain ⟨he, hl⟩ := parseVariant_bad ts i (by simpa [Alternatives.count] using h) bs
    exact ⟨run_bind_error.mpr (Or.inl he), hl⟩

omit [ReadLaws β] in
/-- No alternative from `i` on has the number of one before. -/
theorem decodeMember_past : ∀ (ts : Alternatives) (id i : Nat) (d : Decoding β), id < i →
    decodeMember ts id i none d = some (noError, none, d)
  | .one _, id, i, d, h => by simp [decodeMember, show id ≠ i by omega]
  | .cons t ts, id, i, d, h => by
    have hnext : Variant.next (none : Option (Variant (.cons t ts))) = none := rfl
    simp only [decodeMember, if_neg (show ¬ id = i by omega), hnext, decodeMember_past ts id (i + 1) d (by omega)]
    rfl

/-! ## Messages -/

theorem Implements.congr {α : Type} {f g : Decoding β → Option (Error × α × Decoding β)}
    {p q : Parser UInt8 Error α} {log : List UInt8 → List Nat} (hg : Implements g q log) (hp : p = q)
    (h : ∀ d, ReadValid d.buffer → f d = g d) : Implements f p log := by
  constructor
  · intro d x rest hd hx
    rw [h d hd]
    exact hg.ok hd (hp ▸ hx)
  · intro d e hd he
    rw [h d hd]
    exact hg.error hd (hp ▸ he)

theorem after_nil {α : Type} (p : Parser UInt8 Error α) (bs : List UInt8) :
    Wire.after p bs (fun _ _ => []) = [] := by
  unfold Wire.after
  split <;> rfl

theorem union_implements {vs : Alternatives} {id : Nat} (m : Variant vs)
    (h : id < vs.count → Implements (β := β) (decodeMember vs id 0 (some m))
      (do let v ← Wire.parseVariant vs id; return some v) (Wire.allocsVariant vs id)) :
    Implements (β := β) (fun d => do
        if id ≥ vs.count then
          return (criticalError "Union doesn't have this many id's", m, d)
        else
          let (error, v, d) ← decodeMember vs id 0 (some m) d
          return (error, v.getD m, d))
      (Wire.parseVariant vs id) (Wire.allocsVariant vs id) := by
  rcases Nat.lt_or_ge id vs.count with hlt | hge
  · have h := (h hlt).map fun v => v.getD m
    simpa only [if_neg (Nat.not_le.mpr hlt), bind_assoc, pure_bind, Option.getD_some, bind_pure] using h
  · constructor
    · intro d x rest _ hx
      rw [(parseVariant_bad vs id hge _).1] at hx
      cases hx
    · intro d e hd he
      obtain ⟨hbad, hlog⟩ := parseVariant_bad vs id hge (readable d.buffer)
      rw [hbad] at he
      cases he
      refine ⟨rfl, m, d, if_pos hge, ?_⟩
      rw [hlog]
      exact Advanced.refl hd

theorem array_implements {α : Type} {f : α → Decoding β → Option (Error × α × Decoding β)}
    {p : Parser UInt8 Error α} {log : List UInt8 → List Nat} (hf : ∀ x, Implements (f x) p log) (x : α) (m : Vec α)
    (k : BitVec 64) :
    Implements (fun d => decodeElements f k.toNat 0 (m.resize x k) (d.resize k.toNat))
      (do let xs ← repeated p k.toNat; return Wire.vec k xs)
      (fun bs => k.toNat :: Wire.allocsRepeated p log k.toNat bs) := by
  have hlen := Vec.length_resize x m k
  have h := decodeElements_implements hf k k.toNat 0 (m.resize x k) (by omega) hlen
  simp only [List.take_zero, List.nil_append] at h
  constructor
  · intro d c rest hd hc
    obtain ⟨d', h', ha, hr⟩ := h.ok (d := d.resize k.toNat) hd hc
    refine ⟨d', h', ⟨ha.valid, ha.frame, ?_⟩, hr⟩
    rw [ha.resizes, Decoding.resize, List.append_assoc, List.singleton_append]
  · intro d e hd he
    obtain ⟨hfail, c, d', h', ha⟩ := h.error (d := d.resize k.toNat) hd he
    refine ⟨hfail, c, d', h', ⟨ha.valid, ha.frame, ?_⟩⟩
    rw [ha.resizes, Decoding.resize, List.append_assoc, List.singleton_append]

mutual

/-- **The decoder is the parser**, on every buffer and over every old message. -/
theorem decodeImpl_implements : ∀ (S : Schema) (m : Message S),
    Implements (β := β) (decodeImpl S m) (Wire.parse S) (Wire.allocs S)
  | .primitive p, _ => decodeValue_implements p.width
  | .string, m => by
    refine ((decodeValue_implements 8).seq (fun _ => m) (string_implements m)).congr rfl fun d hd => ?_
    rw [decodeImpl, ReadLaws.readCompositeLength_eq hd, Option.bind_eq_bind, Option.bind_some]
    split
    · -- the check in front answers as the failing read would
      rename_i hlt
      rw [decodeValue, (StreamValue.decode_spec hd 8 0).2 hlt]
      rfl
    · rfl
  | .tuple ts, m => decodeMembers_implements ts m
  | .struct _ vs, m => decodeMembers_implements vs m
  | .union _ vs, m => (decodeValue_implements 4).seq (fun _ => m) fun id =>
    union_implements m (decodeMember_implements vs id.toNat 0 (some m) (Nat.zero_le _))
  | .array t, m => (decodeValue_implements 8).seq (fun _ => m) fun k =>
    array_implements (decodeImpl_implements t) (Message.init t) m k

theorem decodeMembers_implements : ∀ (ts : Pack) (m : Record ts),
    Implements (β := β) (decodeMembers ts m) (Wire.parseRecord ts) (Wire.allocsRecord ts)
  | .nil, _ => Implements.pure ()
  | .cons t ts, (m, ms) => (decodeImpl_implements t m).seq (fun m => (m, ms)) fun m =>
    (decodeMembers_implements ts ms).map fun ms => (m, ms)

theorem decodeMember_implements : ∀ (ts : Alternatives) (id i : Nat) (held : Option (Variant ts)), i ≤ id →
    id - i < ts.count → Implements (β := β) (decodeMember ts id i held)
      (do let v ← Wire.parseVariant ts (id - i); return some v) (Wire.allocsVariant ts (id - i))
  | .one t, id, i, held, hi, hlt => by
    obtain rfl : id = i := by simp only [Alternatives.count] at hlt; omega
    rw [Nat.sub_self]
    refine ((decodeImpl_implements t (held.getD (Message.init t))).map some).congr rfl fun d _ => ?_
    rw [decodeMember, if_pos rfl]
    rfl
  | .cons t ts, id, i, held, hi, hlt => by
    rcases Nat.eq_or_lt_of_le hi with rfl | hlt'
    · have h := (decodeImpl_implements t (Variant.get held)).seq (fun m => some (Sum.inl m)) fun m =>
        Implements.pure (some (Sum.inl m : Message t ⊕ Variant ts))
      simp only [after_nil, List.append_nil] at h
      rw [Nat.sub_self]
      refine h.congr (bind_assoc ..) fun d _ => ?_
      rw [decodeMember, if_pos rfl]
      simp only [decodeMember_past ts i (i + 1) _ (Nat.lt_succ_self i)]
      rfl
    · obtain ⟨j, hj⟩ : ∃ j, id - i = j + 1 := ⟨id - (i + 1), by omega⟩
      have hj' : id - (i + 1) = j := by omega
      have h := (decodeMember_implements ts id (i + 1) (Variant.next held) (by omega)
        (by simp only [Alternatives.count] at hlt; omega)).map
          fun v => (v.map Sum.inr).or (show Option (Message t ⊕ Variant ts) from held)
      simp only [hj', bind_assoc, pure_bind, Option.map_some] at h
      rw [hj]
      refine h.congr (bind_assoc ..) fun d _ => ?_
      rw [decodeMember, if_neg (by omega)]
      rfl

end

end

end ProtoKel

end Forstio
