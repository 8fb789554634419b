import Forstio.DecodeExact

/-!
# Decoding does not see where the bytes lie

Two decoders agree when, started over buffers with the same readable bytes,
they end with the same error, the same value, the same bytes left and the same
lengths passed to `resize`. The rules follow the decoder's own composition, so
the agreement goes through the schema; a value that was half replaced when an
error struck is the same on both sides too.
-/

namespace Forstio

open Buffer

namespace ProtoKel

section
variable {β γ : Type} [Buffer β] [ReadLaws β] [Buffer γ] [ReadLaws γ] {α δ : Type}

/-- Both are to be read in the same way, wherever their bytes lie. -/
structure SameReads (d : Decoding β) (d' : Decoding γ) : Prop where
  left : ReadValid d.buffer
  right : ReadValid d'.buffer
  readable : readable d.buffer = readable d'.buffer
  resizes : d.resizes = d'.resizes

def Agree (f : Decoding β → Option (Error × α × Decoding β)) (g : Decoding γ → Option (Error × α × Decoding γ)) :
    Prop :=
  ∀ d d', SameReads d d' → ∃ e x c c', f d = some (e, x, c) ∧ g d' = some (e, x, c') ∧ SameReads c c'

/-! ## Rules -/

theorem SameReads.resize {d : Decoding β} {d' : Decoding γ} (h : SameReads d d') (k : Nat) :
    SameReads (d.resize k) (d'.resize k) :=
  ⟨h.left, h.right, h.readable, by simp only [Decoding.resize, h.resizes]⟩

theorem SameReads.lengths {d : Decoding β} {d' : Decoding γ} (h : SameReads d d') :
    readCompositeLength d.buffer = some (Forstio.readable d.buffer).length ∧
      readCompositeLength d'.buffer = some (Forstio.readable d.buffer).length := by
  refine ⟨ReadLaws.readCompositeLength_eq h.left, ?_⟩
  rw [ReadLaws.readCompositeLength_eq h.right, h.readable]

theorem agree_return (e : Error) (x : α) :
    Agree (fun d : Decoding β => some (e, x, d)) (fun d : Decoding γ => some (e, x, d)) :=
  fun d d' h => ⟨e, x, d, d', rfl, rfl, h⟩

section
variable {f : Decoding β → Option (Error × α × Decoding β)} {g : Decoding γ → Option (Error × α × Decoding γ)}

theorem Agree.seq (hf : Agree f g) (w : α → δ) {k : α → Decoding β → Option (Error × δ × Decoding β)}
    {l : α → Decoding γ → Option (Error × δ × Decoding γ)} (hk : ∀ x, Agree (k x) (l x)) :
    Agree
      (fun d => do
        let (error, m, d) ← f d
        if error.failed then return (error, w m, d) else k m d)
      (fun d => do
        let (error, m, d) ← g d
        if error.failed then return (error, w m, d) else l m d) := by
  intro d d' hd
  obtain ⟨e, x, c, c', hc, hc', hs⟩ := hf d d' hd
  by_cases he : e.failed
  · exact ⟨e, w x, c, c', by simp [hc, he], by simp [hc', he], hs⟩
  · obtain ⟨e₂, y, b, b', hb, hb', hs₂⟩ := hk x c c' hs
    exact ⟨e₂, y, b, b', by simp [hc, he, hb], by simp [hc', he, hb'], hs₂⟩

theorem Agree.map (hf : Agree f g) (w : α → δ) :
    Agree
      (fun d => do
        let (error, m, d) ← f d
        return (error, w m, d))
      (fun d => do
        let (error, m, d) ← g d
        return (error, w m, d)) := by
  intro d d' hd
  obtain ⟨e, x, c, c', hc, hc', hs⟩ := hf d d' hd
  exact ⟨e, w x, c, c', by simp [hc], by simp [hc'], hs⟩

theorem Agree.congr {f₁ : Decoding β → Option (Error × α × Decoding β)}
    {g₁ : Decoding γ → Option (Error × α × Decoding γ)} (h : Agree f g) (hf : ∀ d, f₁ d = f d)
    (hg : ∀ d, g₁ d = g d) : Agree f₁ g₁ := by
  intro d d' hd
  rw [hf, hg]
  exact h d d' hd

end

/-! ## Fields -/

theorem decodeValue_agrees (w : Nat) : Agree (decodeValue (β := β) w) (decodeValue (β := γ) w) := by
  intro d d' hd
  by_cases hlt : (readable d.buffer).length < w
  · have hlt' : (readable d'.buffer).length < w := by rwa [← hd.readable]
    refine ⟨recoverableError "Buffer too small", 0, d, d', ?_, ?_, hd⟩
    · rw [decodeValue, (StreamValue.decode_spec hd.left w 0).2 hlt]
      rfl
    · rw [decodeValue, (StreamValue.decode_spec hd.right w 0).2 hlt']
      rfl
  · have hge : w ≤ (readable d.buffer).length := Nat.not_lt.mp hlt
    obtain ⟨b, h, hb, hr, -⟩ := (StreamValue.decode_spec hd.left w 0).1 hge
    obtain ⟨b', h', hb', hr', -⟩ := (StreamValue.decode_spec hd.right w 0).1 (by rwa [← hd.readable])
    rw [← hd.readable] at h' hr'
    obtain ⟨x, hx⟩ : ∃ x, x = BitVec.ofNat (8 * w) (LittleEndian.leNat ((readable d.buffer).take w)) := ⟨_, rfl⟩
    rw [← hx] at h h'
    refine ⟨noError, x, { d with buffer := b }, { d' with buffer := b' }, ?_, ?_, hb, hb', hr.trans hr'.symm,
      hd.resizes⟩
    · rw [decodeValue, h]
      rfl
    · rw [decodeValue, h']
      rfl

theorem string_agrees (m : Vec UInt8) (size : BitVec 64) :
    Agree (β := β) (γ := γ)
      (fun d => do
        if size.toNat > (← readCompositeLength d.buffer) then
          return (recoverableError "Buffer too small", m, d)
        else
          let value := Vec.empty.resize 0 size
          let d := d.resize size.toNat
          if size.toNat > (← readCompositeLength d.buffer) then
            return (recoverableError "Buffer too small", m, d)
          else
            let value ← readBytes d.buffer value.size 0 value
            let b ← readAdvance d.buffer value.size
            return (noError, value, { d with buffer := b }))
      (fun d => do
        if size.toNat > (← readCompositeLength d.buffer) then
          return (recoverableError "Buffer too small", m, d)
        else
          let value := Vec.empty.resize 0 size
          let d := d.resize size.toNat
          if size.toNat > (← readCompositeLength d.buffer) then
            return (recoverableError "Buffer too small", m, d)
          else
            let value ← readBytes d.buffer value.size 0 value
            let b ← readAdvance d.buffer value.size
            return (noError, value, { d with buffer := b })) := by
  intro d d' hd
  obtain ⟨hl, hl'⟩ := hd.lengths
  by_cases hlt : (readable d.buffer).length < size.toNat
  · exact ⟨recoverableError "Buffer too small", m, d, d', by simp [hl, hlt], by simp [hl', hlt], hd⟩
  · have hge : size.toNat ≤ (readable d.buffer).length := Nat.not_lt.mp hlt
    have hsize : (Vec.empty.resize (0 : UInt8) size).1.length = size.toNat := Vec.length_resize ..
    obtain ⟨v, hv, hbytes⟩ := readBytes_spec hd.left size.toNat 0 (Vec.empty.resize 0 size) (by omega) (by omega)
    obtain ⟨v', hv', hbytes'⟩ := readBytes_spec hd.right size.toNat 0 (Vec.empty.resize 0 size) (by omega)
      (by rw [← hd.readable]; omega)
    obtain rfl : v' = v := Subtype.ext (by rw [hbytes', hbytes, hd.readable])
    have hvl : v'.1.length = size.toNat := by
      rw [hbytes, List.take_zero, List.nil_append, List.drop_zero, List.length_take, Nat.min_eq_left hge]
    obtain ⟨b, hadv, hb, hr, -⟩ := ReadLaws.readAdvance_eq hd.left hge
    obtain ⟨b', hadv', hb', hr', -⟩ := ReadLaws.readAdvance_eq hd.right (k := size.toNat) (by rwa [← hd.readable])
    refine ⟨noError, v', { d.resize size.toNat with buffer := b }, { d'.resize size.toNat with buffer := b' }, ?_, ?_,
      hb, hb', ?_, (hd.resize size.toNat).resizes⟩
    · simp [hl, hlt, Decoding.resize, Vec.size, hsize, hv, hvl, hadv]
    · simp [hl', hlt, Decoding.resize, Vec.size, hsize, hv', hvl, hadv']
    · rw [hr, hr', hd.readable]

theorem decodeElements_agrees {f : α → Decoding β → Option (Error × α × Decoding β)}
    {g : α → Decoding γ → Option (Error × α × Decoding γ)} (hf : ∀ x, Agree (f x) (g x)) :
    ∀ (n i : Nat) (m : Vec α), i + n = m.1.length → Agree (decodeElements f n i m) (decodeElements g n i m)
  | 0, _, m, _ => agree_return noError m
  | n + 1, i, m, hi => by
    have hlt : i < m.1.length := by omega
    have hat : m.at? i = some m.1[i] := List.getElem?_eq_getElem hlt
    have h := (hf m.1[i]).seq (fun x => m.set i x) fun x =>
      decodeElements_agrees hf n (i + 1) (m.set i x) (by simp only [Vec.set, List.length_set]; omega)
    refine h.congr (fun d => ?_) (fun d => ?_)
    · simp only [decodeElements, hat, Option.bind_eq_bind, Option.bind_some]
    · simp only [decodeElements, hat, Option.bind_eq_bind, Option.bind_some]

theorem union_agrees {vs : Alternatives} {id : Nat} (m : Variant vs)
    (h : Agree (decodeMember (β := β) vs id 0 (some m)) (decodeMember (β := γ) vs id 0 (some m))) :
    Agree (β := β) (γ := γ)
      (fun d => do
        if id ≥ vs.count then
          return (criticalError "Union doesn't have this many id's", m, d)
        else
          let (error, v, d) ← decodeMember vs id 0 (some m) d
          return (error, v.getD m, d))
      (fun d => do
        if id ≥ vs.count then
          return (criticalError "Union doesn't have this many id's", m, d)
        else
          let (error, v, d) ← decodeMember vs id 0 (some m) d
          return (error, v.getD m, d)) := by
  by_cases hid : id ≥ vs.count
  · simp only [if_pos hid]
    exact agree_return _ m
  · simp only [if_neg hid]
    exact h.map fun v => v.getD m

theorem array_agrees {f : α → Decoding β → Option (Error × α × Decoding β)}
    {g : α → Decoding γ → Option (Error × α × Decoding γ)} (hf : ∀ x, Agree (f x) (g x)) (x : α) (m : Vec α)
    (k : BitVec 64) :
    Agree (fun d => decodeElements f k.toNat 0 (m.resize x k) (d.resize k.toNat))
      (fun d => decodeElements g k.toNat 0 (m.resize x k) (d.resize k.toNat)) := by
  intro d d' hd
  have hlen := Vec.length_resize x m k
  exact decodeElements_agrees hf k.toNat 0 _ (by omega) _ _ (hd.resize k.toNat)

/-! ## Messages -/

mutual

/-- **Decoding agrees** over any two buffers with the same bytes. -/
theorem decodeImpl_agrees : ∀ (S : Schema) (m : Message S),
    Agree (decodeImpl (β := β) S m) (decodeImpl (β := γ) S m)
  | .primitive p, _ => decodeValue_agrees p.width
  | .string, m => by
    intro d d' hd
    obtain ⟨hl, hl'⟩ := hd.lengths
    by_cases hlt : (readable d.buffer).length < 8
    · exact ⟨recoverableError "Buffer too small", m, d, d', by simp [decodeImpl, hl, hlt],
        by simp [decodeImpl, hl', hlt], hd⟩
    · obtain ⟨e, x, c, c', hc, hc', hs⟩ := (decodeValue_agrees 8).seq (fun _ => m) (string_agrees m) d d' hd
      refine ⟨e, x, c, c', ?_, ?_, hs⟩
      · rw [decodeImpl, hl, Option.bind_eq_bind, Option.bind_some, if_neg hlt]
        exact hc
      · rw [decodeImpl, hl', Option.bind_eq_bind, Option.bind_some, if_neg hlt]
        exact hc'
  | .tuple ts, m => decodeMembers_agrees ts m
  | .struct _ vs, m => decodeMembers_agrees vs m
  | .union _ vs, m => (decodeValue_agrees 4).seq (fun _ => m) fun id =>
    union_agrees m (decodeMember_agrees vs id.toNat 0 (some m))
  | .array t, m => (decodeValue_agrees 8).seq (fun _ => m) fun k =>
    array_agrees (decodeImpl_agrees t) (Message.init t) m k

theorem decodeMembers_agrees : ∀ (ts : Pack) (m : Record ts),
    Agree (decodeMembers (β := β) ts m) (decodeMembers (β := γ) ts m)
  | .nil, m => agree_return noError m
  | .cons t ts, (m, ms) => (decodeImpl_agrees t m).seq (fun m => (m, ms)) fun m =>
    (decodeMembers_agrees ts ms).map fun ms => (m, ms)

theorem decodeMember_agrees : ∀ (ts : Alternatives) (id i : Nat) (held : Option (Variant ts)),
    Agree (decodeMember (β := β) ts id i held) (decodeMember (β := γ) ts id i held)
  | .one t, id, i, held => by
    by_cases hid : id = i
    · refine ((decodeImpl_agrees t (held.getD (Message.init t))).map some).congr (fun d => ?_) (fun d => ?_)
      · rw [decodeMember, if_pos hid]
        rfl
      · rw [decodeMember, if_pos hid]
        rfl
    · refine (agree_return noError held).congr (fun d => ?_) (fun d => ?_)
      · rw [decodeMember, if_neg hid]
        rfl
      · rw [decodeMember, if_neg hid]
        rfl
  | .cons t ts, id, i, held => by
    by_cases hid : id = i
    · have h := (decodeImpl_agrees t (Variant.get held)).seq
        (fun m => (some (Sum.inl m) : Option (Message t ⊕ Variant ts))) fun m =>
          (decodeMember_agrees ts id (i + 1) none).map fun v => some (v.elim (.inl m) .inr)
      refine h.congr (fun d => ?_) (fun d => ?_)
      · rw [decodeMember, if_pos hid]
        rfl
      · rw [decodeMember, if_pos hid]
        rfl
    · have h := (decodeMember_agrees ts id (i + 1) (Variant.next held)).map
        fun v => (v.map Sum.inr).or (show Option (Message t ⊕ Variant ts) from held)
      refine h.congr (fun d => ?_) (fun d => ?_)
      · rw [decodeMember, if_neg hid]
        rfl
      · rw [decodeMember, if_neg hid]
        rfl

end

end

end ProtoKel

/-! ## Packets -/

namespace ProtoKelCodec

section
variable {β γ : Type} [Buffer β] [ReadLaws β] [Buffer γ] [ReadLaws γ] {S : Schema}

omit [ReadLaws β] in
theorem decode_message {old x m : Message S} {limit : Nat} {b : β} {e₁ e₂ e : Error} {k : BitVec 64}
    {d c : ProtoKel.Decoding (BufferView β)} {r : ProtoKel.Decoding β}
    (h₁ : ProtoKel.decodeValue 8 ⟨BufferView.new b, []⟩ = some (e₁, k, d))
    (h₂ : ProtoKel.decodeImpl S old d = some (e₂, x, c)) (h : decode S old b limit = some (e, m, r)) :
    m = if e₁.failed ∨ k.toNat > limit then old else x := by
  simp only [decode, h₁, Option.bind_eq_bind, Option.bind_some] at h
  split at h
  · rename_i hfail
    cases h
    rw [if_pos (Or.inl hfail)]
  · rename_i hfail
    split at h
    · rename_i hgt
      cases h
      rw [if_pos (Or.inr hgt)]
    · rename_i hle
      rw [if_neg (not_or.mpr ⟨hfail, hle⟩)]
      simp only [h₂, Option.bind_some, ProtoKel.size_spec] at h
      split at h
      · cases h
        rfl
      · split at h
        · cases h
          rfl
        · obtain ⟨b', -, h⟩ := Option.bind_eq_some_iff.mp h
          cases h
          rfl

/-- **Decoding agrees** on whole packets: what differs between two buffers with the same bytes is where
these lie, before the call and after it. -/
theorem decode_agrees (hS : S.wellFormed) (old : Message S) (limit : Nat) {b : β} {b' : γ} (hb : ReadValid b)
    (hb' : ReadValid b') (h : readable b = readable b') :
    ∃ e m k resizes c c', decode S old b limit = some (e, m, ⟨c, resizes⟩) ∧
      decode S old b' limit = some (e, m, ⟨c', resizes⟩) ∧ k ≤ (readable b).length ∧
      readable c = (readable b).drop k ∧ readable c' = (readable b').drop k ∧
      (e.failed = true → k = 0 ∧ c = b ∧ c' = b') := by
  cases hp : (Wire.packet S limit).run (readable b) with
  | ok r =>
    obtain ⟨m, rest⟩ := r
    obtain ⟨c, hc, -, -, hr⟩ := decode_ok old hb hp
    obtain ⟨c', hc', -, -, hr'⟩ := decode_ok old hb' (h ▸ hp)
    have hlt := ReadLaws.readable_lt hb
    have hw := ((Wire.packet_exact hS (Wire.body_lt hS (by omega) hp)).mp hp).1
    refine ⟨noError, m, (Wire.packetOf S m).length, _, c, c', hc, by rw [h]; exact hc', ?_, ?_, ?_,
      fun hfail => by cases hfail⟩
    · rw [hw, List.length_append]
      exact Nat.le_add_right _ _
    · rw [hr, hw, List.drop_left]
    · rw [hr', ← h, hw, List.drop_left]
  | error e =>
    obtain ⟨-, m, hm⟩ := decode_error old hb hp
    obtain ⟨-, m', hm'⟩ := decode_error old hb' (h ▸ hp)
    have hd : ProtoKel.SameReads (⟨BufferView.new b, []⟩ : ProtoKel.Decoding (BufferView β))
        (⟨BufferView.new b', []⟩ : ProtoKel.Decoding (BufferView γ)) :=
      ⟨⟨hb, Nat.zero_le _⟩, ⟨hb', Nat.zero_le _⟩, h, rfl⟩
    obtain ⟨e₁, k, d, d', hd₁, hd₁', hs⟩ := ProtoKel.decodeValue_agrees 8 _ _ hd
    obtain ⟨e₂, x, c, c', hc, hc', -⟩ := ProtoKel.decodeImpl_agrees S old d d' hs
    obtain rfl : m = m' := (decode_message hd₁ hc hm).trans (decode_message hd₁' hc' hm').symm
    rw [← h] at hm'
    exact ⟨e, m, 0, _, b, b', hm, hm', Nat.zero_le _, rfl, rfl, fun _ => ⟨rfl, rfl, rfl⟩⟩

end

end ProtoKelCodec

/-! ## Views over views -/

/-- A ring or a one-time buffer under `n` views. -/
def Stacked : Nat → Type
  | 0 => AnyBuffer
  | n + 1 => BufferView (Stacked n)

namespace Stacked

instance instBuffer : (n : Nat) → Buffer (Stacked n)
  | 0 => inferInstanceAs (Buffer AnyBuffer)
  | n + 1 =>
    have := instBuffer n
    inferInstanceAs (Buffer (BufferView (Stacked n)))

instance instReadLaws : (n : Nat) → ReadLaws (Stacked n)
  | 0 => inferInstanceAs (ReadLaws AnyBuffer)
  | n + 1 =>
    have := instReadLaws n
    inferInstanceAs (ReadLaws (BufferView (Stacked n)))

end Stacked

namespace ProtoKelCodec

/-- **Decoding does not depend on the layout.** Over any two buffers with the same readable bytes it ends,
with the same error, message and number of bytes consumed, and a failing call leaves both as they were. -/
theorem decode_ignores_layout (S : Schema) (hS : S.wellFormed) (old : Message S) (limit : Nat) (n n' : Nat)
    (b : Stacked n) (b' : Stacked n') (hb : ReadValid b) (hb' : ReadValid b') (h : readable b = readable b') :
    ∃ e m k resizes c c', decode S old b limit = some (e, m, ⟨c, resizes⟩) ∧
      decode S old b' limit = some (e, m, ⟨c', resizes⟩) ∧ k ≤ (readable b).length ∧
      readable c = (readable b).drop k ∧ readable c' = (readable b').drop k ∧
      (e.failed = true → k = 0 ∧ c = b ∧ c' = b') :=
  decode_agrees hS old limit hb hb' h

/-- The bytes of the sample ring in one piece, behind two that a view has already read. -/
def sampleView : BufferView AnyBuffer where
  buffer := .array
    { buffer := [5, 5] ++ readable sampleRing
      readPosition := 0
      writePosition := 33
      small := by decide
      read_le := by decide
      write_le := by decide }
  readOffset := 2
  writeOffset := 0

theorem decode_ignores_layout_sample :
    ∃ e m k resizes c c',
      decode (β := Stacked 0) sampleSchema (Message.init sampleSchema) (AnyBuffer.ring sampleRing) 4096 =
        some (e, m, ⟨c, resizes⟩) ∧
      decode (β := Stacked 1) sampleSchema (Message.init sampleSchema) sampleView 4096 =
        some (e, m, ⟨c', resizes⟩) ∧ readable c = (readable sampleRing).drop k ∧ readable c = readable c' := by
  have hsame : readable sampleRing = readable sampleView := by decide
  obtain ⟨e, m, k, resizes, c, c', h, h', -, hc, hc', -⟩ := decode_ignores_layout sampleSchema (by decide)
    (Message.init sampleSchema) 4096 0 1 (AnyBuffer.ring sampleRing) sampleView trivial ⟨trivial, by decide⟩ hsame
  exact ⟨e, m, k, resizes, c, c', h, h', hc, hc.trans ((congrArg (List.drop k) hsame).trans hc'.symm)⟩

end ProtoKelCodec

end Forstio
