import Forstio.DecodeExact

/-!
# Streams in chunks

Only a recoverable verdict can change when bytes arrive, so a reader that
decodes after each chunk until it meets an error gets the same messages however
the stream is cut.
-/

namespace Forstio

open Buffer Format

/-! ## The packets of a word -/

namespace Wire

/-- The messages decoded from the front of a word until the first error, and
the word that is left. -/
inductive Unpacks (S : Schema) (limit : Nat) : List UInt8 → List (Message S) → List UInt8 → Prop where
  | stop {bs : List UInt8} {e : Error} : (packet S limit).run bs = .error e → Unpacks S limit bs [] bs
  | more {bs r rest : List UInt8} {m : Message S} {ms : List (Message S)} :
    (packet S limit).run bs = .ok (m, r) → Unpacks S limit r ms rest → Unpacks S limit bs (m :: ms) rest

section
variable {S : Schema} {limit : Nat} {bs : List UInt8}

theorem Unpacks.unique {ms ms' : List (Message S)} {rest rest' : List UInt8} (h : Unpacks S limit bs ms rest)
    (h' : Unpacks S limit bs ms' rest') : ms = ms' ∧ rest = rest' := by
  induction h generalizing ms' rest' with
  | stop he =>
    cases h' with
    | stop => exact ⟨rfl, rfl⟩
    | more hm => cases he.symm.trans hm
  | more hm _ ih =>
    cases h' with
    | stop he => cases he.symm.trans hm
    | more hm' ht =>
      obtain ⟨rfl, rfl⟩ := Prod.mk.inj (Except.ok.inj (hm.symm.trans hm'))
      obtain ⟨rfl, rfl⟩ := ih ht
      exact ⟨rfl, rfl⟩

theorem Unpacks.append {ms ms' : List (Message S)} {rest rest' t : List UInt8} (h : Unpacks S limit bs ms rest)
    (h' : Unpacks S limit (rest ++ t) ms' rest') : Unpacks S limit (bs ++ t) (ms ++ ms') rest' := by
  induction h with
  | stop => exact h'
  | more hm _ ih => exact .more ((packet_steady S limit).ok hm t) (ih h')

theorem packet_shorter {m : Message S} {r : List UInt8} (h : (packet S limit).run bs = .ok (m, r)) :
    r.length < bs.length := by
  obtain ⟨k, r₁, hk, h⟩ := run_bind_ok.mp h
  have hbs := congrArg List.length ((number_exact 8 _ _ _).mp hk)
  rw [List.length_append, length_leBits] at hbs
  split at h
  · cases run_throw_ok.mp h
  · obtain ⟨m', r₂, hm, h⟩ := run_bind_ok.mp h
    have hle := (parse_steady S).le hm
    split at h
    · cases run_throw_ok.mp h
    · obtain ⟨-, rfl⟩ := Prod.mk.inj (run_pure_ok.mp h)
      omega

theorem Unpacks.le {ms : List (Message S)} {rest : List UInt8} (h : Unpacks S limit bs ms rest) :
    rest.length ≤ bs.length := by
  induction h with
  | stop => exact Nat.le_refl _
  | more hm _ ih => exact Nat.le_trans ih (Nat.le_of_lt (packet_shorter hm))

theorem unpacks_nil : Unpacks S limit [] [] [] := .stop (e := tooSmall) rfl

end

end Wire

/-! ## Decoding until an error -/

namespace ProtoKelCodec

section
variable {β : Type} [Buffer β]

/-- `while (true) { decode; if (failed) break; }`, at most `fuel` times. -/
def drain (S : Schema) (limit : Nat) : Nat → β → Option (List (Message S) × Error × β)
  | 0, _ => none
  | fuel + 1, b => do
    let (error, m, d) ← decode S (Message.init S) b limit
    if error.failed then
      return ([], error, d.buffer)
    else
      let (ms, error, b) ← drain S limit fuel d.buffer
      return (m :: ms, error, b)

theorem drain_spec [ReadLaws β] (S : Schema) (limit : Nat) : ∀ (fuel : Nat) (b : β), ReadValid b →
    (readable b).length < fuel → ∃ ms e b', drain S limit fuel b = some (ms, e, b') ∧ ReadValid b' ∧
      ReadFrame b b' ∧ Wire.Unpacks S limit (readable b) ms (readable b') ∧
      (Wire.packet S limit).run (readable b') = .error e
  | 0, _, _, h => by simp at h
  | fuel + 1, b, hb, h => by
    cases hp : (Wire.packet S limit).run (readable b) with
    | error e =>
      obtain ⟨hfail, m, hd⟩ := decode_error (Message.init S) hb hp
      exact ⟨[], e, b, by simp [drain, hd, hfail], hb, ReadLaws.frame_refl b, .stop hp, hp⟩
    | ok c =>
      obtain ⟨b₁, hd, hb₁, hf₁, hr₁⟩ := decode_ok (Message.init S) hb hp
      have hlt : (readable b₁).length < fuel := by
        have := Wire.packet_shorter hp
        rw [hr₁]
        omega
      obtain ⟨ms, e, b₂, h₂, hb₂, hf₂, hu, he⟩ := drain_spec S limit fuel b₁ hb₁ hlt
      rw [hr₁] at hu
      exact ⟨c.1 :: ms, e, b₂, by simp [drain, hd, h₂], hb₂, ReadLaws.frame_trans hf₁ hf₂, .more hp hu, he⟩

/-- Each chunk is pushed, then packets are decoded until there is an error. -/
def receive (S : Schema) (limit : Nat) : List (List UInt8) → β → Option (List (Message S) × β)
  | [], b => some ([], b)
  | chunk :: chunks, b => do
    let (error, b) ← push b chunk
    if error.failed then
      return ([], b)
    else
      let (ms, _, b) ← drain S limit ((← readCompositeLength b) + 1) b
      let (ms', b) ← receive S limit chunks b
      return (ms ++ ms', b)

end

theorem receive_spec (S : Schema) (limit : Nat) : ∀ (chunks : List (List UInt8)) (b : AnyBuffer),
    Wire.Unpacks S limit (readable b) [] (readable b) → chunks.flatten.length ≤ (writable b).length →
    ∃ ms b', receive S limit chunks b = some (ms, b') ∧
      Wire.Unpacks S limit (readable b ++ chunks.flatten) ms (readable b')
  | [], b, hu, _ => ⟨[], b, rfl, by simpa using hu⟩
  | chunk :: chunks, b, hu, hroom => by
    rw [List.flatten_cons, List.length_append] at hroom
    have hlt := WriteLaws.room (b := b) trivial
    obtain ⟨b₁, h₁, -, hw₁, ho₁, -⟩ := (push_spec (b := b) trivial chunk (by omega)).1 (by omega)
    rw [← AnyBuffer.readable_eq_written, ← AnyBuffer.readable_eq_written] at ho₁
    obtain ⟨ms, e, b₂, h₂, -, hf₂, hu₂, he⟩ := drain_spec S limit _ b₁ trivial (Nat.lt_succ_self _)
    have hlen : chunks.flatten.length ≤ (writable b₂).length := by
      have := AnyBuffer.room_of_frame hf₂ hu₂.le
      rw [hw₁, List.length_drop] at this
      omega
    obtain ⟨ms', b₃, h₃, hu₃⟩ := receive_spec S limit chunks b₂ (.stop he) hlen
    refine ⟨ms ++ ms', b₃, ?_, ?_⟩
    · simp [receive, h₁, ReadLaws.readCompositeLength_eq (b := b₁) trivial, h₂, h₃]
    · rw [List.flatten_cons, ← List.append_assoc, ← ho₁]
      exact hu₂.append hu₃

theorem decode_grows (S : Schema) (limit : Nat) {b b' : AnyBuffer} {t : List UInt8} {old m : Message S}
    (old' : Message S) {d : ProtoKel.Decoding AnyBuffer} (hb : readable b' = readable b ++ t)
    (h : decode S old b limit = some (noError, m, d)) : ∃ d', decode S old' b' limit = some (noError, m, d') ∧
      readable d'.buffer = readable d.buffer ++ t := by
  have hm := (decode_iff old limit trivial m (readable d.buffer)).mp ⟨d, h, rfl⟩
  have hm' := (Wire.packet_steady S limit).ok hm t
  rw [← hb] at hm'
  exact (decode_iff old' limit trivial m _).mpr hm'

theorem decode_critical (S : Schema) (limit : Nat) {b b' : AnyBuffer} {t : List UInt8} {old m : Message S}
    (old' : Message S) {e : Error} {d : ProtoKel.Decoding AnyBuffer} (hb : readable b' = readable b ++ t)
    (h : decode S old b limit = some (e, m, d)) (he : e.isCritical = true) :
    ∃ m' d', decode S old' b' limit = some (e, m', d') := by
  cases hp : (Wire.packet S limit).run (readable b) with
  | ok c =>
    obtain ⟨b₁, h₁, -⟩ := decode_ok old trivial hp
    obtain ⟨rfl, -⟩ := Prod.mk.inj (Option.some.inj (h.symm.trans h₁))
    cases he
  | error e' =>
    obtain ⟨-, m₁, h₁⟩ := decode_error old trivial hp
    obtain ⟨rfl, -⟩ := Prod.mk.inj (Option.some.inj (h.symm.trans h₁))
    rcases (Wire.packet_steady S limit).error hp with rfl | ⟨-, hp'⟩
    · cases he
    · have hp' := hp' t
      rw [← hb] at hp'
      obtain ⟨-, m', h'⟩ := decode_error old' trivial hp'
      exact ⟨m', _, h'⟩

/-- **Verdicts are stable when bytes arrive**, and chunking does not matter. -/
theorem decode_stable (S : Schema) (limit : Nat) :
    (∀ (b b' : AnyBuffer) (t : List UInt8) (old old' m : Message S) (d : ProtoKel.Decoding AnyBuffer),
      readable b' = readable b ++ t → decode S old b limit = some (noError, m, d) →
      ∃ d', decode S old' b' limit = some (noError, m, d') ∧ readable d'.buffer = readable d.buffer ++ t ∧
        (readable b').length - (readable d'.buffer).length = (readable b).length - (readable d.buffer).length) ∧
    (∀ (b b' : AnyBuffer) (t : List UInt8) (old old' m : Message S) (e : Error) (d : ProtoKel.Decoding AnyBuffer),
      readable b' = readable b ++ t → decode S old b limit = some (e, m, d) → e.isCritical = true →
      ∃ m' d', decode S old' b' limit = some (e, m', d')) ∧
    (∀ (b : AnyBuffer) (stream : List UInt8), readable b = [] → stream.length ≤ (writable b).length →
      ∃ ms, ∀ chunks, chunks.flatten = stream → ∃ b', receive S limit chunks b = some (ms, b')) := by
  refine ⟨fun b b' t old old' m d hb h => ?_, fun b b' t old old' m e d hb h he => ?_, fun b stream hb hroom => ?_⟩
  · obtain ⟨d', h', hr⟩ := decode_grows S limit old' hb h
    refine ⟨d', h', hr, ?_⟩
    rw [hb, hr, List.length_append, List.length_append]
    omega
  · exact decode_critical S limit old' hb h he
  · have hu : Wire.Unpacks S limit (readable b) [] (readable b) := by
      rw [hb]
      exact Wire.unpacks_nil
    obtain ⟨ms, b₁, -, hu₁⟩ := receive_spec S limit [stream] b hu (by simpa using hroom)
    refine ⟨ms, fun chunks hc => ?_⟩
    obtain ⟨ms', b₂, h₂, hu₂⟩ := receive_spec S limit chunks b hu (by rw [hc]; exact hroom)
    rw [hc] at hu₂
    rw [List.flatten_singleton] at hu₁
    obtain ⟨rfl, -⟩ := hu₁.unique hu₂
    exact ⟨b₂, h₂⟩

theorem decode_stable_bytes : ∃ ms b',
    receive (.primitive .uint8) 4096 [[1, 0, 0, 0], [0, 0, 0, 0, 7, 1, 0], [0, 0, 0, 0, 0, 0, 8]]
      (AnyBuffer.ring (RingBuffer.new 32 (by decide))) = some (ms, b') := by
  obtain ⟨ms, h⟩ := (decode_stable (.primitive .uint8) 4096).2.2 (AnyBuffer.ring (RingBuffer.new 32 (by decide)))
    [1, 0, 0, 0, 0, 0, 0, 0, 7, 1, 0, 0, 0, 0, 0, 0, 0, 8] (by decide) (by decide)
  obtain ⟨b', hb⟩ := h [[1, 0, 0, 0], [0, 0, 0, 0, 7, 1, 0], [0, 0, 0, 0, 0, 0, 8]] (by decide)
  exact ⟨ms, b', hb⟩

end ProtoKelCodec

end Forstio
