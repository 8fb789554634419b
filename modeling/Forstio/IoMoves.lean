import Forstio.IoReceive
import Forstio.IoSend

/-!
# What a step of a peer does to its stream

A step of a peer calls its stream some times or not at all. `Keeps` says what
one call does, to the stream and to the log beside it; `Moved` is what then
holds after a step of the peer: if its task was run, the last call had an
answer, and either the task waits or its completion is there.
-/

namespace Forstio

open Buffer

section
variable {τ : Type} (K U V : τ → List UInt8 → Prop)

/-- A call keeps `K`; `V` holds after an answer with bytes and `U` when there were none to move. -/
structure PartialStream.Keeps (p : PartialStream τ) : Prop where
  value : ∀ t log bytes n t', bytes ≠ [] → K t log → p.write t bytes = (.value n, t') →
    K t' (log ++ bytes.take n) ∧ V t' (log ++ bytes.take n)
  error : ∀ t log bytes e t', bytes ≠ [] → K t log → p.write t bytes = (.error e, t') → K t' log ∧ U t' log

structure PartialSource.Keeps (p : PartialSource τ) : Prop where
  value : ∀ t log length bytes t', 0 < length → K t log → p.read t length = (.value bytes, t') →
    K t' (log ++ bytes) ∧ V t' (log ++ bytes)
  error : ∀ t log length e t', 0 < length → K t log → p.read t length = (.error e, t') → K t' log ∧ U t' log

/-- A step from a stream `t` to `t'`; `busy` tells whether a task is out afterwards, `done` counts completions. -/
inductive Moved (t : τ) (log : List UInt8) (done : Nat) (t' : τ) (log' : List UInt8) (busy : Bool) (done' : Nat) : Prop
  | still (stream : t' = t) (log : log' = log) (busy : busy = false) (done : done' ≤ done)
  | waits (keeps : K t' log') (waiting : U t' log') (busy : busy = true) (done : done' ≤ done)
  | done (keeps : K t' log') (answered : V t' log') (busy : busy = false) (done : done' ≤ done + 1)

end

/-! ## Sending -/

namespace SendingPeer

variable {τ : Type} {K U V : τ → List UInt8 → Prop} {p : PartialStream τ}

def completions (s : SendingPeer τ) : Nat := (s.writeStepper.writeDone.getD []).length

def busy (s : SendingPeer τ) : Bool := s.writeStepper.writeTask.isSome

def MovedTo (K U V : τ → List UInt8 → Prop) (s s' : SendingPeer τ) : Prop :=
  Moved K U V s.out.stream s.out.handed s.completions s'.out.stream s'.out.handed s'.busy s'.completions

theorem call_cases {out out' : Outgoing τ} {a n : Nat} {r : ErrorOr Nat} (hn : 0 < n)
    (h : p.toOutputStream.write out a n = some (r, out')) : ∃ bytes, bytes ≠ [] ∧
      ((∃ k t', p.write out.stream bytes = (.value k, t') ∧ r = .value k ∧
        out' = { out with stream := t', handed := out.handed ++ bytes.take k }) ∨
      ∃ e t', p.write out.stream bytes = (.error e, t') ∧ r = .error e ∧ out' = { out with stream := t' }) := by
  obtain ⟨bytes, hload, hrest⟩ := Option.bind_eq_some_iff.mp h
  refine ⟨bytes, ?_, ?_⟩
  · have hlen : bytes.length = n := by
      unfold RingBuffer.load at hload
      split at hload
      next hfits =>
        rw [← Option.some.inj hload, Memory.length_slice hfits]
      next => cases hload
    exact List.length_pos_iff.mp (by omega)
  · rcases hanswer : p.write out.stream bytes with ⟨e | k, t'⟩
    · simp only [hanswer, Option.pure_def, Option.some.injEq, Prod.mk.injEq] at hrest
      exact Or.inr ⟨e, t', rfl, hrest.1.symm, hrest.2.symm⟩
    · simp only [hanswer, Option.pure_def, Option.some.injEq, Prod.mk.injEq] at hrest
      exact Or.inl ⟨k, t', rfl, hrest.1.symm, hrest.2.symm⟩

/-- A write step, seen from the stream. -/
theorem writeStep_moved (hp : p.Keeps K U V) {s : SendingPeer τ} {h h' : WriteTaskAndStepHelper} {out' : Outgoing τ}
    (hdone : h.writeDone = s.writeStepper.writeDone)
    (hsound : ∀ task, h.writeTask = some task → task.Sound) (hK : K s.out.stream s.out.handed)
    (hstep : h.writeStep p.toOutputStream s.out = some (h', out')) :
    MovedTo K U V s { s with writeStepper := h', out := out' } := by
  have hloop := WriteTaskAndStepHelper.writeLoop_keeps
    (K := fun o : Outgoing τ => K o.stream o.handed) (U := fun o => U o.stream o.handed)
    (V := fun o => V o.stream o.handed) ?_ ?_ _ h h' s.out out' hsound hK hstep
  · cases hloop with
    | idle htask hh hout =>
      subst hh hout
      refine .still rfl rfl ?_ (Nat.le_of_eq ?_)
      · rw [busy, htask]
        rfl
      · rw [completions, completions, hdone]
    | waits task hh hK' hU' =>
      subst hh
      refine .waits hK' hU' rfl (Nat.le_of_eq ?_)
      rw [completions, completions, hdone]
    | done result hh hK' hV' =>
      subst hh
      refine .done hK' hV' rfl ?_
      simp only [completions, WriteTaskAndStepHelper.finish, hdone]
      cases s.writeStepper.writeDone with
      | none => simp
      | some results => simp
  · intro o a n k o' hn hKo hwrite
    obtain ⟨bytes, hne, ⟨k', t', hanswer, hr, rfl⟩ | ⟨e, t', -, hr, -⟩⟩ := call_cases hn hwrite
    · cases hr
      exact hp.value _ _ _ _ _ hne hKo hanswer
    · cases hr
  · intro o a n e o' hn hKo hwrite
    obtain ⟨bytes, hne, ⟨k', t', -, hr, -⟩ | ⟨e', t', hanswer, hr, rfl⟩⟩ := call_cases hn hwrite
    · cases hr
    · cases hr
      have hrec := p.recoverable o.stream bytes e (by rw [hanswer])
      refine ⟨?_, hp.error _ _ _ _ _ hne hKo hanswer⟩
      simp only [Error.isRecoverable, Error.isCritical, decide_eq_true_eq, decide_eq_false_iff_not] at hrec ⊢
      omega

theorem write_moved (hp : p.Keeps K U V) {s s' : SendingPeer τ} (hK : K s.out.stream s.out.handed)
    (h : s.write p = some s') : MovedTo K U V s s' := by
  obtain ⟨buffer, -, h⟩ := Option.bind_eq_some_iff.mp h
  obtain ⟨length, hlength, h⟩ := Option.bind_eq_some_iff.mp h
  obtain ⟨⟨stepper, out⟩, hwrite, h⟩ := Option.bind_eq_some_iff.mp h
  obtain rfl := Option.some.inj h
  obtain ⟨_, hpos, hwrite⟩ := Option.bind_eq_some_iff.mp hwrite
  obtain ⟨-, -, hwrite⟩ := Option.bind_eq_some_iff.mp hwrite
  refine writeStep_moved hp (h := { s.writeStepper with writeTask := some ⟨buffer, length, 0⟩ }) rfl
    (fun task htask => ?_) hK hwrite
  obtain rfl := Option.some.inj htask
  rw [readSegmentLength_zero] at hlength
  have hlength : segment s.out.outBuffer = length := Option.some.inj hlength
  have hseg : segment s.out.outBuffer ≤ s.out.outBuffer.readCompositeLength := Nat.min_le_left _ _
  have hle : s.out.outBuffer.readCompositeLength ≤ s.out.outBuffer.buffer.length :=
    s.out.outBuffer.readCompositeLength_le
  have hsmall := s.out.outBuffer.small
  exact ⟨of_assert hpos, by dsimp only; omega⟩

theorem write_sent {s s' : SendingPeer τ} (h : s.write p = some s') : s'.sent = s.sent := by
  obtain ⟨buffer, -, h⟩ := Option.bind_eq_some_iff.mp h
  obtain ⟨length, -, h⟩ := Option.bind_eq_some_iff.mp h
  obtain ⟨r, -, h⟩ := Option.bind_eq_some_iff.mp h
  obtain rfl := Option.some.inj h
  rfl

theorem writeReady_sent {s s' : SendingPeer τ} (h : s.writeReady p = some s') : s'.sent = s.sent := by
  obtain ⟨r, -, h⟩ := Option.bind_eq_some_iff.mp h
  obtain rfl := Option.some.inj h
  rfl

theorem deliver_sent {s s' : SendingPeer τ} (h : s.deliver p = some s') : s'.sent = s.sent := by
  unfold deliver at h
  split at h
  · obtain ⟨b, -, h⟩ := Option.bind_eq_some_iff.mp h
    dsimp only at h
    split at h
    · have hsent := write_sent h
      exact hsent
    · obtain rfl := Option.some.inj h
      rfl
  · obtain rfl := Option.some.inj h
    rfl
  · obtain rfl := Option.some.inj h
    rfl

/-- A packet is sent as a whole or not at all. -/
theorem send_sent {s s' : SendingPeer τ} {msg : Packet} {error : Error} (h : s.send p msg = some (error, s')) :
    (s'.sent = s.sent ∧ error.failed = true) ∨ (s'.sent = s.sent ++ [msg] ∧ error = noError) := by
  obtain ⟨length, -, h⟩ := Option.bind_eq_some_iff.mp h
  obtain ⟨⟨e, m, b⟩, -, h⟩ := Option.bind_eq_some_iff.mp h
  dsimp only at h
  split at h
  next hfailed =>
    obtain ⟨rfl, rfl⟩ := Prod.mk.inj (Option.some.inj h)
    exact Or.inl ⟨rfl, hfailed⟩
  next =>
    split at h
    · obtain ⟨s₁, hwrite, h⟩ := Option.bind_eq_some_iff.mp h
      obtain ⟨rfl, rfl⟩ := Prod.mk.inj (Option.some.inj h)
      exact Or.inr ⟨write_sent hwrite, rfl⟩
    · obtain ⟨rfl, rfl⟩ := Prod.mk.inj (Option.some.inj h)
      exact Or.inr ⟨rfl, rfl⟩

theorem Inv.sound {s : SendingPeer τ} (hs : Inv s) : ∀ task, s.writeStepper.writeTask = some task → task.Sound := by
  intro task htask
  cases hs with
  | idle _ hstepper _ => rw [hstepper] at htask; cases htask
  | writing task' hsound hstepper _ =>
    rw [hstepper] at htask
    exact Option.some.inj htask ▸ hsound
  | written _ hstepper _ => rw [hstepper] at htask; cases htask

theorem writeReady_moved (hp : p.Keeps K U V) {s s' : SendingPeer τ} (hs : Inv s) (hK : K s.out.stream s.out.handed)
    (h : s.writeReady p = some s') : MovedTo K U V s s' := by
  obtain ⟨⟨stepper, out⟩, hstep, h⟩ := Option.bind_eq_some_iff.mp h
  obtain rfl := Option.some.inj h
  exact writeStep_moved hp rfl hs.sound hK hstep

/-- The completion is taken from the feeder before the callback writes on. -/
theorem deliver_moved (hp : p.Keeps K U V) {s s' : SendingPeer τ} (hs : Inv s) (hK : K s.out.stream s.out.handed)
    (h : s.deliver p = some s') : (s.completions = 0 ∧ s' = s) ∨ (s.completions = 1 ∧
      Moved K U V s.out.stream s.out.handed 0 s'.out.stream s'.out.handed s'.busy s'.completions) := by
  cases hs with
  | idle _ hstepper _ =>
    simp only [deliver, hstepper, Option.some.injEq] at h
    exact Or.inl ⟨by rw [completions, hstepper]; rfl, h.symm⟩
  | writing task _ hstepper _ =>
    simp only [deliver, hstepper, Option.some.injEq] at h
    exact Or.inl ⟨by rw [completions, hstepper]; rfl, h.symm⟩
  | written result hstepper hwritten =>
    obtain ⟨-, n, rfl, -⟩ := hwritten
    simp only [deliver, hstepper] at h
    obtain ⟨b, -, h⟩ := Option.bind_eq_some_iff.mp h
    refine Or.inr ⟨by rw [completions, hstepper]; rfl, ?_⟩
    dsimp only at h
    split at h
    · exact write_moved hp (K := K) (U := U) (V := V) (s := { s with
        writeStepper := ⟨none, some []⟩, out := { s.out with outBuffer := b } }) hK h
    · obtain rfl := Option.some.inj h
      exact .still rfl rfl rfl (Nat.le_refl _)

theorem send_moved (hp : p.Keeps K U V) {s s' : SendingPeer τ} {msg : Packet} {error : Error}
    (hK : K s.out.stream s.out.handed) (h : s.send p msg = some (error, s')) :
    (s'.out.stream = s.out.stream ∧ s'.out.handed = s.out.handed ∧ s'.writeStepper = s.writeStepper) ∨
      MovedTo K U V s s' := by
  obtain ⟨length, -, h⟩ := Option.bind_eq_some_iff.mp h
  obtain ⟨⟨e, m, outBuffer⟩, -, h⟩ := Option.bind_eq_some_iff.mp h
  dsimp only at h
  split at h
  · obtain ⟨-, rfl⟩ := Prod.mk.inj (Option.some.inj h)
    exact Or.inl ⟨rfl, rfl, rfl⟩
  · split at h
    · obtain ⟨s₁, hwrite, h⟩ := Option.bind_eq_some_iff.mp h
      obtain ⟨-, rfl⟩ := Prod.mk.inj (Option.some.inj h)
      exact Or.inr (write_moved hp (s := { s with out := { s.out with outBuffer }, sent := s.sent ++ [msg] }) hK hwrite)
    · obtain ⟨-, rfl⟩ := Prod.mk.inj (Option.some.inj h)
      exact Or.inl ⟨rfl, rfl, rfl⟩

end SendingPeer

/-! ## Receiving -/

namespace ReceivingPeer

variable {S : Schema} {τ : Type} {K U V : τ → List UInt8 → Prop} {p : PartialSource τ}

def completions (r : ReceivingPeer S τ) : Nat := (r.readStepper.readDone.getD []).length

def busy (r : ReceivingPeer S τ) : Bool := r.readStepper.readTask.isSome

def MovedTo (K U V : τ → List UInt8 → Prop) (r r' : ReceivingPeer S τ) : Prop :=
  Moved K U V r.incoming.stream r.incoming.taken r.completions r'.incoming.stream r'.incoming.taken r'.busy r'.completions

theorem call_cases {i i' : Incoming τ} {a n : Nat} {answer : ErrorOr Nat}
    (h : p.toInputStream.read i a n = some (answer, i')) :
    (∃ bytes t' b', p.read i.stream n = (.value bytes, t') ∧ answer = .value bytes.length ∧
      i' = ⟨b', t', i.taken ++ bytes⟩) ∨
    ∃ e t', p.read i.stream n = (.error e, t') ∧ answer = .error e ∧ i' = { i with stream := t' } := by
  rcases hanswer : p.read i.stream n with ⟨e | bytes, t'⟩
  · simp only [PartialSource.toInputStream, hanswer, Option.pure_def, Option.some.injEq, Prod.mk.injEq] at h
    exact Or.inr ⟨e, t', rfl, h.1.symm, h.2.symm⟩
  · simp only [PartialSource.toInputStream, hanswer, Option.bind_eq_bind, Option.bind_eq_some_iff, Option.pure_def,
      Option.some.injEq, Prod.mk.injEq] at h
    obtain ⟨b', -, rfl, rfl⟩ := h
    exact Or.inl ⟨bytes, t', b', rfl, rfl, rfl⟩

theorem readStep_moved (hp : p.Keeps K U V) {r : ReceivingPeer S τ} {h h' : ReadTaskAndStepHelper} {i' : Incoming τ}
    (hdone : h.readDone = r.readStepper.readDone)
    (hsound : ∀ task, h.readTask = some task → task.Sound) (hK : K r.incoming.stream r.incoming.taken)
    (hstep : h.readStep p.toInputStream r.incoming = some (h', i')) :
    MovedTo K U V r { r with readStepper := h', incoming := i' } := by
  have hloop := ReadTaskAndStepHelper.readLoop_keeps
    (K := fun i : Incoming τ => K i.stream i.taken) (U := fun i => U i.stream i.taken)
    (V := fun i => V i.stream i.taken) ?_ ?_ _ h h' r.incoming i' hsound hK hstep
  · cases hloop with
    | idle htask hh hi =>
      subst hh hi
      refine .still rfl rfl ?_ (Nat.le_of_eq ?_)
      · rw [busy, htask]
        rfl
      · rw [completions, completions, hdone]
    | waits task hh hK' hU' =>
      subst hh
      refine .waits hK' hU' rfl (Nat.le_of_eq ?_)
      rw [completions, completions, hdone]
    | done result hh hK' hV' =>
      subst hh
      refine .done hK' hV' rfl ?_
      simp only [completions, ReadTaskAndStepHelper.finish, hdone]
      cases r.readStepper.readDone with
      | none => simp
      | some results => simp
  · intro i a n k i' hn hKi hread
    rcases call_cases hread with ⟨bytes, t', b', hanswer, hr, rfl⟩ | ⟨e, t', -, hr, -⟩
    · cases hr
      obtain ⟨-, hle, -⟩ := p.bounded i.stream n bytes hn (by rw [hanswer])
      exact ⟨hle, hp.value _ _ _ _ _ hn hKi hanswer⟩
    · cases hr
  · intro i a n e i' hn hKi hread
    rcases call_cases hread with ⟨bytes, t', b', -, hr, -⟩ | ⟨e', t', hanswer, hr, rfl⟩
    · cases hr
    · cases hr
      have hrec := p.recoverable i.stream n e (by rw [hanswer])
      refine ⟨?_, hp.error _ _ _ _ _ hn hKi hanswer⟩
      simp only [Error.isRecoverable, Error.isCritical, decide_eq_true_eq, decide_eq_false_iff_not] at hrec ⊢
      omega

theorem read_moved (hp : p.Keeps K U V) {r r' : ReceivingPeer S τ} (hK : K r.incoming.stream r.incoming.taken)
    (h : r.read p = some r') : MovedTo K U V r r' := by
  obtain ⟨buffer, hbuffer, h⟩ := Option.bind_eq_some_iff.mp h
  obtain ⟨max, hmax, h⟩ := Option.bind_eq_some_iff.mp h
  obtain ⟨⟨stepper, i⟩, hread, h⟩ := Option.bind_eq_some_iff.mp h
  obtain rfl := Option.some.inj h
  obtain ⟨_, hpos, hread⟩ := Option.bind_eq_some_iff.mp hread
  obtain ⟨-, -, hread⟩ := Option.bind_eq_some_iff.mp hread
  refine readStep_moved hp (h := { r.readStepper with readTask := some ⟨buffer, 1, max, 0⟩ }) rfl
    (fun task htask => ?_) hK hread
  obtain rfl := Option.some.inj htask
  obtain ⟨_, hassert, -⟩ := Option.bind_eq_some_iff.mp hbuffer
  exact sound_task ⟨hbuffer, Nat.lt_of_le_of_lt (Nat.zero_le _) (of_assert hassert), max, hmax, Nat.le_refl _⟩
    (of_assert hpos).1

theorem Inv.sound {r : ReceivingPeer S τ} (hr : Inv p r) : ∀ task, r.readStepper.readTask = some task → task.Sound := by
  intro task htask
  cases hr with
  | reading a max hR hmax hstepper _ =>
    rw [hstepper] at htask
    exact Option.some.inj htask ▸ sound_task hR hmax
  | completed a max used data _ hstepper _ _ _ _ _ _ => rw [hstepper] at htask; cases htask
  | failed used rest _ _ _ hsome _ =>
    rcases hsome with hnone | ⟨a, max, heq, hmax, hR⟩
    · rw [hnone] at htask
      cases htask
    · rw [heq] at htask
      exact Option.some.inj htask ▸ sound_task hR hmax

theorem readReady_moved (hp : p.Keeps K U V) {r r' : ReceivingPeer S τ} (hr : Inv p r)
    (hK : K r.incoming.stream r.incoming.taken) (h : r.readReady p = some r') : MovedTo K U V r r' := by
  obtain ⟨⟨stepper, i⟩, hstep, h⟩ := Option.bind_eq_some_iff.mp h
  obtain rfl := Option.some.inj h
  exact readStep_moved hp rfl hr.sound hK hstep

theorem readDone_moved (hp : p.Keeps K U V) {r r' : ReceivingPeer S τ} {bytes : Nat}
    (hidle : r.readStepper.readTask = none) (hK : K r.incoming.stream r.incoming.taken)
    (h : r.readDone p bytes = some r') : MovedTo K U V r r' := by
  obtain ⟨b, -, h⟩ := Option.bind_eq_some_iff.mp h
  obtain ⟨length, -, h⟩ := Option.bind_eq_some_iff.mp h
  dsimp only at h
  split at h
  · obtain rfl := Option.some.inj h
    refine .still rfl rfl ?_ (Nat.le_refl _)
    simp only [fail, busy, hidle, Option.isSome_none]
  · obtain ⟨r₁, hread, h⟩ := Option.bind_eq_some_iff.mp h
    obtain ⟨⟨ms, e, b'⟩, -, h⟩ := Option.bind_eq_some_iff.mp h
    have hmoved := read_moved hp (r := { r with incoming := { r.incoming with inBuffer := b } }) hK hread
    obtain rfl := Option.some.inj h
    dsimp only
    split <;> exact hmoved

theorem deliver_moved (hp : p.Keeps K U V) {r r' : ReceivingPeer S τ} (hr : Inv p r)
    (hK : K r.incoming.stream r.incoming.taken) (h : r.deliver p = some r') : (r.completions = 0 ∧ r' = r) ∨
      (r.completions = 1 ∧ Moved K U V r.incoming.stream r.incoming.taken 0 r'.incoming.stream r'.incoming.taken
        r'.busy r'.completions) := by
  cases hr with
  | reading a max _ _ hstepper _ =>
    simp only [deliver, hstepper, Option.some.injEq] at h
    exact Or.inl ⟨by rw [completions, hstepper]; rfl, h.symm⟩
  | completed a max used data _ hstepper _ _ _ _ _ _ =>
    simp only [deliver, hstepper] at h
    refine Or.inr ⟨by rw [completions, hstepper]; rfl, ?_⟩
    exact readDone_moved hp (K := K) (U := U) (V := V) (r := { r with readStepper := ⟨none, some [], none⟩ }) rfl hK h
  | failed used rest _ _ _ _ hstepper =>
    rcases hstepper with hnone | heq
    · simp only [deliver, hnone, Option.some.injEq] at h
      exact Or.inl ⟨by rw [completions, hnone]; rfl, h.symm⟩
    · simp only [deliver, heq, Option.some.injEq] at h
      exact Or.inl ⟨by rw [completions, heq]; rfl, h.symm⟩

end ReceivingPeer

end Forstio
