import Forstio.ReadTask
import Forstio.Lib.Run
import Mathlib.Algebra.GroupWithZero.Nat

/-!
# Reading from a TLS stream

`TlsIoStream::read` asks gnutls for up to `length` bytes and reports `length`,
however many came. The first record of a request therefore completes it, with
the greatest total it allows; the report is true exactly if the record filled
the request.
-/

namespace Forstio

/-- What the stream uses of gnutls; `recordRecv` takes an address and a length. -/
structure Gnutls (σ : Type) where
  recordRecv : σ → Nat → Nat → Int × σ
  errorIsFatal : Int → Bool
  strerror : Int → String

namespace TlsIoStream

variable {σ : Type} (g : Gnutls σ)

def read (session : σ) (buffer length : Nat) : Option (ErrorOr Nat × σ) :=
  let (size, session) := g.recordRecv session buffer length
  if size < 0 then
    if g.errorIsFatal size then
      some (.error (criticalError ("Read critical Error " ++ g.strerror size)), session)
    else some (.error (recoverableError ("Read recoverable Error " ++ g.strerror size)), session)
  else if size = 0 then some (.error (criticalError "Disconnected"), session)
  else some (.value length, session)

end TlsIoStream

abbrev Written := Nat × List UInt8

/-- A call of `gnutls_record_recv` writes between one byte and `length` bytes and returns their number,
or writes nothing and returns zero or a negative code. -/
structure Receives {σ : Type} (g : Gnutls σ) (written : σ → List Written) : Prop where
  recv : ∀ s a length, 0 < length →
    (∃ bytes s', g.recordRecv s a length = ((bytes.length : Int), s') ∧ 0 < bytes.length ∧
      bytes.length ≤ length ∧ written s' = written s ++ [(a, bytes)]) ∨
    ∃ size s', g.recordRecv s a length = (size, s') ∧ size ≤ 0 ∧ written s' = written s

/-! ## Requests one after another -/

/-- A total that was reported for a request at `buffer`, and what gnutls wrote for it. -/
structure Report where
  buffer : Nat
  total : Nat
  written : List Written

def Report.Accurate (r : Report) : Prop :=
  r.total = (r.written.map fun w => w.2.length).sum ∧
    ∀ i < r.total, ∃ w ∈ r.written, w.1 ≤ r.buffer + i ∧ r.buffer + i < w.1 + w.2.length

/-- A stepper and its session; of the outstanding request, or the last one, the address and the
number of writes before it. -/
structure TlsReader (σ : Type) where
  stepper : ReadTaskAndStepHelper
  session : σ
  buffer : Nat
  start : Nat
  reports : List Report

inductive TlsOp where
  | read (buffer minLength maxLength : Nat)
  | readStep

namespace TlsReader

variable {σ : Type} (g : Gnutls σ) (written : σ → List Written)

def new (session : σ) : TlsReader σ := ⟨⟨none, some [], none⟩, session, 0, 0, []⟩

def collect (r : TlsReader σ) (stepper : ReadTaskAndStepHelper) (session : σ) : TlsReader σ :=
  { r with
    stepper := { stepper with readDone := some [] }
    session
    reports := r.reports ++ (stepper.readDone.getD []).filterMap fun
      | .value total => some ⟨r.buffer, total, (written session).drop r.start⟩
      | .error _ => none }

def permitted (r : TlsReader σ) (minLength maxLength : Nat) : Bool :=
  r.stepper.readTask.isNone ∧ 0 < minLength ∧ minLength ≤ maxLength ∧ maxLength < 2 ^ 64

def step (r : TlsReader σ) : TlsOp → Option (Unit × TlsReader σ)
  | .read buffer minLength maxLength =>
    if r.permitted minLength maxLength then do
      let (stepper, session) ←
        AsyncIoStream.read ⟨TlsIoStream.read g⟩ r.stepper r.session buffer minLength maxLength
      return ((), { r with buffer, start := (written r.session).length }.collect written stepper session)
    else return ((), r)
  | .readStep => do
    let (stepper, session) ← r.stepper.readStep ⟨TlsIoStream.read g⟩ r.session
    return ((), r.collect written stepper session)

/-- The one record that an operation receives, if it receives any, is as long as was asked for. -/
def fills (r : TlsReader σ) (buffer length : Nat) : Prop :=
  0 < (g.recordRecv r.session buffer length).1 → (g.recordRecv r.session buffer length).1 = length

def Fills (r : TlsReader σ) : TlsOp → Prop
  | .read buffer minLength maxLength => r.permitted minLength maxLength → r.fills g buffer maxLength
  | .readStep => ∀ task ∈ r.stepper.readTask, r.fills g task.buffer task.maxLength

instance (r : TlsReader σ) (buffer length : Nat) : Decidable (r.fills g buffer length) :=
  inferInstanceAs (Decidable (_ → _))

instance (r : TlsReader σ) : (op : TlsOp) → Decidable (r.Fills g op)
  | .read _ minLength maxLength => inferInstanceAs (Decidable (r.permitted minLength maxLength = true → _))
  | .readStep => inferInstanceAs (Decidable (∀ task ∈ r.stepper.readTask, _))

/-! ## One operation -/

structure Good (r : TlsReader σ) : Prop where
  reports : ∀ p ∈ r.reports, p.Accurate
  done : r.stepper.readDone = some []
  task : ∀ task ∈ r.stepper.readTask, task.Sound ∧ task.alreadyRead = 0 ∧ task.buffer = r.buffer ∧
    r.start = (written r.session).length

section
variable {g : Gnutls σ} {written : σ → List Written} (hrecv : Receives g written)
include hrecv

theorem readStep_spec {h : ReadTaskAndStepHelper} {task : ReadIoTask} (htask : task.Sound)
    (hnew : task.alreadyRead = 0) (s : σ) : ∃ h' s',
    ReadTaskAndStepHelper.readStep ⟨TlsIoStream.read g⟩ { h with readTask := some task } s = some (h', s') ∧
      ((∃ bytes, g.recordRecv s task.buffer task.maxLength = ((bytes.length : Int), s') ∧ 0 < bytes.length ∧
          bytes.length ≤ task.maxLength ∧ written s' = written s ++ [(task.buffer, bytes)] ∧
          h' = h.finish (.value task.maxLength)) ∨
        (g.recordRecv s task.buffer task.maxLength).1 ≤ 0 ∧ written s' = written s ∧
          (h' = { h with readTask := some task } ∨ ∃ e, h' = h.finish (.error e))) := by
  have hpos := htask.pos
  have hle := htask.le
  have hrule : ReadRule ⟨TlsIoStream.read g⟩ (fun t st => t = task ∧ st = s)
      (fun t s' => t = task ∧ (g.recordRecv s task.buffer task.maxLength).1 ≤ 0 ∧ written s' = written s)
      (fun result s' => (∃ bytes, g.recordRecv s task.buffer task.maxLength = ((bytes.length : Int), s') ∧
          0 < bytes.length ∧ bytes.length ≤ task.maxLength ∧ written s' = written s ++ [(task.buffer, bytes)] ∧
          result = .value task.maxLength) ∨
        (g.recordRecv s task.buffer task.maxLength).1 ≤ 0 ∧ written s' = written s ∧ ∃ e, result = .error e) := by
    rintro t st - ⟨rfl, rfl⟩
    rcases hrecv.recv st t.buffer t.maxLength (by omega) with
      ⟨bytes, s', hr, h0, hfit, hw⟩ | ⟨size, s', hr, hsize, hw⟩
    · have hneg : ¬ (bytes.length : Int) < 0 := by omega
      have hzero : ¬ (bytes.length : Int) = 0 := by omega
      refine Or.inl ⟨t.maxLength, s', ?_, by omega, Nat.le_refl _, fun _ => ?_, fun h => absurd h (by omega)⟩
      · simp only [TlsIoStream.read, hr, if_neg hneg, if_neg hzero]
      · rw [hnew, Nat.add_zero]
        exact Or.inl ⟨bytes, hr, h0, hfit, hw, rfl⟩
    · obtain ⟨e, he⟩ : ∃ e, TlsIoStream.read g st t.buffer t.maxLength = some (.error e, s') := by
        simp only [TlsIoStream.read, hr]
        split
        · split
          · exact ⟨_, rfl⟩
          · exact ⟨_, rfl⟩
        · exact ⟨_, if_pos (by omega)⟩
      have hnone : (g.recordRecv st t.buffer t.maxLength).1 ≤ 0 := by rw [hr]; exact hsize
      exact Or.inr ⟨e, s', he, fun _ => Or.inr ⟨hnone, hw, e, rfl⟩, fun _ => ⟨rfl, hnone, hw⟩⟩
  obtain ⟨h', s', hrun, ⟨t, -, rfl, rfl, hnone, hw⟩ | ⟨result, rfl, ⟨bytes, hr, h0, hfit, hw, rfl⟩ |
    ⟨hnone, hw, e, rfl⟩⟩⟩ := ReadTaskAndStepHelper.readStep_rule hrule (h := h) htask ⟨rfl, rfl⟩
  · exact ⟨_, s', hrun, Or.inr ⟨hnone, hw, Or.inl rfl⟩⟩
  · exact ⟨_, s', hrun, Or.inl ⟨bytes, hr, h0, hfit, hw, rfl⟩⟩
  · exact ⟨_, s', hrun, Or.inr ⟨hnone, hw, Or.inr ⟨e, rfl⟩⟩⟩

theorem resume {r : TlsReader σ} (hreports : ∀ p ∈ r.reports, p.Accurate) (hdone : r.stepper.readDone = some [])
    {task : ReadIoTask} (htask : task.Sound) (hnew : task.alreadyRead = 0) (hbuffer : task.buffer = r.buffer)
    (hstart : r.start = (written r.session).length) : ∃ h' s',
    ReadTaskAndStepHelper.readStep ⟨TlsIoStream.read g⟩ { r.stepper with readTask := some task } r.session =
        some (h', s') ∧
      (r.fills g task.buffer task.maxLength → Good written (r.collect written h' s')) ∧
      (¬ r.fills g task.buffer task.maxLength → ∃ p ∈ (r.collect written h' s').reports, ¬ p.Accurate) := by
  obtain ⟨h', s', hrun, ⟨bytes, hr, h0, -, hw, rfl⟩ | ⟨hnone, hw, hh⟩⟩ :=
    readStep_spec hrecv (h := r.stepper) htask hnew r.session
  · have hdrop : (written s').drop r.start = [(task.buffer, bytes)] := by
      rw [hw, hstart, List.drop_left]
    have hcollect : (r.collect written (r.stepper.finish (.value task.maxLength)) s').reports =
        r.reports ++ [⟨r.buffer, task.maxLength, [(task.buffer, bytes)]⟩] := by
      simp [collect, ReadTaskAndStepHelper.finish, hdone, hdrop]
    refine ⟨_, s', hrun, fun hfills => ?_, fun hno => ?_⟩
    · have hlen : bytes.length = task.maxLength := by
        have := hfills (by rw [hr]; exact Int.natCast_pos.mpr h0)
        rw [hr] at this
        exact Int.ofNat_inj.mp this
      refine ⟨?_, rfl, fun t ht => absurd ht (Option.not_mem_none t)⟩
      rw [hcollect]
      intro p hp
      rcases List.mem_append.mp hp with hp | hp
      · exact hreports p hp
      · obtain rfl := List.mem_singleton.mp hp
        refine ⟨by simp [hlen], fun i hi => ⟨(task.buffer, bytes), List.mem_singleton_self _, ?_, ?_⟩⟩
        · rw [hbuffer]
          exact Nat.le_add_right _ _
        · rw [hbuffer, hlen]
          exact Nat.add_lt_add_left hi _
    · refine ⟨⟨r.buffer, task.maxLength, [(task.buffer, bytes)]⟩, by rw [hcollect]; simp, fun hacc => hno fun _ => ?_⟩
      have hsum : task.maxLength = bytes.length := by simpa using hacc.1
      rw [hr, hsum]
  · have hfills : r.fills g task.buffer task.maxLength := fun hpos => absurd hpos (Int.not_lt.mpr hnone)
    refine ⟨h', s', hrun, fun _ => ?_, fun hno => absurd hfills hno⟩
    rcases hh with rfl | ⟨e, rfl⟩
    · refine ⟨?_, rfl, ?_⟩
      · simpa [collect, hdone] using hreports
      · intro t ht
        obtain rfl : task = t := Option.some.inj ht
        exact ⟨htask, hnew, hbuffer, hstart.trans (congrArg List.length hw.symm)⟩
    · refine ⟨?_, rfl, fun t ht => absurd ht (Option.not_mem_none t)⟩
      simpa [collect, ReadTaskAndStepHelper.finish, hdone] using hreports

theorem step_spec {r : TlsReader σ} (hr : Good written r) (op : TlsOp) : ∃ r', r.step g written op = some ((), r') ∧
    (r.Fills g op → Good written r') ∧ (¬ r.Fills g op → ∃ p ∈ r'.reports, ¬ p.Accurate) := by
  cases op with
  | read buffer minLength maxLength =>
    cases hperm : r.permitted minLength maxLength with
    | false =>
      refine ⟨r, ?_, fun _ => hr, fun hno => ?_⟩
      · simp only [step, hperm, Bool.false_eq_true, if_false, Option.pure_def]
      · exact absurd (fun h => absurd (hperm.symm.trans h) Bool.false_ne_true) hno
    | true =>
      obtain ⟨hidle, hmin, hle, hmax⟩ : r.stepper.readTask = none ∧ 0 < minLength ∧ minLength ≤ maxLength ∧
          maxLength < 2 ^ 64 := by
        simpa [permitted] using hperm
      have hargs : maxLength ≥ minLength ∧ minLength > 0 := ⟨hle, hmin⟩
      have htask : ReadIoTask.Sound ⟨buffer, minLength, maxLength, 0⟩ := ⟨hmin, hle, by dsimp only; omega⟩
      obtain ⟨h', s', hrun, hgood, hbad⟩ := resume hrecv
        (r := { r with buffer, start := (written r.session).length }) hr.reports hr.done htask rfl rfl rfl
      refine ⟨_, ?_, fun hfills => hgood (hfills hperm), fun hno => hbad fun hfills => hno fun _ => hfills⟩
      simp only [step, hperm, if_true, AsyncIoStream.read, assert_pos hargs, hidle, Option.isNone_none, assert_pos,
        Option.bind_eq_bind, Option.bind_some, hrun, Option.pure_def]
  | readStep =>
    cases htask : r.stepper.readTask with
    | none =>
      refine ⟨r.collect written r.stepper r.session, ?_, fun _ => ⟨?_, rfl, ?_⟩, fun hno => absurd ?_ hno⟩
      · simp only [step, ReadTaskAndStepHelper.readStep_idle htask, Option.bind_eq_bind, Option.bind_some,
          Option.pure_def]
      · simpa [collect, hr.done] using hr.reports
      · intro task ht
        exact absurd (ht.symm.trans htask) (Option.some_ne_none task)
      · intro task ht
        exact absurd (ht.symm.trans htask) (Option.some_ne_none task)
    | some task =>
      obtain ⟨hsound, hnew, hbuffer, hstart⟩ := hr.task task htask
      obtain ⟨h', s', hrun, hgood, hbad⟩ := resume hrecv hr.reports hr.done hsound hnew hbuffer hstart
      have hstepper : { r.stepper with readTask := some task } = r.stepper := by rw [← htask]
      rw [hstepper] at hrun
      refine ⟨_, ?_, fun hfills => hgood (hfills task htask), fun hno => hbad fun hfills => hno fun t ht => ?_⟩
      · simp only [step, hrun, Option.bind_eq_bind, Option.bind_some, Option.pure_def]
      · obtain rfl : task = t := Option.some.inj (htask.symm.trans ht)
        exact hfills

end

end TlsReader

/-- **TLS reads report what was received**, in every state of a run, exactly when each record
received is as long as was asked for. -/
theorem TlsReader.reports_accurate_iff {σ : Type} {g : Gnutls σ} {written : σ → List Written}
    (hrecv : Receives g written) (session : σ) (ops : List TlsOp) :
    (∀ bs, bs <+: ops → ∃ os r, Run.exec (step g written) (new session) bs = some (os, r) ∧
        ∀ p ∈ r.reports, p.Accurate) ↔
      Run.Along (step g written) (Fills g) (new session) ops := by
  refine Run.exec_invariant_iff (fun r => ∀ p ∈ r.reports, p.Accurate) (Good written) (fun r hr => hr.reports) ?_ ?_
    ops (new session) ⟨fun p hp => absurd hp List.not_mem_nil, rfl, fun t ht => absurd ht (Option.not_mem_none t)⟩
  · intro r op hr hfills
    obtain ⟨r', hstep, hgood, -⟩ := step_spec hrecv hr op
    exact ⟨(), r', hstep, hgood hfills⟩
  · intro r op hr hno
    obtain ⟨r', hstep, -, hbad⟩ := step_spec hrecv hr op
    obtain ⟨p, hp, hfalse⟩ := hbad hno
    exact ⟨(), r', hstep, fun hall => hfalse (hall p hp)⟩

/-! ## A session with given records -/

structure Transcript where
  written : List Written
  records : List (List UInt8)

namespace Transcript

/-- A record is handed over in pieces of `length` bytes, an empty one closes the session, and after
the last there is nothing to read yet. -/
def recordRecv (s : Transcript) (a length : Nat) : Int × Transcript :=
  match s.records with
  | [] => (-28, s)
  | [] :: _ => (0, s)
  | bytes :: records =>
    let rest := bytes.drop length
    ((bytes.take length).length,
      ⟨s.written ++ [(a, bytes.take length)], if rest = [] then records else rest :: records⟩)

def gnutls : Gnutls Transcript where
  recordRecv := recordRecv
  errorIsFatal code := code ≠ -28
  strerror _ := "The operation timed out or would block"

theorem receives : Receives gnutls written where
  recv s a length hlength := by
    show (∃ bytes s', s.recordRecv a length = _ ∧ _) ∨ ∃ size s', s.recordRecv a length = _ ∧ _
    unfold recordRecv
    split
    · exact Or.inr ⟨_, _, rfl, by decide, rfl⟩
    · exact Or.inr ⟨_, _, rfl, Int.le_refl 0, rfl⟩
    · rename_i bytes records hne _
      have hpos : bytes.length ≠ 0 := fun hz => hne (List.eq_nil_of_length_eq_zero hz)
      refine Or.inl ⟨_, _, rfl, ?_, ?_, rfl⟩
      · rw [List.length_take]
        omega
      · rw [List.length_take]
        omega

end Transcript

theorem TlsReader.reports_accurate_iff_filled :
    Run.Along (step Transcript.gnutls Transcript.written) (Fills Transcript.gnutls) (new ⟨[], [[1, 2, 3, 4]]⟩)
        [.read 100 1 2, .readStep] ∧
      ∀ bs, bs <+: [.read 100 1 2, .readStep] → ∃ os r,
        Run.exec (step Transcript.gnutls Transcript.written) (new ⟨[], [[1, 2, 3, 4]]⟩) bs = some (os, r) ∧
          ∀ p ∈ r.reports, p.Accurate := by
  have hfills : Run.Along (step Transcript.gnutls Transcript.written) (Fills Transcript.gnutls)
      (new ⟨[], [[1, 2, 3, 4]]⟩) [.read 100 1 2, .readStep] := by decide
  exact ⟨hfills, (reports_accurate_iff Transcript.receives ⟨[], [[1, 2, 3, 4]]⟩ [.read 100 1 2, .readStep]).mpr hfills⟩

/-- One byte received for a request of up to four: four are reported. -/
theorem TlsReader.reports_accurate_fails : ∃ r, Run.exec (step Transcript.gnutls Transcript.written)
      (new ⟨[], [[7]]⟩) [.read 100 1 4] = some ([()], r) ∧
    r.reports = [⟨100, 4, [(100, [7])]⟩] ∧ ¬ ∀ p ∈ r.reports, p.Accurate := by
  refine ⟨_, rfl, rfl, fun hall => ?_⟩
  exact absurd (hall _ (List.mem_singleton_self _)).1 (by decide)

end Forstio
