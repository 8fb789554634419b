import Forstio.BufferLaws
import Forstio.Conveyor

/-!
# Reading and writing step by step

A stream answers a read or a write with a number of bytes or with an error. A
task keeps asking until it is done or the stream has enough for now, and is
resumed when the stream is ready again. `σ` is all there is outside of the
steppers: the memory that the addresses point into, and the other end.

`ReadRule` and `WriteRule` are what a proof about a stream has to show; the
rules below carry it through the loops.
-/

namespace Forstio

def storeAt (memory : Nat → UInt8) (a : Nat) (bytes : List UInt8) : Nat → UInt8 :=
  fun i => if i < a then memory i else bytes[i - a]?.getD (memory i)

/-- `read(buffer, length)`; a stray address aborts. -/
structure InputStream (σ : Type) where
  read : σ → Nat → Nat → Option (ErrorOr Nat × σ)

structure OutputStream (σ : Type) where
  write : σ → Nat → Nat → Option (ErrorOr Nat × σ)

structure ReadIoTask where
  buffer : Nat
  minLength : Nat
  maxLength : Nat
  alreadyRead : Nat
  deriving DecidableEq

structure WriteIoTask where
  buffer : Nat
  length : Nat
  alreadyWritten : Nat
  deriving DecidableEq

/-- A feeder is what was fed to it and not yet delivered; `none` is a null pointer. -/
structure ReadTaskAndStepHelper where
  readTask : Option ReadIoTask
  readDone : Option (List (ErrorOr Nat))
  onReadDisconnect : Option (List (ErrorOr Unit))

structure WriteTaskAndStepHelper where
  writeTask : Option WriteIoTask
  writeDone : Option (List (ErrorOr Nat))

namespace ReadIoTask

def advance (task : ReadIoTask) (n : Nat) : ReadIoTask :=
  ⟨task.buffer + n, sizeSub task.minLength n, sizeSub task.maxLength n, sizeAdd task.alreadyRead n⟩

end ReadIoTask

namespace WriteIoTask

def advance (task : WriteIoTask) (n : Nat) : WriteIoTask :=
  ⟨task.buffer + n, sizeSub task.length n, sizeAdd task.alreadyWritten n⟩

end WriteIoTask

namespace ReadTaskAndStepHelper

variable {σ : Type}

def finish (h : ReadTaskAndStepHelper) (result : ErrorOr Nat) : ReadTaskAndStepHelper :=
  { h with readTask := none, readDone := h.readDone.map (· ++ [result]) }

/-- The loop of `readStep`. A pass that does not end it takes one byte at least. -/
def readLoop (reader : InputStream σ) : Nat → ReadTaskAndStepHelper → σ → Option (ReadTaskAndStepHelper × σ)
  | 0, _, _ => none
  | fuel + 1, h, s =>
    match h.readTask with
    | none => some (h, s)
    | some task => do
      let (answer, s) ← reader.read s task.buffer task.maxLength
      match answer with
      | .error e => if e.isCritical then return (h.finish (.error e), s) else return (h, s)
      | .value n =>
        if n ≥ task.minLength ∧ n ≤ task.maxLength then
          readLoop reader fuel (h.finish (.value (sizeAdd n task.alreadyRead))) s
        else readLoop reader fuel { h with readTask := some (task.advance n) } s

def readStep (reader : InputStream σ) (h : ReadTaskAndStepHelper) (s : σ) : Option (ReadTaskAndStepHelper × σ) :=
  readLoop reader ((h.readTask.map ReadIoTask.minLength).getD 0 + 1) h s

end ReadTaskAndStepHelper

namespace WriteTaskAndStepHelper

variable {σ : Type}

def finish (h : WriteTaskAndStepHelper) (result : ErrorOr Nat) : WriteTaskAndStepHelper :=
  { h with writeTask := none, writeDone := h.writeDone.map (· ++ [result]) }

def writeLoop (writer : OutputStream σ) : Nat → WriteTaskAndStepHelper → σ → Option (WriteTaskAndStepHelper × σ)
  | 0, _, _ => none
  | fuel + 1, h, s =>
    match h.writeTask with
    | none => some (h, s)
    | some task => do
      let (answer, s) ← writer.write s task.buffer task.length
      match answer with
      | .value n =>
        assert (n ≤ task.length)
        if n = task.length then writeLoop writer fuel (h.finish (.value (sizeAdd n task.alreadyWritten))) s
        else writeLoop writer fuel { h with writeTask := some (task.advance n) } s
      | .error e => if e.isCritical then return (h.finish (.error e), s) else return (h, s)

def writeStep (writer : OutputStream σ) (h : WriteTaskAndStepHelper) (s : σ) :
    Option (WriteTaskAndStepHelper × σ) :=
  writeLoop writer ((h.writeTask.map WriteIoTask.length).getD 0 + 1) h s

end WriteTaskAndStepHelper

namespace AsyncIoStream

variable {σ : Type}

def read (reader : InputStream σ) (h : ReadTaskAndStepHelper) (s : σ) (buffer minLength maxLength : Nat) :
    Option (ReadTaskAndStepHelper × σ) := do
  assert (maxLength ≥ minLength ∧ minLength > 0)
  assert h.readTask.isNone
  { h with readTask := some ⟨buffer, minLength, maxLength, 0⟩ }.readStep reader s

def write (writer : OutputStream σ) (h : WriteTaskAndStepHelper) (s : σ) (buffer length : Nat) :
    Option (WriteTaskAndStepHelper × σ) := do
  assert (length > 0)
  assert h.writeTask.isNone
  { h with writeTask := some ⟨buffer, length, 0⟩ }.writeStep writer s

end AsyncIoStream

/-! ## Reading -/

namespace ReadIoTask

/-- What the asserts of `read` establish, and that the lengths are those of real memory. -/
structure Sound (task : ReadIoTask) : Prop where
  pos : 0 < task.minLength
  le : task.minLength ≤ task.maxLength
  small : task.alreadyRead + task.maxLength < 2 ^ 64

theorem advance_eq {task : ReadIoTask} (h : task.Sound) {n : Nat} (hn : n < task.minLength) : task.advance n =
    ⟨task.buffer + n, task.minLength - n, task.maxLength - n, task.alreadyRead + n⟩ := by
  have hle := h.le
  have hsmall := h.small
  rw [advance, sizeSub_eq (by omega) (by omega), sizeSub_eq (by omega) (by omega), sizeAdd_eq (by omega)]

theorem Sound.advance {task : ReadIoTask} (h : task.Sound) {n : Nat} (hn : n < task.minLength) :
    (task.advance n).Sound := by
  have hle := h.le
  have hsmall := h.small
  rw [advance_eq h hn]
  exact ⟨Nat.sub_pos_of_lt hn, Nat.sub_le_sub_right hle n, by dsimp only; omega⟩

end ReadIoTask

/-- One answer of the stream, asked on behalf of a task: `I` holds before, and again when the task goes
on; `B` when it has to wait, and `D` when it is done. -/
def ReadRule {σ : Type} (reader : InputStream σ) (I B : ReadIoTask → σ → Prop) (D : ErrorOr Nat → σ → Prop) : Prop :=
  ∀ (task : ReadIoTask) (s : σ), task.Sound → I task s →
    (∃ n s', reader.read s task.buffer task.maxLength = some (.value n, s') ∧ 0 < n ∧ n ≤ task.maxLength ∧
      (task.minLength ≤ n → D (.value (n + task.alreadyRead)) s') ∧
      (n < task.minLength → I (task.advance n) s')) ∨
    ∃ e s', reader.read s task.buffer task.maxLength = some (.error e, s') ∧
      (e.isCritical → D (.error e) s') ∧ (e.isCritical = false → B task s')

namespace ReadTaskAndStepHelper

variable {σ : Type} {reader : InputStream σ} {I B : ReadIoTask → σ → Prop} {D : ErrorOr Nat → σ → Prop}

/-- The task waits, or it was cleared and its result fed. -/
def Settled (B : ReadIoTask → σ → Prop) (D : ErrorOr Nat → σ → Prop) (h h' : ReadTaskAndStepHelper) (s' : σ) : Prop :=
  (∃ task, task.Sound ∧ h' = { h with readTask := some task } ∧ B task s') ∨
    ∃ result, h' = h.finish result ∧ D result s'

theorem readLoop_rule (hrule : ReadRule reader I B D) (h : ReadTaskAndStepHelper) : ∀ (fuel : Nat) (task : ReadIoTask)
    (s : σ), task.Sound → I task s → task.minLength < fuel →
    ∃ h' s', readLoop reader fuel { h with readTask := some task } s = some (h', s') ∧ Settled B D h h' s'
  | 0, _, _, _, _, hfuel => absurd hfuel (Nat.not_lt_zero _)
  | fuel + 1, task, s, htask, hI, hfuel => by
    have hpos := htask.pos
    have hsmall := htask.small
    rcases hrule task s htask hI with ⟨n, s', hread, hn, hmax, hdone, hon⟩ | ⟨e, s', hread, hcritical, hwait⟩
    · by_cases hmin : task.minLength ≤ n
      · refine ⟨h.finish (.value (n + task.alreadyRead)), s', ?_, Or.inr ⟨_, rfl, hdone hmin⟩⟩
        obtain ⟨fuel, rfl⟩ : ∃ k, fuel = k + 1 := ⟨fuel - 1, by omega⟩
        have hsum : sizeAdd n task.alreadyRead = n + task.alreadyRead := sizeAdd_eq (by omega)
        simp only [readLoop, hread, Option.bind_eq_bind, Option.bind_some, ge_iff_le, hmin, hmax, and_self, if_true,
          hsum, finish]
      · have hlt : n < task.minLength := Nat.not_le.mp hmin
        have hnext : (task.advance n).minLength = task.minLength - n := by rw [ReadIoTask.advance_eq htask hlt]
        obtain ⟨h', s'', hrun, hsettled⟩ := readLoop_rule hrule h fuel (task.advance n) s' (htask.advance hlt) (hon hlt)
          (by omega)
        refine ⟨h', s'', ?_, hsettled⟩
        simp only [readLoop, hread, Option.bind_eq_bind, Option.bind_some, ge_iff_le, hmin, false_and, if_false]
        exact hrun
    · by_cases hc : e.isCritical
      · refine ⟨h.finish (.error e), s', ?_, Or.inr ⟨_, rfl, hcritical hc⟩⟩
        simp only [readLoop, hread, Option.bind_eq_bind, Option.bind_some, if_pos hc, Option.pure_def, finish]
      · refine ⟨{ h with readTask := some task }, s', ?_, Or.inl ⟨task, htask, rfl, hwait (Bool.not_eq_true _ ▸ hc)⟩⟩
        simp only [readLoop, hread, Option.bind_eq_bind, Option.bind_some, if_neg hc, Option.pure_def]

/-- **A read step ends**, with the task waiting or done. -/
theorem readStep_rule (hrule : ReadRule reader I B D) {h : ReadTaskAndStepHelper} {task : ReadIoTask} {s : σ}
    (htask : task.Sound) (hI : I task s) :
    ∃ h' s', readStep reader { h with readTask := some task } s = some (h', s') ∧ Settled B D h h' s' :=
  readLoop_rule hrule h (task.minLength + 1) task s htask hI (Nat.lt_succ_self _)

/-- How a loop ends that keeps `K`: it did nothing, its task waits and `U` holds, or it is done and `V` holds. -/
inductive Looped (K U V : σ → Prop) (h h' : ReadTaskAndStepHelper) (s s' : σ) : Prop
  | idle (task : h.readTask = none) (stepper : h' = h) (stream : s' = s)
  | waits (task : ReadIoTask) (stepper : h' = { h with readTask := some task }) (keeps : K s') (waiting : U s')
  | done (result : ErrorOr Nat) (stepper : h' = h.finish result) (keeps : K s') (done : V s')

theorem readLoop_keeps {K U V : σ → Prop}
    (hvalue : ∀ s a n k s', 0 < n → K s → reader.read s a n = some (.value k, s') → k ≤ n ∧ K s' ∧ V s')
    (herror : ∀ s a n e s', 0 < n → K s → reader.read s a n = some (.error e, s') →
      e.isCritical = false ∧ K s' ∧ U s') :
    ∀ (fuel : Nat) (h h' : ReadTaskAndStepHelper) (s s' : σ), (∀ task, h.readTask = some task → task.Sound) → K s →
      readLoop reader fuel h s = some (h', s') → Looped K U V h h' s s'
  | 0, _, _, _, _, _, _, hrun => nomatch hrun
  | fuel + 1, h, h', s, s', hsound, hK, hrun => by
    unfold readLoop at hrun
    split at hrun
    next hidle =>
      obtain ⟨rfl, rfl⟩ := Prod.mk.inj (Option.some.inj hrun)
      exact .idle hidle rfl rfl
    next task htask =>
      have hsound := hsound task htask
      have hpos : 0 < task.maxLength := Nat.lt_of_lt_of_le hsound.pos hsound.le
      obtain ⟨⟨answer, s₁⟩, hread, hrest⟩ := Option.bind_eq_some_iff.mp hrun
      cases answer with
      | error e =>
        obtain ⟨hwait, hK₁, hU₁⟩ := herror _ _ _ _ _ hpos hK hread
        simp only [hwait, Bool.false_eq_true, if_false, Option.pure_def, Option.some.injEq, Prod.mk.injEq] at hrest
        obtain ⟨rfl, rfl⟩ := hrest
        exact .waits task (by rw [← htask]) hK₁ hU₁
      | value n =>
        obtain ⟨hle, hK₁, hV₁⟩ := hvalue _ _ _ _ _ hpos hK hread
        dsimp only at hrest
        split at hrest
        next =>
          obtain ⟨fuel, rfl⟩ : ∃ k, fuel = k + 1 := by
            cases fuel with
            | zero => cases hrest
            | succ k => exact ⟨k, rfl⟩
          simp only [readLoop, finish, Option.some.injEq, Prod.mk.injEq] at hrest
          obtain ⟨rfl, rfl⟩ := hrest
          exact .done _ rfl hK₁ hV₁
        next hmin =>
          have hlt : n < task.minLength := Nat.not_le.mp fun hge => hmin ⟨hge, hle⟩
          have hon := readLoop_keeps hvalue herror fuel { h with readTask := some (task.advance n) } h' s₁ s'
            (fun t ht => Option.some.inj ht ▸ hsound.advance hlt) hK₁ hrest
          cases hon with
          | idle hidle => cases hidle
          | waits task' hh hK' hU' => exact .waits task' hh hK' hU'
          | done result hh hK' hV' => exact .done result hh hK' hV'

theorem readStep_idle {h : ReadTaskAndStepHelper} (hidle : h.readTask = none) (s : σ) :
    readStep reader h s = some (h, s) := by
  simp only [readStep, hidle, readLoop]

end ReadTaskAndStepHelper

/-! ## Writing -/

namespace WriteIoTask

structure Sound (task : WriteIoTask) : Prop where
  pos : 0 < task.length
  small : task.alreadyWritten + task.length < 2 ^ 64

theorem advance_eq {task : WriteIoTask} (h : task.Sound) {n : Nat} (hn : n < task.length) : task.advance n =
    ⟨task.buffer + n, task.length - n, task.alreadyWritten + n⟩ := by
  have hsmall := h.small
  rw [advance, sizeSub_eq (by omega) (by omega), sizeAdd_eq (by omega)]

theorem Sound.advance {task : WriteIoTask} (h : task.Sound) {n : Nat} (hn : n < task.length) :
    (task.advance n).Sound := by
  have hsmall := h.small
  rw [advance_eq h hn]
  exact ⟨Nat.sub_pos_of_lt hn, by dsimp only; omega⟩

end WriteIoTask

/-- The same for a write task. -/
def WriteRule {σ : Type} (writer : OutputStream σ) (I B : WriteIoTask → σ → Prop) (D : ErrorOr Nat → σ → Prop) : Prop :=
  ∀ (task : WriteIoTask) (s : σ), task.Sound → I task s →
    (∃ n s', writer.write s task.buffer task.length = some (.value n, s') ∧ 0 < n ∧ n ≤ task.length ∧
      (n = task.length → D (.value (n + task.alreadyWritten)) s') ∧
      (n < task.length → I (task.advance n) s')) ∨
    ∃ e s', writer.write s task.buffer task.length = some (.error e, s') ∧
      (e.isCritical → D (.error e) s') ∧ (e.isCritical = false → B task s')

namespace WriteTaskAndStepHelper

variable {σ : Type} {writer : OutputStream σ} {I B : WriteIoTask → σ → Prop} {D : ErrorOr Nat → σ → Prop}

def Settled (B : WriteIoTask → σ → Prop) (D : ErrorOr Nat → σ → Prop) (h h' : WriteTaskAndStepHelper) (s' : σ) : Prop :=
  (∃ task, task.Sound ∧ h' = { h with writeTask := some task } ∧ B task s') ∨
    ∃ result, h' = h.finish result ∧ D result s'

theorem writeLoop_rule (hrule : WriteRule writer I B D) (h : WriteTaskAndStepHelper) : ∀ (fuel : Nat)
    (task : WriteIoTask) (s : σ), task.Sound → I task s → task.length < fuel →
    ∃ h' s', writeLoop writer fuel { h with writeTask := some task } s = some (h', s') ∧ Settled B D h h' s'
  | 0, _, _, _, _, hfuel => absurd hfuel (Nat.not_lt_zero _)
  | fuel + 1, task, s, htask, hI, hfuel => by
    have hpos := htask.pos
    have hsmall := htask.small
    rcases hrule task s htask hI with ⟨n, s', hwrite, hn, hle, hdone, hon⟩ | ⟨e, s', hwrite, hcritical, hwait⟩
    · by_cases hall : n = task.length
      · refine ⟨h.finish (.value (n + task.alreadyWritten)), s', ?_, Or.inr ⟨_, rfl, hdone hall⟩⟩
        obtain ⟨fuel, rfl⟩ : ∃ k, fuel = k + 1 := ⟨fuel - 1, by omega⟩
        have hsum : sizeAdd n task.alreadyWritten = n + task.alreadyWritten := sizeAdd_eq (by omega)
        simp only [writeLoop, hwrite, Option.bind_eq_bind, Option.bind_some, assert_pos hle, if_pos hall, hsum, finish]
      · have hlt : n < task.length := Nat.lt_of_le_of_ne hle hall
        have hnext : (task.advance n).length = task.length - n := by rw [WriteIoTask.advance_eq htask hlt]
        obtain ⟨h', s'', hrun, hsettled⟩ := writeLoop_rule hrule h fuel (task.advance n) s' (htask.advance hlt) (hon hlt)
          (by omega)
        refine ⟨h', s'', ?_, hsettled⟩
        simp only [writeLoop, hwrite, Option.bind_eq_bind, Option.bind_some, assert_pos hle, if_neg hall]
        exact hrun
    · by_cases hc : e.isCritical
      · refine ⟨h.finish (.error e), s', ?_, Or.inr ⟨_, rfl, hcritical hc⟩⟩
        simp only [writeLoop, hwrite, Option.bind_eq_bind, Option.bind_some, if_pos hc, Option.pure_def, finish]
      · refine ⟨{ h with writeTask := some task }, s', ?_, Or.inl ⟨task, htask, rfl, hwait (Bool.not_eq_true _ ▸ hc)⟩⟩
        simp only [writeLoop, hwrite, Option.bind_eq_bind, Option.bind_some, if_neg hc, Option.pure_def]

/-- **A write step ends**, with the task waiting or done. -/
theorem writeStep_rule (hrule : WriteRule writer I B D) {h : WriteTaskAndStepHelper} {task : WriteIoTask} {s : σ}
    (htask : task.Sound) (hI : I task s) :
    ∃ h' s', writeStep writer { h with writeTask := some task } s = some (h', s') ∧ Settled B D h h' s' :=
  writeLoop_rule hrule h (task.length + 1) task s htask hI (Nat.lt_succ_self _)

inductive Looped (K U V : σ → Prop) (h h' : WriteTaskAndStepHelper) (s s' : σ) : Prop
  | idle (task : h.writeTask = none) (stepper : h' = h) (stream : s' = s)
  | waits (task : WriteIoTask) (stepper : h' = { h with writeTask := some task }) (keeps : K s') (waiting : U s')
  | done (result : ErrorOr Nat) (stepper : h' = h.finish result) (keeps : K s') (done : V s')

theorem writeLoop_keeps {K U V : σ → Prop}
    (hvalue : ∀ s a n k s', 0 < n → K s → writer.write s a n = some (.value k, s') → K s' ∧ V s')
    (herror : ∀ s a n e s', 0 < n → K s → writer.write s a n = some (.error e, s') →
      e.isCritical = false ∧ K s' ∧ U s') :
    ∀ (fuel : Nat) (h h' : WriteTaskAndStepHelper) (s s' : σ), (∀ task, h.writeTask = some task → task.Sound) →
      K s → writeLoop writer fuel h s = some (h', s') → Looped K U V h h' s s'
  | 0, _, _, _, _, _, _, hrun => nomatch hrun
  | fuel + 1, h, h', s, s', hsound, hK, hrun => by
    unfold writeLoop at hrun
    split at hrun
    next hidle =>
      obtain ⟨rfl, rfl⟩ := Prod.mk.inj (Option.some.inj hrun)
      exact .idle hidle rfl rfl
    next task htask =>
      have hsound := hsound task htask
      obtain ⟨⟨answer, s₁⟩, hwrite, hrest⟩ := Option.bind_eq_some_iff.mp hrun
      cases answer with
      | error e =>
        obtain ⟨hwait, hK₁, hU₁⟩ := herror _ _ _ _ _ hsound.pos hK hwrite
        simp only [hwait, Bool.false_eq_true, if_false, Option.pure_def, Option.some.injEq, Prod.mk.injEq] at hrest
        obtain ⟨rfl, rfl⟩ := hrest
        exact .waits task (by rw [← htask]) hK₁ hU₁
      | value n =>
        obtain ⟨hK₁, hV₁⟩ := hvalue _ _ _ _ _ hsound.pos hK hwrite
        obtain ⟨_, hassert, hrest⟩ := Option.bind_eq_some_iff.mp hrest
        have hle : n ≤ task.length := of_assert hassert
        split at hrest
        next =>
          obtain ⟨fuel, rfl⟩ : ∃ k, fuel = k + 1 := by
            cases fuel with
            | zero => cases hrest
            | succ k => exact ⟨k, rfl⟩
          simp only [writeLoop, finish, Option.some.injEq, Prod.mk.injEq] at hrest
          obtain ⟨rfl, rfl⟩ := hrest
          exact .done _ rfl hK₁ hV₁
        next hall =>
          have hlt : n < task.length := Nat.lt_of_le_of_ne hle hall
          have hon := writeLoop_keeps hvalue herror fuel { h with writeTask := some (task.advance n) } h' s₁ s'
            (fun t ht => Option.some.inj ht ▸ hsound.advance hlt) hK₁ hrest
          cases hon with
          | idle hidle => cases hidle
          | waits task' hh hK' hU' => exact .waits task' hh hK' hU'
          | done result hh hK' hV' => exact .done result hh hK' hV'

theorem writeStep_idle {h : WriteTaskAndStepHelper} (hidle : h.writeTask = none) (s : σ) :
    writeStep writer h s = some (h, s) := by
  simp only [writeStep, hidle, writeLoop]

end WriteTaskAndStepHelper

/-! ## Requests -/

namespace AsyncIoStream

variable {σ : Type}

theorem read_rule {reader : InputStream σ} {I B : ReadIoTask → σ → Prop} {D : ErrorOr Nat → σ → Prop}
    (hrule : ReadRule reader I B D) {h : ReadTaskAndStepHelper} (hidle : h.readTask = none) {s : σ}
    (buffer minLength maxLength : Nat) (htask : ReadIoTask.Sound ⟨buffer, minLength, maxLength, 0⟩)
    (hI : I ⟨buffer, minLength, maxLength, 0⟩ s) :
    ∃ h' s', read reader h s buffer minLength maxLength = some (h', s') ∧ h.Settled B D h' s' := by
  have hargs : maxLength ≥ minLength ∧ minLength > 0 := ⟨htask.le, htask.pos⟩
  obtain ⟨h', s', hstep, hsettled⟩ := ReadTaskAndStepHelper.readStep_rule hrule (h := h) htask hI
  refine ⟨h', s', ?_, hsettled⟩
  simp only [read, assert_pos hargs, hidle, Option.isNone_none, assert_pos, Option.bind_eq_bind, Option.bind_some]
  exact hstep

theorem write_rule {writer : OutputStream σ} {I B : WriteIoTask → σ → Prop} {D : ErrorOr Nat → σ → Prop}
    (hrule : WriteRule writer I B D) {h : WriteTaskAndStepHelper} (hidle : h.writeTask = none) {s : σ}
    (buffer length : Nat) (htask : WriteIoTask.Sound ⟨buffer, length, 0⟩) (hI : I ⟨buffer, length, 0⟩ s) :
    ∃ h' s', write writer h s buffer length = some (h', s') ∧ h.Settled B D h' s' := by
  have hargs : length > 0 := htask.pos
  obtain ⟨h', s', hstep, hsettled⟩ := WriteTaskAndStepHelper.writeStep_rule hrule (h := h) htask hI
  refine ⟨h', s', ?_, hsettled⟩
  simp only [write, assert_pos hargs, hidle, Option.isNone_none, assert_pos, Option.bind_eq_bind, Option.bind_some]
  exact hstep

end AsyncIoStream

end Forstio
