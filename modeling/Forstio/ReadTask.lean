import Forstio.IoHelpers

/-!
# The account of a read task

A read task is resumed until it has its bytes. Whatever the stream delivers in
one answer lands behind what it delivered before, and the four fields of the
task say how much that is: `Accounted` relates them to the data delivered since
the request, after every pass of the loop of `readStep` and so after every
number of calls.
-/

namespace Forstio

/-- A stream that puts between one byte and `length` bytes at the address it is given and says how
many, or answers with an error. -/
structure Delivers {σ : Type} (reader : InputStream σ) (memory : σ → Nat → UInt8) (delivered : σ → List UInt8) :
    Prop where
  read : ∀ s a length, 0 < length →
    (∃ bytes s', reader.read s a length = some (.value bytes.length, s') ∧ 0 < bytes.length ∧
      bytes.length ≤ length ∧ memory s' = storeAt (memory s) a bytes ∧ delivered s' = delivered s ++ bytes) ∨
    ∃ e s', reader.read s a length = some (.error e, s') ∧ memory s' = memory s ∧ delivered s' = delivered s

theorem storeAt_nil (memory : Nat → UInt8) (a : Nat) : storeAt memory a [] = memory := by
  funext i
  simp [storeAt]

theorem storeAt_append (memory : Nat → UInt8) (a : Nat) (xs ys : List UInt8) :
    storeAt (storeAt memory a xs) (a + xs.length) ys = storeAt memory a (xs ++ ys) := by
  funext i
  unfold storeAt
  rcases Nat.lt_or_ge i (a + xs.length) with hlt | hge
  · by_cases ha : i < a
    · simp [hlt, ha]
    · have hi : i - a < xs.length := by omega
      simp [hlt, ha, List.getElem?_append_left hi]
  · have hi : xs.length ≤ i - a := by omega
    have hsub : i - (a + xs.length) = i - a - xs.length := by omega
    have ha : ¬ i < a := by omega
    simp [Nat.not_lt.mpr hge, ha, List.getElem?_append_right hi, List.getElem?_eq_none hi, hsub]

theorem Delivers.rule {σ : Type} {reader : InputStream σ} {memory : σ → Nat → UInt8} {delivered : σ → List UInt8}
    (h : Delivers reader memory delivered) :
    ReadRule reader (fun _ _ => True) (fun _ _ => True) (fun _ _ => True) := by
  intro task s htask _
  have hpos := htask.pos
  have hle := htask.le
  rcases h.read s task.buffer task.maxLength (by omega) with ⟨bytes, s', hread, h0, hfit, -⟩ | ⟨e, s', hread, -⟩
  · exact Or.inl ⟨_, s', hread, h0, hfit, fun _ => trivial, fun _ => trivial⟩
  · exact Or.inr ⟨e, s', hread, fun _ => trivial, fun _ => trivial⟩

namespace ReadTaskAndStepHelper

variable {σ : Type} (reader : InputStream σ)

/-! ## Passes -/

/-- One pass of the loop of `readStep`, and whether another one may follow. -/
def readPass (h : ReadTaskAndStepHelper) (s : σ) : Option (Bool × ReadTaskAndStepHelper × σ) :=
  match h.readTask with
  | none => some (false, h, s)
  | some task => do
    let (answer, s) ← reader.read s task.buffer task.maxLength
    match answer with
    | .error e => if e.isCritical then return (false, h.finish (.error e), s) else return (false, h, s)
    | .value n =>
      if n ≥ task.minLength ∧ n ≤ task.maxLength then
        return (true, h.finish (.value (sizeAdd n task.alreadyRead)), s)
      else return (true, { h with readTask := some (task.advance n) }, s)

def readPasses : Nat → ReadTaskAndStepHelper → σ → Option (ReadTaskAndStepHelper × σ)
  | 0, h, s => some (h, s)
  | k + 1, h, s => do
    let (_, h, s) ← readPass reader h s
    readPasses k h s

def readSteps : Nat → ReadTaskAndStepHelper → σ → Option (ReadTaskAndStepHelper × σ)
  | 0, h, s => some (h, s)
  | k + 1, h, s => do
    let (h, s) ← readStep reader h s
    readSteps k h s

theorem readLoop_succ (fuel : Nat) (h : ReadTaskAndStepHelper) (s : σ) :
    readLoop reader (fuel + 1) h s =
      (readPass reader h s).bind fun r => if r.1 then readLoop reader fuel r.2.1 r.2.2 else some r.2 := by
  cases htask : h.readTask with
  | none => simp [readLoop, readPass, htask]
  | some task =>
    cases hread : reader.read s task.buffer task.maxLength with
    | none => simp [readLoop, readPass, htask, hread]
    | some r =>
      obtain ⟨e | n, s'⟩ := r
      · simp only [readLoop, readPass, htask, hread, Option.bind_eq_bind, Option.bind_some, Option.pure_def]
        split <;> simp
      · simp only [readLoop, readPass, htask, hread, Option.bind_eq_bind, Option.bind_some, Option.pure_def]
        split <;> simp

theorem readPasses_add (k : Nat) : ∀ (j : Nat) (h : ReadTaskAndStepHelper) (s : σ),
    readPasses reader (j + k) h s = (readPasses reader j h s).bind fun r => readPasses reader k r.1 r.2
  | 0, h, s => by rw [Nat.zero_add]; rfl
  | j + 1, h, s => by
    rw [Nat.add_right_comm]
    simp only [readPasses, Option.bind_eq_bind]
    cases readPass reader h s with
    | none => rfl
    | some r => simp only [Option.bind_some, readPasses_add k j]

theorem readLoop_passes : ∀ (fuel : Nat) (h h' : ReadTaskAndStepHelper) (s s' : σ),
    readLoop reader fuel h s = some (h', s') → ∃ k, readPasses reader k h s = some (h', s')
  | 0, _, _, _, _, hrun => nomatch hrun
  | fuel + 1, h, h', s, s', hrun => by
    rw [readLoop_succ] at hrun
    obtain ⟨⟨again, h₁, s₁⟩, hpass, hrest⟩ := Option.bind_eq_some_iff.mp hrun
    cases again with
    | false =>
      refine ⟨1, ?_⟩
      simpa [readPasses, hpass] using hrest
    | true =>
      obtain ⟨k, hk⟩ := readLoop_passes fuel h₁ h' s₁ s' (by simpa using hrest)
      exact ⟨k + 1, by simp [readPasses, hpass, hk]⟩

theorem readStep_passes {h h' : ReadTaskAndStepHelper} {s s' : σ} (hrun : readStep reader h s = some (h', s')) :
    ∃ k, readPasses reader k h s = some (h', s') :=
  readLoop_passes reader _ h h' s s' hrun

theorem readSteps_passes : ∀ (k : Nat) {h h' : ReadTaskAndStepHelper} {s s' : σ},
    readSteps reader k h s = some (h', s') → ∃ j, readPasses reader j h s = some (h', s')
  | 0, _, _, _, _, hrun => ⟨0, hrun⟩
  | k + 1, h, h', s, s', hrun => by
    obtain ⟨⟨h₁, s₁⟩, hstep, hrest⟩ := Option.bind_eq_some_iff.mp hrun
    obtain ⟨i, hi⟩ := readStep_passes reader hstep
    obtain ⟨j, hj⟩ := readSteps_passes k hrest
    refine ⟨i + j, ?_⟩
    rw [readPasses_add, hi]
    exact hj

theorem readSteps_idle {h : ReadTaskAndStepHelper} (hidle : h.readTask = none) (s : σ) :
    ∀ k, readSteps reader k h s = some (h, s)
  | 0 => rfl
  | k + 1 => by
    simp only [readSteps, readStep_idle hidle, Option.bind_eq_bind, Option.bind_some, readSteps_idle hidle s k]

end ReadTaskAndStepHelper

/-! ## The account -/

/-- Where a request for `minLength` to `maxLength` bytes at `buffer` stands, `data` being what the
stream has delivered since: the task is outstanding and has all of it, the total is
fed, or a critical error is. -/
structure Accounted {σ : Type} (memory : σ → Nat → UInt8) (delivered : σ → List UInt8)
    (done : List (ErrorOr Nat)) (s : σ) (buffer minLength maxLength : Nat) (h' : ReadTaskAndStepHelper) (s' : σ)
    (data : List UInt8) : Prop where
  delivered : delivered s' = delivered s ++ data
  memory : memory s' = storeAt (memory s) buffer data
  account : (data.length < minLength ∧ h'.readDone = some done ∧ h'.readTask =
        some ⟨buffer + data.length, minLength - data.length, maxLength - data.length, data.length⟩) ∨
    (minLength ≤ data.length ∧ data.length ≤ maxLength ∧ h'.readTask = none ∧
      h'.readDone = some (done ++ [.value data.length])) ∨
    ∃ e, e.isCritical ∧ data.length < minLength ∧ h'.readTask = none ∧ h'.readDone = some (done ++ [.error e])

section
variable {σ : Type} {reader : InputStream σ} {memory : σ → Nat → UInt8} {delivered : σ → List UInt8}
variable (hstream : Delivers reader memory delivered) {done : List (ErrorOr Nat)} {s : σ}
variable {buffer minLength maxLength : Nat} (hmin : 0 < minLength) (hle : minLength ≤ maxLength)
variable (hmax : maxLength < 2 ^ 64)
include hstream hle hmax

section
variable {h' : ReadTaskAndStepHelper} {s' s'' : σ} {data : List UInt8} (hlt : data.length < minLength)
variable (hdone : h'.readDone = some done) (htask : h'.readTask =
  some ⟨buffer + data.length, minLength - data.length, maxLength - data.length, data.length⟩)
include hlt hdone htask

omit hstream in
theorem readPass_value {bytes : List UInt8}
    (hread : reader.read s' (buffer + data.length) (maxLength - data.length) = some (.value bytes.length, s''))
    (hfit : bytes.length ≤ maxLength - data.length) (hdata : delivered s'' = delivered s ++ (data ++ bytes))
    (hstored : memory s'' = storeAt (memory s) buffer (data ++ bytes)) :
    ∃ h'', h'.readPass reader s' = some (true, h'', s'') ∧
      Accounted memory delivered done s buffer minLength maxLength h'' s'' (data ++ bytes) := by
  have hsound : ReadIoTask.Sound
      ⟨buffer + data.length, minLength - data.length, maxLength - data.length, data.length⟩ :=
    ⟨Nat.sub_pos_of_lt hlt, Nat.sub_le_sub_right hle _, by dsimp only; omega⟩
  have hsum : sizeAdd bytes.length data.length = (data ++ bytes).length := by
    rw [sizeAdd_eq (by omega), List.length_append, Nat.add_comm]
  by_cases hdone' : minLength - data.length ≤ bytes.length
  · refine ⟨h'.finish (.value (data ++ bytes).length), ?_, hdata, hstored, Or.inr (Or.inl ⟨?_, ?_, rfl, ?_⟩)⟩
    · simp only [ReadTaskAndStepHelper.readPass, htask, hread, Option.bind_eq_bind, Option.bind_some, ge_iff_le,
        hdone', hfit, and_self, if_true, hsum, Option.pure_def]
    · rw [List.length_append]
      omega
    · rw [List.length_append]
      omega
    · simp only [ReadTaskAndStepHelper.finish, hdone, Option.map_some]
  · have hlt' : bytes.length < minLength - data.length := Nat.not_le.mp hdone'
    refine ⟨{ h' with readTask := some (ReadIoTask.advance ⟨buffer + data.length, minLength - data.length,
      maxLength - data.length, data.length⟩ bytes.length) }, ?_, hdata, hstored, Or.inl ⟨?_, hdone, ?_⟩⟩
    · simp only [ReadTaskAndStepHelper.readPass, htask, hread, Option.bind_eq_bind, Option.bind_some, ge_iff_le,
        hdone', false_and, if_false, Option.pure_def]
    · rw [List.length_append]
      omega
    · simp only [ReadIoTask.advance_eq hsound hlt', List.length_append, Nat.add_assoc, Nat.sub_sub]

omit hstream hle hmax in
theorem readPass_error {e : Error}
    (hread : reader.read s' (buffer + data.length) (maxLength - data.length) = some (.error e, s''))
    (hdata : delivered s'' = delivered s ++ data) (hstored : memory s'' = storeAt (memory s) buffer data) :
    ∃ h'', h'.readPass reader s' = some (false, h'', s'') ∧
      Accounted memory delivered done s buffer minLength maxLength h'' s'' data := by
  by_cases hc : e.isCritical
  · refine ⟨h'.finish (.error e), ?_, hdata, hstored, Or.inr (Or.inr ⟨e, hc, hlt, rfl, ?_⟩)⟩
    · simp only [ReadTaskAndStepHelper.readPass, htask, hread, Option.bind_eq_bind, Option.bind_some, if_pos hc,
        Option.pure_def]
    · simp only [ReadTaskAndStepHelper.finish, hdone, Option.map_some]
  · refine ⟨h', ?_, hdata, hstored, Or.inl ⟨hlt, hdone, htask⟩⟩
    simp only [ReadTaskAndStepHelper.readPass, htask, hread, Option.bind_eq_bind, Option.bind_some, if_neg hc,
      Option.pure_def]

end

theorem Accounted.readPass {h' : ReadTaskAndStepHelper} {s' : σ} {data : List UInt8}
    (hacc : Accounted memory delivered done s buffer minLength maxLength h' s' data) :
    ∃ again h'' s'' more, h'.readPass reader s' = some (again, h'', s'') ∧
      Accounted memory delivered done s buffer minLength maxLength h'' s'' (data ++ more) := by
  obtain ⟨hdel, hmem, ⟨hlt, hdone, htask⟩ | hcleared⟩ := hacc
  · rcases hstream.read s' (buffer + data.length) (maxLength - data.length) (by omega) with
      ⟨bytes, s'', hread, hpos, hfit, hmem', hdel'⟩ | ⟨e, s'', hread, hmem', hdel'⟩
    · have hdata : delivered s'' = delivered s ++ (data ++ bytes) := by
        rw [hdel', hdel, List.append_assoc]
      have hstored : memory s'' = storeAt (memory s) buffer (data ++ bytes) := by
        rw [hmem', hmem, storeAt_append]
      obtain ⟨h'', hpass, hacc⟩ := readPass_value hle hmax hlt hdone htask hread hfit hdata hstored
      exact ⟨true, h'', s'', bytes, hpass, hacc⟩
    · obtain ⟨h'', hpass, hacc⟩ := readPass_error hlt hdone htask hread (hdel'.trans hdel) (hmem'.trans hmem)
      refine ⟨false, h'', s'', [], hpass, ?_⟩
      rw [List.append_nil]
      exact hacc
  · -- without a task there is nothing to do
    have hidle : h'.readTask = none := by
      rcases hcleared with ⟨-, -, hidle, -⟩ | ⟨e, -, -, hidle, -⟩
      · exact hidle
      · exact hidle
    refine ⟨false, h', s', [], ?_, ?_, ?_, ?_⟩
    · simp only [ReadTaskAndStepHelper.readPass, hidle]
    · rw [hdel, List.append_nil]
    · rw [hmem, List.append_nil]
    · rw [List.append_nil]
      exact Or.inr hcleared

theorem Accounted.readPasses : ∀ (k : Nat) {h' : ReadTaskAndStepHelper} {s' : σ} {data : List UInt8},
    Accounted memory delivered done s buffer minLength maxLength h' s' data →
    ∃ h'' s'' more, ReadTaskAndStepHelper.readPasses reader k h' s' = some (h'', s'') ∧
      Accounted memory delivered done s buffer minLength maxLength h'' s'' (data ++ more)
  | 0, h', s', data, hacc => ⟨h', s', [], rfl, by rwa [List.append_nil]⟩
  | k + 1, h', s', data, hacc => by
    obtain ⟨again, h₁, s₁, more₁, hpass, hacc₁⟩ := hacc.readPass hstream hle hmax
    obtain ⟨h₂, s₂, more₂, hrest, hacc₂⟩ := Accounted.readPasses k hacc₁
    refine ⟨h₂, s₂, more₁ ++ more₂, ?_, by rwa [← List.append_assoc]⟩
    simp only [ReadTaskAndStepHelper.readPasses, hpass, Option.bind_eq_bind, Option.bind_some, hrest]

/-- A call of `readStep` ends: every pass that another one follows takes a byte. -/
theorem Accounted.readStep {h' : ReadTaskAndStepHelper} {s' : σ} {data : List UInt8}
    (hacc : Accounted memory delivered done s buffer minLength maxLength h' s' data) :
    ∃ h'' s'' more, ReadTaskAndStepHelper.readStep reader h' s' = some (h'', s'') ∧
      Accounted memory delivered done s buffer minLength maxLength h'' s'' (data ++ more) := by
  have hends : ∃ h'' s'', ReadTaskAndStepHelper.readStep reader h' s' = some (h'', s'') := by
    obtain ⟨-, -, ⟨hlt, -, htask⟩ | ⟨-, -, hidle, -⟩ | ⟨-, -, -, hidle, -⟩⟩ := hacc
    · have hsound : ReadIoTask.Sound
          ⟨buffer + data.length, minLength - data.length, maxLength - data.length, data.length⟩ :=
        ⟨Nat.sub_pos_of_lt hlt, Nat.sub_le_sub_right hle _, by dsimp only; omega⟩
      obtain ⟨h'', s'', hrun, -⟩ := ReadTaskAndStepHelper.readStep_rule hstream.rule (h := h') (s := s') hsound trivial
      rw [← htask] at hrun
      exact ⟨h'', s'', hrun⟩
    · exact ⟨h', s', ReadTaskAndStepHelper.readStep_idle hidle s'⟩
    · exact ⟨h', s', ReadTaskAndStepHelper.readStep_idle hidle s'⟩
  obtain ⟨h'', s'', hrun⟩ := hends
  obtain ⟨k, hk⟩ := ReadTaskAndStepHelper.readStep_passes reader hrun
  obtain ⟨h₁, s₁, more, hpasses, hacc₁⟩ := hacc.readPasses hstream hle hmax k
  obtain ⟨rfl, rfl⟩ := Prod.mk.inj (Option.some.inj (hpasses.symm.trans hk))
  exact ⟨h₁, s₁, more, hrun, hacc₁⟩

theorem Accounted.readSteps : ∀ (k : Nat) {h' : ReadTaskAndStepHelper} {s' : σ} {data : List UInt8},
    Accounted memory delivered done s buffer minLength maxLength h' s' data →
    ∃ h'' s'' more, ReadTaskAndStepHelper.readSteps reader k h' s' = some (h'', s'') ∧
      Accounted memory delivered done s buffer minLength maxLength h'' s'' (data ++ more)
  | 0, h', s', data, hacc => ⟨h', s', [], rfl, by rwa [List.append_nil]⟩
  | k + 1, h', s', data, hacc => by
    obtain ⟨h₁, s₁, more₁, hstep, hacc₁⟩ := hacc.readStep hstream hle hmax
    obtain ⟨h₂, s₂, more₂, hrest, hacc₂⟩ := Accounted.readSteps k hacc₁
    refine ⟨h₂, s₂, more₁ ++ more₂, ?_, by rwa [← List.append_assoc]⟩
    simp only [ReadTaskAndStepHelper.readSteps, hstep, Option.bind_eq_bind, Option.bind_some, hrest]

include hmin

variable (s buffer minLength maxLength) in
/-- **A read task accounts for its bytes.** After every pass of every call of `readStep` the task
holds what is still to come, with both lengths exact, or it was cleared with one event;
every call ends, and a call after the event changes nothing. -/
theorem read_accounts {h : ReadTaskAndStepHelper} (hidle : h.readTask = none) (hdone : h.readDone = some done) :
    (∀ passes, ∃ h' s' data, { h with readTask := some ⟨buffer, minLength, maxLength, 0⟩ }.readPasses reader passes s =
        some (h', s') ∧ Accounted memory delivered done s buffer minLength maxLength h' s' data) ∧
    ∀ steps, ∃ h' s' data, ((AsyncIoStream.read reader h s buffer minLength maxLength).bind
        fun r => r.1.readSteps reader steps r.2) = some (h', s') ∧
      Accounted memory delivered done s buffer minLength maxLength h' s' data ∧
      (∃ passes, { h with readTask := some ⟨buffer, minLength, maxLength, 0⟩ }.readPasses reader passes s =
        some (h', s')) ∧
      (h'.readTask = none → ∀ more, h'.readSteps reader more s' = some (h', s')) := by
  have hstart : Accounted memory delivered done s buffer minLength maxLength
      { h with readTask := some ⟨buffer, minLength, maxLength, 0⟩ } s [] :=
    ⟨(List.append_nil _).symm, (storeAt_nil _ _).symm, Or.inl ⟨hmin, hdone, rfl⟩⟩
  refine ⟨fun passes => ?_, fun steps => ?_⟩
  · obtain ⟨h', s', data, hrun, hacc⟩ := hstart.readPasses hstream hle hmax passes
    exact ⟨h', s', data, hrun, hacc⟩
  · obtain ⟨h', s', data, hrun, hacc⟩ := hstart.readSteps hstream hle hmax (steps + 1)
    have hargs : maxLength ≥ minLength ∧ minLength > 0 := ⟨hle, hmin⟩
    refine ⟨h', s', data, ?_, hacc, ReadTaskAndStepHelper.readSteps_passes reader (steps + 1) hrun, fun hcleared more =>
      ReadTaskAndStepHelper.readSteps_idle reader hcleared s' more⟩
    simpa only [AsyncIoStream.read, assert_pos hargs, hidle, Option.isNone_none, assert_pos, Option.bind_eq_bind,
      Option.bind_some, ReadTaskAndStepHelper.readSteps] using hrun

end

/-! ## A scripted stream -/

/-- A stream that answers as it is told, with as many of the bytes as fit, and is busy afterwards. -/
structure Script where
  memory : Nat → UInt8
  delivered : List UInt8
  answers : List (ErrorOr (UInt8 × List UInt8))

namespace Script

def read (s : Script) (a length : Nat) : Option (ErrorOr Nat × Script) :=
  match s.answers with
  | [] => some (.error (recoverableError "Currently busy"), s)
  | .error e :: answers => some (.error e, { s with answers })
  | .value (byte, bytes) :: answers =>
    let chunk := (byte :: bytes).take length
    some (.value chunk.length, ⟨storeAt s.memory a chunk, s.delivered ++ chunk, answers⟩)

theorem delivers : Delivers ⟨read⟩ memory delivered where
  read s a length hlength := by
    show (∃ bytes s', s.read a length = _ ∧ _) ∨ ∃ e s', s.read a length = _ ∧ _
    unfold read
    split
    · exact Or.inr ⟨_, _, rfl, rfl, rfl⟩
    · exact Or.inr ⟨_, _, rfl, rfl, rfl⟩
    · refine Or.inl ⟨_, _, rfl, ?_, ?_, rfl, rfl⟩
      · rw [List.length_take, List.length_cons]
        omega
      · rw [List.length_take]
        omega

end Script

theorem read_accounts_script : ∃ h' s' data,
    ((AsyncIoStream.read ⟨Script.read⟩ ⟨none, some [], none⟩ ⟨fun _ => 0, [],
        [.value (1, [2]), .error (recoverableError "Currently busy"), .value (3, [])]⟩ 100 3 4).bind
      fun r => r.1.readSteps ⟨Script.read⟩ 1 r.2) = some (h', s') ∧ h'.readDone = some [.value 3] ∧
      data = [1, 2, 3] ∧ Accounted Script.memory Script.delivered [] ⟨fun _ => 0, [], [.value (1, [2]),
        .error (recoverableError "Currently busy"), .value (3, [])]⟩ 100 3 4 h' s' data := by
  obtain ⟨h', s', data, hrun, hacc, -⟩ := (read_accounts Script.delivers ⟨fun _ => 0, [],
    [.value (1, [2]), .error (recoverableError "Currently busy"), .value (3, [])]⟩ 100 3 4 (by decide) (by decide)
    (by decide) (h := ⟨none, some [], none⟩) rfl rfl).2 1
  refine ⟨h', s', data, hrun, ?_, ?_, hacc⟩
  · obtain ⟨rfl, -⟩ := Prod.mk.inj (Option.some.inj hrun)
    rfl
  · obtain ⟨-, rfl⟩ := Prod.mk.inj (Option.some.inj hrun)
    exact hacc.delivered.symm

end Forstio
