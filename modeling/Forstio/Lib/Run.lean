import Mathlib.Data.List.Infix
import Mathlib.Logic.Basic
import Mathlib.Logic.Function.Iterate
import Mathlib.Order.RelClasses

/-!
# Runs of a machine that may abort

A machine takes operations one after another, answers each, and may abort.
`exec_invariant` and `exec_refines` carry an invariant of single steps, or
their simulation by a reference machine, over to whole runs, under a condition
that every step of the run meets.
-/

namespace Run

variable {σ τ ι ω : Type}

/-- The answers and the last state of a run; `none` if a step aborts. -/
def exec (step : σ → ι → Option (ω × σ)) : σ → List ι → Option (List ω × σ)
  | s, [] => some ([], s)
  | s, a :: as => do
    let (o, s) ← step s a
    let (os, s) ← exec step s as
    return (o :: os, s)

/-- A run of a machine that never aborts. -/
def total (step : τ → ι → ω × τ) : τ → List ι → List ω × τ
  | t, [] => ([], t)
  | t, a :: as => ((step t a).1 :: (total step (step t a).2 as).1, (total step (step t a).2 as).2)

/-- Every step of the run starts in a state that meets `ok`. -/
def Along (step : σ → ι → Option (ω × σ)) (ok : σ → ι → Prop) : σ → List ι → Prop
  | _, [] => True
  | s, a :: as => ok s a ∧ ∀ o s', step s a = some (o, s') → Along step ok s' as

theorem exec_cons {step : σ → ι → Option (ω × σ)} {s s' : σ} {a : ι} {as : List ι} {o : ω}
    (h : step s a = some (o, s')) :
    exec step s (a :: as) = (exec step s' as).map fun r => (o :: r.1, r.2) := by
  cases hr : exec step s' as <;> simp [exec, h, hr]

/-- **Invariants of runs** whose steps all meet `ok`. -/
theorem exec_invariant {step : σ → ι → Option (ω × σ)} (I : σ → Prop) (ok : σ → ι → Prop)
    (hstep : ∀ s a, I s → ok s a → ∃ o s', step s a = some (o, s') ∧ I s') :
    ∀ (as : List ι) (s : σ), I s → Along step ok s as → ∃ os s', exec step s as = some (os, s') ∧ I s'
  | [], s, hI, _ => ⟨[], s, rfl, hI⟩
  | a :: as, s, hI, hok => by
    obtain ⟨o, s₁, h₁, hI₁⟩ := hstep s a hI hok.1
    obtain ⟨os, s₂, h₂, hI₂⟩ := exec_invariant I ok hstep as s₁ hI₁ (hok.2 _ _ h₁)
    refine ⟨o :: os, s₂, ?_, hI₂⟩
    rw [exec_cons h₁, h₂]
    rfl

/-- What every step keeps that meets `ok`, if it does not abort, a run keeps that does not. -/
theorem exec_preserves {step : σ → ι → Option (ω × σ)} (I : σ → Prop) (ok : σ → ι → Prop)
    (hstep : ∀ s a o s', I s → ok s a → step s a = some (o, s') → I s') :
    ∀ (as : List ι) (s s' : σ) (os : List ω), exec step s as = some (os, s') → Along step ok s as → I s → I s'
  | [], s, s', os, hrun, _, hs => by
    obtain ⟨-, rfl⟩ := Prod.mk.inj (Option.some.inj hrun)
    exact hs
  | a :: as, s, s', os, hrun, hok, hs => by
    obtain ⟨⟨o, s₁⟩, h₁, hrest⟩ := Option.bind_eq_some_iff.mp hrun
    obtain ⟨⟨os', s₂⟩, h₂, heq⟩ := Option.bind_eq_some_iff.mp hrest
    obtain ⟨-, rfl⟩ := Prod.mk.inj (Option.some.inj heq)
    exact exec_preserves I ok hstep as s₁ s₂ os' h₂ (hok.2 _ _ h₁) (hstep s a o s₁ hs hok.1 h₁)

/-- A machine that can follow every step of another one, with the same answer, can follow its runs. -/
theorem exec_simulates {step : σ → ι → Option (ω × σ)} {step' : τ → ι → Option (ω × τ)} (R : σ → τ → Prop)
    (ok : σ → ι → Prop)
    (hstep : ∀ s t a o s', R s t → ok s a → step s a = some (o, s') → ∃ t', step' t a = some (o, t') ∧ R s' t') :
    ∀ (as : List ι) (s : σ) (t : τ) {os : List ω} {s' : σ}, R s t → Along step ok s as → exec step s as = some (os, s') →
      ∃ t', exec step' t as = some (os, t') ∧ R s' t'
  | [], s, t, os, s', hR, _, hrun => by
    obtain ⟨rfl, rfl⟩ := Prod.mk.inj (Option.some.inj hrun)
    exact ⟨t, rfl, hR⟩
  | a :: as, s, t, os, s', hR, hok, hrun => by
    obtain ⟨⟨o, s₁⟩, h₁, hrest⟩ := Option.bind_eq_some_iff.mp hrun
    obtain ⟨⟨os₁, s₂⟩, h₂, heq⟩ := Option.bind_eq_some_iff.mp hrest
    obtain ⟨rfl, rfl⟩ := Prod.mk.inj (Option.some.inj heq)
    obtain ⟨t₁, ht₁, hR₁⟩ := hstep s t a o s₁ hR hok.1 h₁
    obtain ⟨t₂, ht₂, hR₂⟩ := exec_simulates R ok hstep as s₁ t₁ hR₁ (hok.2 o s₁ h₁) h₂
    refine ⟨t₂, ?_, hR₂⟩
    rw [exec_cons ht₁, ht₂]
    rfl

theorem along_cons {step : σ → ι → Option (ω × σ)} {ok : σ → ι → Prop} {s s' : σ} {a : ι} {as : List ι} {o : ω}
    (h : step s a = some (o, s')) : Along step ok s (a :: as) ↔ ok s a ∧ Along step ok s' as := by
  refine ⟨fun hall => ⟨hall.1, hall.2 o s' h⟩, fun hall => ⟨hall.1, fun o₁ s₁ h₁ => ?_⟩⟩
  obtain ⟨-, rfl⟩ := Prod.mk.inj (Option.some.inj (h.symm.trans h₁))
  exact hall.2

theorem Along.initial {step : σ → ι → Option (ω × σ)} {ok : σ → ι → Prop} :
    ∀ {as bs : List ι} {s : σ}, as <+: bs → Along step ok s bs → Along step ok s as
  | [], _, _, _, _ => trivial
  | a :: as, [], _, h, _ => absurd (List.prefix_nil.mp h) (List.cons_ne_nil a as)
  | a :: as, b :: bs, s, h, hbs => by
    obtain ⟨rfl, hrest⟩ := List.cons_prefix_cons.mp h
    exact ⟨hbs.1, fun o s' h' => Along.initial hrest (hbs.2 o s' h')⟩

theorem Along.of_append {step : σ → ι → Option (ω × σ)} {ok : σ → ι → Prop} :
    ∀ {as bs : List ι} {s s' : σ} {os : List ω}, Along step ok s (as ++ bs) → exec step s as = some (os, s') →
      Along step ok s' bs
  | [], _, _, _, _, h, hrun => by
    cases hrun
    exact h
  | a :: as, bs, s, s', os, h, hrun => by
    obtain ⟨⟨o, s₁⟩, h₁, hrest⟩ := Option.bind_eq_some_iff.mp hrun
    obtain ⟨⟨os₁, s₂⟩, h₂, heq⟩ := Option.bind_eq_some_iff.mp hrest
    cases heq
    exact Along.of_append (h.2 o s₁ h₁) h₂

theorem Along.mono {step : σ → ι → Option (ω × σ)} {P Q : σ → ι → Prop} (hPQ : ∀ s a, P s a → Q s a) :
    ∀ {as : List ι} {s : σ}, Along step P s as → Along step Q s as
  | [], _, _ => trivial
  | _ :: _, _, h => ⟨hPQ _ _ h.1, fun o s' hstep => Along.mono hPQ (h.2 o s' hstep)⟩

theorem Along.and {step : σ → ι → Option (ω × σ)} {P Q : σ → ι → Prop} : ∀ {as : List ι} {s : σ},
    Along step P s as → Along step Q s as → Along step (fun s a => P s a ∧ Q s a) s as
  | [], _, _, _ => trivial
  | _ :: _, _, hP, hQ => ⟨⟨hP.1, hQ.1⟩, fun o s' h => Along.and (hP.2 o s' h) (hQ.2 o s' h)⟩

/-- **Bounded response.** If every step short of the goal keeps `I` and lowers a rank at each tick, and
raises it never, then a run comes to the goal before it has ticked more often than the rank says. -/
theorem exec_reaches {step : σ → ι → Option (ω × σ)} {ok goal : σ → ι → Prop} (I : σ → Prop) (rank : σ → Nat)
    (tick : ι → Bool)
    (hstep : ∀ s a, I s → ok s a → ¬ goal s a →
      ∃ o s', step s a = some (o, s') ∧ I s' ∧ rank s' + (tick a).toNat ≤ rank s) :
    ∀ (as : List ι) (s : σ), I s → Along step ok s as → rank s < as.countP tick →
      ∃ bs a cs os s', as = bs ++ a :: cs ∧ exec step s bs = some (os, s') ∧ I s' ∧ goal s' a ∧
        bs.countP tick ≤ rank s
  | [], _, _, _, hticks => absurd hticks (Nat.not_lt_zero _)
  | a :: as, s, hI, hok, hticks => by
    by_cases hgoal : goal s a
    · exact ⟨[], a, as, [], s, rfl, rfl, hI, hgoal, Nat.zero_le _⟩
    · obtain ⟨o, s₁, h₁, hI₁, hrank⟩ := hstep s a hI hok.1 hgoal
      have hcount (bs : List ι) : (a :: bs).countP tick = bs.countP tick + (tick a).toNat := by
        cases ha : tick a with
        | true => rw [List.countP_cons_of_pos ha, Bool.toNat_true]
        | false => rw [List.countP_cons_of_neg (by simp [ha]), Bool.toNat_false, Nat.add_zero]
      rw [hcount] at hticks
      obtain ⟨bs, b, cs, os, s₂, rfl, h₂, hI₂, hb, hle⟩ :=
        exec_reaches I rank tick hstep as s₁ hI₁ (hok.2 o s₁ h₁) (by omega)
      refine ⟨a :: bs, b, cs, o :: os, s₂, rfl, ?_, hI₂, hb, ?_⟩
      · rw [exec_cons h₁, h₂]
        rfl
      · rw [hcount]
        omega

/-- **Machines that settle.** If every step keeps `I` and lowers a rank that is not 0 yet, a run that is
long enough ends with rank 0. -/
theorem exec_settles {step : σ → ι → Option (ω × σ)} {ok : σ → ι → Prop} (I : σ → Prop) (rank : σ → Nat)
    (hstep : ∀ s a, I s → ok s a → ∃ o s', step s a = some (o, s') ∧ I s' ∧ rank s' ≤ rank s - 1) :
    ∀ (as : List ι) (s : σ), I s → Along step ok s as →
      ∃ os s', exec step s as = some (os, s') ∧ I s' ∧ rank s' ≤ rank s - as.length
  | [], s, hI, _ => ⟨[], s, rfl, hI, Nat.le_refl _⟩
  | a :: as, s, hI, hok => by
    obtain ⟨o, s₁, h₁, hI₁, hrank⟩ := hstep s a hI hok.1
    obtain ⟨os, s₂, h₂, hI₂, hle⟩ := exec_settles I rank hstep as s₁ hI₁ (hok.2 o s₁ h₁)
    refine ⟨o :: os, s₂, ?_, hI₂, ?_⟩
    · rw [exec_cons h₁, h₂]
      rfl
    · rw [List.length_cons]
      omega

instance decidableAlong (step : σ → ι → Option (ω × σ)) (ok : σ → ι → Prop) [∀ s a, Decidable (ok s a)] :
    ∀ (as : List ι) (s : σ), Decidable (Along step ok s as)
  | [], _ => isTrue trivial
  | a :: as, s =>
    match h : step s a with
    | none => decidable_of_iff (ok s a) (by simp [Along, h])
    | some (_, s') =>
      have := decidableAlong step ok as s'
      decidable_of_iff (ok s a ∧ Along step ok s' as) (along_cons h).symm

/-- **The exact condition of an invariant.** If steps that meet `ok` keep `J`, which
implies `I`, and any other step breaks `I`, then `I` holds all along a run exactly when
its steps meet `ok`. -/
theorem exec_invariant_iff {step : σ → ι → Option (ω × σ)} {ok : σ → ι → Prop} (I J : σ → Prop)
    (hJI : ∀ s, J s → I s) (hgood : ∀ s a, J s → ok s a → ∃ o s', step s a = some (o, s') ∧ J s')
    (hbad : ∀ s a, J s → ¬ ok s a → ∃ o s', step s a = some (o, s') ∧ ¬ I s') :
    ∀ (as : List ι) (s : σ), J s →
      ((∀ bs, bs <+: as → ∃ os s', exec step s bs = some (os, s') ∧ I s') ↔ Along step ok s as)
  | [], s, hJ => by
    refine ⟨fun _ => trivial, fun _ bs hbs => ?_⟩
    rw [List.prefix_nil.mp hbs]
    exact ⟨[], s, rfl, hJI s hJ⟩
  | a :: as, s, hJ => by
    constructor
    · intro hI
      have hok : ok s a := by
        refine Classical.byContradiction fun hok => ?_
        obtain ⟨o, s₁, h₁, hbroken⟩ := hbad s a hJ hok
        obtain ⟨os, s₂, h₂, hI₂⟩ := hI [a] (List.prefix_append [a] as)
        rw [exec_cons h₁] at h₂
        obtain ⟨-, rfl⟩ := Prod.mk.inj (Option.some.inj h₂)
        exact hbroken hI₂
      obtain ⟨o, s₁, h₁, hJ₁⟩ := hgood s a hJ hok
      refine (along_cons h₁).mpr ⟨hok, (exec_invariant_iff I J hJI hgood hbad as s₁ hJ₁).mp fun bs hbs => ?_⟩
      obtain ⟨os, s₂, h₂, hI₂⟩ := hI (a :: bs) (List.cons_prefix_cons.mpr ⟨rfl, hbs⟩)
      rw [exec_cons h₁] at h₂
      obtain ⟨⟨os', s₃⟩, h₃, heq⟩ := Option.map_eq_some_iff.mp h₂
      obtain ⟨-, rfl⟩ := Prod.mk.inj heq
      exact ⟨os', s₃, h₃, hI₂⟩
    · intro hok bs hbs
      obtain ⟨os, s₁, h₁, hJ₁⟩ := exec_invariant J ok hgood bs s hJ (hok.initial hbs)
      exact ⟨os, s₁, h₁, hJI s₁ hJ₁⟩

theorem exec_runs_iff {step : σ → ι → Option (ω × σ)} {ok : σ → ι → Prop} (I J : σ → Prop) (hJI : ∀ s, J s → I s)
    (hgood : ∀ s a o s', J s → ok s a → step s a = some (o, s') → J s')
    (hbad : ∀ s a o s', J s → ¬ ok s a → step s a = some (o, s') → ¬ I s') :
    ∀ (as : List ι) (s : σ), J s → (∃ os s', exec step s as = some (os, s')) →
      ((∀ bs, bs <+: as → ∀ os s', exec step s bs = some (os, s') → I s') ↔ Along step ok s as)
  | [], s, hJ, _ => by
    refine ⟨fun _ => trivial, fun _ bs hbs os s' hrun => ?_⟩
    rw [List.prefix_nil.mp hbs] at hrun
    obtain ⟨-, rfl⟩ := Prod.mk.inj (Option.some.inj hrun)
    exact hJI s hJ
  | a :: as, s, hJ, ⟨os, s', hrun⟩ => by
    obtain ⟨⟨o, s₁⟩, h₁, hrest⟩ := Option.bind_eq_some_iff.mp hrun
    obtain ⟨⟨os₁, s₂⟩, h₂, -⟩ := Option.bind_eq_some_iff.mp hrest
    have hone : exec step s [a] = some ([o], s₁) := by rw [exec_cons h₁]; rfl
    rw [along_cons h₁]
    constructor
    · intro hI
      have hok : ok s a := Classical.byContradiction fun hno =>
        hbad s a o s₁ hJ hno h₁ (hI [a] (List.prefix_append [a] as) _ _ hone)
      have hJ₁ := hgood s a o s₁ hJ hok h₁
      refine ⟨hok, (exec_runs_iff I J hJI hgood hbad as s₁ hJ₁ ⟨os₁, s₂, h₂⟩).mp
        fun bs hbs os' s'' hbrun => ?_⟩
      refine hI (a :: bs) (List.cons_prefix_cons.mpr ⟨rfl, hbs⟩) (o :: os') s'' ?_
      rw [exec_cons h₁, hbrun]
      rfl
    · intro ⟨hok, hall⟩ bs hbs os' s'' hbrun
      have hJ₁ := hgood s a o s₁ hJ hok h₁
      cases bs with
      | nil =>
        obtain ⟨-, rfl⟩ := Prod.mk.inj (Option.some.inj hbrun)
        exact hJI s hJ
      | cons b bs =>
        obtain ⟨rfl, hrest⟩ := List.cons_prefix_cons.mp hbs
        rw [exec_cons h₁] at hbrun
        obtain ⟨⟨os₂, s₃⟩, h₃, heq⟩ := Option.map_eq_some_iff.mp hbrun
        obtain ⟨-, rfl⟩ := Prod.mk.inj heq
        exact (exec_runs_iff I J hJI hgood hbad as s₁ hJ₁ ⟨os₁, s₂, h₂⟩).mpr hall bs hrest os₂ s₃ h₃

/-- Two conditions on steps that agree wherever the invariant `I` holds, which the steps that meet them
keep, agree along runs. -/
theorem along_iff {step : σ → ι → Option (ω × σ)} {ok P Q : σ → ι → Prop} (I : σ → Prop)
    (hstep : ∀ s a o s', I s → ok s a → Q s a → step s a = some (o, s') → I s')
    (hPQ : ∀ s a, I s → ok s a → (P s a ↔ Q s a)) :
    ∀ (as : List ι) (s : σ), I s → Along step ok s as → (Along step P s as ↔ Along step Q s as)
  | [], _, _, _ => Iff.rfl
  | a :: as, s, hI, hok => by
    have hhead := hPQ s a hI hok.1
    constructor
    · intro hP
      have hQ := hhead.mp hP.1
      refine ⟨hQ, fun o s' h => ?_⟩
      exact (along_iff I hstep hPQ as s' (hstep s a o s' hI hok.1 hQ h) (hok.2 o s' h)).mp (hP.2 o s' h)
    · intro hQ
      refine ⟨hhead.mpr hQ.1, fun o s' h => ?_⟩
      exact (along_iff I hstep hPQ as s' (hstep s a o s' hI hok.1 hQ.1 h) (hok.2 o s' h)).mpr (hQ.2 o s' h)

/-- **When a run aborts.** If steps that meet `ok` keep `J` and any other step aborts, then a run
goes through exactly when its steps meet `ok`. -/
theorem exec_iff {step : σ → ι → Option (ω × σ)} {ok : σ → ι → Prop} (J : σ → Prop)
    (hgood : ∀ s a, J s → ok s a → ∃ o s', step s a = some (o, s') ∧ J s')
    (hbad : ∀ s a, J s → ¬ ok s a → step s a = none) :
    ∀ (as : List ι) (s : σ), J s → ((∃ os s', exec step s as = some (os, s')) ↔ Along step ok s as) := by
  intro as s hJ
  refine ⟨?_, fun hall => (exec_invariant J ok hgood as s hJ hall).imp fun _ ⟨s', hrun, _⟩ => ⟨s', hrun⟩⟩
  intro ⟨os, s', hrun⟩
  induction as generalizing s os s' with
  | nil => trivial
  | cons a as ih =>
    have hok : ok s a := by
      refine Classical.byContradiction fun hok => ?_
      simp [exec, hbad s a hJ hok] at hrun
    obtain ⟨o, s₁, h₁, hJ₁⟩ := hgood s a hJ hok
    rw [exec_cons h₁] at hrun
    obtain ⟨⟨os', s₂⟩, h₂, -⟩ := Option.map_eq_some_iff.mp hrun
    exact (along_cons h₁).mpr ⟨hok, ih s₁ hJ₁ os' s₂ h₂⟩

/-- **Two machines in step**, neither of which aborts. -/
theorem exec_agrees {step : σ → ι → Option (ω × σ)} {step' : τ → ι → Option (ω × τ)} (R : σ → τ → Prop)
    (hstep : ∀ s t a, R s t → ∃ o s' t', step s a = some (o, s') ∧ step' t a = some (o, t') ∧ R s' t') :
    ∀ (as : List ι) (s : σ) (t : τ), R s t →
      ∃ os s' t', exec step s as = some (os, s') ∧ exec step' t as = some (os, t') ∧ R s' t'
  | [], s, t, hR => ⟨[], s, t, rfl, rfl, hR⟩
  | a :: as, s, t, hR => by
    obtain ⟨o, s₁, t₁, h₁, h₁', hR₁⟩ := hstep s t a hR
    obtain ⟨os, s₂, t₂, h₂, h₂', hR₂⟩ := exec_agrees R hstep as s₁ t₁ hR₁
    refine ⟨o :: os, s₂, t₂, ?_, ?_, hR₂⟩
    · rw [exec_cons h₁, h₂]
      rfl
    · rw [exec_cons h₁', h₂']
      rfl

section
variable {step : σ → ι → Option (ω × σ)} {ref : τ → ι → ω × τ} (R : σ → τ → Prop)

/-- **Refinement of runs** whose steps all meet `ok`. -/
theorem exec_refines (ok : σ → ι → Prop)
    (hstep : ∀ s t a, R s t → ok s a → ∃ s', step s a = some ((ref t a).1, s') ∧ R s' (ref t a).2) :
    ∀ (as : List ι) (s : σ) (t : τ), R s t → Along step ok s as →
      ∃ s', exec step s as = some ((total ref t as).1, s') ∧ R s' (total ref t as).2
  | [], s, _, hR, _ => ⟨s, rfl, hR⟩
  | a :: as, s, t, hR, hok => by
    obtain ⟨s₁, h₁, hR₁⟩ := hstep s t a hR hok.1
    obtain ⟨s₂, h₂, hR₂⟩ := exec_refines ok hstep as s₁ _ hR₁ (hok.2 _ _ h₁)
    refine ⟨s₂, ?_, hR₂⟩
    rw [exec_cons h₁, h₂]
    rfl

theorem along_of_forall {ok : ι → Prop} : ∀ (as : List ι) (s : σ), (∀ a ∈ as, ok a) → Along step (fun _ a => ok a) s as
  | [], _, _ => trivial
  | a :: as, _, h =>
    ⟨h a (List.mem_cons_self ..), fun _ s' _ => along_of_forall as s' fun b hb => h b (List.mem_cons_of_mem _ hb)⟩

theorem along_true (as : List ι) (s : σ) : Along step (fun _ _ => True) s as := along_of_forall as s fun _ _ => trivial

theorem exec_refines_all
    (hstep : ∀ s t a, R s t → ∃ s', step s a = some ((ref t a).1, s') ∧ R s' (ref t a).2)
    (as : List ι) (s : σ) (t : τ) (h : R s t) :
    ∃ s', exec step s as = some ((total ref t as).1, s') ∧ R s' (total ref t as).2 :=
  exec_refines R (fun _ _ => True) (fun s t a h _ => hstep s t a h) as s t h (along_true as s)

end

/-- **Machines that halt.** If every step of a machine that has not halted lowers a rank and keeps `I`,
then it halts after finitely many steps. -/
theorem halts {μ : Type} [LT μ] [WellFoundedLT μ] (next : σ → σ) (I halted : σ → Prop) (rank : σ → μ)
    (h : ∀ s, I s → ¬ halted s → I (next s) ∧ rank (next s) < rank s) (s : σ) (hI : I s) :
    ∃ n, halted (next^[n] s) := by
  have hrank : ∀ r s, rank s = r → I s → ∃ n, halted (next^[n] s) := by
    intro r
    induction r using WellFoundedLT.induction with
    | ind r ih =>
      intro s hr hI
      by_cases hs : halted s
      · exact ⟨0, hs⟩
      · obtain ⟨hI', hlt⟩ := h s hI hs
        obtain ⟨n, hn⟩ := ih (rank (next s)) (hr ▸ hlt) (next s) rfl hI'
        exact ⟨n + 1, hn⟩
  exact hrank (rank s) s rfl hI

end Run
