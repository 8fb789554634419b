import Mathlib.Data.List.Basic

/-!
# Self-delimiting formats

A parser takes a value off the front of a word. It is `Exact` for an encoding
when it accepts precisely the words that start with an encoded value, and
`Steady` when it only consumes its input and every error but the one for too
short a word is final: more input changes neither it nor what is accepted. Both
are closed under sequencing and counted repetition.
-/

namespace Format

variable {τ ε α γ : Type}

abbrev Parser (τ ε α : Type) := StateT (List τ) (Except ε) α

def Exact (enc : α → List τ) (p : Parser τ ε α) : Prop :=
  ∀ bs a rest, p.run bs = .ok (a, rest) ↔ bs = enc a ++ rest

structure Steady (short : ε) (final : ε → Prop) (p : Parser τ ε α) : Prop where
  ok : ∀ {bs a rest}, p.run bs = .ok (a, rest) → ∀ t, p.run (bs ++ t) = .ok (a, rest ++ t)
  error : ∀ {bs e}, p.run bs = .error e → e = short ∨ (final e ∧ ∀ t, p.run (bs ++ t) = .error e)
  le : ∀ {bs a rest}, p.run bs = .ok (a, rest) → rest.length ≤ bs.length

/-! ## Sequencing -/

theorem run_bind_ok {p : Parser τ ε α} {q : α → Parser τ ε γ} {bs : List τ} {c : γ × List τ} :
    (p >>= q).run bs = .ok c ↔ ∃ a rest, p.run bs = .ok (a, rest) ∧ (q a).run rest = .ok c := by
  rw [StateT.run_bind]
  cases p.run bs with
  | error e => simp [bind, Except.bind]
  | ok r =>
    obtain ⟨a, rest⟩ := r
    simp [bind, Except.bind]

theorem run_bind_error {p : Parser τ ε α} {q : α → Parser τ ε γ} {bs : List τ} {e : ε} :
    (p >>= q).run bs = .error e ↔
      p.run bs = .error e ∨ ∃ a rest, p.run bs = .ok (a, rest) ∧ (q a).run rest = .error e := by
  rw [StateT.run_bind]
  cases p.run bs with
  | error e => simp [bind, Except.bind]
  | ok r =>
    obtain ⟨a, rest⟩ := r
    simp [bind, Except.bind]

@[simp] theorem run_pure_ok {a : α} {bs : List τ} {c : α × List τ} :
    (pure a : Parser τ ε α).run bs = .ok c ↔ c = (a, bs) := by
  rw [StateT.run_pure]
  exact ⟨fun h => (Except.ok.inj h).symm, fun h => congrArg Except.ok h.symm⟩

theorem run_map_ok {p : Parser τ ε α} {f : α → γ} {bs : List τ} {c : γ} {rest : List τ} :
    (do let a ← p; return f a : Parser τ ε γ).run bs = .ok (c, rest) ↔ ∃ a, c = f a ∧ p.run bs = .ok (a, rest) := by
  simp only [run_bind_ok, run_pure_ok]
  constructor
  · rintro ⟨a, r, ha, h⟩
    obtain ⟨rfl, rfl⟩ := Prod.mk.inj h
    exact ⟨a, rfl, ha⟩
  · rintro ⟨a, rfl, ha⟩
    exact ⟨a, rest, ha, rfl⟩

theorem run_map_error {p : Parser τ ε α} {f : α → γ} {bs : List τ} {e : ε} :
    (do let a ← p; return f a : Parser τ ε γ).run bs = .error e ↔ p.run bs = .error e := by
  rw [run_bind_error]
  exact ⟨fun h => h.elim id fun ⟨_, _, _, h⟩ => (by cases h), Or.inl⟩

@[simp] theorem run_throw_ok {e : ε} {bs : List τ} {c : α × List τ} :
    (throw e : Parser τ ε α).run bs = .ok c ↔ False := by
  constructor
  · intro h
    cases h
  · exact False.elim

theorem Exact.bind {enc : α → List τ} {p : Parser τ ε α} {q : α → Parser τ ε γ} {enc' : γ → List τ}
    (hp : Exact enc p) (key : γ → α)
    (hq : ∀ a bs c rest, (q a).run bs = .ok (c, rest) ↔ key c = a ∧ bs = enc' c ++ rest) :
    Exact (fun c => enc (key c) ++ enc' c) (p >>= q) := by
  intro bs c rest
  rw [run_bind_ok]
  constructor
  · rintro ⟨a, r, ha, hc⟩
    obtain ⟨rfl, rfl⟩ := (hq a r c rest).mp hc
    rw [(hp bs _ _).mp ha, List.append_assoc]
  · intro h
    refine ⟨key c, enc' c ++ rest, (hp _ _ _).mpr ?_, (hq _ _ _ _).mpr ⟨rfl, rfl⟩⟩
    rw [h, List.append_assoc]

theorem Exact.unit : Exact (fun _ : Unit => []) (pure () : Parser τ ε Unit) := by
  intro bs _ rest
  rw [run_pure_ok]
  exact ⟨fun h => (Prod.mk.inj h).2.symm, fun h => by rw [h, List.nil_append]⟩

theorem Exact.pair {enc : α → List τ} {enc' : γ → List τ} {p : Parser τ ε α} {q : Parser τ ε γ}
    (hp : Exact enc p) (hq : Exact enc' q) :
    Exact (fun c : α × γ => enc c.1 ++ enc' c.2) (do let a ← p; let c ← q; return (a, c)) := by
  refine hp.bind Prod.fst fun a bs c rest => ?_
  simp only [run_bind_ok, run_pure_ok, hq _ _ _]
  constructor
  · rintro ⟨c', r, rfl, h⟩
    obtain ⟨rfl, rfl⟩ := Prod.mk.inj h
    exact ⟨rfl, rfl⟩
  · rintro ⟨rfl, rfl⟩
    exact ⟨c.2, rest, rfl, rfl⟩

section
variable {short : ε} {final : ε → Prop}

theorem Steady.pure (a : α) : Steady short final (Pure.pure a : Parser τ ε α) := by
  refine ⟨fun h t => ?_, fun h => ?_, fun h => ?_⟩
  · obtain ⟨rfl, rfl⟩ := Prod.mk.inj (run_pure_ok.mp h)
    rfl
  · cases h
  · obtain ⟨rfl, rfl⟩ := Prod.mk.inj (run_pure_ok.mp h)
    exact Nat.le_refl _

theorem Steady.throw {e : ε} (he : final e) : Steady short final (throw e : Parser τ ε α) := by
  refine ⟨fun h => (run_throw_ok.mp h).elim, fun h => ?_, fun h => (run_throw_ok.mp h).elim⟩
  cases h
  exact Or.inr ⟨he, fun _ => rfl⟩

theorem Steady.bind {p : Parser τ ε α} {q : α → Parser τ ε γ} (hp : Steady short final p)
    (hq : ∀ a, Steady short final (q a)) : Steady short final (p >>= q) := by
  refine ⟨fun h t => ?_, fun h => ?_, fun h => ?_⟩
  · obtain ⟨a, r, ha, hc⟩ := run_bind_ok.mp h
    exact run_bind_ok.mpr ⟨a, r ++ t, hp.ok ha t, (hq a).ok hc t⟩
  · rcases run_bind_error.mp h with he | ⟨a, r, ha, he⟩
    · exact (hp.error he).imp_right fun ⟨hf, ht⟩ => ⟨hf, fun t => run_bind_error.mpr (Or.inl (ht t))⟩
    · exact ((hq a).error he).imp_right fun ⟨hf, ht⟩ =>
        ⟨hf, fun t => run_bind_error.mpr (Or.inr ⟨a, r ++ t, hp.ok ha t, ht t⟩)⟩
  · obtain ⟨a, r, ha, hc⟩ := run_bind_ok.mp h
    exact Nat.le_trans ((hq a).le hc) (hp.le ha)

end

/-! ## Blocks of a known length -/

/-- The next `k` symbols; `short` when there are fewer. -/
def block (short : ε) (k : Nat) : Parser τ ε (List τ) := do
  let bs ← get
  if bs.length < k then throw short
  else
    set (bs.drop k)
    return bs.take k

theorem run_block (short : ε) (k : Nat) (bs : List τ) :
    (block short k).run bs = if bs.length < k then .error short else .ok (bs.take k, bs.drop k) := by
  unfold block
  simp only [StateT.run_bind, StateT.run_get]
  show (if bs.length < k then _ else _ : Parser τ ε (List τ)).run bs = _
  split
  · rfl
  · rfl

theorem run_block_ok {short : ε} {k : Nat} {bs xs rest : List τ} :
    (block short k).run bs = .ok (xs, rest) ↔ xs.length = k ∧ bs = xs ++ rest := by
  rw [run_block]
  constructor
  · intro h
    split at h
    · cases h
    · obtain ⟨rfl, rfl⟩ := Prod.mk.inj (Except.ok.inj h)
      refine ⟨?_, (List.take_append_drop k bs).symm⟩
      rw [List.length_take]
      omega
  · rintro ⟨rfl, rfl⟩
    rw [if_neg (by simp), List.take_left, List.drop_left]

theorem Steady.block (short : ε) (final : ε → Prop) (k : Nat) :
    Steady short final (block short k : Parser τ ε (List τ)) := by
  refine ⟨fun h t => ?_, fun h => ?_, fun h => ?_⟩
  · obtain ⟨hk, rfl⟩ := run_block_ok.mp h
    exact run_block_ok.mpr ⟨hk, List.append_assoc ..⟩
  · rw [run_block] at h
    split at h
    · exact Or.inl (Except.error.inj h).symm
    · cases h
  · obtain ⟨-, rfl⟩ := run_block_ok.mp h
    rw [List.length_append]
    omega

/-! ## Counted repetition -/

def repeated (p : Parser τ ε α) : Nat → Parser τ ε (List α)
  | 0 => pure []
  | n + 1 => do
    let a ← p
    let as ← repeated p n
    return a :: as

theorem repeated_ok {enc : α → List τ} {p : Parser τ ε α} (hp : Exact enc p) :
    ∀ (n : Nat) (bs : List τ) (as : List α) (rest : List τ),
      (repeated p n).run bs = .ok (as, rest) ↔ as.length = n ∧ bs = as.flatMap enc ++ rest
  | 0, bs, as, rest => by
    rw [repeated, run_pure_ok]
    constructor
    · intro h
      obtain ⟨rfl, rfl⟩ := Prod.mk.inj h
      exact ⟨rfl, rfl⟩
    · rintro ⟨hlen, rfl⟩
      rw [List.eq_nil_of_length_eq_zero hlen]
      rfl
  | n + 1, bs, as, rest => by
    simp only [repeated, run_bind_ok, run_pure_ok, hp _ _ _, repeated_ok hp n]
    constructor
    · rintro ⟨a, r, rfl, as', r', ⟨rfl, rfl⟩, h⟩
      obtain ⟨rfl, rfl⟩ := Prod.mk.inj h
      exact ⟨rfl, by rw [List.flatMap_cons, List.append_assoc]⟩
    · rintro ⟨hlen, rfl⟩
      cases as with
      | nil => cases hlen
      | cons a as =>
        refine ⟨a, as.flatMap enc ++ rest, ?_, as, rest, ⟨Nat.succ.inj hlen, rfl⟩, rfl⟩
        rw [List.flatMap_cons, List.append_assoc]

/-- A repetition fails at the first item that does. -/
theorem repeated_error {enc : α → List τ} {p : Parser τ ε α} (hp : Exact enc p) {e : ε} :
    ∀ (n : Nat) (bs : List τ), (repeated p n).run bs = .error e ↔
      ∃ (as : List α) (rest : List τ), as.length < n ∧ bs = as.flatMap enc ++ rest ∧ p.run rest = .error e
  | 0, bs => ⟨fun h => (by cases h), fun ⟨_, _, h, _⟩ => absurd h (Nat.not_lt_zero _)⟩
  | n + 1, bs => by
    simp only [repeated, run_bind_error, repeated_error hp n]
    constructor
    · rintro (h | ⟨a, r, ha, ⟨as, r', hlen, rfl, h⟩ | ⟨as, r', has, h⟩⟩)
      · exact ⟨[], bs, Nat.succ_pos n, rfl, h⟩
      · refine ⟨a :: as, r', Nat.succ_lt_succ hlen, ?_, h⟩
        rw [(hp _ _ _).mp ha, List.flatMap_cons, List.append_assoc]
      · cases h
    · rintro ⟨as, rest, hlen, rfl, h⟩
      cases as with
      | nil => exact Or.inl h
      | cons a as =>
        refine Or.inr ⟨a, as.flatMap enc ++ rest, (hp _ _ _).mpr ?_,
          Or.inl ⟨as, rest, Nat.lt_of_succ_lt_succ hlen, rfl, h⟩⟩
        rw [List.flatMap_cons, List.append_assoc]

theorem Steady.repeated {short : ε} {final : ε → Prop} {p : Parser τ ε α} (hp : Steady short final p) :
    ∀ n, Steady short final (repeated p n)
  | 0 => Steady.pure []
  | n + 1 => hp.bind fun _ => (Steady.repeated hp n).bind fun _ => Steady.pure _

end Format
