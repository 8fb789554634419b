/-!
# Computations that avoid a fault

`Avoids bad x Q` says that `x` does not stop with the fault `bad`: either it ends
well, with a result that meets `Q`, or it stops for some other reason. `Follows R x y`
says that `y`, which does not tell why it stops, goes through whenever `x` does. The
rules follow a computation step by step.
-/

namespace Guard

variable {ε α β σ ι : Type} {bad : ε}

def Avoids (bad : ε) (x : Except ε α) (Q : α → Prop) : Prop :=
  match x with
  | .ok a => Q a
  | .error e => e ≠ bad

theorem Avoids.ok {a : α} {Q : α → Prop} (h : Q a) : Avoids bad (.ok a) Q := h

theorem Avoids.error {e : ε} {Q : α → Prop} (h : e ≠ bad) : Avoids bad (.error e : Except ε α) Q := h

/-- What follows on a computation starts from what it ends with. -/
theorem Avoids.bind {x : Except ε α} {f : α → Except ε β} {Q : α → Prop} {R : β → Prop} (hx : Avoids bad x Q)
    (hf : ∀ a, Q a → Avoids bad (f a) R) : Avoids bad (x >>= f) R := by
  cases x with
  | ok a => exact hf a hx
  | error e => exact hx

theorem Avoids.of_ok {x : Except ε α} {a : α} {f : α → Except ε β} {R : β → Prop} (hx : x = .ok a)
    (hf : Avoids bad (f a) R) : Avoids bad (x >>= f) R := by
  rw [hx]
  exact hf

theorem Avoids.result {x : Except ε α} {a : α} {Q : α → Prop} (hx : Avoids bad x Q) (ha : x = .ok a) : Q a := by
  rw [ha] at hx
  exact hx

theorem Avoids.ite {x y : Except ε α} {Q : α → Prop} {p : Prop} [Decidable p] (hx : p → Avoids bad x Q)
    (hy : ¬ p → Avoids bad y Q) : Avoids bad (if p then x else y) Q := by
  by_cases hp : p
  · rw [if_pos hp]
    exact hx hp
  · rw [if_neg hp]
    exact hy hp

theorem Avoids.mono {x : Except ε α} {Q R : α → Prop} (hx : Avoids bad x Q) (h : ∀ a, Q a → R a) : Avoids bad x R := by
  cases x with
  | ok a => exact h a hx
  | error e => exact hx

/-- **Loops**: the invariant speaks of what is left of the list. -/
theorem Avoids.foldlM {f : σ → ι → Except ε σ} (I : List ι → σ → Prop)
    (hstep : ∀ x xs s, I (x :: xs) s → Avoids bad (f s x) (I xs)) :
    ∀ (xs : List ι) (s : σ), I xs s → Avoids bad (xs.foldlM f s) (I [])
  | [], _, hs => hs
  | x :: xs, s, hs => by
    rw [List.foldlM_cons]
    exact (hstep x xs s hs).bind fun s' hs' => Avoids.foldlM I hstep xs s' hs'

/-! ## Simulation -/

section
variable {γ δ τ : Type} {R : α → γ → Prop} {S : β → δ → Prop}

/-- What `x` ends with, `y` ends with, too, up to `R`. -/
def Follows (R : α → γ → Prop) (x : Except ε α) (y : Option γ) : Prop := ∀ a, x = .ok a → ∃ c, y = some c ∧ R a c

theorem Follows.ok {a : α} {c : γ} (h : R a c) : Follows (ε := ε) R (.ok a) (some c) := by
  intro a' ha'
  cases ha'
  exact ⟨c, rfl, h⟩

theorem Follows.error {e : ε} {y : Option γ} : Follows R (.error e : Except ε α) y := nofun

theorem Follows.toOption {x : Except ε α} : Follows Eq x x.toOption := by
  intro a ha
  rw [ha]
  exact ⟨a, rfl, rfl⟩

theorem Follows.bind {x : Except ε α} {y : Option γ} {f : α → Except ε β} {f' : γ → Option δ} (hx : Follows R x y)
    (hf : ∀ a c, x = .ok a → R a c → Follows S (f a) (f' c)) : Follows S (x >>= f) (y >>= f') := by
  intro b hb
  cases hx' : x with
  | error e =>
    rw [hx'] at hb
    cases hb
  | ok a =>
    obtain ⟨c, hy, hac⟩ := hx a hx'
    rw [hx'] at hb
    obtain ⟨d, hd, hbd⟩ := hf a c hx' hac b hb
    refine ⟨d, ?_, hbd⟩
    rw [hy]
    exact hd

theorem Follows.bind_left {x : Except ε α} {f : α → Except ε β} {y : Option δ}
    (hf : ∀ a, x = .ok a → Follows S (f a) y) : Follows S (x >>= f) y := by
  cases hx : x with
  | error e => exact Follows.error
  | ok a => exact hf a hx

theorem Follows.bind_right {T : α → δ → Prop} {x : Except ε α} {y : Option γ} {f' : γ → Option δ} (hx : Follows R x y)
    (hf : ∀ a c, x = .ok a → R a c → Follows (ε := ε) T (.ok a) (f' c)) : Follows T x (y >>= f') := by
  rw [← bind_pure x]
  exact hx.bind hf

theorem Follows.bind_some {x : Except ε α} {c : γ} {f : α → Except ε β} {y : Option δ} (hx : Follows R x (some c))
    (hf : ∀ a, x = .ok a → R a c → Follows S (f a) y) : Follows S (x >>= f) y :=
  Follows.bind_left fun a ha => by
    obtain ⟨c', hc', hac⟩ := hx a ha
    obtain rfl := Option.some.inj hc'
    exact hf a ha hac

theorem Follows.ite {x x' : Except ε α} {y y' : Option γ} {p q : Prop} [Decidable p] [Decidable q] (hpq : p ↔ q)
    (hx : p → Follows R x y) (hy : ¬ p → Follows R x' y') : Follows R (if p then x else x') (if q then y else y') := by
  by_cases hp : p
  · rw [if_pos hp, if_pos (hpq.mp hp)]
    exact hx hp
  · rw [if_neg hp, if_neg (mt hpq.mpr hp)]
    exact hy hp

theorem Follows.ite_some {x x' : Except ε α} {c c' : γ} {p : Prop} [Decidable p] (hx : p → Follows R x (some c))
    (hy : ¬ p → Follows R x' (some c')) : Follows R (if p then x else x') (some (if p then c else c')) := by
  rw [apply_ite some]
  exact Follows.ite Iff.rfl hx hy

theorem Follows.foldlM {R : σ → τ → Prop} {f : σ → ι → Except ε σ} {f' : τ → ι → τ}
    (hstep : ∀ x s t, R s t → Follows R (f s x) (some (f' t x))) :
    ∀ (xs : List ι) (s : σ) (t : τ), R s t → Follows R (xs.foldlM f s) (some (xs.foldl f' t))
  | [], _, _, h => .ok h
  | x :: xs, s, t, h => by
    rw [List.foldlM_cons]
    exact (hstep x s t h).bind_some fun s' _ h' => Follows.foldlM hstep xs s' (f' t x) h'

end

end Guard
