import Mathlib.Data.Nat.Basic
import Mathlib.Data.Option.Basic

/-!
# Round-robin search

One of `n` slots is served at a time: the search starts at a cursor, passes the
empty slots and wraps around once. The cursor is then put behind the slot that
was served. A cursor beyond the last slot counts as the end.
-/

namespace RoundRobin

variable {β : Type} {slot : Nat → Option β} {n i j k cursor : Nat} {x : β}

/-- The first full slot among the `n` slots from `i` on. -/
def scan (slot : Nat → Option β) : Nat → Nat → Option (Nat × β)
  | 0, _ => none
  | n + 1, i =>
    match slot i with
    | some x => some (i, x)
    | none => scan slot n (i + 1)

def serve (slot : Nat → Option β) (n cursor : Nat) : Option (Nat × β) :=
  (scan slot (n - min n cursor) (min n cursor)).or (scan slot (min n cursor) 0)

/-- How many slots the search passes before it comes to slot `j`. -/
def ahead (n cursor j : Nat) : Nat :=
  if min n cursor ≤ j then j - min n cursor else n - min n cursor + j

/-! ## Where a search stops -/

theorem scan_some : ∀ {n i : Nat}, scan slot n i = some (k, x) →
    i ≤ k ∧ k < i + n ∧ slot k = some x ∧ ∀ j, i ≤ j → j < k → slot j = none
  | 0, _, h => by cases h
  | n + 1, i, h => by
    unfold scan at h
    cases hi : slot i with
    | some y =>
      rw [hi] at h
      cases h
      exact ⟨Nat.le_refl k, by omega, hi, fun j hij hjk => absurd hij (by omega)⟩
    | none =>
      rw [hi] at h
      obtain ⟨hik, hkn, hk, hpassed⟩ := scan_some h
      refine ⟨by omega, by omega, hk, ?_⟩
      intro j hij hjk
      by_cases hji : j = i
      · rw [hji, hi]
      · exact hpassed j (by omega) hjk

theorem scan_none : ∀ {n i : Nat}, scan slot n i = none → ∀ j, i ≤ j → j < i + n → slot j = none
  | 0, _, _, j, hij, hjn => absurd hjn (by omega)
  | n + 1, i, h, j, hij, hjn => by
    unfold scan at h
    cases hi : slot i with
    | some y =>
      rw [hi] at h
      cases h
    | none =>
      rw [hi] at h
      by_cases hji : j = i
      · rw [hji, hi]
      · exact scan_none h j (by omega) (by omega)

theorem serve_none (h : serve slot n cursor = none) (hj : j < n) : slot j = none := by
  obtain ⟨hfirst, hsecond⟩ := Option.or_eq_none_iff.mp h
  by_cases hlt : j < min n cursor
  · exact scan_none hsecond j (Nat.zero_le j) (by omega)
  · exact scan_none hfirst j (by omega) (by omega)

/-- **The search stops at the full slot next in turn.** -/
theorem serve_some (h : serve slot n cursor = some (k, x)) :
    k < n ∧ slot k = some x ∧ ∀ j, j < n → slot j ≠ none → ahead n cursor k ≤ ahead n cursor j := by
  rcases Option.or_eq_some_iff.mp h with hfirst | ⟨hfirst, hsecond⟩
  · obtain ⟨hle, hlt, hk, hpassed⟩ := scan_some hfirst
    refine ⟨by omega, hk, ?_⟩
    intro j hj hfull
    have hnot : ¬ (min n cursor ≤ j ∧ j < k) := fun h => hfull (hpassed j h.1 h.2)
    unfold ahead
    split_ifs <;> omega
  · obtain ⟨-, hlt, hk, hpassed⟩ := scan_some hsecond
    refine ⟨by omega, hk, ?_⟩
    intro j hj hfull
    have hlow : ¬ min n cursor ≤ j := fun h => hfull (scan_none hfirst j h (by omega))
    have hnot : ¬ j < k := fun h => hfull (hpassed j (Nat.zero_le j) h)
    unfold ahead
    split_ifs <;> omega

theorem exists_serve (hj : j < n) (hfull : slot j ≠ none) : ∃ k x, serve slot n cursor = some (k, x) := by
  cases h : serve slot n cursor with
  | none => exact absurd (serve_none h hj) hfull
  | some r => exact ⟨r.1, r.2, rfl⟩

/-! ## The slots wait in turn -/

theorem ahead_lt (hj : j < n) : ahead n cursor j < n := by
  unfold ahead
  split_ifs <;> omega

/-- Serving a slot that stands before `j` brings `j` nearer. -/
theorem ahead_next (hk : k < n) (hj : j < n) (hne : k ≠ j) (hle : ahead n cursor k ≤ ahead n cursor j) :
    ahead n (k + 1) j < ahead n cursor j := by
  unfold ahead at hle ⊢
  split_ifs at hle ⊢ <;> omega

end RoundRobin
