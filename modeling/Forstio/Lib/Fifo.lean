import Mathlib.Data.List.Basic

/-!
# A bounded first-in first-out queue

The specification of a buffer with room for `n` items: a list that is extended
at the back and shortened at the front, whole blocks at a time or not at all.
-/

structure Fifo (α : Type) (n : Nat) where
  items : List α
  bounded : items.length ≤ n

namespace Fifo

variable {α : Type} {n : Nat}

def empty : Fifo α n := ⟨[], Nat.zero_le n⟩

def push (q : Fifo α n) (xs : List α) : Option (Fifo α n) :=
  if h : xs.length ≤ n - q.items.length then
    some ⟨q.items ++ xs, by have := q.bounded; rw [List.length_append]; omega⟩
  else none

def pop (q : Fifo α n) (k : Nat) : Option (List α × Fifo α n) :=
  if k ≤ q.items.length then
    some (q.items.take k, ⟨q.items.drop k, by have := q.bounded; rw [List.length_drop]; omega⟩)
  else none

theorem push_fits {q : Fifo α n} (xs : List α) (h : xs.length ≤ n - q.items.length) :
    ∃ q', q.push xs = some q' ∧ q'.items = q.items ++ xs := ⟨_, dif_pos h, rfl⟩

theorem push_full {q : Fifo α n} (xs : List α) (h : n - q.items.length < xs.length) : q.push xs = none :=
  dif_neg (Nat.not_le.mpr h)

theorem pop_fits {q : Fifo α n} {k : Nat} (h : k ≤ q.items.length) :
    ∃ q', q.pop k = some (q.items.take k, q') ∧ q'.items = q.items.drop k := ⟨_, if_pos h, rfl⟩

theorem pop_empty {q : Fifo α n} {k : Nat} (h : q.items.length < k) : q.pop k = none :=
  if_neg (Nat.not_le.mpr h)

end Fifo
