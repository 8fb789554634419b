import Mathlib.Data.List.Perm.Subperm

/-!
# `remove_if` on a list of owning pointers

The elements to keep are moved to the front, one after another. A pointer that
was moved from is null, and what a pointer owned is destroyed when another one
is moved onto it. Nothing is erased: the result is the part before the returned
iterator and the part from there on.
-/

namespace RemoveIf

variable {α : Type} {p : Option α → Bool}

/-- The loop after the first match: `gap` lies between the end of the result and the next element. -/
def shift (p : Option α → Bool) : List (Option α) → List (Option α) → List (Option α) × List (Option α)
  | gap, [] => ([], gap)
  | gap, e :: xs =>
    if p e then shift p (gap ++ [e]) xs
    else
      let (kept, left) := shift p (gap.tail ++ [none]) xs
      (e :: kept, left)

def removeIf (p : Option α → Bool) : List (Option α) → List (Option α) × List (Option α)
  | [] => ([], [])
  | e :: xs =>
    if p e then shift p [e] xs
    else
      let (kept, left) := removeIf p xs
      (e :: kept, left)

/-! ## What comes first -/

theorem shift_kept (gap xs : List (Option α)) : (shift p gap xs).1 = xs.filter fun e => !p e := by
  induction xs generalizing gap with
  | nil => rfl
  | cons e xs ih =>
    cases hp : p e with
    | true => simp [shift, hp, ih]
    | false => simp [shift, hp, ih]

theorem removeIf_kept (xs : List (Option α)) : (removeIf p xs).1 = xs.filter fun e => !p e := by
  induction xs with
  | nil => rfl
  | cons e xs ih =>
    cases hp : p e with
    | true => simp [removeIf, hp, shift_kept]
    | false => simp [removeIf, hp, ih]

/-! ## What is left over -/

theorem shift_length {gap : List (Option α)} (hgap : gap ≠ []) (xs : List (Option α)) :
    (shift p gap xs).1.length + (shift p gap xs).2.length = gap.length + xs.length := by
  induction xs generalizing gap with
  | nil => simp [shift]
  | cons e xs ih =>
    have hlen : 0 < gap.length := List.length_pos_iff.mpr hgap
    cases hp : p e with
    | true =>
      have hsum := ih (List.append_ne_nil_of_right_ne_nil gap (List.cons_ne_nil e []))
      simp [shift, hp] at hsum ⊢
      omega
    | false =>
      have hsum := ih (List.append_ne_nil_of_right_ne_nil gap.tail (List.cons_ne_nil none []))
      simp [shift, hp] at hsum ⊢
      omega

/-- **The list keeps its length.** -/
theorem removeIf_length (xs : List (Option α)) :
    ((removeIf p xs).1 ++ (removeIf p xs).2).length = xs.length := by
  rw [List.length_append]
  induction xs with
  | nil => rfl
  | cons e xs ih =>
    cases hp : p e with
    | true =>
      have hsum := shift_length (p := p) (List.cons_ne_nil e []) xs
      simp [removeIf, hp] at hsum ⊢
      omega
    | false =>
      simp [removeIf, hp]
      omega

theorem shift_left {gap xs : List (Option α)} : ∀ e ∈ (shift p gap xs).2, e = none ∨ e ∈ gap ∨ e ∈ xs ∧ p e := by
  induction xs generalizing gap with
  | nil => exact fun e he => Or.inr (Or.inl he)
  | cons x xs ih =>
    intro e he
    cases hp : p x with
    | true =>
      simp only [shift, hp, if_true] at he
      rcases ih e he with hnone | hgap | ⟨hxs, hpe⟩
      · exact Or.inl hnone
      · rcases List.mem_append.mp hgap with hgap | hx
        · exact Or.inr (Or.inl hgap)
        · rw [List.mem_singleton.mp hx]
          exact Or.inr (Or.inr ⟨List.mem_cons_self .., hp⟩)
      · exact Or.inr (Or.inr ⟨List.mem_cons_of_mem x hxs, hpe⟩)
    | false =>
      simp only [shift, hp, Bool.false_eq_true, if_false] at he
      rcases ih e he with hnone | hgap | ⟨hxs, hpe⟩
      · exact Or.inl hnone
      · rcases List.mem_append.mp hgap with hgap | hnone
        · exact Or.inr (Or.inl (List.mem_of_mem_tail hgap))
        · exact Or.inl (List.mem_singleton.mp hnone)
      · exact Or.inr (Or.inr ⟨List.mem_cons_of_mem x hxs, hpe⟩)

/-- Behind the elements that were kept stand null pointers and elements that were not. -/
theorem removeIf_left {xs : List (Option α)} : ∀ e ∈ (removeIf p xs).2, e = none ∨ e ∈ xs ∧ p e := by
  induction xs with
  | nil => exact fun e he => absurd he (List.not_mem_nil)
  | cons x xs ih =>
    intro e he
    cases hp : p x with
    | true =>
      simp only [removeIf, hp, if_true] at he
      rcases shift_left e he with hnone | hgap | ⟨hxs, hpe⟩
      · exact Or.inl hnone
      · rw [List.mem_singleton.mp hgap]
        exact Or.inr ⟨List.mem_cons_self .., hp⟩
      · exact Or.inr ⟨List.mem_cons_of_mem x hxs, hpe⟩
    | false =>
      simp only [removeIf, hp, Bool.false_eq_true, if_false] at he
      rcases ih e he with hnone | ⟨hxs, hpe⟩
      · exact Or.inl hnone
      · exact Or.inr ⟨List.mem_cons_of_mem x hxs, hpe⟩

/-! ## What is owned -/

theorem shift_owned (gap xs : List (Option α)) :
    List.Subperm (((shift p gap xs).1 ++ (shift p gap xs).2).filterMap id) ((gap ++ xs).filterMap id) := by
  induction xs generalizing gap with
  | nil =>
    rw [List.append_nil]
    exact List.Subperm.refl _
  | cons e xs ih =>
    cases hp : p e with
    | true =>
      have hle := ih (gap ++ [e])
      rw [List.append_assoc, List.singleton_append] at hle
      simpa only [shift, hp, if_true] using hle
    | false =>
      have hle := ih (gap.tail ++ [none])
      rw [List.append_assoc, List.filterMap_append (l := gap.tail)] at hle
      have htail : List.Sublist (gap.tail.filterMap id) (gap.filterMap id) := (List.tail_sublist gap).filterMap id
      have hmoved : List.Subperm (e.toList ++ (gap.tail.filterMap id ++ xs.filterMap id))
          (gap.filterMap id ++ (e.toList ++ xs.filterMap id)) := by
        refine (List.Perm.subperm ?_).trans (htail.append_right _).subperm
        rw [← List.append_assoc, ← List.append_assoc]
        exact List.perm_append_comm.append_right _
      have hcons (ys : List (Option α)) : (e :: ys).filterMap id = e.toList ++ ys.filterMap id := by
        cases e with
        | none => rfl
        | some x => rfl
      simp only [shift, hp, Bool.false_eq_true, if_false, List.cons_append]
      rw [List.filterMap_append, hcons, hcons]
      exact ((List.subperm_append_left _).mpr hle).trans hmoved

/-- **No pointer is doubled**: those left are among those there were. -/
theorem removeIf_owned (xs : List (Option α)) :
    List.Subperm (((removeIf p xs).1 ++ (removeIf p xs).2).filterMap id) (xs.filterMap id) := by
  induction xs with
  | nil => exact List.Subperm.refl _
  | cons e xs ih =>
    cases hp : p e with
    | true =>
      have hle := shift_owned (p := p) [e] xs
      simpa only [removeIf, hp, if_true, List.singleton_append] using hle
    | false =>
      simp only [removeIf, hp, Bool.false_eq_true, if_false, List.cons_append]
      cases e with
      | none => exact ih
      | some x => exact (List.subperm_cons x).mpr ih

end RemoveIf
