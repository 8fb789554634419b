import Mathlib.Data.List.Rotate

/-!
# Blocks of memory and their rotations

`overwrite` copies a block into a list of cells and `slice` reads one back.
A circular buffer sees its cells rotated to the read position: a block that
does not cross the physical end is a block of the rotated list too
(`rotate_overwrite`, `slice_rotate`).
-/

namespace Memory

variable {α : Type}

/-- The cells `l` with `xs` copied to the cells from `a` on. -/
def overwrite (l : List α) (a : Nat) (xs : List α) : List α :=
  l.take a ++ xs ++ l.drop (a + xs.length)

def slice (l : List α) (a k : Nat) : List α := (l.drop a).take k

theorem length_overwrite {l : List α} {a : Nat} {xs : List α} (h : a + xs.length ≤ l.length) :
    (overwrite l a xs).length = l.length := by
  simp only [overwrite, List.length_append, List.length_take, List.length_drop]
  omega

theorem getElem?_overwrite {l : List α} {a : Nat} {xs : List α} (h : a + xs.length ≤ l.length) (j : Nat) :
    (overwrite l a xs)[j]? = if a ≤ j ∧ j < a + xs.length then xs[j - a]? else l[j]? := by
  have ha : (l.take a).length = a := by rw [List.length_take]; omega
  unfold overwrite
  rw [List.append_assoc]
  rcases Nat.lt_or_ge j a with hj | hj
  · rw [List.getElem?_append_left (by omega), List.getElem?_take_of_lt hj, if_neg (by omega)]
  rw [List.getElem?_append_right (by omega), ha]
  rcases Nat.lt_or_ge (j - a) xs.length with hx | hx
  · rw [List.getElem?_append_left hx, if_pos (by omega)]
  · rw [List.getElem?_append_right hx, List.getElem?_drop, if_neg (by omega)]
    congr 1
    omega

theorem overwrite_twice {l : List α} {a : Nat} {xs : List α} (h : a + xs.length ≤ l.length) :
    overwrite (overwrite l a xs) a xs = overwrite l a xs := by
  have hlen := length_overwrite h
  refine List.ext_getElem? fun j => ?_
  rw [getElem?_overwrite (by omega), getElem?_overwrite h]
  split <;> rfl

theorem overwrite_nil (l : List α) (a : Nat) : overwrite l a [] = l := by
  simp [overwrite]

/-- Copying over the tail of a concatenation leaves the front alone. -/
theorem overwrite_append_right (l₁ l₂ : List α) (a : Nat) (xs : List α) :
    overwrite (l₁ ++ l₂) (l₁.length + a) xs = l₁ ++ overwrite l₂ a xs := by
  simp only [overwrite, List.take_length_add_append, List.append_assoc, Nat.add_assoc,
    List.drop_length_add_append]

section
variable {l : List α} {w : Nat} (hw : w ≤ l.length) (a : Nat) (xs : List α)
include hw

theorem drop_overwrite : (overwrite l (w + a) xs).drop w = overwrite (l.drop w) a xs := by
  have h := overwrite_append_right (l.take w) (l.drop w) a xs
  rw [List.take_append_drop, List.length_take, Nat.min_eq_left hw] at h
  rw [h]
  exact List.drop_left' (by rw [List.length_take, Nat.min_eq_left hw])

theorem take_overwrite : (overwrite l (w + a) xs).take w = l.take w := by
  have h := overwrite_append_right (l.take w) (l.drop w) a xs
  rw [List.take_append_drop, List.length_take, Nat.min_eq_left hw] at h
  rw [h]
  exact List.take_left' (by rw [List.length_take, Nat.min_eq_left hw])

end

theorem slice_drop (l : List α) (w a k : Nat) : slice (l.drop w) a k = slice l (w + a) k := by
  simp only [slice, List.drop_drop]

theorem slice_take {l : List α} {n a k : Nat} (h : a + k ≤ n) : slice (l.take n) a k = slice l a k := by
  simp only [slice, List.drop_take, List.take_take]
  congr 1
  omega

theorem slice_slice {l : List α} {a n i k : Nat} (h : i + k ≤ n) :
    slice (slice l a n) i k = slice l (a + i) k := by
  show slice ((l.drop a).take n) i k = _
  rw [slice_take h, slice_drop]

theorem length_slice {l : List α} {a k : Nat} (h : a + k ≤ l.length) : (slice l a k).length = k := by
  rw [slice, List.length_take, List.length_drop]
  omega

theorem overwrite_overwrite {l : List α} {a : Nat} {xs ys : List α}
    (h : a + xs.length + ys.length ≤ l.length) :
    overwrite (overwrite l a xs) (a + xs.length) ys = overwrite l a (xs ++ ys) := by
  have hx : a + xs.length ≤ l.length := by omega
  apply List.ext_getElem?
  intro j
  rw [getElem?_overwrite (by rw [length_overwrite hx]; exact h), getElem?_overwrite hx,
    getElem?_overwrite (by rw [List.length_append]; omega), List.length_append]
  split
  · rw [if_pos (by omega), List.getElem?_append_right (by omega)]
    congr 1
    omega
  · split
    · rw [if_pos (by omega), List.getElem?_append_left (by omega)]
    · rw [if_neg (by omega)]

/-! ## Rotation -/

theorem getElem?_rotate_of_lt {l : List α} {r k : Nat} (hr : r < l.length) (hk : k < l.length) :
    (l.rotate r)[k]? = l[if k + r < l.length then k + r else k + r - l.length]? := by
  rw [List.getElem?_rotate hk]
  split
  · rw [Nat.mod_eq_of_lt (by assumption)]
  · rw [Nat.mod_eq_sub_mod (by omega), Nat.mod_eq_of_lt (by omega)]

section
variable {l : List α} {r q p : Nat} (hr : r < l.length)
  (hp : p = if q + r < l.length then q + r else q + r - l.length)
include hr hp

/-- A block at offset `q` of the rotated cells is the block at the physical
index `p`, as long as it stays below the physical end. -/
theorem rotate_overwrite {xs : List α} (hq : q + xs.length ≤ l.length) (hx : p + xs.length ≤ l.length) :
    (overwrite l p xs).rotate r = overwrite (l.rotate r) q xs := by
  apply List.ext_getElem?
  intro k
  have hlen := length_overwrite hx
  rw [getElem?_overwrite (by rw [List.length_rotate]; exact hq)]
  rcases Nat.lt_or_ge k l.length with hk | hk
  · rw [getElem?_rotate_of_lt (by omega) (by omega), getElem?_overwrite hx, hlen,
      getElem?_rotate_of_lt hr hk]
    split at hp <;> split <;> split <;> split <;> first | rfl | omega | (congr 1; omega)
  · rw [List.getElem?_eq_none (by rw [List.length_rotate]; omega), if_neg (by omega),
      List.getElem?_eq_none (by rw [List.length_rotate]; omega)]

theorem slice_rotate {k : Nat} (hq : q + k ≤ l.length) (hk : p + k ≤ l.length) :
    slice (l.rotate r) q k = slice l p k := by
  apply List.ext_getElem?
  intro j
  simp only [slice, List.getElem?_take, List.getElem?_drop]
  split
  · rw [getElem?_rotate_of_lt hr (by omega)]
    congr 1
    split at hp <;> split <;> omega
  · rfl

end

end Memory
