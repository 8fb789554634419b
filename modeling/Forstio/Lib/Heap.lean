import Mathlib.Algebra.BigOperators.Group.List.Basic
import Mathlib.Algebra.Order.Group.Multiset
import Mathlib.Data.List.AList

/-!
# Heaps and what their cells hold

A heap maps the addresses in use to their cells. `total` adds up, in any commutative
monoid, what the cells hold: with multisets it lists the resources that a heap owns.
-/

abbrev Heap (κ α : Type) := AList fun _ : κ => α

namespace Heap

section
variable {κ α M : Type} [DecidableEq κ] [AddCommMonoid M] (f : κ → α → M)

def total (h : Heap κ α) : M := (h.entries.map fun e => f e.1 e.2).sum

omit [DecidableEq κ] in
@[simp] theorem total_empty : total f (∅ : Heap κ α) = 0 := rfl

theorem total_erase {h : Heap κ α} {p : κ} {x : α} (hp : h.lookup p = some x) :
    total f h = f p x + total f (h.erase p) := by
  have hmem : p ∈ h.entries.keys := AList.lookup_isSome.mp (by rw [hp]; rfl)
  obtain ⟨y, l, r, hl, hentries, herase⟩ := List.exists_of_kerase hmem
  have hy : y = x := by
    have hlookup : h.entries.dlookup p = some y := by
      rw [hentries, List.dlookup_append, List.dlookup_eq_none.mpr hl]
      simp
    exact Option.some.inj (hlookup.symm.trans hp)
  have hrest : (h.erase p).entries = l ++ r := herase
  subst hy
  simp only [total, hentries, hrest, List.map_append, List.map_cons, List.sum_append, List.sum_cons]
  exact add_left_comm _ _ _

theorem total_insert {h : Heap κ α} {p : κ} (hp : p ∉ h) (x : α) :
    total f (h.insert p x) = f p x + total f h := by
  rw [total, AList.entries_insert_of_notMem hp, List.map_cons, List.sum_cons]
  rfl

theorem total_update {h : Heap κ α} {p : κ} {x : α} (hp : h.lookup p = some x) (y : α) :
    total f (h.insert p y) + f p x = f p y + total f h := by
  have hinsert : (h.insert p y).lookup p = some y := AList.lookup_insert h
  have herase : (h.insert p y).erase p = h.erase p := by
    apply AList.ext
    show List.kerase p (List.kinsert p y h.entries) = List.kerase p h.entries
    exact List.kerase_cons_eq rfl
  rw [total_erase f hinsert, total_erase f hp, herase, add_assoc, add_comm _ (f p x)]

theorem total_update_same [IsRightCancelAdd M] {h : Heap κ α} {p : κ} {x y : α} (hp : h.lookup p = some x)
    (hxy : f p y = f p x) : total f (h.insert p y) = total f h := by
  have hupdate := total_update f hp y
  rw [hxy, add_comm (f p x)] at hupdate
  exact add_right_cancel hupdate

theorem total_congr {f f' : κ → α → M} {h : Heap κ α} (hf : ∀ p x, h.lookup p = some x → f p x = f' p x) :
    total f h = total f' h := by
  unfold total
  rw [List.map_congr_left]
  intro e he
  exact hf e.1 e.2 (AList.mem_lookup_iff.mpr he)

theorem total_except {h : Heap κ α} {p : κ} {x : α} (hp : h.lookup p = some x) :
    total f h = f p x + total (fun q y => if q = p then 0 else f q y) h := by
  rw [total_erase f hp, total_erase (fun q y => if q = p then 0 else f q y) hp, if_pos rfl, zero_add]
  refine congrArg _ (total_congr fun q y hq => ?_)
  have hne : q ≠ p := by
    intro heq
    subst heq
    rw [AList.lookup_erase] at hq
    cases hq
  rw [if_neg hne]

end

theorem total_singleton {κ α β : Type} (f : κ → α → β) (h : Heap κ α) :
    total (fun p x => ({f p x} : Multiset β)) h = (h.entries.map fun e => f e.1 e.2 : List β) := by
  unfold total
  induction h.entries with
  | nil => rfl
  | cons e es ih =>
    rw [List.map_cons, List.map_cons, List.sum_cons, ih]
    exact Multiset.singleton_add _ _

theorem total_coe {κ α β : Type} (f : κ → α → List β) (h : Heap κ α) :
    total (fun p x => (f p x : Multiset β)) h = (h.entries.flatMap fun e => f e.1 e.2 : List β) := by
  unfold total
  induction h.entries with
  | nil => rfl
  | cons e es ih => rw [List.map_cons, List.flatMap_cons, List.sum_cons, ih, Multiset.coe_add]

/-- A resource is owned if some cell holds it. -/
theorem mem_total {κ α β : Type} [DecidableEq κ] {f : κ → α → Multiset β} {h : Heap κ α} {b : β} :
    b ∈ total f h ↔ ∃ p x, h.lookup p = some x ∧ b ∈ f p x := by
  have hsum (l : List (Multiset β)) : b ∈ l.sum ↔ ∃ m ∈ l, b ∈ m := by
    induction l with
    | nil => simp
    | cons m l ih => simp [ih]
  rw [total, hsum]
  constructor
  · intro hex
    obtain ⟨m, hm, hb⟩ := hex
    obtain ⟨e, he, rfl⟩ := List.mem_map.mp hm
    exact ⟨e.1, e.2, AList.mem_lookup_iff.mpr he, hb⟩
  · intro hex
    obtain ⟨p, x, hp, hb⟩ := hex
    exact ⟨f p x, List.mem_map.mpr ⟨⟨p, x⟩, AList.mem_lookup_iff.mp hp, rfl⟩, hb⟩

section
variable {κ α : Type} {h : Heap κ α} {p : κ} {x : α}

def addresses (h : Heap κ α) : Multiset κ := total (fun p _ => {p}) h

theorem addresses_eq (h : Heap κ α) : addresses h = (h.keys : Multiset κ) := total_singleton (fun p _ => p) h

@[simp] theorem mem_addresses : p ∈ addresses h ↔ p ∈ h := by
  rw [addresses_eq, Multiset.mem_coe]
  rfl

theorem nodup_addresses (h : Heap κ α) : (addresses h).Nodup := by
  rw [addresses_eq]
  exact AList.keys_nodup h

variable [DecidableEq κ]

theorem lookup_insert (h : Heap κ α) (p q : κ) (x : α) :
    (h.insert p x).lookup q = if q = p then some x else h.lookup q := by
  split
  next heq =>
    rw [heq]
    exact AList.lookup_insert h
  next hne => exact AList.lookup_insert_ne hne

theorem addresses_erase (hp : h.lookup p = some x) : addresses h = {p} + addresses (h.erase p) :=
  total_erase (fun q _ => ({q} : Multiset κ)) hp

theorem addresses_insert (hp : p ∉ h) : addresses (h.insert p x) = {p} + addresses h :=
  total_insert (fun q _ => ({q} : Multiset κ)) hp x

theorem addresses_update (hp : h.lookup p = some x) (y : α) : addresses (h.insert p y) = addresses h :=
  total_update_same (fun q _ => ({q} : Multiset κ)) hp rfl

end

/-- What is owned only once has one owner. -/
theorem total_unique {κ α β : Type} [DecidableEq κ] {f : κ → α → Multiset β} {h : Heap κ α} (hn : (total f h).Nodup)
    {p q : κ} {x y : α} (hp : h.lookup p = some x) (hq : h.lookup q = some y) {b : β} (hb : b ∈ f p x)
    (hb' : b ∈ f q y) : p = q := by
  by_contra hne
  have hq' : (h.erase p).lookup q = some y := (AList.lookup_erase_ne fun heq => hne heq.symm).trans hq
  rw [total_erase f hp, Multiset.nodup_add] at hn
  exact Multiset.disjoint_left.mp hn.2.2 hb (mem_total.mpr ⟨q, y, hq', hb'⟩)

end Heap
