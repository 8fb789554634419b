import Mathlib.Data.List.Nodup
import Mathlib.Data.List.TakeDrop
import Mathlib.Logic.Function.Basic

/-!
# Intrusive lists with back pointers

A node carries its own `next` field and a back pointer to the slot that points
to it, a slot being the list's head or the `next` field of a node. `IsList`
reads the nodes off the links in order; linking a node in at any slot of the
list and unlinking one of its nodes change the nodes read as expected.
-/

/-- A place that holds a pointer to a node. -/
inductive Slot (ε : Type) where
  | head
  | next (e : ε)
  deriving DecidableEq, Repr

structure Links (ε : Type) where
  head : Option ε
  next : ε → Option ε
  prev : ε → Option (Slot ε)

namespace Slot

variable {ε : Type}

def after (p : Slot ε) : List ε → Slot ε
  | [] => p
  | e :: es => after (.next e) es

def all (p : Slot ε) (es : List ε) : List (Slot ε) := p :: es.map .next

def holding (p : Slot ε) : List ε → List (Slot ε)
  | [] => []
  | e :: es => p :: holding (.next e) es

@[simp] theorem after_append (p : Slot ε) : ∀ as bs : List ε, after p (as ++ bs) = after (after p as) bs
  | [], _ => rfl
  | _ :: as, bs => after_append _ as bs

theorem after_mem (p : Slot ε) : ∀ es : List ε, after p es ∈ all p es
  | [] => List.mem_cons_self ..
  | e :: es => by
    have h := after_mem (.next e) es
    exact List.mem_cons_of_mem p h

theorem after_mem_append (as bs : List ε) : after .head as ∈ all .head (as ++ bs) := by
  rw [all, List.map_append, ← List.cons_append]
  exact List.mem_append_left _ (after_mem .head as)

/-- The slot behind a list of nodes is the last node's. -/
theorem after_eq_next {e : ε} {es : List ε} (h : after .head es = .next e) : ∃ as, es = as ++ [e] := by
  rcases List.eq_nil_or_concat es with rfl | ⟨as, a, rfl⟩
  · cases h
  · rw [List.concat_eq_append, after_append] at h
    obtain rfl : a = e := by injection h
    exact ⟨as, List.concat_eq_append⟩

theorem holding_subset (p : Slot ε) : ∀ (es : List ε) (q : Slot ε), q ∈ holding p es → q ∈ all p es
  | e :: es, q, h => by
    rcases List.mem_cons.mp h with rfl | h
    · exact List.mem_cons_self ..
    · exact List.mem_cons_of_mem p (holding_subset (.next e) es q h)

/-- Without repetition, the last slot points to no node of the list. -/
theorem after_not_holding : ∀ (p : Slot ε) (es : List ε), (all p es).Nodup → after p es ∉ holding p es
  | _, [], _ => List.not_mem_nil
  | p, e :: es, hnd => by
    obtain ⟨hp, hrest⟩ := List.nodup_cons.mp hnd
    intro h
    rcases List.mem_cons.mp h with heq | h
    · exact hp (heq ▸ after_mem (.next e) es)
    · exact after_not_holding (.next e) es hrest h

theorem all_nodup {es : List ε} (h : es.Nodup) : (all .head es).Nodup := by
  refine List.nodup_cons.mpr ⟨?_, h.map fun _ _ => Slot.next.inj⟩
  simp

theorem after_ne_next {as : List ε} {e : ε} (h : e ∉ as) : after .head as ≠ .next e := by
  intro heq
  obtain ⟨bs, rfl⟩ := after_eq_next heq
  exact h (List.mem_append_right _ (List.mem_singleton_self e))

theorem after_insert [DecidableEq ε] (e : ε) {as bs : List ε} (h : (as ++ bs).Nodup) :
    after .head (as ++ e :: bs) =
      if after .head (as ++ bs) = after .head as then .next e else after .head (as ++ bs) := by
  rcases List.eq_nil_or_concat bs with rfl | ⟨cs, c, rfl⟩
  · simp [after]
  · rw [List.concat_eq_append] at h ⊢
    have hc : c ∉ as := fun ha => (List.nodup_append.mp h).2.2 c ha c (by simp) rfl
    rw [if_neg]
    · simp [after]
    · simpa [after] using (after_ne_next hc).symm

theorem after_remove [DecidableEq ε] {e : ε} {as bs : List ε} (h : (as ++ e :: bs).Nodup) :
    after .head (as ++ bs) =
      if after .head (as ++ e :: bs) = .next e then after .head as else after .head (as ++ e :: bs) := by
  rcases List.eq_nil_or_concat bs with rfl | ⟨cs, c, rfl⟩
  · simp [after]
  · rw [List.concat_eq_append] at h ⊢
    have hc : c ≠ e := by
      rintro rfl
      exact (List.nodup_cons.mp (List.nodup_append.mp h).2.1).1 (by simp)
    rw [if_neg]
    · simp [after]
    · simpa [after] using hc

theorem next_mem_all {e : ε} {es : List ε} : .next e ∈ all .head es ↔ e ∈ es := by
  simp [all]

end Slot

namespace Links

variable {ε : Type}

def deref (l : Links ε) : Slot ε → Option ε
  | .head => l.head
  | .next e => l.next e

/-- The node that slot `p` belongs to, and the one it holds. -/
def around (l : Links ε) : Slot ε → List ε
  | .head => l.head.toList
  | .next e => e :: (l.next e).toList

/-- The nodes `es` hang one behind the other on `p`. -/
def Segment (l : Links ε) : Slot ε → List ε → Prop
  | _, [] => True
  | p, e :: es => l.deref p = some e ∧ l.prev e = some p ∧ Segment l (.next e) es

/-- The nodes `es` hang one behind the other on `p`, and none behind them. -/
def Path (l : Links ε) : Slot ε → List ε → Prop
  | p, [] => l.deref p = none
  | p, e :: es => l.deref p = some e ∧ l.prev e = some p ∧ Path l (.next e) es

/-- The links form the null-terminated list `es`, and a node outside it has no back pointer. -/
structure IsList (l : Links ε) (es : List ε) : Prop where
  path : l.Path .head es
  nodup : es.Nodup
  linked : ∀ e, l.prev e ≠ none ↔ e ∈ es

section
variable {l l' : Links ε}

theorem path_append : ∀ (p : Slot ε) (as bs : List ε),
    l.Path p (as ++ bs) ↔ l.Segment p as ∧ l.Path (p.after as) bs
  | _, [], _ => by simp [Segment, Slot.after]
  | p, a :: as, bs => by
    simp only [List.cons_append, Path, Segment, Slot.after, path_append (.next a) as bs, and_assoc]

/-- A segment reads only the slots that hold its nodes and their back pointers. -/
theorem Segment.congr : ∀ {p : Slot ε} {es : List ε}, (∀ q ∈ p.holding es, l'.deref q = l.deref q) →
    (∀ e ∈ es, l'.prev e = l.prev e) → l.Segment p es → l'.Segment p es
  | _, [], _, _, _ => trivial
  | p, e :: es, hd, hp, h => by
    refine ⟨(hd p (List.mem_cons_self ..)).trans h.1, (hp e (List.mem_cons_self ..)).trans h.2.1, ?_⟩
    exact Segment.congr (fun q hq => hd q (List.mem_cons_of_mem _ hq))
      (fun a ha => hp a (List.mem_cons_of_mem _ ha)) h.2.2

theorem Path.congr : ∀ {p : Slot ε} {es : List ε}, (∀ q ∈ p.all es, l'.deref q = l.deref q) →
    (∀ e ∈ es, l'.prev e = l.prev e) → l.Path p es → l'.Path p es
  | p, [], hd, _, h => (hd p (List.mem_cons_self ..)).trans h
  | p, e :: es, hd, hp, h => by
    refine ⟨(hd p (List.mem_cons_self ..)).trans h.1, (hp e (List.mem_cons_self ..)).trans h.2.1, ?_⟩
    exact Path.congr (fun q hq => hd q (List.mem_cons_of_mem _ hq))
      (fun a ha => hp a (List.mem_cons_of_mem _ ha)) h.2.2

theorem Segment.frame {es : List ε} (h : l.Segment .head es) (hnd : es.Nodup)
    (hd : ∀ q ∈ Slot.head.all es, q ≠ Slot.head.after es → l'.deref q = l.deref q)
    (hp : ∀ e ∈ es, l'.prev e = l.prev e) : l'.Segment .head es := by
  refine h.congr (fun q hq => hd q (Slot.holding_subset _ _ _ hq) ?_) hp
  rintro rfl
  exact Slot.after_not_holding _ _ (Slot.all_nodup hnd) hq

theorem Path.rehang {p p' : Slot ε} {es : List ε} (h : l.Path p es) (hp : l'.deref p' = l.deref p)
    (hfirst : ∀ e, es.head? = some e → l'.prev e = some p') (hd : ∀ e ∈ es, l'.deref (.next e) = l.deref (.next e))
    (hrest : ∀ e ∈ es.tail, l'.prev e = l.prev e) : l'.Path p' es := by
  cases es with
  | nil => exact hp.trans h
  | cons e es =>
    refine ⟨hp.trans h.1, hfirst e rfl, h.2.2.congr (fun q hq => ?_) hrest⟩
    obtain ⟨a, ha, rfl⟩ := List.mem_map.mp (show q ∈ (e :: es).map .next from hq)
    exact hd a ha

theorem head_not_mem_tail {es : List ε} {e : ε} (hnd : es.Nodup) (hhead : es.head? = some e) :
    e ∉ es.tail := by
  cases es with
  | nil => cases hhead
  | cons a es =>
    obtain rfl := Option.some.inj hhead
    exact (List.nodup_cons.mp hnd).1

namespace IsList

theorem prev_eq_none {es : List ε} (h : l.IsList es) {e : ε} : l.prev e = none ↔ e ∉ es := by
  rw [← h.linked e, not_not]

theorem prev_eq {as bs : List ε} {e : ε} (h : l.IsList (as ++ e :: bs)) :
    l.prev e = some (Slot.head.after as) := ((path_append ..).mp h.path).2.2.1

theorem deref_after {as bs : List ε} (h : l.IsList (as ++ bs)) : l.deref (Slot.head.after as) = bs.head? := by
  have hbs := ((path_append ..).mp h.path).2
  cases bs with
  | nil => exact hbs
  | cons b bs => exact hbs.1

theorem head_eq {es : List ε} (h : l.IsList es) : l.head = es.head? := @deref_after ε l [] es h

theorem around {es : List ε} (h : l.IsList es) {p : Slot ε} (hp : p ∈ Slot.head.all es) {e : ε}
    (he : e ∈ l.around p) : e ∈ es := by
  cases p with
  | head =>
    have hhead : l.head = some e := Option.mem_toList.mp he
    rw [h.head_eq] at hhead
    exact List.mem_of_mem_head? hhead
  | next a =>
    have ha : a ∈ es := Slot.next_mem_all.mp hp
    obtain ⟨as, bs, rfl⟩ := List.append_of_mem ha
    rcases List.mem_cons.mp he with rfl | he
    · exact ha
    · have hlist : l.IsList ((as ++ [a]) ++ bs) := by rwa [List.append_assoc]
      have hnext := hlist.deref_after
      rw [Slot.after_append] at hnext
      have hbs : bs.head? = some e := hnext.symm.trans (Option.mem_toList.mp he)
      exact List.mem_append_right as (List.mem_cons_of_mem a (List.mem_of_mem_head? hbs))

end IsList

end

section
variable [DecidableEq ε]

def store (l : Links ε) (p : Slot ε) (v : Option ε) : Links ε :=
  match p with
  | .head => { l with head := v }
  | .next e => { l with next := Function.update l.next e v }

def setPrev (l : Links ε) (e : ε) (p : Option (Slot ε)) : Links ε :=
  { l with prev := Function.update l.prev e p }

/-- The back pointer of `v`, unless `v` is null. -/
def pointBack (l : Links ε) (v : Option ε) (p : Slot ε) : Links ε :=
  match v with
  | none => l
  | some e => l.setPrev e (some p)

/-- Puts `e` between `p` and what `p` points to. -/
def link (l : Links ε) (e : ε) (p : Slot ε) : Links ε :=
  let l := l.store (.next e) (l.deref p)
  let l := l.setPrev e (some p)
  let l := l.store p (some e)
  l.pointBack (l.next e) (.next e)

/-- Takes `e`, which hangs on `p`, out. -/
def unlink (l : Links ε) (e : ε) (p : Slot ε) : Links ε :=
  let l := l.store p (l.next e)
  let l := l.pointBack (l.next e) p
  let l := l.setPrev e none
  l.store (.next e) none

variable {l : Links ε}

theorem deref_store (p q : Slot ε) (v : Option ε) :
    (l.store p v).deref q = if q = p then v else l.deref q := by
  cases p <;> cases q <;> simp [store, deref, Function.update_apply]

@[simp] theorem prev_store (p : Slot ε) (v : Option ε) : (l.store p v).prev = l.prev := by
  cases p <;> rfl

@[simp] theorem deref_setPrev (e : ε) (p : Option (Slot ε)) (q : Slot ε) :
    (l.setPrev e p).deref q = l.deref q := by
  cases q <;> rfl

theorem prev_setPrev (e a : ε) (p : Option (Slot ε)) :
    (l.setPrev e p).prev a = if a = e then p else l.prev a := Function.update_apply ..

@[simp] theorem deref_pointBack (v : Option ε) (p q : Slot ε) : (l.pointBack v p).deref q = l.deref q := by
  cases v with
  | none => rfl
  | some e => exact deref_setPrev e _ q

theorem prev_pointBack (v : Option ε) (p : Slot ε) (a : ε) :
    (l.pointBack v p).prev a = if v = some a then some p else l.prev a := by
  cases v with
  | none => simp [pointBack]
  | some e => simp [pointBack, prev_setPrev, eq_comm]

theorem deref_link (e : ε) (p q : Slot ε) :
    (l.link e p).deref q = if q = p then some e else if q = .next e then l.deref p else l.deref q := by
  simp only [link, deref_pointBack, deref_store, deref_setPrev]

theorem prev_link {e : ε} {p : Slot ε} (hp : p ≠ .next e) (a : ε) :
    (l.link e p).prev a = if l.deref p = some a then some (.next e) else if a = e then some p else l.prev a := by
  have hnext : (((l.store (.next e) (l.deref p)).setPrev e (some p)).store p (some e)).next e = l.deref p := by
    change Links.deref _ (.next e) = _
    rw [deref_store, if_neg (Ne.symm hp), deref_setPrev, deref_store, if_pos rfl]
  simp only [link, prev_pointBack, hnext, prev_store, prev_setPrev]

theorem deref_unlink (e : ε) (p q : Slot ε) :
    (l.unlink e p).deref q = if q = .next e then none else if q = p then l.next e else l.deref q := by
  simp only [unlink, deref_store, deref_setPrev, deref_pointBack]

theorem prev_unlink {e : ε} {p : Slot ε} (hp : p ≠ .next e) (a : ε) :
    (l.unlink e p).prev a = if a = e then none else if l.next e = some a then some p else l.prev a := by
  have hnext : (l.store p (l.next e)).next e = l.next e := by
    change Links.deref _ (.next e) = _
    rw [deref_store, if_neg (Ne.symm hp)]
    rfl
  simp only [unlink, prev_store, prev_setPrev, hnext, prev_pointBack]

theorem prev_unlink_self (e : ε) (p : Slot ε) : (l.unlink e p).prev e = none := by
  simp only [unlink, prev_store, prev_setPrev, if_pos]

/-! ## Linking and unlinking -/

/-- **Linking in** behind any nodes of the list puts the node there. -/
theorem IsList.link {as bs : List ε} {e : ε} (h : l.IsList (as ++ bs)) (he : e ∉ as ++ bs) :
    (l.link e (Slot.head.after as)).IsList (as ++ e :: bs) := by
  obtain ⟨has, hbs⟩ := (path_append ..).mp h.path
  obtain ⟨hnas, hnbs, hdisj⟩ := List.nodup_append.mp h.nodup
  obtain ⟨heas, hebs⟩ := not_or.mp (mt List.mem_append.mpr he)
  have hp : Slot.head.after as ≠ .next e := Slot.after_ne_next heas
  have hd := h.deref_after
  have hprev := fun a => prev_link (l := l) hp a
  rw [hd] at hprev
  refine ⟨(path_append ..).mpr ⟨?_, ?_, ?_, ?_⟩, List.nodup_middle.mpr ?_, fun a => ?_⟩
  · refine has.frame hnas (fun q hq hne => ?_) fun a ha => ?_
    · rw [deref_link, if_neg hne, if_neg]
      rintro rfl
      exact heas (Slot.next_mem_all.mp hq)
    · rw [hprev, if_neg, if_neg]
      · exact fun hae => heas (hae ▸ ha)
      · exact fun hb => hdisj a ha a (List.mem_of_mem_head? hb) rfl
  · rw [deref_link, if_pos rfl]
  · rw [hprev, if_neg, if_pos rfl]
    exact fun hb => hebs (List.mem_of_mem_head? hb)
  · refine hbs.rehang ?_ (fun b hb => ?_) (fun b hb => ?_) fun b hb => ?_
    · rw [deref_link, if_neg hp.symm, if_pos rfl]
    · rw [hprev, if_pos hb]
    · rw [deref_link, if_neg (Slot.after_ne_next fun ha => hdisj b ha b hb rfl).symm, if_neg]
      exact fun heq => hebs (Slot.next.inj heq ▸ hb)
    · rw [hprev, if_neg, if_neg]
      · exact fun hbe => hebs (hbe ▸ List.mem_of_mem_tail hb)
      · exact fun hhead => head_not_mem_tail hnbs hhead hb
  · exact List.nodup_cons.mpr ⟨he, h.nodup⟩
  · rw [hprev, List.mem_append, List.mem_cons]
    split
    next hb => simp [List.mem_of_mem_head? hb]
    next =>
      split
      next hae => simp [hae]
      next hne => rw [h.linked, List.mem_append]; simp [hne]

/-- **Unlinking** a node of the list leaves the others. -/
theorem IsList.unlink {as bs : List ε} {e : ε} (h : l.IsList (as ++ e :: bs)) :
    (l.unlink e (Slot.head.after as)).IsList (as ++ bs) := by
  obtain ⟨has, -, -, hbs⟩ := (path_append ..).mp h.path
  obtain ⟨hnas, hneb, hdisj⟩ := List.nodup_append.mp h.nodup
  obtain ⟨hebs, hnbs⟩ := List.nodup_cons.mp hneb
  have heas : e ∉ as := fun ha => hdisj e ha e (List.mem_cons_self ..) rfl
  have hp : Slot.head.after as ≠ .next e := Slot.after_ne_next heas
  have hnext : l.next e = bs.head? := by
    cases bs with
    | nil => exact hbs
    | cons b bs => exact hbs.1
  have hprev := fun a => prev_unlink (l := l) hp a
  rw [hnext] at hprev
  refine ⟨(path_append ..).mpr ⟨?_, ?_⟩, ?_, fun a => ?_⟩
  · refine has.frame hnas (fun q hq hne => ?_) fun a ha => ?_
    · rw [deref_unlink, if_neg, if_neg hne]
      rintro rfl
      exact heas (Slot.next_mem_all.mp hq)
    · rw [hprev, if_neg, if_neg]
      · exact fun hb => hdisj a ha a (List.mem_cons_of_mem _ (List.mem_of_mem_head? hb)) rfl
      · exact fun hae => heas (hae ▸ ha)
  · refine hbs.rehang ?_ (fun b hb => ?_) (fun b hb => ?_) fun b hb => ?_
    · rw [deref_unlink, if_neg hp, if_pos rfl]
      rfl
    · rw [hprev, if_neg, if_pos hb]
      exact fun hbe => hebs (hbe ▸ List.mem_of_mem_head? hb)
    · rw [deref_unlink, if_neg, if_neg]
      · exact (Slot.after_ne_next fun ha => hdisj b ha b (List.mem_cons_of_mem _ hb) rfl).symm
      · exact fun heq => hebs (Slot.next.inj heq ▸ hb)
    · rw [hprev, if_neg, if_neg]
      · exact fun hhead => head_not_mem_tail hnbs hhead hb
      · exact fun hbe => hebs (hbe ▸ List.mem_of_mem_tail hb)
  · exact (List.nodup_middle.mp h.nodup).of_cons
  · rw [hprev, List.mem_append]
    split
    next hae => simp [hae, heas, hebs]
    next hne =>
      split
      next hb => simp [List.mem_of_mem_head? hb]
      next => rw [h.linked, List.mem_append, List.mem_cons]; simp [hne]

end

end Links
