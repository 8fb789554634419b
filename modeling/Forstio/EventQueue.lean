import Forstio.EventLoop
import Forstio.Lib.Run
import Mathlib.Data.List.Count

/-!
# The event loop schedules in three zones

`Zones` is the scheduler the queue implements: events armed next since the last
turn, older events and those armed later, and events armed last. The pointer
queue represents the three zones as long as no event is disarmed while its
`next` field is the later insertion point; from the first such call on, the
later insertion point lies outside the list.
-/

namespace Forstio

/-! ## The reference scheduler -/

structure Zones (ε : Type) where
  next : List ε
  later : List ε
  last : List ε
  nodup : (next ++ later ++ last).Nodup

namespace Zones

variable {ε : Type}

def all (z : Zones ε) : List ε := z.next ++ z.later ++ z.last

def empty : Zones ε := ⟨[], [], [], List.nodup_nil⟩

theorem nodup_insert {as bs : List ε} {e : ε} (h : (as ++ bs).Nodup) (he : e ∉ as ++ bs) :
    (as ++ e :: bs).Nodup := List.nodup_middle.mpr (List.nodup_cons.mpr ⟨he, h⟩)

/-- Fires the first event of all; what is left of `next` goes to the front of `later`. -/
def turn (z : Zones ε) : Option ε × Zones ε :=
  match z with
  | ⟨e :: n, m, l, h⟩ => (some e, ⟨[], n ++ m, l, h.of_cons⟩)
  | ⟨[], e :: m, l, h⟩ => (some e, ⟨[], m, l, h.of_cons⟩)
  | ⟨[], [], e :: l, h⟩ => (some e, ⟨[], [], l, h.of_cons⟩)
  | ⟨[], [], [], _⟩ => (none, empty)

theorem turn_all (z : Zones ε) : z.all = z.turn.1.toList ++ z.turn.2.all := by
  rcases z with ⟨_ | ⟨e, next⟩, later, last, hnd⟩
  · rcases later with _ | ⟨e, later⟩
    · cases last <;> rfl
    · rfl
  · simp [all, turn]

variable [DecidableEq ε]

def armNext (z : Zones ε) (e : ε) : Zones ε :=
  if h : e ∈ z.all then z
  else ⟨z.next ++ [e], z.later, z.last, by
    simpa [all] using nodup_insert (by simpa using z.nodup) (by simpa [all] using h)⟩

def armLater (z : Zones ε) (e : ε) : Zones ε :=
  if h : e ∈ z.all then z
  else ⟨z.next, z.later ++ [e], z.last, by
    simpa [all] using nodup_insert z.nodup h⟩

def armLast (z : Zones ε) (e : ε) : Zones ε :=
  if h : e ∈ z.all then z
  else ⟨z.next, z.later, e :: z.last, by
    simpa [all] using nodup_insert z.nodup h⟩

def disarm (z : Zones ε) (e : ε) : Zones ε where
  next := z.next.erase e
  later := z.later.erase e
  last := z.last.erase e
  nodup := z.nodup.sublist ((List.erase_sublist.append List.erase_sublist).append List.erase_sublist)

open EventLoop in
def step (z : Zones ε) : Op ε → Effect ε × Zones ε
  | .armNext e => (if e ∈ z.all then .nothing else .armed e, z.armNext e)
  | .armLater e => (if e ∈ z.all then .nothing else .armed e, z.armLater e)
  | .armLast e => (if e ∈ z.all then .nothing else .armed e, z.armLast e)
  | .disarm e => (if e ∈ z.all then .disarmed e else .nothing, z.disarm e)
  | .turn => (Effect.ofTurn z.turn.1, z.turn.2)

/-! ### The events in all three zones -/

section
variable {z : Zones ε} {e : ε}

theorem armNext_mem (h : e ∈ z.all) : z.armNext e = z := dif_pos h

theorem armLater_mem (h : e ∈ z.all) : z.armLater e = z := dif_pos h

theorem armLast_mem (h : e ∈ z.all) : z.armLast e = z := dif_pos h

theorem armNext_all (h : e ∉ z.all) : (z.armNext e).all.Perm (e :: z.all) := by
  rw [armNext, dif_neg h]
  simp [all]

theorem armLater_all (h : e ∉ z.all) : (z.armLater e).all.Perm (e :: z.all) := by
  rw [armLater, dif_neg h]
  have hperm : ((z.next ++ z.later) ++ e :: z.last).Perm (e :: z.all) := List.perm_middle
  simpa [all] using hperm

theorem armLast_all (h : e ∉ z.all) : (z.armLast e).all.Perm (e :: z.all) := by
  rw [armLast, dif_neg h]
  exact List.perm_middle

theorem disarm_all : (z.disarm e).all = z.all.erase e := by
  obtain ⟨hfront, -, hfl⟩ := List.nodup_append.mp z.nodup
  obtain ⟨-, -, hnl⟩ := List.nodup_append.mp hfront
  by_cases hn : e ∈ z.next
  · have hm : e ∉ z.later := fun hm => hnl e hn e hm rfl
    have hl : e ∉ z.last := fun hl => hfl e (List.mem_append_left _ hn) e hl rfl
    simp [all, disarm, List.erase_append_left _ hn, List.erase_of_not_mem hm, List.erase_of_not_mem hl]
  · by_cases hm : e ∈ z.later
    · have hl : e ∉ z.last := fun hl => hfl e (List.mem_append_right _ hm) e hl rfl
      simp [all, disarm, List.erase_append_right _ hn, List.erase_append_left _ hm, List.erase_of_not_mem hn,
        List.erase_of_not_mem hl]
    · simp [all, disarm, List.erase_append_right _ hn, List.erase_append_right _ hm, List.erase_of_not_mem hn,
        List.erase_of_not_mem hm]

end

end Zones

namespace EventLoop

variable {ε : Type}

/-- The queue holds the three zones one behind the other, and its slots mark their ends. -/
structure Represents (s : EventLoop ε) (z : Zones ε) : Prop where
  list : s.IsList z.all
  nextInsertPoint : s.nextInsertPoint = Slot.head.after z.next
  laterInsertPoint : s.laterInsertPoint = Slot.head.after (z.next ++ z.later)
  tail : s.tail = Slot.head.after z.all

theorem new_represents : (new : EventLoop ε).Represents Zones.empty :=
  ⟨⟨rfl, List.nodup_nil, by simp [new, Zones.all, Zones.empty]⟩, rfl, rfl, rfl⟩

section
variable {s : EventLoop ε} {z : Zones ε}

theorem Represents.isArmed (h : s.Represents z) (e : ε) : s.isArmed e ↔ e ∈ z.all := by
  rw [EventLoop.isArmed, Option.isSome_iff_ne_none]
  exact h.list.linked e

theorem Represents.prev_some (h : s.Represents z) {e : ε} (he : e ∈ z.all) : ∃ p, s.prev e = some p :=
  Option.ne_none_iff_exists'.mp ((h.list.linked e).mpr he)

def Sound (s : EventLoop ε) : Prop := ∃ z : Zones ε, s.Represents z

theorem sound_new : (new : EventLoop ε).Sound := ⟨_, new_represents⟩

theorem not_isArmed_new (e : ε) : ¬ (new : EventLoop ε).isArmed e := by simp [isArmed, new]

theorem Sound.not_isArmed (h : s.Sound) (hhead : s.head = none) (e : ε) : ¬ s.isArmed e := by
  obtain ⟨z, h⟩ := h
  rw [h.isArmed, List.head?_eq_none_iff.mp (h.list.head_eq.symm.trans hhead)]
  exact List.not_mem_nil

/-! ## Integrity -/

/-- The queue is the null-terminated list `es` of the armed events, and all its slots are slots of that list. -/
structure Integrity (s : EventLoop ε) (es : List ε) : Prop where
  list : s.IsList es
  tail : s.tail = Slot.head.after es
  nextInsertPoint : s.nextInsertPoint ∈ Slot.head.all es
  laterInsertPoint : s.laterInsertPoint ∈ Slot.head.all es

theorem Represents.integrity (h : s.Represents z) : s.Integrity z.all := by
  refine ⟨h.list, h.tail, ?_, ?_⟩
  · rw [h.nextInsertPoint, Zones.all, List.append_assoc]
    exact Slot.after_mem_append _ _
  · rw [h.laterInsertPoint]
    exact Slot.after_mem_append _ _

/-- No call writes through a slot outside the list. -/
theorem Integrity.written {es : List ε} (h : s.Integrity es) (op : Op ε) :
    ∀ q ∈ s.written op, q ∈ Slot.head.all es := by
  intro q hq
  cases op with
  | armNext e =>
    simp only [EventLoop.written] at hq
    split at hq
    · cases hq
    · rw [List.mem_singleton.mp hq]
      exact h.nextInsertPoint
  | armLater e =>
    simp only [EventLoop.written] at hq
    split at hq
    · cases hq
    · rw [List.mem_singleton.mp hq]
      exact h.laterInsertPoint
  | armLast e =>
    simp only [EventLoop.written] at hq
    split at hq
    · cases hq
    · rw [List.mem_singleton.mp hq]
      exact h.laterInsertPoint
  | disarm e =>
    have hp : s.prev e = some q := Option.mem_toList.mp hq
    obtain ⟨as, bs, rfl⟩ := List.append_of_mem ((h.list.linked e).mp (by rw [hp]; exact Option.some_ne_none q))
    obtain rfl := Option.some.inj (h.list.prev_eq.symm.trans hp)
    exact Slot.after_mem_append _ _
  | turn =>
    rw [List.mem_singleton.mp hq]
    exact List.mem_cons_self ..

/-- All a call touches, besides the event it is about, is armed. -/
theorem Integrity.followed {es : List ε} (h : s.Integrity es) (op : Op ε) :
    ∀ q ∈ s.followed op, ∀ a ∈ s.around q, a ∈ es := by
  intro q hq a ha
  refine h.list.around ?_ ha
  cases op with
  | disarm e =>
    simp only [EventLoop.followed] at hq
    split at hq
    · cases hq
    next p hp =>
      have he : e ∈ es := (h.list.linked e).mp (by rw [hp]; exact Option.some_ne_none p)
      rcases List.mem_cons.mp hq with rfl | hq
      · exact h.written (.disarm e) q (Option.mem_toList.mpr hp)
      · rw [List.mem_singleton.mp hq]
        exact Slot.next_mem_all.mpr he
  | turn =>
    rcases List.mem_cons.mp hq with rfl | hq
    · exact List.mem_cons_self
    · obtain ⟨e, he, rfl⟩ := List.mem_map.mp hq
      rw [h.list.head_eq] at he
      exact Slot.next_mem_all.mpr (List.mem_of_mem_head? (Option.mem_toList.mp he))
  | armNext e => exact h.written (.armNext e) q hq
  | armLater e => exact h.written (.armLater e) q hq
  | armLast e => exact h.written (.armLast e) q hq

theorem Sound.followed (h : s.Sound) (op : Op ε) : ∀ q ∈ s.followed op, ∀ a ∈ s.around q, s.isArmed a := by
  obtain ⟨z, h⟩ := h
  intro q hq a ha
  exact (h.isArmed a).mpr (h.integrity.followed op q hq a ha)

/-! ## Each call simulates the reference -/

variable [DecidableEq ε]

theorem Represents.armNext (h : s.Represents z) (e : ε) : (s.armNext e).Represents (z.armNext e) := by
  by_cases he : e ∈ z.all
  · obtain ⟨p, hp⟩ := h.prev_some he
    rw [armNext_armed hp, Zones.armNext, dif_pos he]
    exact h
  · have hlist : s.IsList (z.next ++ (z.later ++ z.last)) := by simpa [Zones.all] using h.list
    have hlater : (z.next ++ z.later).Nodup := (List.nodup_append.mp z.nodup).1
    rw [armNext_eq (h.list.prev_eq_none.mpr he), Zones.armNext, dif_neg he, h.nextInsertPoint,
      h.laterInsertPoint, h.tail]
    refine ⟨?_, ?_, ?_, ?_⟩
    · simpa [Zones.all] using hlist.link (by simpa [Zones.all] using he)
    · simp [Slot.after]
    · simpa using (Slot.after_insert e hlater).symm
    · simpa [Zones.all] using (Slot.after_insert e hlist.nodup).symm

theorem Represents.armLater (h : s.Represents z) (e : ε) : (s.armLater e).Represents (z.armLater e) := by
  by_cases he : e ∈ z.all
  · obtain ⟨p, hp⟩ := h.prev_some he
    rw [armLater_armed hp, Zones.armLater, dif_pos he]
    exact h
  · rw [armLater_eq (h.list.prev_eq_none.mpr he), Zones.armLater, dif_neg he, h.laterInsertPoint, h.tail]
    refine ⟨?_, h.nextInsertPoint, ?_, ?_⟩
    · simpa [Zones.all] using h.list.link he
    · simp [Slot.after]
    · simpa [Zones.all] using (Slot.after_insert e z.nodup).symm

theorem Represents.armLast (h : s.Represents z) (e : ε) : (s.armLast e).Represents (z.armLast e) := by
  by_cases he : e ∈ z.all
  · obtain ⟨p, hp⟩ := h.prev_some he
    rw [armLast_armed hp, Zones.armLast, dif_pos he]
    exact h
  · rw [armLast_eq (h.list.prev_eq_none.mpr he), Zones.armLast, dif_neg he, h.laterInsertPoint, h.tail]
    refine ⟨?_, h.nextInsertPoint, rfl, ?_⟩
    · exact h.list.link he
    · exact (Slot.after_insert e z.nodup).symm

theorem Represents.disarm_of {z' : Zones ε} (as bs : List ε) {e : ε} (h : s.Represents z)
    (hz : z.all = as ++ e :: bs) (hz' : z'.all = as ++ bs)
    (hnext : Slot.head.after z'.next = if Slot.head.after z.next = .next e then Slot.head.after as
      else Slot.head.after z.next)
    (hlater : Slot.head.after (z'.next ++ z'.later) = Slot.head.after (z.next ++ z.later)) :
    (s.disarm e).Represents z' := by
  have hlist := hz ▸ h.list
  rw [disarm_eq hlist.prev_eq, h.tail, h.nextInsertPoint]
  refine ⟨?_, hnext.symm, h.laterInsertPoint.trans hlater.symm, ?_⟩
  · rw [hz']
    exact hlist.unlink
  · rw [hz, hz']
    exact (Slot.after_remove hlist.nodup).symm

theorem erase_middle {as bs : List ε} {e : ε} (h : e ∉ as) : (as ++ e :: bs).erase e = as ++ bs := by
  rw [List.erase_append_right _ h, List.erase_cons_head]

theorem Represents.disarm (h : s.Represents z) {e : ε} (hspare : s.laterInsertPoint ≠ .next e) :
    (s.disarm e).Represents (z.disarm e) := by
  obtain ⟨next, later, last, hnd⟩ := z
  rw [h.laterInsertPoint] at hspare
  obtain ⟨hfront, -, hfl⟩ := List.nodup_append.mp hnd
  obtain ⟨hnext, -, hnl⟩ := List.nodup_append.mp hfront
  by_cases hl : e ∈ last
  · have hn := List.erase_of_not_mem fun hn => hfl e (List.mem_append_left later hn) e hl rfl
    have hm := List.erase_of_not_mem fun hm => hfl e (List.mem_append_right next hm) e hl rfl
    obtain ⟨as, bs, rfl, has⟩ := List.eq_append_cons_of_mem hl
    refine h.disarm_of (next ++ later ++ as) bs ?_ ?_ ?_ ?_
    · simp [Zones.all]
    · simp [Zones.all, Zones.disarm, erase_middle has, hn, hm]
    · rw [if_neg (Slot.after_ne_next fun hn => hfl e (List.mem_append_left later hn) e hl rfl)]
      simp [Zones.disarm, hn]
    · simp [Zones.disarm, hn, hm]
  have hlast := List.erase_of_not_mem hl
  by_cases hm : e ∈ later
  · have hn : e ∉ next := fun hn => hnl e hn e hm rfl
    obtain ⟨as, bs, rfl, has⟩ := List.eq_append_cons_of_mem hm
    have hlater : Slot.head.after (next ++ as ++ bs) = _ := Slot.after_remove (by simpa using hfront)
    rw [if_neg (by simpa using hspare)] at hlater
    refine h.disarm_of (next ++ as) (bs ++ last) ?_ ?_ ?_ ?_
    · simp [Zones.all]
    · simp [Zones.all, Zones.disarm, erase_middle has, List.erase_of_not_mem hn, hlast]
    · rw [if_neg (Slot.after_ne_next hn)]
      simp [Zones.disarm, List.erase_of_not_mem hn]
    · simpa [Zones.disarm, erase_middle has, List.erase_of_not_mem hn] using hlater
  have hlater := List.erase_of_not_mem hm
  by_cases hn : e ∈ next
  · obtain ⟨as, bs, rfl, has⟩ := List.eq_append_cons_of_mem hn
    have hrest : Slot.head.after (as ++ (bs ++ later)) = _ := Slot.after_remove (by simpa using hfront)
    rw [if_neg (by simpa using hspare)] at hrest
    refine h.disarm_of as (bs ++ later ++ last) ?_ ?_ ?_ ?_
    · simp [Zones.all]
    · simp [Zones.all, Zones.disarm, erase_middle has, hlater, hlast]
    · simpa [Zones.disarm, erase_middle has] using Slot.after_remove hnext
    · simpa [Zones.disarm, erase_middle has, hlater] using hrest
  · have hall : e ∉ Zones.all ⟨next, later, last, hnd⟩ := by simp [Zones.all, hn, hm, hl]
    rw [disarm_unarmed (h.list.prev_eq_none.mpr hall)]
    simpa [Zones.disarm, List.erase_of_not_mem hn, hlater, hlast] using h

theorem Represents.turn_of {z' : Zones ε} {e : ε} (h : s.Represents z) (hz : z.all = e :: z'.all)
    (hnext : z'.next = [])
    (hlater : Slot.head.after z'.later = if Slot.head.after (z.next ++ z.later) = .next e then .head
      else Slot.head.after (z.next ++ z.later)) :
    s.turn.1 = some e ∧ s.turn.2.Represents z' := by
  have hlist : s.IsList ([] ++ e :: z'.all) := hz ▸ h.list
  rw [turn_eq hlist.head_eq, h.laterInsertPoint, h.tail, hz]
  refine ⟨rfl, hlist.unlink, ?_, ?_, ?_⟩
  · rw [hnext]
    rfl
  · rw [hnext, List.nil_append, hlater]
  · exact (Slot.after_remove hlist.nodup).symm

theorem Represents.turn (h : s.Represents z) : s.turn.1 = z.turn.1 ∧ s.turn.2.Represents z.turn.2 := by
  rcases z with ⟨_ | ⟨e, next⟩, later, last, hnd⟩
  · rcases later with _ | ⟨e, later⟩
    · rcases last with _ | ⟨e, last⟩
      · rw [turn_none h.list.head_eq]
        exact ⟨rfl, h⟩
      · exact h.turn_of rfl rfl rfl
    · have hfront : ([] ++ e :: later).Nodup := (List.nodup_append.mp hnd).1
      exact h.turn_of rfl rfl (Slot.after_remove hfront)
  · have hfront : ([] ++ e :: (next ++ later)).Nodup := (List.nodup_append.mp hnd).1
    exact h.turn_of rfl rfl (Slot.after_remove hfront)

/-! ## Which events are armed -/

theorem Sound.armNext (h : s.Sound) (e : ε) : (s.armNext e).Sound := by
  obtain ⟨z, h⟩ := h
  exact ⟨_, h.armNext e⟩

theorem Sound.armLater (h : s.Sound) (e : ε) : (s.armLater e).Sound := by
  obtain ⟨z, h⟩ := h
  exact ⟨_, h.armLater e⟩

theorem Sound.isArmed_armNext (h : s.Sound) (e a : ε) : (s.armNext e).isArmed a ↔ a = e ∨ s.isArmed a := by
  obtain ⟨z, h⟩ := h
  rw [(h.armNext e).isArmed, h.isArmed]
  by_cases he : e ∈ z.all
  · rw [Zones.armNext_mem he, iff_or_self]
    rintro rfl
    exact he
  · rw [(Zones.armNext_all he).mem_iff, List.mem_cons]

theorem Sound.isArmed_armLater (h : s.Sound) (e a : ε) : (s.armLater e).isArmed a ↔ a = e ∨ s.isArmed a := by
  obtain ⟨z, h⟩ := h
  rw [(h.armLater e).isArmed, h.isArmed]
  by_cases he : e ∈ z.all
  · rw [Zones.armLater_mem he, iff_or_self]
    rintro rfl
    exact he
  · rw [(Zones.armLater_all he).mem_iff, List.mem_cons]

theorem Sound.armLast (h : s.Sound) (e : ε) : (s.armLast e).Sound := by
  obtain ⟨z, h⟩ := h
  exact ⟨_, h.armLast e⟩

theorem Sound.isArmed_armLast (h : s.Sound) (e a : ε) : (s.armLast e).isArmed a ↔ a = e ∨ s.isArmed a := by
  obtain ⟨z, h⟩ := h
  rw [(h.armLast e).isArmed, h.isArmed]
  by_cases he : e ∈ z.all
  · rw [Zones.armLast_mem he, iff_or_self]
    rintro rfl
    exact he
  · rw [(Zones.armLast_all he).mem_iff, List.mem_cons]

theorem laterInsertPoint_armLater (s : EventLoop ε) (e : ε) :
    (s.armLater e).laterInsertPoint = .next e ∨ (s.armLater e).laterInsertPoint = s.laterInsertPoint := by
  cases h : s.prev e with
  | none => exact Or.inl (by rw [armLater_eq h])
  | some p => exact Or.inr (by rw [armLater_armed h])

theorem laterInsertPoint_armLast (s : EventLoop ε) (e : ε) : (s.armLast e).laterInsertPoint = s.laterInsertPoint := by
  cases h : s.prev e with
  | none => rw [armLast_eq h]
  | some p => rw [armLast_armed h]

theorem head_pointBack (l : Links ε) (v : Option ε) (p : Slot ε) : (l.pointBack v p).head = l.head := by
  cases v <;> rfl

theorem head_armLater {e : ε} (hu : s.isArmed e = false) (hlater : s.laterInsertPoint = .head) :
    (s.armLater e).head = some e ∧ (s.armLater e).laterInsertPoint = .next e := by
  have hprev : s.prev e = none := Option.isSome_eq_false_iff.mp hu |> Option.isNone_iff_eq_none.mp
  rw [armLater_eq hprev, hlater]
  exact ⟨head_pointBack _ _ _, rfl⟩

theorem head_armLast {e a : ε} (hlater : s.laterInsertPoint = .next a) : (s.armLast e).head = s.head := by
  cases h : s.prev e with
  | none =>
    rw [armLast_eq h, hlater]
    exact head_pointBack _ _ _
  | some p => rw [armLast_armed h]

theorem laterInsertPoint_disarm (s : EventLoop ε) (e : ε) : (s.disarm e).laterInsertPoint = s.laterInsertPoint := by
  cases h : s.prev e with
  | none => rw [disarm_unarmed h]
  | some p => rw [disarm_eq h]

theorem Sound.disarm (h : s.Sound) {e : ε} (hspare : s.laterInsertPoint ≠ .next e) :
    (s.disarm e).Sound ∧ ∀ a, (s.disarm e).isArmed a ↔ a ≠ e ∧ s.isArmed a := by
  obtain ⟨z, h⟩ := h
  refine ⟨⟨_, h.disarm hspare⟩, fun a => ?_⟩
  rw [(h.disarm hspare).isArmed, h.isArmed, Zones.disarm_all, h.list.nodup.mem_erase_iff]

theorem armLater_isArmed {e : ε} (h : s.isArmed e) : s.armLater e = s := by
  obtain ⟨p, hp⟩ := Option.isSome_iff_exists.mp h
  exact armLater_armed hp

omit [DecidableEq ε] in
/-- Whoever holds the later insertion point is armed. -/
theorem Sound.isArmed_later (h : s.Sound) {e : ε} (he : s.laterInsertPoint = .next e) : s.isArmed e := by
  obtain ⟨z, h⟩ := h
  rw [h.isArmed]
  exact Slot.next_mem_all.mp (he ▸ h.integrity.laterInsertPoint)

theorem Sound.turn (h : s.Sound) {e : ε} (ht : s.turn.1 = some e) :
    s.isArmed e ∧ s.turn.2.Sound ∧ ∀ a, s.turn.2.isArmed a ↔ a ≠ e ∧ s.isArmed a := by
  obtain ⟨z, h⟩ := h
  have hz : z.all = e :: z.turn.2.all := by
    rw [z.turn_all, ← h.turn.1, ht]
    rfl
  have hnd : (e :: z.turn.2.all).Nodup := hz ▸ h.list.nodup
  refine ⟨(h.isArmed e).mpr (hz ▸ List.mem_cons_self ..), ⟨_, h.turn.2⟩, fun a => ?_⟩
  rw [h.turn.2.isArmed, h.isArmed, hz]
  constructor
  · intro ha
    exact ⟨fun hae => (List.nodup_cons.mp hnd).1 (hae ▸ ha), List.mem_cons_of_mem _ ha⟩
  · intro ⟨hne, ha⟩
    exact (List.mem_cons.mp ha).resolve_left hne

/-- A turn moves the later insertion point out of the event that fires, and not into another one. -/
theorem later_turn {e a : ε} {s' : EventLoop ε} (ht : s.turn = (some e, s')) (hlater : s'.laterInsertPoint = .next a) :
    s.laterInsertPoint = .next a := by
  rw [turn_eq (head_of_turn ht)] at ht
  obtain ⟨-, rfl⟩ := Prod.mk.inj ht
  dsimp only at hlater
  split at hlater
  · cases hlater
  · exact hlater

/-! ## In the order of arming -/

def InOrder (s : EventLoop ε) (es : List ε) : Prop := ∃ z : Zones ε, s.Represents z ∧ z.last = [] ∧ z.all = es

section
variable {es : List ε}

omit [DecidableEq ε] in
theorem inOrder_new : (new : EventLoop ε).InOrder [] := ⟨_, new_represents, rfl, rfl⟩

omit [DecidableEq ε] in
theorem InOrder.nodup (h : s.InOrder es) : es.Nodup := by
  obtain ⟨z, -, -, rfl⟩ := h
  exact z.nodup

omit [DecidableEq ε] in
theorem InOrder.isArmed (h : s.InOrder es) (e : ε) : s.isArmed e ↔ e ∈ es := by
  obtain ⟨z, hz, -, rfl⟩ := h
  exact hz.isArmed e

omit [DecidableEq ε] in
theorem InOrder.head (h : s.InOrder es) : s.head = es.head? := by
  obtain ⟨z, hz, -, rfl⟩ := h
  exact hz.list.head_eq

theorem InOrder.turn {e : ε} (h : s.InOrder (e :: es)) : s.turn.1 = some e ∧ s.turn.2.InOrder es := by
  obtain ⟨⟨next, later, last, hnd⟩, hz, hlast, hall⟩ := h
  obtain rfl : last = [] := hlast
  obtain ⟨hfires, hrest⟩ := hz.turn
  rw [hfires]
  cases next with
  | cons a next =>
    obtain ⟨rfl, htail⟩ := List.cons.inj hall
    exact ⟨rfl, _, hrest, rfl, htail⟩
  | nil =>
    cases later with
    | nil => cases hall
    | cons a later =>
      obtain ⟨rfl, htail⟩ := List.cons.inj hall
      exact ⟨rfl, _, hrest, rfl, htail⟩

theorem InOrder.armNext (h : s.InOrder es) (e : ε) : ∃ es', (s.armNext e).InOrder es' := by
  obtain ⟨z, hz, hlast, -⟩ := h
  refine ⟨_, _, hz.armNext e, ?_, rfl⟩
  unfold Zones.armNext
  split
  · exact hlast
  · exact hlast

theorem InOrder.armLater (h : s.InOrder es) (e : ε) : (s.armLater e).InOrder (if e ∈ es then es else es ++ [e]) := by
  obtain ⟨z, hz, hlast, rfl⟩ := h
  by_cases he : e ∈ z.all
  · rw [if_pos he]
    refine ⟨_, hz.armLater e, ?_, ?_⟩
    · rw [Zones.armLater_mem he, hlast]
    · rw [Zones.armLater_mem he]
  · rw [if_neg he]
    refine ⟨_, hz.armLater e, ?_, ?_⟩
    · rw [Zones.armLater, dif_neg he]
      exact hlast
    · rw [Zones.armLater, dif_neg he]
      simp [Zones.all, hlast]

end

/-! ## Runs -/

/-- The disarmed event is not the one whose `next` field is the later insertion point. -/
def spares (s : EventLoop ε) : Op ε → Prop
  | .disarm e => s.laterInsertPoint ≠ .next e
  | _ => True

instance (s : EventLoop ε) : ∀ op : Op ε, Decidable (s.spares op)
  | .disarm e => inferInstanceAs (Decidable (s.laterInsertPoint ≠ .next e))
  | .armNext _ => isTrue trivial
  | .armLater _ => isTrue trivial
  | .armLast _ => isTrue trivial
  | .turn => isTrue trivial

theorem step_represents (s : EventLoop ε) (z : Zones ε) (op : Op ε) (h : s.Represents z) (hop : s.spares op) :
    ∃ s', step s op = some ((z.step op).1, s') ∧ s'.Represents (z.step op).2 := by
  cases op with
  | armNext e => exact ⟨_, by simp only [step, h.isArmed, Zones.step], h.armNext e⟩
  | armLater e => exact ⟨_, by simp only [step, h.isArmed, Zones.step], h.armLater e⟩
  | armLast e => exact ⟨_, by simp only [step, h.isArmed, Zones.step], h.armLast e⟩
  | disarm e => exact ⟨_, by simp only [step, h.isArmed, Zones.step], h.disarm hop⟩
  | turn => exact ⟨_, by simp only [step, h.turn.1, Zones.step], h.turn.2⟩

end

section
variable [DecidableEq ε]

/-- Each arming of an event is still in the queue, was undone, or fired. -/
theorem step_balance (z : Zones ε) (op : Op ε) (e : ε) :
    (z.step op).2.all.count e + [(z.step op).1].count (.fired e) + [(z.step op).1].count (.disarmed e) =
      z.all.count e + [(z.step op).1].count (.armed e) := by
  have harm : ∀ {a : ε} {z' : Zones ε}, a ∉ z.all → z'.all.Perm (a :: z.all) →
      z'.all.count e = z.all.count e + [Effect.armed a].count (.armed e) := by
    intro a z' _ hperm
    rw [hperm.count_eq, List.count_cons, List.count_singleton]
    simp
  cases op with
  | armNext a =>
    by_cases ha : a ∈ z.all
    · simp [Zones.step, Zones.armNext_mem ha, ha]
    · simp [Zones.step, ha, harm ha (Zones.armNext_all ha)]
  | armLater a =>
    by_cases ha : a ∈ z.all
    · simp [Zones.step, Zones.armLater_mem ha, ha]
    · simp [Zones.step, ha, harm ha (Zones.armLater_all ha)]
  | armLast a =>
    by_cases ha : a ∈ z.all
    · simp [Zones.step, Zones.armLast_mem ha, ha]
    · simp [Zones.step, ha, harm ha (Zones.armLast_all ha)]
  | disarm a =>
    by_cases ha : a ∈ z.all
    · have hcount := (List.perm_cons_erase ha).count_eq e
      simp [Zones.step, ha, Zones.disarm_all, hcount, List.count_cons]
    · simp [Zones.step, ha, Zones.disarm_all, List.erase_of_not_mem ha]
  | turn =>
    have hcount := congrArg (List.count e) z.turn_all
    rw [List.count_append] at hcount
    rw [hcount]
    cases ht : z.turn.1 with
    | none => simp [Zones.step, ht, Effect.ofTurn]
    | some a => simp [Zones.step, ht, Effect.ofTurn, List.count_cons, Nat.add_comm]

theorem run_balance (e : ε) : ∀ (ops : List (Op ε)) (z : Zones ε),
    (Run.total Zones.step z ops).2.all.count e + (Run.total Zones.step z ops).1.count (.fired e) +
      (Run.total Zones.step z ops).1.count (.disarmed e) =
      z.all.count e + (Run.total Zones.step z ops).1.count (.armed e)
  | [], _ => by simp [Run.total]
  | op :: ops, z => by
    have hfirst := step_balance z op e
    have hrest := run_balance e ops (z.step op).2
    simp only [Run.total, List.count_cons, List.count_nil] at hfirst ⊢
    omega

/-- **The pointer queue implements the three-zone scheduler** in every run that spares the
later insertion point. It holds the zones in order with its insertion points behind the
first and the second, and fires what the reference fires. Every arming that took effect is
still in the queue, was undone, or fired once. -/
theorem run_is_three_zones (ops : List (Op ε)) (hops : Run.Along step spares new ops) :
    ∃ effects s z, Run.total Zones.step Zones.empty ops = (effects, z) ∧
      Run.exec step new ops = some (effects, s) ∧ s.Represents z ∧
      ∀ e, z.all.count e + effects.count (.fired e) + effects.count (.disarmed e) = effects.count (.armed e) := by
  obtain ⟨s, hrun, hs⟩ := Run.exec_refines Represents spares step_represents ops new Zones.empty new_represents hops
  refine ⟨_, s, _, rfl, hrun, hs, fun e => ?_⟩
  rw [run_balance e ops Zones.empty]
  simp [Zones.all, Zones.empty]

theorem run_is_three_zones_small :
    Run.Along step spares new [.armLater 1, .armNext 2, .armLast 3, .disarm 3, .turn, .armNext 2, .turn] ∧
      ∃ s : EventLoop Nat, s.Represents ⟨[], [1], [], by decide⟩ := by
  have hops : Run.Along step spares new
      [.armLater 1, .armNext 2, .armLast 3, .disarm 3, .turn, .armNext 2, .turn] := by decide
  obtain ⟨effects, s, z, hz, -, hs, -⟩ := run_is_three_zones _ hops
  obtain ⟨-, rfl⟩ := Prod.mk.inj hz
  exact ⟨hops, s, hs⟩

/-- Disarming the event that owns the later insertion point leaves that point behind. -/
theorem disarm_breaks {s : EventLoop ε} {z : Zones ε} {e : ε} (h : s.Represents z)
    (he : s.laterInsertPoint = .next e) (es : List ε) : ¬ (s.disarm e).Integrity es := by
  intro hes
  have hmem : e ∈ z.all := Slot.next_mem_all.mp (he ▸ h.integrity.laterInsertPoint)
  obtain ⟨p, hp⟩ := h.prev_some hmem
  rw [disarm_eq hp] at hes
  have hlisted : e ∈ es := Slot.next_mem_all.mp (he ▸ hes.laterInsertPoint)
  exact (hes.list.linked e).mpr hlisted (Links.prev_unlink_self e p)

/-- **The queue keeps its integrity exactly in the runs that spare the later insertion
point**: it does so after every call, and no call writes outside the list. -/
theorem integrity_iff (ops : List (Op ε)) :
    (∀ done, done <+: ops → ∃ effects s, Run.exec step new done = some (effects, s) ∧ ∃ es, s.Integrity es ∧
      ∀ op, ∀ q ∈ s.written op, q ∈ Slot.head.all es) ↔ Run.Along step spares new ops := by
  refine Run.exec_invariant_iff
    (fun s : EventLoop ε => ∃ es, s.Integrity es ∧ ∀ op, ∀ q ∈ s.written op, q ∈ Slot.head.all es)
    (fun s : EventLoop ε => ∃ z, s.Represents z) ?_ ?_ ?_ ops new ⟨_, new_represents⟩
  · intro s ⟨z, h⟩
    exact ⟨z.all, h.integrity, h.integrity.written⟩
  · intro s op ⟨z, h⟩ hop
    obtain ⟨s', hstep, h'⟩ := step_represents s z op h hop
    exact ⟨_, s', hstep, _, h'⟩
  · intro s op ⟨z, h⟩ hop
    cases op with
    | disarm e =>
      refine ⟨_, _, rfl, ?_⟩
      rintro ⟨es, hes, -⟩
      exact disarm_breaks h (not_not.mp hop) es hes
    | _ => exact absurd trivial hop

/-- An event armed later and disarmed again. -/
theorem integrity_fails : ¬ ∀ (ops : List (Op Nat)) (effects : List (Effect Nat)) (s : EventLoop Nat),
    Run.exec step new ops = some (effects, s) → ∃ es, s.Integrity es := by
  intro h
  obtain ⟨es, hes⟩ := h [.armLater 0, .disarm 0] _ _ rfl
  have hmem : 0 ∈ es := Slot.next_mem_all.mp hes.laterInsertPoint
  exact (hes.list.linked 0).mpr hmem rfl

end

end EventLoop

end Forstio
