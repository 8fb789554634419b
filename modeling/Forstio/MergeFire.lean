import Forstio.MergeNet

/-!
# Firing around a merge node

`Fires s i t`: the network `t` is what becomes of `s` when node `i` fires. A source
fires into its slot only if that is free, and the merge node only if some slot is
taken; otherwise an assertion fails.
-/

namespace Forstio

namespace Net

variable {α : Type}

def Taken (s : Net α) : Prop := ∃ a ∈ s.slots, s.queue a ≠ []

def unslot (s : Net α) (a cursor : Nat) : Net α := ({ s with cursor := cursor } : Net α).setQueue a []

inductive Fires (s : Net α) (i : Nat) : Net α → Prop where
  -- nobody to fire into, or a full outlet
  | idle : (s.role i = .feeder none ∨ (∃ c l, s.role i = .buffer c l none) ∨ s.role i = .merger ∧
      ∀ o, s.outlet = some o → s.role o ≠ .sink) → Fires s i s
  | retry (p l : Nat) (a : Option Nat) : s.role i = .feeder (some p) → s.role p = .buffer i l a →
      Fires s i (s.armLater i)
  | store (p l : Nat) (a : Option Nat) (x : ErrorOr α) (xs : List (ErrorOr α)) (t : Net α) :
      s.role i = .feeder (some p) → s.role p = .buffer i l a → s.queue i = x :: xs → (s.queue p).length < l →
      t = (s.hop i p x xs).armLater p →
      Fires s i (if xs = [] then t else t.armLater i)
  | offer (p : Nat) (x : ErrorOr α) (xs : List (ErrorOr α)) (t : Net α) :
      s.role i = .feeder (some p) → s.role p = .slot i → s.queue i = x :: xs → s.queue p = [] →
      t = (s.hop i p x xs).armLater s.hub → Fires s i (if xs = [] then t else t.armLater i)
  | release (p c l : Nat) (x : ErrorOr α) (xs : List (ErrorOr α)) :
      s.role i = .buffer c l (some p) → s.role p = .slot i → s.queue i = x :: xs → s.queue p = [] →
      Fires s i ((s.hop i p x xs).armLater s.hub)
  | deliver (o a k : Nat) (x : ErrorOr α) (t u : Net α) :
      s.role i = .merger → s.outlet = some o → s.role o = .sink → a ∈ s.slots → s.queue a = [x] →
      t = { s.unslot a k with delivered := s.delivered ++ [x] } → (t.Taken ∧ u = t.armLater i ∨ ¬ t.Taken ∧ u = t) →
      Fires s i u
  | pass (o l a k : Nat) (x : ErrorOr α) (t u : Net α) :
      s.role i = .merger → s.outlet = some o → s.role o = .buffer i l none → a ∈ s.slots → s.queue a = [x] →
      (s.queue o).length < l → t = ((s.unslot a k).setQueue o (s.queue o ++ [x])).armLater o →
      (t.Taken ∧ u = t.armLater i ∨ u = t) → Fires s i u

section
variable {s : Net α} {i : Nat}

/-! ## Moving results keeps the network wired up -/

theorem Wired.setQueue (h : Wired s) {xs : List (ErrorOr α)} (hbuffer : ∀ c l p, s.role i = .buffer c l p → xs.length ≤ l)
    (hslot : ∀ c, s.role i = .slot c → xs.length ≤ 1)
    (hrole : ¬ (s.role i = .merger ∨ s.role i = .sink ∨ s.role i = .free))
    (hcalm : ∀ x ∈ xs, x.isCritical = false) : Wired (s.setQueue i xs) := by
  refine ⟨h.fresh, h.feeder, fun j c l p hj => ?_, fun j c hj => ?_, h.slots, h.merger, h.outlet, h.sink, fun j hj => ?_,
    fun j x hx => ?_⟩
  · obtain ⟨hl, hlen, hrest⟩ := h.buffer j c l p hj
    refine ⟨hl, ?_, hrest⟩
    by_cases hji : j = i
    · subst hji
      rw [queue_setQueue_self]
      exact hbuffer c l p hj
    · rwa [queue_setQueue hji]
  · obtain ⟨hmem, hm, hlen, hrest⟩ := h.slot j c hj
    refine ⟨hmem, hm, ?_, hrest⟩
    by_cases hji : j = i
    · subst hji
      rw [queue_setQueue_self]
      exact hslot c hj
    · rwa [queue_setQueue hji]
  · by_cases hji : j = i
    · subst hji
      exact absurd hj hrole
    · rw [queue_setQueue hji]
      exact h.empty j hj
  · by_cases hji : j = i
    · subst hji
      rw [queue_setQueue_self] at hx
      exact hcalm x hx
    · rw [queue_setQueue hji] at hx
      exact h.calm j x hx

theorem Holds.role (hi : s.Holds i) : ¬ (s.role i = .merger ∨ s.role i = .sink ∨ s.role i = .free) := by
  rcases hi with ⟨p, hi⟩ | ⟨c, l, p, hi⟩
  · rw [hi]
    rintro (h | h | h) <;> cases h
  · rw [hi]
    rintro (h | h | h) <;> cases h

theorem Wired.shrink (h : Wired s) {xs : List (ErrorOr α)} (hxs : xs.Sublist (s.queue i))
    (hrole : ¬ (s.role i = .merger ∨ s.role i = .sink ∨ s.role i = .free)) : Wired (s.setQueue i xs) := by
  refine h.setQueue (fun c l p hi => ?_) (fun c hi => ?_) hrole fun x hx => h.calm i x (hxs.subset hx)
  · exact hxs.length_le.trans (h.buffer i c l p hi).2.1
  · exact hxs.length_le.trans (h.slot i c hi).2.2.1

theorem Wired.unslot (h : Wired s) {a : Nat} (k : Nat) (ha : a ∈ s.slots) : Wired (s.unslot a k) := by
  obtain ⟨c, hslot⟩ := h.slots a ha
  have h' : Wired ({ s with cursor := k } : Net α) :=
    ⟨h.fresh, h.feeder, h.buffer, h.slot, h.slots, h.merger, h.outlet, h.sink, h.empty, h.calm⟩
  refine h'.shrink (List.nil_sublist _) ?_
  rw [show ({ s with cursor := k } : Net α).role a = .slot c from hslot]
  rintro (h | h | h) <;> cases h

def Accepts (s : Net α) (p : Nat) : Prop :=
  (∃ c, s.role p = .slot c ∧ s.queue p = []) ∨ (∃ c l a, s.role p = .buffer c l a ∧ (s.queue p).length < l)

theorem Wired.push (h : Wired s) {p : Nat} {x : ErrorOr α} (hx : x.isCritical = false) (hp : s.Accepts p) :
    Wired (s.setQueue p (s.queue p ++ [x])) := by
  refine h.setQueue (fun c l a hrole => ?_) (fun c hrole => ?_) ?_ fun y hy => ?_
  · rcases hp with ⟨c', hp, -⟩ | ⟨c', l', a', hp, hroom⟩
    · rw [hrole] at hp
      cases hp
    · rw [hrole] at hp
      cases hp
      rw [List.length_append]
      exact hroom
  · rcases hp with ⟨c', -, hempty⟩ | ⟨c', l', a', hp, -⟩
    · rw [hempty]
      exact Nat.le_refl 1
    · rw [hrole] at hp
      cases hp
  · rcases hp with ⟨c', hp, -⟩ | ⟨c', l', a', hp, -⟩
    · rw [hp]
      rintro (h | h | h) <;> cases h
    · rw [hp]
      rintro (h | h | h) <;> cases h
  · rcases List.mem_append.mp hy with hy | hy
    · exact h.calm p y hy
    · rw [List.mem_singleton.mp hy]
      exact hx

theorem Wired.armLater (h : Wired s) (j : Nat) : Wired (s.armLater j) :=
  ⟨h.fresh, h.feeder, h.buffer, h.slot, h.slots, h.merger, h.outlet, h.sink, h.empty, h.calm⟩

theorem Wired.hop (h : Wired s) (hi : s.Holds i) {p : Nat} {x : ErrorOr α} {xs : List (ErrorOr α)}
    (hq : s.queue i = x :: xs) (hp : s.Accepts p) (hpi : p ≠ i) : Wired (s.hop i p x xs) := by
  have hx : x.isCritical = false := h.calm i x (by rw [hq]; exact List.mem_cons_self ..)
  have hpop : Wired (s.setQueue i xs) := h.shrink (by rw [hq]; exact List.sublist_cons_self x xs) hi.role
  have hqp : (s.setQueue i xs).queue p = s.queue p := queue_setQueue hpi xs
  rw [Net.hop, ← hqp]
  refine hpop.push hx ?_
  unfold Accepts
  rw [hqp]
  exact hp

/-! ## Sources -/

theorem fire_feeder {p : Option Nat} (hi : s.role i = .feeder p) :
    s.world.fire i = World.Adapt.fire s.world i ⟨p, none, .adapt (s.queue i)⟩ := by
  simp only [World.fire, show s.world.nodes i = _ from node_feeder hi, Option.bind_eq_bind, Option.bind_some]

theorem queue_hop {p : Nat} (hpi : i ≠ p) (x : ErrorOr α) (xs : List (ErrorOr α)) : (s.hop i p x xs).queue i = xs := by
  rw [hop, queue_setQueue hpi, queue_setQueue_self]

theorem Wired.fire_feeder (h : Wired s) {p : Option Nat} (hi : s.role i = .feeder p) (hq : s.queue i ≠ [])
    (hclear : ∀ a, p = some a → s.role a = .slot i → s.queue a = []) :
    ∃ t, s.world.fire i = some t.world ∧ Fires s i t := by
  obtain ⟨x, xs, hq⟩ := List.exists_cons_of_ne_nil hq
  rw [Net.fire_feeder hi]
  cases p with
  | none => exact ⟨s, rfl, .idle (Or.inl hi)⟩
  | some p =>
    have hholds : s.Holds i := Or.inl ⟨_, hi⟩
    rcases h.feeder i p hi with ⟨l, a, hp⟩ | hp
    · have hpi : i ≠ p := ne_of_role hi hp Role.noConfusion
      by_cases hroom : (s.queue p).length < l
      · have hfired : s.world.childHasFired p = some ((s.hop i p x xs).armLater p).world :=
          childHasFired_pull hp hroom (getResult_holds hholds hq) (h.calm i x (by rw [hq]; exact List.mem_cons_self ..))
            hp (queue_setQueue (Ne.symm hpi) xs)
        have hqueued : ((s.hop i p x xs).armLater p).world.queued i = some xs.length := by
          rw [queued_holds (s := (s.hop i p x xs).armLater p) hholds]
          exact congrArg _ (congrArg _ (queue_hop hpi x xs))
        refine ⟨_, ?_, .store p l a x xs _ hi hp hq hroom rfl⟩
        simp only [World.Adapt.fire, hfired, hqueued, Option.bind_eq_bind, Option.bind_some, Option.pure_def]
        cases xs with
        | nil => rfl
        | cons y ys => rfl
      · have hqueued : s.world.queued i = some (s.queue i).length := queued_holds hholds
        refine ⟨_, ?_, .retry p l a hi hp⟩
        simp only [World.Adapt.fire, childHasFired_full hp hroom, hqueued, hq, Option.bind_eq_bind, Option.bind_some,
          Option.pure_def]
        rfl
    · have hpi : i ≠ p := ne_of_role hi hp Role.noConfusion
      have hempty := hclear p rfl hp
      have hqueued : ((s.hop i p x xs).armLater s.hub).world.queued i = some xs.length := by
        rw [queued_holds (s := (s.hop i p x xs).armLater s.hub) hholds]
        exact congrArg _ (congrArg _ (queue_hop hpi x xs))
      refine ⟨_, ?_, .offer p x xs _ hi hp hq hempty rfl⟩
      simp only [World.Adapt.fire, childHasFired_slot hholds hq hp hempty, hqueued, Option.bind_eq_bind,
        Option.bind_some, Option.pure_def]
      cases xs with
      | nil => rfl
      | cons y ys => rfl

/-- The slot is taken: the assertion in `Appendage::childHasFired` fails. -/
theorem fire_feeder_taken {p : Nat} (hi : s.role i = .feeder (some p)) (hp : s.role p = .slot i)
    (htaken : s.queue p ≠ []) : s.world.fire i = none := by
  rw [Net.fire_feeder hi]
  simp only [World.Adapt.fire, childHasFired_slot_taken hp htaken, Option.bind_eq_bind, Option.bind_none]

theorem parentHasFired_feeder {c k : Nat} (hc : s.role c = .feeder (some i)) (hk : s.world.space i = some k) :
    s.world.parentHasFired c = some s.world := by
  have hn : s.world.nodes c = some ⟨some i, none, .adapt (s.queue c)⟩ := node_feeder hc
  simp only [World.parentHasFired, World.eventParentHasFired, hn, hk, Option.bind_eq_bind, Option.bind_some,
    Option.pure_def]

theorem Wired.parentHasFired_merger (h : Wired s) {c : Nat} (hc : s.merger = some c) (ho : s.outlet = some i)
    (hk : s.world.space i = some 0) : s.world.parentHasFired c = some s.world := by
  have hrole := (h.merger c).mpr hc
  have hn : s.world.nodes c = some ⟨some i, none, .merge s.slots s.cursor⟩ := by
    rw [← ho]
    exact node_merger hrole
  obtain ⟨n, hn', -⟩ := h.queued_merger hrole
  simp only [World.parentHasFired, World.eventParentHasFired, hn, hn', hk, Option.bind_eq_bind, Option.bind_some,
    lt_irrefl, and_false, if_false, Option.pure_def]

section
variable {c l : Nat} {p : Option Nat}

theorem fire_buffer (hi : s.role i = .buffer c l p) : s.world.fire i =
    World.QueueBuffer.fire s.world i ⟨p, some c, .queueBuffer (some (.storage c)) (s.queue i) l⟩ := by
  simp only [World.fire, show s.world.nodes i = _ from node_buffer hi, Option.bind_eq_bind, Option.bind_some]

theorem Wired.dropCritical (h : Wired s) : World.QueueBuffer.dropCritical s.world i
    ⟨p, some c, .queueBuffer (some (.storage c)) (s.queue i) l⟩ = some s.world := by
  cases hq : s.queue i with
  | nil => simp only [World.QueueBuffer.dropCritical, StorageBody.child, StorageBody.queue]
  | cons x xs =>
    have hx : x.isCritical = false := h.calm i x (by rw [hq]; exact List.mem_cons_self ..)
    simp only [World.QueueBuffer.dropCritical, StorageBody.child, StorageBody.queue, hx, Bool.false_eq_true, if_false]

theorem Wired.fire_buffer_loose (h : Wired s) (hi : s.role i = .buffer c l none) :
    ∃ t, s.world.fire i = some t.world ∧ Fires s i t := by
  have hn : s.world.nodes i = some ⟨none, some c, .queueBuffer (some (.storage c)) (s.queue i) l⟩ := node_buffer hi
  refine ⟨s, ?_, .idle (Or.inr (Or.inl ⟨c, l, hi⟩))⟩
  rw [fire_buffer hi]
  simp only [World.QueueBuffer.fire, h.dropCritical, h.space_buffer hi, World.QueueBuffer.fireParent, hn,
    Option.bind_eq_bind, Option.bind_some, Option.pure_def]
  by_cases hspace : 0 < l - (s.queue i).length
  · simp only [hspace, decide_true, if_true]
  · simp only [hspace, decide_false, Bool.false_eq_true, if_false]
    obtain ⟨-, -, ⟨hc, -⟩ | ⟨hc, ho, -⟩⟩ := h.buffer i c l none hi
    · exact parentHasFired_feeder hc (h.space_buffer hi)
    · refine h.parentHasFired_merger hc ho ?_
      rw [h.space_buffer hi, Nat.eq_zero_of_not_pos hspace]

theorem Wired.fire_buffer_slot (h : Wired s) {a : Nat} (hi : s.role i = .buffer c l (some a)) (hq : s.queue i ≠ [])
    (ha : s.role a = .slot i) (hclear : s.queue a = []) : ∃ t, s.world.fire i = some t.world ∧ Fires s i t := by
  obtain ⟨x, xs, hq⟩ := List.exists_cons_of_ne_nil hq
  have hholds : s.Holds i := Or.inr ⟨c, l, some a, hi⟩
  obtain ⟨t, ht⟩ : ∃ t, t = (s.hop i a x xs).armLater s.hub := ⟨_, rfl⟩
  have hrole : t.role = s.role := by rw [ht]; rfl
  have hti : t.role i = .buffer c l (some a) := by rw [hrole, hi]
  have hn : t.world.nodes i = some ⟨some a, some c, .queueBuffer (some (.storage c)) (t.queue i) l⟩ := node_buffer hti
  have hqueued : t.world.queued i = some (t.queue i).length := queued_holds (Or.inr ⟨c, l, some a, hti⟩)
  have hfull : t.world.space a = some 0 := by
    have hta : t.role a = .slot i := by rw [hrole, ha]
    have hqa : t.queue a = [x] := by
      rw [ht]
      refine (queue_setQueue_self _).trans ?_
      rw [hclear]
      rfl
    rw [space_slot hta, hqa]
    rfl
  have hspace : t.world.space i = some (sizeSub l (t.queue i).length) := by
    rw [World.space, hn]
    rfl
  refine ⟨t, ?_, ?_⟩
  · rw [fire_buffer hi]
    simp only [World.QueueBuffer.fire, h.dropCritical, h.space_buffer hi, World.QueueBuffer.fireParent,
      childHasFired_slot hholds hq ha hclear, ← ht, hqueued, hfull, hn, Option.bind_eq_bind, Option.bind_some,
      Option.pure_def, lt_irrefl, and_false, if_false]
    by_cases hbefore : 0 < l - (s.queue i).length
    · simp only [hbefore, decide_true, if_true]
    · simp only [hbefore, decide_false, Bool.false_eq_true, if_false]
      obtain ⟨-, -, ⟨hc, -⟩ | ⟨-, -, hnone⟩⟩ := h.buffer i c l (some a) hi
      · exact parentHasFired_feeder (show t.role c = _ by rw [hrole, hc]) hspace
      · cases hnone
  · rw [ht]
    exact .release a c l x xs hi ha hq hclear

theorem Wired.fire_buffer_taken (h : Wired s) {a : Nat} (hi : s.role i = .buffer c l (some a)) (ha : s.role a = .slot i)
    (htaken : s.queue a ≠ []) : s.world.fire i = none := by
  rw [fire_buffer hi]
  simp only [World.QueueBuffer.fire, h.dropCritical, h.space_buffer hi, World.QueueBuffer.fireParent,
    childHasFired_slot_taken ha htaken, Option.bind_eq_bind, Option.bind_some, Option.bind_none]

end

/-! ## The merge node -/

theorem fire_merger (hi : s.role i = .merger) :
    s.world.fire i = World.Merge.fire s.world i ⟨s.outlet, none, .merge s.slots s.cursor⟩ := by
  simp only [World.fire, show s.world.nodes i = _ from node_merger hi, Option.bind_eq_bind, Option.bind_some]

/-- All slots are empty: the assertion in `MergeConveyorNode::fire` fails. -/
theorem Wired.fire_merger_empty (h : Wired s) (hi : s.role i = .merger) (hempty : ¬ s.Taken) :
    s.world.fire i = none := by
  obtain ⟨k, hk, hpos⟩ := h.queued_merger hi
  have h0 : ¬ 0 < k := fun h0 => hempty (hpos.mp h0)
  rw [fire_merger hi]
  simp only [World.Merge.fire, hk, Option.bind_eq_bind, Option.bind_some, assert, if_neg h0, Option.bind_none]

section
variable {o a k : Nat} {x : ErrorOr α} (h : Wired s) (hi : s.role i = .merger) (htaken : s.Taken)
  (ho : s.outlet = some o) (ha : a ∈ s.slots) (hqa : s.queue a = [x])
  (hget : s.world.getResult (.storage i) = some (x, (s.unslot a k).world))
include h hi htaken ho ha hqa hget

/-- A sink takes the result; the node is armed again as long as another slot is taken. -/
theorem Wired.fire_merger_sink (hsink : s.role o = .sink) : ∃ t, s.world.fire i = some t.world ∧ Fires s i t := by
  obtain ⟨n, hn, hpos⟩ := h.queued_merger hi
  have h0 : 0 < n := hpos.mpr htaken
  have hm := (h.merger i).mp hi
  have hhub : s.hub = i := by rw [hub, hm]; rfl
  have hx : x.isCritical = false := h.calm a x (by rw [hqa]; exact List.mem_singleton_self x)
  have hwired : Wired (s.unslot a k) := h.unslot k ha
  rw [← hhub] at hget
  have hfired := childHasFired_sink hsink (t := s.unslot a k) hget hx
  obtain ⟨t, ht⟩ : ∃ t : Net α, t = { s.unslot a k with delivered := s.delivered ++ [x] } := ⟨_, rfl⟩
  have hwired' : Wired t := by
    rw [ht]
    exact ⟨hwired.fresh, hwired.feeder, hwired.buffer, hwired.slot, hwired.slots, hwired.merger, hwired.outlet,
      hwired.sink, hwired.empty, hwired.calm⟩
  have hrole : t.role = s.role := by rw [ht]; rfl
  obtain ⟨n', hn', hpos'⟩ := hwired'.queued_merger (show t.role i = .merger by rw [hrole, hi])
  have hspace : t.world.space o = some 1 := space_sink (by rw [hrole, hsink])
  rw [show ({ s.unslot a k with delivered := (s.unslot a k).delivered ++ [x] } : Net α) = t from ht.symm] at hfired
  rw [Net.fire_merger hi]
  simp only [World.Merge.fire, hn, assert, if_pos h0, ho, hfired, hn', hspace, Option.bind_eq_bind, Option.bind_some,
    Option.pure_def, Nat.one_pos, and_true]
  by_cases hagain : t.Taken
  · exact ⟨t.armLater i, by rw [if_pos (hpos'.mpr hagain)]; rfl,
      .deliver o a k x t _ hi ho hsink ha hqa ht (Or.inl ⟨hagain, rfl⟩)⟩
  · exact ⟨t, by rw [if_neg fun hpos => hagain (hpos'.mp hpos)],
      .deliver o a k x t _ hi ho hsink ha hqa ht (Or.inr ⟨hagain, rfl⟩)⟩

/-- A buffer with room takes the result, a full one leaves it in its slot. -/
theorem Wired.fire_merger_buffer {l : Nat} (hbuffer : s.role o = .buffer i l none) :
    ∃ t, s.world.fire i = some t.world ∧ Fires s i t := by
  obtain ⟨n, hn, hpos⟩ := h.queued_merger hi
  have h0 : 0 < n := hpos.mpr htaken
  rw [Net.fire_merger hi]
  simp only [World.Merge.fire, hn, Option.bind_eq_bind, Option.bind_some, assert, if_pos h0, ho]
  by_cases hroom : (s.queue o).length < l
  · have hx : x.isCritical = false := h.calm a x (by rw [hqa]; exact List.mem_singleton_self x)
    have hqo : (s.unslot a k).queue o = s.queue o := queue_setQueue (h.buffer_ne_slot ha hbuffer) []
    have hfired := childHasFired_pull hbuffer hroom (t := s.unslot a k) hget hx hbuffer hqo
    obtain ⟨t, ht⟩ : ∃ t : Net α, t = ((s.unslot a k).setQueue o (s.queue o ++ [x])).armLater o := ⟨_, rfl⟩
    have hwired' : Wired t := by
      have hgrown : Wired ((s.unslot a k).setQueue o (s.queue o ++ [x])) := by
        rw [← hqo]
        refine (h.unslot k ha).push hx (Or.inr ⟨i, l, none, hbuffer, ?_⟩)
        rwa [hqo]
      rw [ht]
      exact hgrown.armLater o
    have hrole : t.role = s.role := by rw [ht]; rfl
    obtain ⟨n', hn', hpos'⟩ := hwired'.queued_merger (show t.role i = .merger by rw [hrole, hi])
    have hspace := hwired'.space_buffer (show t.role o = .buffer i l none by rw [hrole, hbuffer])
    simp only [hfired, ← ht, hn', hspace, Option.bind_some, Option.pure_def]
    by_cases hagain : 0 < n' ∧ 0 < l - (t.queue o).length
    · exact ⟨t.armLater i, by rw [if_pos hagain]; rfl,
        .pass o l a k x t _ hi ho hbuffer ha hqa hroom ht (Or.inl ⟨hpos'.mp hagain.1, rfl⟩)⟩
    · exact ⟨t, by rw [if_neg hagain], .pass o l a k x t _ hi ho hbuffer ha hqa hroom ht (Or.inr rfl)⟩
  · refine ⟨s, ?_, .idle (Or.inr (Or.inr ⟨hi, fun o' ho' => ?_⟩))⟩
    · have hspace : s.world.space o = some 0 := by
        rw [h.space_buffer hbuffer, Nat.sub_eq_zero_of_le (Nat.le_of_not_lt hroom)]
      simp only [childHasFired_full hbuffer hroom, hn, hspace, Option.bind_some, Option.pure_def, lt_irrefl,
        and_false, if_false]
    · rw [Option.some.inj (ho'.symm.trans ho), hbuffer]
      exact Role.noConfusion

end

theorem Wired.fire_merger (h : Wired s) (hi : s.role i = .merger) (htaken : s.Taken) :
    ∃ t, s.world.fire i = some t.world ∧ Fires s i t := by
  cases ho : s.outlet with
  | none =>
    obtain ⟨n, hn, hpos⟩ := h.queued_merger hi
    have h0 : 0 < n := hpos.mpr htaken
    refine ⟨s, ?_, .idle (Or.inr (Or.inr ⟨hi, fun o hne => ?_⟩))⟩
    · rw [Net.fire_merger hi]
      simp only [World.Merge.fire, hn, Option.bind_eq_bind, Option.bind_some, assert, if_pos h0, ho, Option.pure_def]
    · rw [ho] at hne
      cases hne
  | some o =>
    obtain ⟨a₀, ha₀, hq₀⟩ := htaken
    obtain ⟨a, x, k, ha, hqa, hget⟩ := h.getResult_merger hi ha₀ hq₀
    obtain ⟨m, hm, hrole⟩ := h.outlet o ho
    obtain rfl := Option.some.inj (((h.merger i).mp hi).symm.trans hm)
    rcases hrole with hsink | ⟨l, hbuffer⟩
    · exact h.fire_merger_sink hi ⟨a₀, ha₀, hq₀⟩ ho ha hqa hget hsink
    · exact h.fire_merger_buffer hi ⟨a₀, ha₀, hq₀⟩ ho ha hqa hget hbuffer

end

end Net

end Forstio
