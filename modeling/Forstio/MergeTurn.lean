import Forstio.MergeFire

/-!
# Turns around a merge node

A turn fires the first event of the queue. It goes through unless that event is
blocked: a source whose slot is still occupied, or the merge node while all
slots are empty. In a network that is awake nothing else can go wrong.
-/

namespace Forstio

namespace StorageBody

variable {α : Type}

def occupied : StorageBody α → Bool
  | appendage _ _ (some _) => true
  | _ => false

end StorageBody

namespace World

variable {α : Type}

/-- Firing node `i` violates an assertion of the merge. -/
def blocked (w : World α) (i : Nat) : Bool :=
  match w.nodes i with
  | none => false
  | some n =>
    match n.body with
    | .merge _ _ => w.queued i = some 0
    | _ => n.parent.any fun p => (w.nodes p).any (·.body.occupied)

theorem slotsQueued_congr {w w' : World α} : ∀ {as : List Nat}, (∀ a ∈ as, w'.nodes a = w.nodes a) →
    w'.slotsQueued as = w.slotsQueued as
  | [], _ => rfl
  | a :: as, h => by
    simp only [slotsQueued, h a (List.mem_cons_self ..), slotsQueued_congr fun a ha => h a (List.mem_cons_of_mem _ ha)]

theorem queued_congr {w w' : World α} (h : w'.nodes = w.nodes) (i : Nat) : w'.queued i = w.queued i := by
  simp only [queued, h, @slotsQueued_congr α w w' _ fun a _ => congrFun h a]

theorem blocked_congr {w w' : World α} (h : w'.nodes = w.nodes) (i : Nat) : w'.blocked i = w.blocked i := by
  unfold blocked
  rw [queued_congr h, h]

/-- The next turn does not fire a blocked node. -/
def Clear (w : World α) : Prop := ∀ i, w.loop.head = some i → w.blocked i = false

instance (w : World α) : Decidable w.Clear :=
  match h : w.loop.head with
  | none => isTrue fun i hi => absurd (h.symm.trans hi) (Option.some_ne_none i).symm
  | some i => decidable_of_iff (w.blocked i = false)
      ⟨fun hi _ hj => Option.some.inj (h.symm.trans hj) ▸ hi, fun hall => hall i h⟩

end World

namespace Net

variable {α : Type}

section
variable {s t : Net α} {i : Nat}

/-! ## Arming -/

theorem Awake.armLater (h : Awake s) {j : Nat} (hj : s.Loaded j) : Awake (s.armLater j) := by
  refine ⟨h.toWired.armLater j, h.loop.armLater j, fun a ha => ?_⟩
  rcases (h.loop.isArmed_armLater j a).mp ha with rfl | ha
  · exact hj
  · exact h.loaded a ha

theorem loaded_setQueue {j : Nat} (hj : j ≠ i) (xs : List (ErrorOr α)) : (s.setQueue i xs).Loaded j ↔ s.Loaded j := by
  have hq : (s.setQueue i xs).queue j = s.queue j := queue_setQueue hj xs
  unfold Loaded
  rw [hq]
  exact Iff.rfl

theorem Awake.setQueue (h : Awake s) {xs : List (ErrorOr α)} (hw : Wired (s.setQueue i xs))
    (hxs : s.isArmed i → xs ≠ []) : Awake (s.setQueue i xs) := by
  refine ⟨hw, h.loop, fun j hj => ?_⟩
  by_cases hji : j = i
  · subst hji
    have hwas : s.Loaded j := h.loaded j hj
    have hxs' := hxs hj
    unfold Loaded at hwas ⊢
    rw [queue_setQueue_self]
    cases hrole : s.role j with
    | feeder p =>
      rw [show (s.setQueue j xs).role j = _ from hrole]
      exact hxs'
    | buffer c l p =>
      rw [show (s.setQueue j xs).role j = _ from hrole]
      exact Or.inr hxs'
    | _ =>
      rw [hrole] at hwas
      rw [show (s.setQueue j xs).role j = _ from hrole]
      exact hwas
  · exact (loaded_setQueue hji xs).mpr (h.loaded j hj)

theorem Awake.hop (h : Awake s) (hi : s.Holds i) (hu : s.isArmed i = false) {p : Nat} {x : ErrorOr α}
    {xs : List (ErrorOr α)} (hq : s.queue i = x :: xs) (hp : s.Accepts p) (hpi : p ≠ i) : Awake (s.hop i p x xs) := by
  have hw := h.toWired.hop hi hq hp hpi
  have hpop : Awake (s.setQueue i xs) := by
    refine h.setQueue (h.toWired.shrink (by rw [hq]; exact List.sublist_cons_self x xs) hi.role) fun ha => ?_
    rw [hu] at ha
    cases ha
  exact hpop.setQueue hw fun _ => List.append_ne_nil_of_right_ne_nil _ (List.cons_ne_nil _ _)

theorem Wired.merger_hub (h : Wired s) {a c : Nat} (ha : s.role a = .slot c) : s.role s.hub = .merger := by
  obtain ⟨-, hm, -⟩ := h.slot a c ha
  obtain ⟨m, hm⟩ := Option.ne_none_iff_exists'.mp hm
  rw [hub, hm]
  exact (h.merger m).mpr hm

theorem loaded_merger (hi : s.role i = .merger) : s.Loaded i := by
  unfold Loaded
  rw [hi]
  trivial

theorem loaded_feeder {p : Option Nat} (hi : s.role i = .feeder p) (hq : s.queue i ≠ []) : s.Loaded i := by
  unfold Loaded
  rw [hi]
  exact hq

theorem loaded_buffer {c l : Nat} {p : Option Nat} (hi : s.role i = .buffer c l p) (hq : s.queue i ≠ []) :
    s.Loaded i := by
  unfold Loaded
  rw [hi]
  exact Or.inr hq

theorem Awake.unslot (h : Awake s) {a : Nat} (k : Nat) (ha : a ∈ s.slots) : Awake (s.unslot a k) := by
  have h' : Awake ({ s with cursor := k } : Net α) :=
    ⟨⟨h.fresh, h.feeder, h.buffer, h.slot, h.slots, h.merger, h.outlet, h.sink, h.empty, h.calm⟩, h.loop, h.loaded⟩
  refine h'.setQueue (h.toWired.unslot k ha) fun harmed => ?_
  obtain ⟨c, hslot⟩ := h.slots a ha
  have hloaded := h.loaded a harmed
  unfold Loaded at hloaded
  rw [hslot] at hloaded
  exact hloaded.elim

theorem Awake.deliver (h : Awake s) (x : ErrorOr α) : Awake ({ s with delivered := s.delivered ++ [x] } : Net α) :=
  ⟨⟨h.fresh, h.feeder, h.buffer, h.slot, h.slots, h.merger, h.outlet, h.sink, h.empty, h.calm⟩, h.loop, h.loaded⟩

/-! ## Firing keeps a network awake -/

theorem Fires.awake (hf : Fires s i t) (h : Awake s) (hu : s.isArmed i = false) (hi : s.Loaded i) : Awake t := by
  cases hf with
  | idle => exact h
  | retry => exact h.armLater hi
  | store p l a x xs t hrole hp hq hroom ht =>
    have hpi : p ≠ i := ne_of_role hp hrole Role.noConfusion
    have hhop : Awake (s.hop i p x xs) := h.hop (Or.inl ⟨_, hrole⟩) hu hq (Or.inr ⟨i, l, a, hp, hroom⟩) hpi
    have hawake : Awake t := by
      rw [ht]
      refine hhop.armLater (loaded_buffer hp ?_)
      rw [Net.hop, queue_setQueue_self]
      exact List.append_ne_nil_of_right_ne_nil _ (List.cons_ne_nil _ _)
    by_cases hxs : xs = []
    · rwa [if_pos hxs]
    · rw [if_neg hxs]
      refine hawake.armLater (loaded_feeder (p := some p) (by rw [ht]; exact hrole) ?_)
      rw [ht]
      exact fun hnil => hxs ((queue_hop hpi.symm x xs).symm.trans hnil)
  | offer p x xs t hrole hp hq hempty ht =>
    have hpi : p ≠ i := ne_of_role hp hrole Role.noConfusion
    have hhop : Awake (s.hop i p x xs) := h.hop (Or.inl ⟨_, hrole⟩) hu hq (Or.inl ⟨i, hp, hempty⟩) hpi
    have hawake : Awake t := by
      rw [ht]
      exact hhop.armLater (loaded_merger (h.merger_hub hp))
    by_cases hxs : xs = []
    · rwa [if_pos hxs]
    · rw [if_neg hxs]
      refine hawake.armLater (loaded_feeder (p := some p) (by rw [ht]; exact hrole) ?_)
      rw [ht]
      exact fun hnil => hxs ((queue_hop hpi.symm x xs).symm.trans hnil)
  | release p c l x xs hrole hp hq hempty =>
    have hpi : p ≠ i := ne_of_role hp hrole Role.noConfusion
    have hhop : Awake (s.hop i p x xs) := h.hop (Or.inr ⟨c, l, _, hrole⟩) hu hq (Or.inl ⟨i, hp, hempty⟩) hpi
    exact hhop.armLater (loaded_merger (h.merger_hub hp))
  | deliver o a k x t u hrole ho hsink ha hqa ht hu =>
    have hawake : Awake t := by
      rw [ht]
      exact (h.unslot k ha).deliver x
    rcases hu with ⟨-, rfl⟩ | ⟨-, rfl⟩
    · exact hawake.armLater (loaded_merger (by rw [ht]; exact hrole))
    · exact hawake
  | pass o l a k x t u hrole ho hbuffer ha hqa hroom ht hu =>
    have hx : x.isCritical = false := h.calm a x (by rw [hqa]; exact List.mem_singleton_self x)
    have hqo : (s.unslot a k).queue o = s.queue o := queue_setQueue (h.buffer_ne_slot ha hbuffer) []
    have hunslot := h.unslot k ha
    have hawake : Awake t := by
      rw [ht, ← hqo]
      have hpush : Wired ((s.unslot a k).setQueue o ((s.unslot a k).queue o ++ [x])) := by
        refine hunslot.toWired.push hx (Or.inr ⟨i, l, none, hbuffer, ?_⟩)
        rwa [hqo]
      have hgrown := hunslot.setQueue hpush fun _ => List.append_ne_nil_of_right_ne_nil _ (List.cons_ne_nil _ _)
      refine hgrown.armLater (loaded_buffer hbuffer ?_)
      rw [queue_setQueue_self]
      exact List.append_ne_nil_of_right_ne_nil _ (List.cons_ne_nil _ _)
    rcases hu with ⟨-, rfl⟩ | rfl
    · exact hawake.armLater (loaded_merger (by rw [ht]; exact hrole))
    · exact hawake

/-! ## What is blocked -/

theorem occupied_slot {p c : Nat} (hp : s.role p = .slot c) :
    (s.world.nodes p).any (·.body.occupied) = true ↔ s.queue p ≠ [] := by
  rw [show s.world.nodes p = _ from node_slot hp]
  cases s.queue p with
  | nil => simp [StorageBody.occupied]
  | cons x xs => simp [StorageBody.occupied]

theorem Wired.blocked_merger (h : Wired s) (hi : s.role i = .merger) : s.world.blocked i = true ↔ ¬ s.Taken := by
  obtain ⟨k, hk, hpos⟩ := h.queued_merger hi
  have hiff : s.Taken ↔ 0 < k := hpos.symm
  unfold World.blocked
  rw [show s.world.nodes i = _ from node_merger hi, hk, hiff]
  simp

theorem blocked_feeder {p : Nat} (hi : s.role i = .feeder (some p)) :
    s.world.blocked i = (s.world.nodes p).any (·.body.occupied) := by
  unfold World.blocked
  rw [show s.world.nodes i = _ from node_feeder hi]
  rfl

theorem blocked_buffer {c l p : Nat} (hi : s.role i = .buffer c l (some p)) :
    s.world.blocked i = (s.world.nodes p).any (·.body.occupied) := by
  unfold World.blocked
  rw [show s.world.nodes i = _ from node_buffer hi]
  rfl

theorem blocked_loose (hi : s.role i = .feeder none ∨ ∃ c l, s.role i = .buffer c l none) :
    s.world.blocked i = false := by
  unfold World.blocked
  rcases hi with hi | ⟨c, l, hi⟩
  · rw [show s.world.nodes i = _ from node_feeder hi]
    rfl
  · rw [show s.world.nodes i = _ from node_buffer hi]
    rfl

theorem fire_into_slot {p : Nat} (hblocked : s.world.blocked i = (s.world.nodes p).any (·.body.occupied))
    (hp : s.role p = .slot i) (hfree : s.queue p = [] → ∃ t, s.world.fire i = some t.world ∧ Fires s i t)
    (htaken : s.queue p ≠ [] → s.world.fire i = none) :
    if s.world.blocked i then s.world.fire i = none else ∃ t, s.world.fire i = some t.world ∧ Fires s i t := by
  by_cases hq : s.queue p = []
  · rw [if_neg fun hb => (occupied_slot hp).mp (hblocked.symm.trans hb) hq]
    exact hfree hq
  · rw [if_pos (hblocked.trans ((occupied_slot hp).mpr hq))]
    exact htaken hq

/-- **Firing a node** aborts exactly if the node is blocked. -/
theorem Wired.fire (h : Wired s) (hi : s.Loaded i) :
    if s.world.blocked i then s.world.fire i = none else ∃ t, s.world.fire i = some t.world ∧ Fires s i t := by
  unfold Loaded at hi
  cases hrole : s.role i with
  | feeder p =>
    rw [hrole] at hi
    cases p with
    | none =>
      rw [blocked_loose (Or.inl hrole), if_neg Bool.false_ne_true]
      exact h.fire_feeder hrole hi fun a ha => by cases ha
    | some p =>
      rcases h.feeder i p hrole with ⟨l, a, hp⟩ | hp
      · have hfree : s.world.blocked i = false := by
          rw [blocked_feeder hrole, show s.world.nodes p = _ from node_buffer hp]
          rfl
        rw [hfree, if_neg Bool.false_ne_true]
        refine h.fire_feeder hrole hi fun a' ha' hslot => ?_
        obtain rfl := Option.some.inj ha'
        rw [hp] at hslot
        cases hslot
      · refine fire_into_slot (blocked_feeder hrole) hp (fun hq => ?_) (fire_feeder_taken hrole hp)
        refine h.fire_feeder hrole hi fun a' ha' _ => ?_
        obtain rfl := Option.some.inj ha'
        exact hq
  | buffer c l p =>
    rw [hrole] at hi
    cases p with
    | none =>
      rw [blocked_loose (Or.inr ⟨c, l, hrole⟩), if_neg Bool.false_ne_true]
      exact h.fire_buffer_loose hrole
    | some p =>
      obtain ⟨-, -, ⟨hc, hslot⟩ | ⟨-, -, hnone⟩⟩ := h.buffer i c l (some p) hrole
      · have hp := hslot p rfl
        have hq' : s.queue i ≠ [] := by
          refine hi.resolve_left fun hm => ?_
          rw [(h.merger c).mpr hm] at hc
          cases hc
        exact fire_into_slot (blocked_buffer hrole) hp (h.fire_buffer_slot hrole hq' hp) (h.fire_buffer_taken hrole hp)
      · cases hnone
  | merger =>
    by_cases htaken : s.Taken
    · rw [if_neg fun hb => (h.blocked_merger hrole).mp hb htaken]
      exact h.fire_merger hrole htaken
    · rw [if_pos ((h.blocked_merger hrole).mpr htaken)]
      exact h.fire_merger_empty hrole htaken
  | free =>
    rw [hrole] at hi
    exact hi.elim
  | slot c =>
    rw [hrole] at hi
    exact hi.elim
  | sink =>
    rw [hrole] at hi
    exact hi.elim

/-! ## Turning -/

theorem blocked_loop (s : Net α) (loop : EventLoop Nat) (i : Nat) :
    ({ s with loop := loop } : Net α).world.blocked i = s.world.blocked i :=
  World.blocked_congr (show ({ s with loop := loop } : Net α).world.nodes = s.world.nodes from rfl) i

inductive Turns (s : Net α) : Net α → Prop where
  | rest : s.loop.head = none → Turns s s
  | fire (i : Nat) (loop : EventLoop Nat) (t : Net α) : s.loop.turn = (some i, loop) → s.Loaded i →
      Fires { s with loop := loop } i t → Turns s t

theorem Awake.extract (h : Awake s) {loop : EventLoop Nat} (hturn : s.loop.turn = (some i, loop)) :
    Awake { s with loop := loop } ∧ loop.isArmed i = false ∧ s.Loaded i := by
  obtain ⟨harmed, hsound, hrest⟩ := h.loop.turn (show s.loop.turn.1 = some i by rw [hturn])
  rw [hturn] at hsound hrest
  refine ⟨⟨⟨h.fresh, h.feeder, h.buffer, h.slot, h.slots, h.merger, h.outlet, h.sink, h.empty, h.calm⟩, hsound,
    fun j hj => h.loaded j ((hrest j).mp hj).2⟩, ?_, h.loaded i harmed⟩
  rw [← Bool.not_eq_true]
  exact fun ha => ((hrest i).mp ha).1 rfl

/-- **A turn** of a network that is awake goes through exactly if it is clear. -/
theorem Awake.turn (h : Awake s) (hclear : s.world.Clear) :
    ∃ fired t, s.world.turn = some (fired, t.world) ∧ Awake t ∧ Turns s t := by
  unfold World.turn
  cases hturn : s.world.loop.turn with
  | mk event loop =>
    have hturn' : s.loop.turn = (event, loop) := hturn
    cases event with
    | none => exact ⟨false, s, rfl, h, .rest (EventLoop.head_of_turn hturn')⟩
    | some i =>
      obtain ⟨h', hu, hi⟩ := h.extract hturn'
      have hfire := h'.toWired.fire hi
      rw [blocked_loop, if_neg] at hfire
      · obtain ⟨t, hfire, hf⟩ := hfire
        have hfire' : World.fire { s.world with loop := loop } i = some t.world := hfire
        refine ⟨true, t, ?_, hf.awake h' hu hi, .fire i loop t hturn' hi hf⟩
        simp only [hfire', Option.bind_eq_bind, Option.bind_some, Option.pure_def]
      · rw [hclear i (EventLoop.head_of_turn hturn)]
        exact Bool.false_ne_true

theorem Awake.turn_blocked (h : Awake s) (hclear : ¬ s.world.Clear) : s.world.turn = none := by
  unfold World.turn
  have hblocked : ∃ i, s.loop.head = some i ∧ s.world.blocked i = true := by
    refine Classical.byContradiction fun hnone => hclear fun i hi => ?_
    rw [← Bool.not_eq_true]
    exact fun hb => hnone ⟨i, hi, hb⟩
  obtain ⟨i, hhead, hb⟩ := hblocked
  cases hturn : s.world.loop.turn with
  | mk event loop =>
    have hfirst : event = some i := (EventLoop.head_of_turn hturn).symm.trans hhead
    subst hfirst
    obtain ⟨h', hu, hi⟩ := h.extract (show s.loop.turn = (some i, loop) from hturn)
    have hfire := h'.toWired.fire hi
    rw [blocked_loop, if_pos hb] at hfire
    have hfire' : World.fire { s.world with loop := loop } i = none := hfire
    simp only [hfire', Option.bind_eq_bind, Option.bind_none]

end

end Net

end Forstio
