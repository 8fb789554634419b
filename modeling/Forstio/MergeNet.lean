import Forstio.MergeServe

/-!
# Networks around a merge node

`Net` is a world of sources and at most one merge node, told apart by the role
of each storage node; what the nodes hold is one queue for each. A source is a
feeder's node, possibly with a buffer in front, and hangs on an appendage (its
slot) once it is attached. The merge node may have a parent, the outlet.
-/

namespace Forstio

/-- What a storage node is for, with the nodes around it. -/
inductive Role where
  | free
  | feeder (parent : Option Nat)
  | buffer (child limit : Nat) (parent : Option Nat)
  | slot (child : Nat)
  | merger
  | sink

structure Net (α : Type) where
  role : Nat → Role
  queue : Nat → List (ErrorOr α)
  loop : EventLoop Nat
  size : Nat
  merger : Option Nat
  slots : List Nat
  cursor : Nat
  outlet : Option Nat
  delivered : List (ErrorOr α)

namespace Net

variable {α : Type}

def new : Net α := ⟨fun _ => .free, fun _ => [], EventLoop.new, 0, none, [], 0, none, []⟩

/-- There is one merge node at most. -/
def hub (s : Net α) : Nat := s.merger.getD 0

def node (s : Net α) (i : Nat) : Option (StorageNode α) :=
  match s.role i with
  | .free => none
  | .feeder parent => some ⟨parent, none, .adapt (s.queue i)⟩
  | .buffer child limit parent => some ⟨parent, some child, .queueBuffer (some (.storage child)) (s.queue i) limit⟩
  | .slot child => some ⟨none, some child, .appendage (.storage child) s.hub (s.queue i).head?⟩
  | .merger => some ⟨s.outlet, none, .merge s.slots s.cursor⟩
  | .sink => some ⟨none, some s.hub, .sink (some (.storage s.hub))⟩

def world (s : Net α) : World α := ⟨s.loop, s.node, s.size, s.delivered, false⟩

def setQueue (s : Net α) (i : Nat) (xs : List (ErrorOr α)) : Net α :=
  { s with queue := Function.update s.queue i xs }

def isArmed (s : Net α) (i : Nat) : Bool := s.loop.isArmed i

def armLater (s : Net α) (i : Nat) : Net α := { s with loop := s.loop.armLater i }

def hop (s : Net α) (i p : Nat) (x : ErrorOr α) (xs : List (ErrorOr α)) : Net α :=
  (s.setQueue i xs).setQueue p (s.queue p ++ [x])

/-! ## What the nodes look like -/

section
variable {s : Net α} {i j : Nat}

theorem node_setQueue (hj : j ≠ i) (xs : List (ErrorOr α)) : (s.setQueue i xs).node j = s.node j := by
  have hq : (s.setQueue i xs).queue j = s.queue j := Function.update_of_ne hj _ _
  simp only [node, hq]
  rfl

theorem queue_setQueue_self (xs : List (ErrorOr α)) : (s.setQueue i xs).queue i = xs := Function.update_self ..

theorem queue_setQueue (hj : j ≠ i) (xs : List (ErrorOr α)) : (s.setQueue i xs).queue j = s.queue j :=
  Function.update_of_ne hj _ _

theorem put_world {xs : List (ErrorOr α)} {n : StorageNode α} (hn : (s.setQueue i xs).node i = some n) :
    s.world.put i n = (s.setQueue i xs).world := by
  have hnodes : Function.update s.node i (some n) = (s.setQueue i xs).node := by
    funext j
    by_cases hj : j = i
    · subst hj
      rw [Function.update_self, hn]
    · rw [Function.update_of_ne hj, node_setQueue hj]
  simp only [World.put, world, hnodes]
  rfl

variable {p : Option Nat} {c l : Nat}

theorem node_feeder (h : s.role i = .feeder p) : s.node i = some ⟨p, none, .adapt (s.queue i)⟩ := by
  simp only [node, h]

theorem node_buffer (h : s.role i = .buffer c l p) :
    s.node i = some ⟨p, some c, .queueBuffer (some (.storage c)) (s.queue i) l⟩ := by
  simp only [node, h]

theorem node_slot (h : s.role i = .slot c) :
    s.node i = some ⟨none, some c, .appendage (.storage c) s.hub (s.queue i).head?⟩ := by
  simp only [node, h]

theorem node_merger (h : s.role i = .merger) : s.node i = some ⟨s.outlet, none, .merge s.slots s.cursor⟩ := by
  simp only [node, h]

theorem node_sink (h : s.role i = .sink) : s.node i = some ⟨none, some s.hub, .sink (some (.storage s.hub))⟩ := by
  simp only [node, h]

/-! ## Pulling from one node -/

theorem getResult_feeder (h : s.role i = .feeder p) {x : ErrorOr α} {xs : List (ErrorOr α)} (hq : s.queue i = x :: xs) :
    s.world.getResult (.storage i) = some (x, (s.setQueue i xs).world) := by
  have hn : s.world.nodes i = some ⟨p, none, .adapt (x :: xs)⟩ := by
    rw [← hq]
    exact node_feeder h
  have hput : (s.setQueue i xs).node i = some ⟨p, none, .adapt xs⟩ := by
    rw [node_feeder (show (s.setQueue i xs).role i = _ from h), queue_setQueue_self]
  simp only [World.getResult, hn, Option.bind_eq_bind, Option.bind_some, World.setBody_eq hn, Option.pure_def,
    put_world hput]

theorem getResult_buffer (h : s.role i = .buffer c l p) {x : ErrorOr α} {xs : List (ErrorOr α)}
    (hq : s.queue i = x :: xs) : s.world.getResult (.storage i) = some (x, (s.setQueue i xs).world) := by
  have hn : s.world.nodes i = some ⟨p, some c, .queueBuffer (some (.storage c)) (x :: xs) l⟩ := by
    rw [← hq]
    exact node_buffer h
  have hput : (s.setQueue i xs).node i = some ⟨p, some c, .queueBuffer (some (.storage c)) xs l⟩ := by
    rw [node_buffer (show (s.setQueue i xs).role i = _ from h), queue_setQueue_self]
  simp only [World.getResult, hn, Option.bind_eq_bind, Option.bind_some, World.setBody_eq hn, Option.pure_def,
    put_world hput]

theorem queueAt_world (h : ∀ a c, s.role a = .slot c → (s.queue a).length ≤ 1)
    (hrest : ∀ a, s.role a = .merger ∨ s.role a = .sink ∨ s.role a = .free → s.queue a = []) :
    s.world.queueAt = s.queue := by
  funext a
  unfold World.queueAt
  cases hrole : s.role a with
  | free =>
    rw [show s.world.nodes a = none by simp only [world, node, hrole], hrest a (Or.inr (Or.inr hrole))]
  | feeder p =>
    rw [show s.world.nodes a = _ from node_feeder hrole]
    rfl
  | buffer c l p =>
    rw [show s.world.nodes a = _ from node_buffer hrole]
    rfl
  | slot c =>
    rw [show s.world.nodes a = _ from node_slot hrole]
    have hlen := h a c hrole
    match hq : s.queue a with
    | [] => rfl
    | [x] => rfl
    | x :: y :: xs =>
      rw [hq] at hlen
      simp at hlen
  | merger =>
    rw [show s.world.nodes a = _ from node_merger hrole, hrest a (Or.inl hrole)]
    rfl
  | sink =>
    rw [show s.world.nodes a = _ from node_sink hrole, hrest a (Or.inr (Or.inl hrole))]
    rfl

end

/-! ## Networks that are wired up -/

/-- Everybody's neighbours know them, and nobody holds more than they may. -/
structure Wired (s : Net α) : Prop where
  fresh : ∀ i, s.size ≤ i → s.role i = .free
  feeder : ∀ i p, s.role i = .feeder (some p) → (∃ l a, s.role p = .buffer i l a) ∨ s.role p = .slot i
  buffer : ∀ i c l p, s.role i = .buffer c l p → l < 2 ^ 64 ∧ (s.queue i).length ≤ l ∧
    (s.role c = .feeder (some i) ∧ (∀ a, p = some a → s.role a = .slot i) ∨
      s.merger = some c ∧ s.outlet = some i ∧ p = none)
  slot : ∀ a c, s.role a = .slot c → a ∈ s.slots ∧ s.merger ≠ none ∧ (s.queue a).length ≤ 1 ∧
    (s.role c = .feeder (some a) ∨ ∃ f l, s.role c = .buffer f l (some a))
  slots : ∀ a ∈ s.slots, ∃ c, s.role a = .slot c
  merger : ∀ i, s.role i = .merger ↔ s.merger = some i
  outlet : ∀ o, s.outlet = some o → ∃ m, s.merger = some m ∧ (s.role o = .sink ∨ ∃ l, s.role o = .buffer m l none)
  sink : ∀ i, s.role i = .sink → s.outlet = some i
  empty : ∀ i, s.role i = .merger ∨ s.role i = .sink ∨ s.role i = .free → s.queue i = []
  calm : ∀ i, ∀ x ∈ s.queue i, x.isCritical = false

/-- Whoever may be fired has something to hand on; a buffer in front of the merge node may have been
emptied by a taker. -/
def Loaded (s : Net α) (i : Nat) : Prop :=
  match s.role i with
  | .feeder _ => s.queue i ≠ []
  | .buffer c _ _ => s.merger = some c ∨ s.queue i ≠ []
  | .merger => True
  | _ => False

structure Awake (s : Net α) : Prop extends Wired s where
  loop : s.loop.Sound
  loaded : ∀ i, s.isArmed i → s.Loaded i

section
variable {s : Net α} {i : Nat}

theorem ne_of_role {j : Nat} {r r' : Role} (hi : s.role i = r) (hj : s.role j = r') (hne : r ≠ r') : i ≠ j := by
  rintro rfl
  exact hne (hi.symm.trans hj)

theorem Wired.ne_slot (h : Wired s) {a : Nat} (ha : a ∈ s.slots)
    (hi : (∃ p, s.role i = .feeder p) ∨ ∃ c l p, s.role i = .buffer c l (some p)) : i ≠ a := by
  obtain ⟨c, hslot⟩ := h.slots a ha
  rcases hi with ⟨p, hi⟩ | ⟨c', l, p, hi⟩
  · exact ne_of_role hi hslot Role.noConfusion
  · exact ne_of_role hi hslot Role.noConfusion

theorem Wired.buffer_ne_slot (h : Wired s) {o a c l : Nat} {p : Option Nat} (ha : a ∈ s.slots)
    (hbuffer : s.role o = .buffer c l p) : o ≠ a := by
  obtain ⟨c', hslot⟩ := h.slots a ha
  exact ne_of_role hbuffer hslot Role.noConfusion

theorem Wired.queueAt (h : Wired s) : s.world.queueAt = s.queue :=
  queueAt_world (fun a c hrole => (h.slot a c hrole).2.2.1) h.empty

/-! ## Pulling from the merge node -/

theorem put_merger (hunique : ∀ j, s.role j = .merger → j = i) (hm : s.role i = .merger) (k : Nat) :
    s.world.put i ⟨s.outlet, none, .merge s.slots k⟩ = ({ s with cursor := k } : Net α).world := by
  have hnodes : Function.update s.node i (some ⟨s.outlet, none, .merge s.slots k⟩) =
      ({ s with cursor := k } : Net α).node := by
    funext j
    by_cases hj : j = i
    · subst hj
      rw [Function.update_self, node_merger (show ({ s with cursor := k } : Net α).role j = _ from hm)]
    · rw [Function.update_of_ne hj]
      cases hrole : s.role j with
      | merger => exact absurd (hunique j hrole) hj
      | _ => simp only [node, hrole, hub]
  simp only [World.put, world, hnodes]

theorem Wired.getResult_merger (h : Wired s) (hm : s.role i = .merger) {a : Nat} (ha : a ∈ s.slots)
    (hq : s.queue a ≠ []) : ∃ a x k, a ∈ s.slots ∧ s.queue a = [x] ∧
      s.world.getResult (.storage i) = some (x, (({ s with cursor := k } : Net α).setQueue a []).world) := by
  obtain ⟨y, ys, hy⟩ := List.exists_cons_of_ne_nil hq
  have hhead : (s.world.queueAt a).head? = some y := by rw [h.queueAt, hy, List.head?_cons]
  obtain ⟨k, a, x, hk, hx, hserve⟩ := World.exists_serve ha hhead s.cursor
  have ha' : a ∈ s.slots := List.mem_of_getElem? hk
  obtain ⟨c, hslot⟩ := h.slots a ha'
  have hqa : s.queue a = [x] := by
    have hlen := (h.slot a c hslot).2.2.1
    rw [h.queueAt] at hx
    match hqa : s.queue a with
    | [] =>
      rw [hqa] at hx
      cases hx
    | [y] =>
      rw [hqa] at hx
      rw [Option.some.inj hx]
    | y :: z :: ys =>
      rw [hqa] at hlen
      simp at hlen
  refine ⟨a, x, k + 1, ha', hqa, ?_⟩
  have hn : s.world.nodes i = some ⟨s.outlet, none, .merge s.slots s.cursor⟩ := node_merger hm
  have hna : s.world.nodes a = some ⟨none, some c, .appendage (.storage c) s.hub (s.queue a).head?⟩ := node_slot hslot
  have hclear : (s.setQueue a []).node a = some ⟨none, some c, .appendage (.storage c) s.hub none⟩ := by
    rw [node_slot (show (s.setQueue a []).role a = _ from hslot), queue_setQueue_self]
    rfl
  have hia : i ≠ a := ne_of_role hm hslot Role.noConfusion
  have hunique : ∀ j, (s.setQueue a []).role j = .merger → j = i := by
    intro j hj
    exact Option.some.inj (((h.merger j).mp hj).symm.trans ((h.merger i).mp hm))
  simp only [World.getResult, hn, Option.bind_eq_bind, Option.bind_some, World.getMerged_serve hn hna hia.symm hserve,
    StorageBody.clear, put_world hclear]
  exact congrArg (fun w => some (x, w)) (put_merger hunique hm (k + 1))

theorem slotsQueued_world (h : Wired s) : ∀ as : List Nat, (∀ a ∈ as, a ∈ s.slots) →
    ∃ k, s.world.slotsQueued as = some k ∧ (0 < k ↔ ∃ a ∈ as, s.queue a ≠ [])
  | [], _ => ⟨0, rfl, by simp⟩
  | a :: as, has => by
    obtain ⟨k, hk, hpos⟩ := slotsQueued_world h as fun a ha => has a (List.mem_cons_of_mem _ ha)
    obtain ⟨c, hslot⟩ := h.slots a (has a (List.mem_cons_self ..))
    have hn : s.world.nodes a = some ⟨none, some c, .appendage (.storage c) s.hub (s.queue a).head?⟩ := node_slot hslot
    refine ⟨(if (s.queue a).head?.isSome then 1 else 0) + k, ?_, ?_⟩
    · simp only [World.slotsQueued, StorageBody.queued, hn, hk, Option.bind_eq_bind, Option.bind_some, Option.pure_def]
    · rw [List.exists_mem_cons_iff, ← hpos]
      cases hq : s.queue a with
      | nil => simp
      | cons x xs =>
        refine ⟨fun _ => Or.inl (List.cons_ne_nil x xs), fun _ => ?_⟩
        rw [List.head?_cons, Option.isSome_some, if_pos rfl]
        omega

theorem Wired.queued_merger (h : Wired s) (hm : s.role i = .merger) :
    ∃ k, s.world.queued i = some k ∧ (0 < k ↔ ∃ a ∈ s.slots, s.queue a ≠ []) := by
  have hn : s.world.nodes i = some ⟨s.outlet, none, .merge s.slots s.cursor⟩ := node_merger hm
  obtain ⟨k, hk, hpos⟩ := slotsQueued_world h s.slots fun _ => id
  refine ⟨k, ?_, hpos⟩
  simp only [World.queued, hn, Option.bind_eq_bind, Option.bind_some, hk]

/-! ## Telling a parent -/

theorem rearm (w : World α) (i : Nat) : (if w.isArmed i then w else w.armLater i) = w.armLater i := by
  by_cases harmed : w.isArmed i
  · rw [if_pos harmed, World.armLater, EventLoop.armLater_isArmed harmed]
  · rw [if_neg harmed]

def Holds (s : Net α) (i : Nat) : Prop := (∃ p, s.role i = .feeder p) ∨ ∃ c l p, s.role i = .buffer c l p

section
variable {p : Nat} {x : ErrorOr α} {xs : List (ErrorOr α)}

theorem getResult_holds (hi : s.Holds i) (hq : s.queue i = x :: xs) :
    s.world.getResult (.storage i) = some (x, (s.setQueue i xs).world) := by
  rcases hi with ⟨p, hi⟩ | ⟨c, l, p, hi⟩
  · exact getResult_feeder hi hq
  · exact getResult_buffer hi hq

theorem childHasFired_slot (hi : s.Holds i) (hq : s.queue i = x :: xs)
    (hp : s.role p = .slot i) (hempty : s.queue p = []) :
    s.world.childHasFired p = some ((s.hop i p x xs).armLater s.hub).world := by
  have hn : s.world.nodes p = some ⟨none, some i, .appendage (.storage i) s.hub none⟩ := by
    rw [show s.world.nodes p = _ from node_slot hp, hempty]
    rfl
  have hpi : p ≠ i := by
    rintro rfl
    rcases hi with ⟨a, hi⟩ | ⟨c, l, a, hi⟩
    · rw [hp] at hi
      cases hi
    · rw [hp] at hi
      cases hi
  have hn' : (s.setQueue i xs).world.nodes p = some ⟨none, some i, .appendage (.storage i) s.hub none⟩ :=
    (node_setQueue hpi xs).trans hn
  have hput : ((s.setQueue i xs).setQueue p [x]).node p =
      some ⟨none, some i, .appendage (.storage i) s.hub (some x)⟩ := by
    rw [node_slot (show ((s.setQueue i xs).setQueue p [x]).role p = _ from hp), queue_setQueue_self]
    rfl
  simp only [World.childHasFired, hn, Option.bind_eq_bind, Option.bind_some, assert, Option.isNone_none, if_true,
    getResult_holds hi hq, World.setBody_eq hn', put_world hput, rearm, Option.pure_def]
  rw [hop, hempty]
  rfl

theorem childHasFired_slot_taken (hp : s.role p = .slot i) (htaken : s.queue p ≠ []) :
    s.world.childHasFired p = none := by
  obtain ⟨y, ys, hq⟩ := List.exists_cons_of_ne_nil htaken
  have hn : s.world.nodes p = some ⟨none, some i, .appendage (.storage i) s.hub (some y)⟩ := by
    rw [show s.world.nodes p = _ from node_slot hp, hq]
    rfl
  simp only [World.childHasFired, hn, Option.bind_eq_bind, Option.bind_some, assert, Option.isNone_some,
    Bool.false_eq_true, if_false, Option.bind_none]

theorem childHasFired_pull {c l : Nat} {a : Option Nat} (hp : s.role p = .buffer c l a) (hroom : (s.queue p).length < l)
    {t : Net α} (hget : s.world.getResult (.storage c) = some (x, t.world)) (hx : x.isCritical = false)
    (hrole : t.role p = .buffer c l a) (hqueue : t.queue p = s.queue p) :
    s.world.childHasFired p = some ((t.setQueue p (s.queue p ++ [x])).armLater p).world := by
  have hn : s.world.nodes p = some ⟨a, some c, .queueBuffer (some (.storage c)) (s.queue p) l⟩ := node_buffer hp
  have hn' : t.world.nodes p = some ⟨a, some c, .queueBuffer (some (.storage c)) (s.queue p) l⟩ := by
    rw [← hqueue]
    exact node_buffer hrole
  have hput : (t.setQueue p (s.queue p ++ [x])).node p =
      some ⟨a, some c, .queueBuffer (some (.storage c)) (s.queue p ++ [x]) l⟩ := by
    rw [node_buffer (show (t.setQueue p (s.queue p ++ [x])).role p = _ from hrole), queue_setQueue_self]
  simp only [World.childHasFired, hn, Option.bind_eq_bind, Option.bind_some, if_pos hroom, hget, hx,
    Bool.false_eq_true, if_false, World.setBody_eq hn', StorageBody.push, put_world hput, rearm, Option.pure_def]
  rfl

theorem childHasFired_full {c l : Nat} {a : Option Nat} (hp : s.role p = .buffer c l a)
    (hfull : ¬ (s.queue p).length < l) : s.world.childHasFired p = some s.world := by
  have hn : s.world.nodes p = some ⟨a, some c, .queueBuffer (some (.storage c)) (s.queue p) l⟩ := node_buffer hp
  simp only [World.childHasFired, hn, Option.bind_eq_bind, Option.bind_some, if_neg hfull, Option.pure_def]

theorem childHasFired_sink (hp : s.role p = .sink) {t : Net α}
    (hget : s.world.getResult (.storage s.hub) = some (x, t.world)) (hx : x.isCritical = false) :
    s.world.childHasFired p = some ({ t with delivered := t.delivered ++ [x] } : Net α).world := by
  have hn : s.world.nodes p = some ⟨none, some s.hub, .sink (some (.storage s.hub))⟩ := node_sink hp
  simp only [World.childHasFired, hn, Option.bind_eq_bind, Option.bind_some, hget, hx, Bool.false_eq_true, false_and,
    if_false, Option.pure_def]
  rfl

/-! ## Counting -/

theorem queued_holds (hi : s.Holds i) : s.world.queued i = some (s.queue i).length := by
  rcases hi with ⟨p, hi⟩ | ⟨c, l, p, hi⟩
  · simp only [World.queued, show s.world.nodes i = _ from node_feeder hi, Option.bind_eq_bind, Option.bind_some]
    rfl
  · simp only [World.queued, show s.world.nodes i = _ from node_buffer hi, Option.bind_eq_bind, Option.bind_some]
    rfl

theorem Wired.space_buffer (h : Wired s) {c l : Nat} {a : Option Nat} (hi : s.role i = .buffer c l a) :
    s.world.space i = some (l - (s.queue i).length) := by
  obtain ⟨hl, hlen, -⟩ := h.buffer i c l a hi
  rw [World.space, show s.world.nodes i = _ from node_buffer hi, ← sizeSub_eq hlen hl]
  rfl

theorem space_slot {c : Nat} (hi : s.role i = .slot c) :
    s.world.space i = some (if (s.queue i).head?.isSome then 0 else 1) := by
  rw [World.space, show s.world.nodes i = _ from node_slot hi]
  rfl

theorem space_sink (hi : s.role i = .sink) : s.world.space i = some 1 := by
  rw [World.space, show s.world.nodes i = _ from node_sink hi]
  rfl

end

end

end Net

end Forstio
