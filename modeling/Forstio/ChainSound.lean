import Forstio.Pipe
import Forstio.Lib.Run

/-!
# Built chains deliver everything in order

The world in which a chain was built is at all times determined by a `Pipe`:
`layout` puts its queues back into the storage nodes. Every call on the world
does what the pipe does, so the pipe's invariant and its conservation of
elements are those of the code.
-/

namespace Forstio

namespace Chain

variable {α : Type} (c : Chain α) (sunk : Bool)

def parentOf (i : Nat) : Option Nat := if Pipe.HasParent c sunk i then some (i + 1) else none

def bodyOf (queues : Nat → List (ErrorOr α)) : Nat → StorageBody α
  | 0 => .adapt (queues 0)
  | i + 1 => if i < c.top then .queueBuffer (some (c.upTo i).node) (queues (i + 1)) (c.limit (i + 1))
    else .sink (some c.node)

def childOf : Nat → Option Nat
  | 0 => none
  | i + 1 => some i

def nodeOf (queues : Nat → List (ErrorOr α)) (i : Nat) : StorageNode α :=
  ⟨c.parentOf sunk i, childOf i, c.bodyOf queues i⟩

/-- The storage nodes of the chain, with a sink at the end or without. -/
def layout (queues : Nat → List (ErrorOr α)) (i : Nat) : Option (StorageNode α) :=
  if i ≤ c.top ∨ i = c.top + 1 ∧ sunk then some (c.nodeOf sunk queues i) else none

section
variable {c sunk} {q : Nat → List (ErrorOr α)} {i : Nat}

theorem layout_storage (hi : i ≤ c.top) : c.layout sunk q i = some (c.nodeOf sunk q i) := if_pos (Or.inl hi)

theorem layout_sink : c.layout true q (c.top + 1) = some ⟨none, some c.top, .sink (some c.node)⟩ := by
  have hparent : c.parentOf true (c.top + 1) = none := if_neg (by simp [Pipe.HasParent])
  have hbody : c.bodyOf q (c.top + 1) = .sink (some c.node) := if_neg (Nat.lt_irrefl _)
  rw [layout, if_pos (Or.inr ⟨rfl, rfl⟩), nodeOf, hparent, hbody]
  rfl

theorem layout_open (hi : c.top < i) : c.layout false q i = none := if_neg (by simp [hi])

theorem layout_beyond (hi : c.top + 1 < i) : c.layout sunk q i = none := if_neg (by omega)

end

end Chain

namespace Pipe

variable {α : Type} (c : Chain α) (sunk : Bool)

def setQueue (s : Pipe α) (i : Nat) (xs : List (ErrorOr α)) : Pipe α :=
  { s with queues := Function.update s.queues i xs }

def world (s : Pipe α) : World α :=
  ⟨s.loop, c.layout sunk s.queues, c.top + 1 + (if sunk then 1 else 0), s.delivered, false⟩

section
variable {c sunk} {s : Pipe α} {i : Nat}

theorem nodes_world (hi : i ≤ c.top) : (s.world c sunk).nodes i = some (c.nodeOf sunk s.queues i) :=
  Chain.layout_storage hi

theorem nodes_feeder : (s.world c sunk).nodes 0 = some ⟨c.parentOf sunk 0, none, .adapt (s.queues 0)⟩ :=
  nodes_world (Nat.zero_le _)

theorem bodyOf_buffer (hi : i < c.top) : c.bodyOf s.queues (i + 1) =
    .queueBuffer (some (c.upTo i).node) (s.queues (i + 1)) (c.limit (i + 1)) := if_pos hi

theorem nodes_buffer (hi : i < c.top) : (s.world c sunk).nodes (i + 1) = some ⟨c.parentOf sunk (i + 1), some i,
    .queueBuffer (some (c.upTo i).node) (s.queues (i + 1)) (c.limit (i + 1))⟩ := by
  rw [nodes_world hi, Chain.nodeOf, bodyOf_buffer hi]
  rfl

theorem nodes_sink : (s.world c true).nodes (c.top + 1) = some ⟨none, some c.top, .sink (some c.node)⟩ :=
  Chain.layout_sink

theorem queueAt_world (hi : i ≤ c.top) : (s.world c sunk).queueAt i = s.queues i := by
  rw [World.queueAt]
  cases i with
  | zero => rw [nodes_feeder]; rfl
  | succ i => rw [nodes_buffer hi]; rfl

theorem bodyOf_update {j : Nat} (hj : j ≠ i) (xs : List (ErrorOr α)) :
    c.bodyOf (Function.update s.queues i xs) j = c.bodyOf s.queues j := by
  cases j with
  | zero => rw [Chain.bodyOf, Chain.bodyOf, Function.update_of_ne hj]
  | succ j => rw [Chain.bodyOf, Chain.bodyOf, Function.update_of_ne hj]

theorem setBody_world (hi : i ≤ c.top) {f : StorageBody α → StorageBody α} (xs : List (ErrorOr α))
    (hf : f (c.bodyOf s.queues i) = c.bodyOf (Function.update s.queues i xs) i) :
    (s.world c sunk).setBody i f = some ((s.setQueue i xs).world c sunk) := by
  have hlayout : Function.update (c.layout sunk s.queues) i
      (some { c.nodeOf sunk s.queues i with body := f (c.nodeOf sunk s.queues i).body }) =
      c.layout sunk (Function.update s.queues i xs) := by
    funext j
    rcases eq_or_ne j i with rfl | hj
    · rw [Function.update_self, Chain.layout_storage hi, Chain.nodeOf, Chain.nodeOf]
      dsimp only
      rw [hf]
    · rw [Function.update_of_ne hj, Chain.layout, Chain.layout, Chain.nodeOf, Chain.nodeOf, bodyOf_update hj]
  simp only [World.setBody, World.modify, nodes_world hi, Option.bind_eq_bind, Option.bind_some, Option.pure_def]
  rw [show (s.world c sunk).nodes = c.layout sunk s.queues from rfl, hlayout]
  rfl

theorem setBody_feeder {f : StorageBody α → StorageBody α} {xs : List (ErrorOr α)}
    (hf : f (.adapt (s.queues 0)) = .adapt xs) :
    (s.world c sunk).setBody 0 f = some ((s.setQueue 0 xs).world c sunk) := by
  refine setBody_world (Nat.zero_le _) xs (hf.trans ?_)
  simp only [Chain.bodyOf, Function.update_self]

theorem setBody_buffer (hi : i < c.top) {f : StorageBody α → StorageBody α} {xs : List (ErrorOr α)}
    (hf : f (.queueBuffer (some (c.upTo i).node) (s.queues (i + 1)) (c.limit (i + 1))) =
      .queueBuffer (some (c.upTo i).node) xs (c.limit (i + 1))) :
    (s.world c sunk).setBody (i + 1) f = some ((s.setQueue (i + 1) xs).world c sunk) := by
  refine setBody_world hi xs ?_
  rw [bodyOf_buffer hi, hf]
  simp only [Chain.bodyOf, if_pos hi, Function.update_self]

/-! ## Pulling -/

theorem getResult_world : ∀ (d : Chain α) {x : ErrorOr α} {xs : List (ErrorOr α)}, d.top ≤ c.top →
    s.queues d.top = x :: xs →
    (s.world c sunk).getResult d.node = some (d.post x, (s.setQueue d.top xs).world c sunk)
  | .feeder, x, xs, _, hq => by
    have hq : s.queues 0 = x :: xs := hq
    have hset : (s.world c sunk).setBody 0 (fun _ => .adapt xs) = _ := setBody_feeder rfl
    simp only [Chain.node, World.getResult, nodes_feeder, hq, Option.bind_eq_bind, Option.bind_some, hset,
      Option.pure_def]
    rfl
  | .then d func, x, xs, hd, hq => by
    have ih := getResult_world d (show d.top ≤ c.top from hd) (show s.queues d.top = x :: xs from hq)
    simp only [Chain.node, World.getResult, ih, Option.bind_eq_bind, Option.bind_some, Chain.post]
    cases d.post x <;> rfl
  | .buffer d limit, x, xs, hd, hq => by
    have hq : s.queues (d.top + 1) = x :: xs := hq
    have hset : (s.world c sunk).setBody (d.top + 1)
        (fun _ => .queueBuffer (some (c.upTo d.top).node) xs (c.limit (d.top + 1))) = _ := setBody_buffer hd rfl
    simp only [Chain.node, World.getResult, nodes_buffer (show d.top < c.top from hd), hq, Option.bind_eq_bind,
      Option.bind_some, hset, Option.pure_def]
    rfl

theorem getResult_upTo (hi : i ≤ c.top) {x : ErrorOr α} {xs : List (ErrorOr α)} (hq : s.queues i = x :: xs) :
    (s.world c sunk).getResult (c.upTo i).node = some ((c.upTo i).post x, (s.setQueue i xs).world c sunk) := by
  have htop := c.top_upTo hi
  have hget : (s.world c sunk).getResult (c.upTo i).node = _ :=
    getResult_world (c.upTo i) (htop.le.trans hi) (htop.symm ▸ hq)
  rwa [htop] at hget

theorem space_buffer (hc : c.Admissible) (h : Core c sunk s) (hi : i < c.top) :
    ∃ n, (s.world c sunk).space (i + 1) = some n ∧ (0 < n ↔ ¬ s.Full c (i + 1)) := by
  have hlen := h.bounded (i + 1) (Nat.succ_pos i) hi
  have hlim := (Chain.limit_bounds hc (Nat.succ_pos i) hi).2
  refine ⟨c.limit (i + 1) - (s.queues (i + 1)).length, ?_, ?_⟩
  · rw [World.space, nodes_buffer hi, ← sizeSub_eq hlen hlim]
    rfl
  · rw [Full]
    omega

theorem queued_world (hi : i ≤ c.top) : (s.world c sunk).queued i = some (s.queues i).length := by
  rw [World.queued]
  cases i with
  | zero => rw [nodes_feeder]; rfl
  | succ i => rw [nodes_buffer hi]; rfl

theorem armLater_world : (s.world c sunk).armLater i = (s.arm i).world c sunk := rfl

/-! ## Signals -/

theorem childHasFired_buffer (hi : i < c.top) {x : ErrorOr α} {xs : List (ErrorOr α)}
    (hq : s.queues i = x :: xs) (hroom : ¬ s.Full c (i + 1)) (htame : ((c.upTo i).post x).isCritical = false) :
    (s.world c sunk).childHasFired (i + 1) = some ((((s.setQueue i xs).setQueue (i + 1)
      (s.queues (i + 1) ++ [(c.upTo i).post x])).arm (i + 1)).world c sunk) := by
  have hnext : (s.setQueue i xs).queues (i + 1) = s.queues (i + 1) :=
    Function.update_of_ne (Nat.succ_ne_self i) _ _
  have hset : ((s.setQueue i xs).world c sunk).setBody (i + 1) (.push ((c.upTo i).post x)) = _ :=
    setBody_buffer hi rfl
  simp only [World.childHasFired, nodes_buffer hi, Option.bind_eq_bind, Option.bind_some,
    if_pos (Nat.not_le.mp hroom), getResult_upTo hi.le hq, htame, Bool.false_eq_true, if_false, hset, hnext,
    Option.pure_def, armLater_world]
  split
  next harmed =>
    rw [arm, EventLoop.armLater_isArmed]
    exact harmed
  next => rfl

theorem childHasFired_sink {x : ErrorOr α} {xs : List (ErrorOr α)} (hq : s.queues c.top = x :: xs)
    (htame : (c.post x).isCritical = false) : (s.world c true).childHasFired (c.top + 1) =
      some (({ s.setQueue c.top xs with delivered := s.delivered ++ [c.post x] } : Pipe α).world c true) := by
  have hget : (s.world c true).getResult (c.upTo c.top).node = _ := getResult_upTo le_rfl hq
  rw [Chain.upTo_top] at hget
  simp only [World.childHasFired, nodes_sink, Option.bind_eq_bind, Option.bind_some, hget, htame,
    Bool.false_eq_true, false_and, if_false, Option.pure_def]
  rfl

theorem childHasFired_world (hc : c.Admissible) (h : Core c sunk s) (hp : HasParent c sunk i)
    (hq : s.queues i ≠ []) : (s.world c sunk).childHasFired (i + 1) = some ((s.pull c sunk i).world c sunk) := by
  obtain ⟨x, xs, hx⟩ := List.exists_cons_of_ne_nil hq
  have hmem : x ∈ s.queues i := hx ▸ List.mem_cons_self ..
  rcases hp with hi | ⟨rfl, hs⟩
  · have htame := Chain.post_isCritical (hc.upTo i) (h.tame i hi.le x hmem)
    by_cases hfull : s.Full c (i + 1)
    · simp only [World.childHasFired, nodes_buffer hi, Option.bind_eq_bind, Option.bind_some,
        if_neg (Nat.not_lt.mpr hfull), pull, hx, if_pos hi, if_pos hfull, Option.pure_def]
    · simp only [childHasFired_buffer hi hx hfull htame, pull, hx, if_pos hi, if_neg hfull]
      rfl
  · subst hs
    rw [childHasFired_sink hx (Chain.post_isCritical hc (h.tame _ le_rfl x hmem))]
    simp only [pull, hx, lt_irrefl, if_false, true_and, if_true]
    rfl

theorem parentHasFired_world (hc : c.Admissible) (h : Core c sunk s) (hi : i < c.top) :
    (s.world c sunk).parentHasFired i = some ((s.wakeChild c (i + 1)).world c sunk) := by
  obtain ⟨n, hn, hroom⟩ := space_buffer hc h hi
  have hparent : c.parentOf sunk i = some (i + 1) := if_pos (Or.inl hi)
  cases i with
  | zero =>
    simp only [World.parentHasFired, World.eventParentHasFired, nodes_feeder, hparent, Option.bind_eq_bind,
      Option.bind_some, hn, Option.pure_def, wakeChild, lt_irrefl, false_and, and_false, if_false]
  | succ i =>
    simp only [World.parentHasFired, World.eventParentHasFired, nodes_buffer (Nat.lt_of_succ_lt hi), hparent,
      Option.bind_eq_bind, Option.bind_some, hn, Option.pure_def, wakeChild, ← hroom, List.length_pos_iff,
      armLater_world]
    by_cases hn0 : n = 0
    · simp [hn0]
    · by_cases hq : s.queues (i + 1) = [] <;> simp [hn0, hq, Nat.pos_of_ne_zero hn0]

/-! ## Firing -/

theorem pull_no_parent (hp : ¬ HasParent c sunk i) : (s.pull c sunk i).rearm c sunk i = s := by
  have hpull : s.pull c sunk i = s := by
    rcases pull_cases c sunk s i with ⟨h, -⟩ | ⟨x, xs, -, hlt, -⟩ | ⟨x, xs, -, htop, hs, -⟩
    · exact h
    · exact absurd (Or.inl hlt) hp
    · exact absurd (Or.inr ⟨htop, hs⟩) hp
  rw [hpull, rearm, if_neg fun hpush => hp hpush.1]

theorem fire_feeder (hc : c.Admissible) (h : Core c sunk s) (hq : HasParent c sunk 0 → s.queues 0 ≠ []) :
    (s.world c sunk).fire 0 = some ((s.fire c sunk 0).world c sunk) := by
  rw [fire, if_neg (by simp)]
  by_cases hp : HasParent c sunk 0
  · have hparent : c.parentOf sunk 0 = some 1 := if_pos hp
    simp only [World.fire, nodes_feeder, hparent, Option.bind_eq_bind, Option.bind_some, World.Adapt.fire,
      childHasFired_world hc h hp (hq hp), queued_world (Nat.zero_le _), Option.pure_def, rearm, CanPush, hp,
      true_and, true_or, and_true, List.length_pos_iff, armLater_world]
    split <;> rfl
  · have hparent : c.parentOf sunk 0 = none := if_neg hp
    simp only [World.fire, nodes_feeder, hparent, Option.bind_eq_bind, Option.bind_some, World.Adapt.fire,
      Option.pure_def, pull_no_parent hp]

theorem dropCritical_world (h : Core c sunk s) (hi : i < c.top) (n : StorageNode α)
    (hn : (s.world c sunk).nodes (i + 1) = some n) :
    World.QueueBuffer.dropCritical (s.world c sunk) (i + 1) n = some (s.world c sunk) := by
  rw [nodes_buffer hi] at hn
  obtain rfl := Option.some.inj hn
  cases hq : s.queues (i + 1) with
  | nil => rfl
  | cons x xs =>
    have htame := h.tame (i + 1) hi x (hq ▸ List.mem_cons_self ..)
    simp [World.QueueBuffer.dropCritical, StorageBody.child, StorageBody.queue, htame]

theorem space_parent (hc : c.Admissible) (h : Core c sunk s) (hp : HasParent c sunk i) :
    ∃ n, (s.world c sunk).space (i + 1) = some n ∧ (0 < n ↔ (i < c.top → ¬ s.Full c (i + 1))) := by
  rcases hp with hi | ⟨rfl, hs⟩
  · obtain ⟨n, hn, hroom⟩ := space_buffer hc h hi
    exact ⟨n, hn, hroom.trans ⟨fun hr _ => hr, fun hr => hr hi⟩⟩
  · subst hs
    refine ⟨1, ?_, by simp⟩
    rw [World.space, nodes_sink]
    rfl

theorem fireParent_world (hc : c.Admissible) (h : Core c sunk s) (hi : i ≤ c.top) (h0 : i ≠ 0) (hu : ¬ s.Armed i)
    (hq : HasParent c sunk i → s.queues i ≠ []) :
    World.QueueBuffer.fireParent (s.world c sunk) i (c.parentOf sunk i) =
      some (((s.pull c sunk i).rearm c sunk i).world c sunk) := by
  by_cases hp : HasParent c sunk i
  · obtain ⟨n, hn, hroom⟩ := space_parent hc (h.pull hc hi hu) hp
    have hparent : c.parentOf sunk i = some (i + 1) := if_pos hp
    simp only [World.QueueBuffer.fireParent, hparent, childHasFired_world hc h hp (hq hp), Option.bind_eq_bind,
      Option.bind_some, queued_world hi, hn, hroom, Option.pure_def, rearm, CanPush, hp, h0, true_and, false_or,
      List.length_pos_iff, armLater_world]
    split <;> rfl
  · have hparent : c.parentOf sunk i = none := if_neg hp
    simp only [World.QueueBuffer.fireParent, hparent, pull_no_parent hp]

theorem fire_buffer (hc : c.Admissible) (h : Core c sunk s) (hi : i < c.top) (hu : ¬ s.Armed (i + 1))
    (hq : HasParent c sunk (i + 1) → s.queues (i + 1) ≠ []) :
    (s.world c sunk).fire (i + 1) = some ((s.fire c sunk (i + 1)).world c sunk) := by
  obtain ⟨n, hn, hroom⟩ := space_buffer hc h hi
  have hcore := (h.pull hc hi hu).rearm hi
  simp only [World.fire, nodes_buffer hi, Option.bind_eq_bind, Option.bind_some, World.QueueBuffer.fire,
    dropCritical_world h hi _ (nodes_buffer hi), hn, fireParent_world hc h hi (Nat.succ_ne_zero i) hu hq,
    parentHasFired_world hc hcore hi, fire, Nat.succ_pos, true_and, Option.pure_def, hroom, decide_not]
  by_cases hfull : s.Full c (i + 1) <;> simp [hfull]

/-- **Firing a storage node** of the world is firing it in the pipe. -/
theorem fire_world (hc : c.Admissible) (h : Core c sunk s) (hi : i ≤ c.top) (hu : ¬ s.Armed i)
    (hq : HasParent c sunk i → s.queues i ≠ []) :
    (s.world c sunk).fire i = some ((s.fire c sunk i).world c sunk) := by
  cases i with
  | zero => exact fire_feeder hc h hq
  | succ i => exact fire_buffer hc h hi hu hq

/-! ## Calls -/

theorem turn_world (hc : c.Admissible) (h : Inv c sunk s) :
    ∃ fired, (s.world c sunk).turn = some (fired, (s.turn c sunk).world c sunk) := by
  have hloop : (s.world c sunk).loop = s.loop := rfl
  rcases ht : s.loop.turn with ⟨_ | i, loop⟩
  · exact ⟨false, by simp only [World.turn, turn, hloop, ht, Option.pure_def]⟩
  · obtain ⟨hcore, hi, hu, hq, -⟩ := h.fires ht
    have hfire := fire_world hc hcore hi hu hq
    refine ⟨true, ?_⟩
    simp only [World.turn, turn, hloop, ht, Option.bind_eq_bind, Option.pure_def]
    rw [show ({ s.world c sunk with loop := loop } : World α) = Pipe.world c sunk { s with loop := loop } from rfl, hfire]
    rfl

theorem feed_world (x : ErrorOr α) : (s.world c sunk).feedResult 0 x = (s.feed x).world c sunk := by
  have hset : (s.world c sunk).setBody 0 (.push x) = _ := setBody_feeder rfl
  simp only [World.feedResult, hset]
  rfl

theorem take_world (s : Pipe α) (c : Chain α) (sunk : Bool) :
    Conveyor.take ⟨c.node, c.top⟩ (s.world c sunk) = some (s.taken c, (s.take c).world c sunk) := by
  have hqueued : (s.world c sunk).queued c.top = _ := queued_world le_rfl
  unfold take taken
  cases hq : s.queues c.top with
  | nil =>
    rw [hq] at hqueued
    simp only [Conveyor.take, hqueued, Option.bind_eq_bind, Option.bind_some, List.length_nil, lt_irrefl, if_false,
      Option.pure_def]
  | cons x xs =>
    have hget : (s.world c sunk).getResult c.node = _ := getResult_world c le_rfl hq
    rw [hq] at hqueued
    simp only [Conveyor.take, hqueued, Option.bind_eq_bind, Option.bind_some, List.length_cons, Nat.succ_pos,
      if_true, hget, Option.pure_def]
    rfl

end

end Pipe

end Forstio
