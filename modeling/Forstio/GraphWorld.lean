import Forstio.GraphFelled
import Forstio.MergeNet

/-!
# A graph is a world

What a graph does to its storage nodes and the event queue is what a world does. The
world knows neither handles nor feeders, and its pointers to what is gone end the run or
are overlooked; in a graph whose calls go through no such pointer is followed.
-/

namespace Forstio

/-- A graph has addresses for handles and feeders, too. -/
def World.skip {α : Type} (w : World α) : World α := { w with size := w.size + 1 }

namespace Graph

variable {α : Type}

/-- The world `w` has the nodes and the event queue of `g`. -/
structure Shows (g : Graph α) (w : World α) : Prop where
  loop : w.loop = g.loop
  nodes : ∀ i, w.nodes i = (g.cells.lookup i).map fun n => n.toStorageNode
  size : w.size = g.created

def ShowsWith {β : Type} (r : β × Graph α) (r' : β × World α) : Prop := r'.1 = r.1 ∧ Shows r.2 r'.2

section
variable {g : Graph α} {w : World α} {i : Nat} {n : Cell α}

theorem Shows.node (h : Shows g w) (hn : g.cells.lookup i = some n) : w.nodes i = some n.toStorageNode := by
  rw [h.nodes, hn]
  rfl

/-! ## Nodes -/

theorem Shows.get (h : Shows g w) (i : Nat) :
    Guard.Follows (fun n n' => g.cells.lookup i = some n ∧ n' = n.toStorageNode) (g.get i) (w.nodes i) := by
  unfold Graph.get
  cases hn : g.cells.lookup i with
  | none => exact Guard.Follows.error
  | some n =>
    rw [h.node hn]
    exact .ok ⟨rfl, rfl⟩

theorem Shows.put (h : Shows g w) (n : Cell α) :
    Shows (g.put i n) { w with nodes := Function.update w.nodes i (some n.toStorageNode) } := by
  refine ⟨h.loop, fun j => ?_, h.size⟩
  rw [lookup_put]
  by_cases hj : j = i
  · rw [hj, if_pos rfl]
    exact Function.update_self i _ _
  · rw [if_neg hj]
    exact (Function.update_of_ne hj _ _).trans (h.nodes j)

theorem Shows.modify (h : Shows g w) (i : Nat) {f : Cell α → Cell α} {f' : StorageNode α → StorageNode α}
    (hf : ∀ n, (f n).toStorageNode = f' n.toStorageNode) :
    Guard.Follows Shows (g.modify i f) (w.modify i f') := by
  refine (h.get i).bind fun n n' _ hn => .ok ?_
  rw [hn.2, ← hf]
  exact h.put (f n)

theorem Shows.setBody (h : Shows g w) (i : Nat) (f : StorageBody α → StorageBody α) :
    Guard.Follows Shows (g.setBody i f) (w.setBody i f) := h.modify i fun _ => rfl

theorem Shows.clearChildStorage (h : Shows g w) (i : Nat) :
    Guard.Follows Shows (g.clearChildStorage i) (w.modify i fun n => { n with childStorage := none }) :=
  h.modify i fun _ => rfl

theorem Shows.space (h : Shows g w) (i : Nat) : Guard.Follows Eq (g.space i) (w.space i) := by
  intro k hk
  unfold Graph.space at hk
  cases hn : g.cells.lookup i with
  | none =>
    rw [Graph.get, hn] at hk
    cases hk
  | some n =>
    rw [get_bind hn] at hk
    cases hk
    refine ⟨_, ?_, rfl⟩
    rw [World.space, h.node hn]
    rfl

theorem Shows.slotsQueued (h : Shows g w) : ∀ appendages : List Nat,
    Guard.Follows Eq (g.slotsQueued appendages) (w.slotsQueued appendages)
  | [] => .ok rfl
  | a :: appendages => by
    refine (h.get a).bind fun n n' _ hn => ?_
    refine (h.slotsQueued appendages).bind fun k k' _ hk => .ok ?_
    rw [hn.2, hk]

theorem Shows.queued (h : Shows g w) (i : Nat) : Guard.Follows Eq (g.queued i) (w.queued i) := by
  refine (h.get i).bind fun n n' _ hn => ?_
  obtain ⟨-, rfl⟩ := hn
  cases hbody : n.body with
  | merge appendages nextAppendage => exact h.slotsQueued appendages
  | _ => exact .ok rfl

/-! ## The event queue -/

theorem Shows.requeue (h : Shows g w) (loop : EventLoop Nat) : Shows { g with loop } { w with loop } :=
  ⟨rfl, h.nodes, h.size⟩

theorem Shows.enter (h : Shows g w) (op : EventLoop.Op Nat) (loop : EventLoop Nat) :
    Guard.Follows Shows (g.enter op loop) (some { w with loop }) := by
  unfold Graph.enter
  split
  · exact .ok (h.requeue loop)
  · exact Guard.Follows.error

theorem Shows.armNext (h : Shows g w) (i : Nat) : Guard.Follows Shows (g.armNext i) (some (w.armNext i)) := by
  rw [World.armNext, h.loop]
  exact h.enter _ _

theorem Shows.armLater (h : Shows g w) (i : Nat) : Guard.Follows Shows (g.armLater i) (some (w.armLater i)) := by
  rw [World.armLater, h.loop]
  exact h.enter _ _

theorem Shows.armLast (h : Shows g w) (i : Nat) : Guard.Follows Shows (g.armLast i) (some (w.armLast i)) := by
  rw [World.armLast, h.loop]
  exact h.enter _ _

theorem Shows.disarm (h : Shows g w) (i : Nat) :
    Guard.Follows Shows (g.disarm i) (some { w with loop := w.loop.disarm i }) := by
  rw [h.loop]
  exact h.enter _ _

theorem Shows.isArmed (h : Shows g w) (i : Nat) : w.isArmed i = g.loop.isArmed i := by
  rw [World.isArmed, h.loop]

/-! ## Pulling a result -/

theorem Shows.findSlot (h : Shows g w) (appendages : List Nat) : ∀ n i : Nat,
    Guard.Follows Eq (g.findSlot appendages n i) (some (w.findSlot appendages n i))
  | 0, _ => .ok rfl
  | n + 1, i => by
    rw [Graph.findSlot, World.findSlot]
    cases ha : appendages[i]? with
    | none => exact h.findSlot appendages n (i + 1)
    | some a =>
      intro slot hslot
      cases hc : g.cells.lookup a with
      | none =>
        simp only [Graph.get, hc] at hslot
        cases hslot
      | some c =>
        simp only [get_bind hc] at hslot
        simp only [Option.bind_some, World.queueAt, h.node hc]
        cases hq : c.body.queue with
        | nil =>
          rw [hq] at hslot
          exact h.findSlot appendages n (i + 1) slot hslot
        | cons x xs =>
          rw [hq] at hslot
          cases hslot
          exact ⟨_, rfl, rfl⟩

theorem Shows.nextSlot (h : Shows g w) (appendages : List Nat) (next : Nat) :
    Guard.Follows Eq (g.nextSlot appendages next)
      (some ((w.findSlot appendages (appendages.length - next) next).or (w.findSlot appendages next 0))) := by
  unfold Graph.nextSlot
  refine (h.findSlot appendages (appendages.length - next) next).bind_some fun slot _ hslot => ?_
  rw [← hslot]
  cases slot with
  | none => exact h.findSlot appendages next 0
  | some s => exact .ok rfl

theorem Shows.getMerged (h : Shows g w) (m : Nat) (appendages : List Nat) (nextAppendage : Nat) :
    Guard.Follows ShowsWith (g.getMerged m appendages nextAppendage) (w.getMerged m appendages nextAppendage) := by
  unfold Graph.getMerged World.getMerged
  refine (h.nextSlot appendages (min appendages.length nextAppendage)).bind_some fun slot _ hslot => ?_
  simp only [← hslot]
  cases slot with
  | none => exact (h.setBody m _).bind fun g₁ w₁ _ h₁ => .ok ⟨rfl, h₁⟩
  | some s =>
    obtain ⟨i, a, x⟩ := s
    exact (h.setBody a _).bind fun g₁ w₁ _ h₁ => (h₁.setBody m _).bind fun g₂ w₂ _ h₂ => .ok ⟨rfl, h₂⟩

theorem Shows.getResult (h : Shows g w) : ∀ l : ConveyorNode α,
    Guard.Follows ShowsWith (g.getResult l) (w.getResult l)
  | .convert child func errorFunc => by
    refine (h.getResult child).bind fun r r' _ hr => ?_
    obtain ⟨dep, g₁⟩ := r
    obtain ⟨dep', w₁⟩ := r'
    obtain ⟨rfl, h₁⟩ := hr
    cases dep' with
    | value v => exact .ok ⟨rfl, h₁⟩
    | error e => exact .ok ⟨rfl, h₁⟩
  | .storage i => by
    unfold Graph.getResult World.getResult
    refine (h.get i).bind fun n n' _ hn => ?_
    obtain ⟨-, rfl⟩ := hn
    have hset (f : StorageBody α → StorageBody α) (x : ErrorOr α) :
        Guard.Follows ShowsWith (do return (x, ← g.setBody i f)) (do return (x, ← w.setBody i f)) :=
      (h.setBody i f).bind fun g₁ w₁ _ h₁ => .ok ⟨rfl, h₁⟩
    cases hbody : n.body with
    | adapt storage =>
      cases storage with
      | nil => exact .ok ⟨rfl, h.loop, h.nodes, h.size⟩
      | cons x storage => exact hset _ x
    | queueBuffer child storage maxStore =>
      cases storage with
      | nil => exact Guard.Follows.error
      | cons x storage => exact hset _ x
    | sink child => exact .ok ⟨rfl, h⟩
    | immediate value retrieved => exact hset _ _
    | merge appendages nextAppendage => exact h.getMerged i appendages nextAppendage
    | appendage child m errorOrValue => exact Guard.Follows.error

/-! ## Destruction -/

theorem Shows.unfeed (h : Shows g w) (hn : g.cells.lookup i = some n) :
    Shows (g.put i { n with feeder := none }) w := by
  refine ⟨h.loop, fun j => ?_, h.size⟩
  rw [h.nodes, lookup_put]
  by_cases hj : j = i
  · rw [hj, if_pos rfl, hn]
    rfl
  · rw [if_neg hj]

theorem Shows.leaveFeeder (h : Shows g w) (hn : g.cells.lookup i = some n) :
    Guard.Follows Shows (g.leaveFeeder i n) (some w) := by
  have hleft := h.unfeed hn
  unfold Graph.leaveFeeder
  split
  next => exact .ok h
  next f _ =>
    split
    next => exact .ok ⟨hleft.loop, hleft.nodes, hleft.size⟩
    next => exact Guard.Follows.error

theorem Shows.unlinkChild (h : Shows g w) (p : Option Nat) :
    Guard.Follows Shows (g.unlinkChild p) (some (match p with
      | none => w
      | some p => w.unlinkChild p)) := by
  cases p with
  | none => exact .ok h
  | some p =>
    intro g' hg'
    obtain ⟨w', hw', hshows⟩ := h.clearChildStorage p g' hg'
    refine ⟨w', ?_, hshows⟩
    show some (World.unlinkChild w p) = _
    rw [World.unlinkChild, hw']
    rfl

theorem Shows.free (h : Shows g w) (i : Nat) :
    Shows { g with cells := g.cells.erase i } { w with nodes := Function.update w.nodes i none } := by
  refine ⟨h.loop, fun j => ?_, h.size⟩
  by_cases hj : j = i
  · rw [hj, AList.lookup_erase]
    exact Function.update_self i _ _
  · rw [AList.lookup_erase_ne hj]
    exact (Function.update_of_ne hj _ _).trans (h.nodes j)

theorem Shows.destroy : ∀ (fuel fuel' : Nat) {g : Graph α} {w : World α} {i : Nat}, fuel ≤ fuel' → Shows g w →
    Guard.Follows Shows (Graph.destroy fuel g i) (some (World.destroy fuel' w i))
  | 0, _, _, _, _, _, _ => Guard.Follows.error
  | fuel + 1, 0, _, _, _, hle, _ => absurd hle (Nat.not_succ_le_zero fuel)
  | fuel + 1, fuel' + 1, g, w, i, hle, h => by
    rw [Graph.destroy, World.destroy]
    intro g' hg'
    cases hn : g.cells.lookup i with
    | none =>
      rw [Graph.get, hn] at hg'
      cases hg'
    | some n =>
      rw [get_bind hn] at hg'
      simp only [h.node hn]
      refine Guard.Follows.bind_some (h.leaveFeeder hn) (fun g₁ _ h₁ => ?_) g' hg'
      have hmember (c : Nat) (s : Graph α) (t : World α) (hst : Shows s t) :
          Guard.Follows Shows (Graph.destroy fuel s c) (some (World.destroy fuel' t c)) :=
        Shows.destroy fuel fuel' (Nat.le_of_succ_le_succ hle) hst
      have hmembers : Guard.Follows Shows (n.body.owned.foldlM (Graph.destroy fuel) g₁)
          (some (n.body.owned.foldl (World.destroy fuel') w)) :=
        Guard.Follows.foldlM hmember n.body.owned g₁ w h₁
      refine hmembers.bind_some fun g₂ _ h₂ => ?_
      refine (h₂.disarm i).bind_some fun g₃ _ h₃ => ?_
      exact (h₃.unlinkChild n.parent).bind_some fun g₄ _ h₄ => .ok (h₄.free i)

theorem Shows.drop (h : Shows g w) (hlt : ∀ i ∈ g.cells, i < g.created) (i : Nat) :
    Guard.Follows Shows (g.drop i) (some (World.destroy w.size w i)) := by
  refine Shows.destroy _ _ ?_ h
  rw [h.size]
  have hsub : g.cells.keys ⊆ List.range g.created := fun j hj => List.mem_range.mpr (hlt j hj)
  exact (g.cells.nodupKeys.subperm hsub).length_le.trans (List.length_range).le

theorem Shows.resetChild (h : Shows g w) (hlt : ∀ i ∈ g.cells, i < g.created) (i : Nat) :
    Guard.Follows Shows (g.resetChild i) (w.resetChild i) := by
  refine (h.get i).bind fun n n' _ hn => ?_
  obtain ⟨hn, rfl⟩ := hn
  refine (h.setBody i .dropChild).bind fun g₁ w₁ hg₁ h₁ => ?_
  obtain rfl := Except.ok.inj ((modify_eq hn _).symm.trans hg₁)
  cases hchild : n.body.child with
  | none => exact .ok h₁
  | some child =>
    refine h₁.drop (fun j hj => ?_) child.base
    rcases (AList.mem_insert _).mp hj with rfl | hj
    · exact hlt j (mem_of_lookup hn)
    · exact hlt j hj

/-! ## Signals -/

theorem Shows.deliver (h : Shows g w) (x : ErrorOr α) : Shows g (w.deliver x) := ⟨h.loop, h.nodes, h.size⟩

theorem check_follows (p : Prop) [Decidable p] : Guard.Follows (fun _ _ => p) (check p) (assert p) := by
  unfold check
  by_cases hp : p
  · rw [if_pos hp, assert_pos hp]
    exact .ok hp
  · rw [if_neg hp]
    exact Guard.Follows.error

/-- `if (!isArmed()) armLast()` is `armLast()`. -/
theorem rearm_last (p : Prop) [Decidable p] (w : World α) (i : Nat) :
    (if p ∧ ¬ w.isArmed i then w.armLast i else w) = if p then w.armLast i else w := by
  by_cases harmed : w.isArmed i
  · rw [if_neg (not_and_not_right.mpr fun _ => harmed)]
    obtain ⟨s, hs⟩ := Option.isSome_iff_exists.mp harmed
    rw [World.armLast, EventLoop.armLast_armed hs, ite_self]
  · exact if_congr (and_iff_left harmed) rfl rfl

theorem Shows.childHasFired (h : Shows g w) (i : Nat) :
    Guard.Follows Shows (g.childHasFired i) (w.childHasFired i) := by
  refine (h.get i).bind fun n n' _ hn => ?_
  obtain ⟨-, rfl⟩ := hn
  cases hbody : n.body with
  | adapt storage => exact Guard.Follows.error
  | immediate value retrieved => exact Guard.Follows.error
  | merge appendages nextAppendage => exact Guard.Follows.error
  | queueBuffer child storage maxStore =>
    cases child with
    | none => exact .ok h
    | some child =>
      refine Guard.Follows.ite Iff.rfl (fun _ => ?_) fun _ => .ok h
      refine (h.getResult child).bind fun r r' _ hr => ?_
      obtain ⟨eov, g₁⟩ := r
      obtain ⟨eov', w₁⟩ := r'
      obtain ⟨rfl, h₁⟩ := hr
      have hstored : ∀ g₂ w₂, Shows g₂ w₂ → Guard.Follows Shows (g₂.setBody i (.push eov') >>= fun g => g.armLater i)
          (w₂.setBody i (.push eov') >>= fun w => some (if w.isArmed i then w else w.armLater i)) := by
        intro g₂ w₂ h₂
        refine (h₂.setBody i _).bind fun g₃ w₃ _ h₃ => ?_
        rw [Net.rearm]
        exact h₃.armLater i
      refine Guard.Follows.ite Iff.rfl (fun _ => ?_) fun _ => hstored g₁ w₁ h₁
      exact (h₁.clearChildStorage i).bind fun g₂ w₂ _ h₂ => hstored g₂ w₂ h₂
  | sink child =>
    cases child with
    | none => exact .ok h
    | some child =>
      refine (h.getResult child).bind fun r r' _ hr => ?_
      obtain ⟨dep, g₁⟩ := r
      obtain ⟨dep', w₁⟩ := r'
      obtain ⟨rfl, h₁⟩ := hr
      have h₂ := h₁.deliver dep'
      show Guard.Follows Shows _ (some (if _ ∧ ¬ _ then _ else _))
      rw [rearm_last]
      exact Guard.Follows.ite_some (fun _ => h₂.armLast i) fun _ => .ok h₂
  | appendage child m errorOrValue =>
    refine (check_follows (errorOrValue.isNone = true)).bind fun _ _ _ _ => ?_
    refine (h.getResult child).bind fun r r' _ hr => ?_
    obtain ⟨eov, g₁⟩ := r
    obtain ⟨eov', w₁⟩ := r'
    obtain ⟨rfl, h₁⟩ := hr
    refine (h₁.setBody i _).bind fun g₂ w₂ _ h₂ => ?_
    rw [Net.rearm]
    exact Guard.Follows.bind_left fun _ _ => h₂.armLater m

theorem parentOf_follows (n : Cell α) :
    Guard.Follows (fun p p' => n.parent = some p ∧ p' = p) (parentOf n) n.parent := by
  unfold parentOf
  cases hp : n.parent with
  | none => exact Guard.Follows.error
  | some p => exact .ok ⟨rfl, rfl⟩

/-- The world asks for the parent's space even if nothing is left. -/
theorem Shows.rearm (h : Shows g w) {p k : Nat} (hk : g.space p = .ok k) {x : Except Fault (Graph α)} {w' : World α}
    (hx : Guard.Follows Shows x (some w')) :
    Guard.Follows Shows
      (do
        if (← g.queued i) = 0 then return g
        if 0 < (← g.space p) then x else return g)
      (do return if 0 < (← w.queued i) ∧ 0 < (← w.space p) then w' else w) := by
  refine (h.queued i).bind fun q q' _ hq => ?_
  subst hq
  obtain ⟨k', hk', rfl⟩ := h.space p k hk
  rw [hk, hk']
  by_cases hq : q = 0
  · subst hq
    exact .ok (by simpa using h)
  · show Guard.Follows Shows (if q = 0 then _ else if 0 < k then x else _) (some (if 0 < q ∧ 0 < k then w' else w))
    rw [if_neg hq, if_congr (and_iff_right (Nat.pos_of_ne_zero hq)) rfl rfl]
    exact Guard.Follows.ite_some (fun _ => hx) fun _ => .ok h

theorem Shows.eventParentHasFired (h : Shows g w) (hsafe : Safe g 0 0) (i : Nat) :
    Guard.Follows Shows (g.eventParentHasFired i) (w.eventParentHasFired i) := by
  refine (h.get i).bind fun n n' _ hn => ?_
  obtain ⟨hn, rfl⟩ := hn
  cases hbody : n.body with
  | adapt storage =>
    refine (parentOf_follows n).bind fun p p' _ hp => ?_
    obtain ⟨-, rfl⟩ := hp
    exact (h.space p').bind fun _ _ _ _ => .ok h
  | queueBuffer child storage maxStore =>
    refine (parentOf_follows n).bind fun p p' _ hp => ?_
    obtain ⟨-, rfl⟩ := hp
    refine (h.space p').bind fun k k' _ hk => ?_
    subst hk
    refine Guard.Follows.ite Iff.rfl (fun _ => .ok h) fun _ => ?_
    exact Guard.Follows.ite_some (fun _ => h.armLater i) fun _ => .ok h
  | sink child => exact .ok h
  | immediate value retrieved =>
    refine (parentOf_follows n).bind fun p p' _ hp => ?_
    obtain ⟨-, rfl⟩ := hp
    refine (h.space p').bind fun k k' _ hk => ?_
    subst hk
    refine (check_follows (0 < k)).bind fun _ _ _ _ => ?_
    exact Guard.Follows.ite_some (fun _ => h.armNext i) fun _ => .ok h
  | merge appendages nextAppendage =>
    refine (parentOf_follows n).bind fun p p' _ hp => ?_
    obtain ⟨hp, rfl⟩ := hp
    obtain ⟨k, hk⟩ := hsafe.space hn hp
    exact h.rearm hk (h.armLater i)
  | appendage child m errorOrValue => exact Guard.Follows.error

theorem Shows.parentHasFired (h : Shows g w) (hsafe : Safe g 0 0) (i : Nat) :
    Guard.Follows Shows (g.parentHasFired i) (w.parentHasFired i) := by
  refine (h.get i).bind fun n n' _ hn => ?_
  obtain ⟨-, rfl⟩ := hn
  cases hbody : n.body with
  | appendage child m errorOrValue =>
    cases hchild : n.childStorage with
    | none => exact .ok h
    | some c => exact h.eventParentHasFired hsafe c
  | _ => exact h.eventParentHasFired hsafe i

/-! ## Firing -/

theorem Shows.fireParent (h : Shows g w) (hsafe : Safe g 0 0) (hn : g.cells.lookup i = some n)
    {rearm : Graph α → Nat → Except Fault (Graph α)} {rearm' : World α → Nat → World α}
    (hrearm : ∀ g w, Shows g w → Guard.Follows Shows (rearm g i) (some (rearm' w i))) :
    Guard.Follows Shows (g.fireParent rearm i n.parent) (match n.parent with
      | none => some w
      | some p => do
        let w ← w.childHasFired p
        return if 0 < (← w.queued i) ∧ 0 < (← w.space p) then rearm' w i else w) := by
  unfold Graph.fireParent
  cases hp : n.parent with
  | none => exact .ok h
  | some p =>
    obtain ⟨np, hnp, -⟩ := hsafe.parent hn hp
    refine (h.childHasFired p).bind fun g₁ w₁ hg₁ h₁ => ?_
    obtain ⟨hsafe₁, hframe₁⟩ := (hsafe.childHasFired hnp).result hg₁
    obtain ⟨n₁, hn₁, hsame₁⟩ := hframe₁.same hn trivial
    obtain ⟨k, hk⟩ := hsafe₁.space hn₁ (hsame₁.parent.trans hp)
    exact h₁.rearm hk (hrearm g₁ w₁ h₁)

namespace Adapt

theorem fire_shows (h : Shows g w) (i : Nat) (n : Cell α) :
    Guard.Follows Shows (Adapt.fire g i n) (World.Adapt.fire w i n.toStorageNode) := by
  unfold Adapt.fire World.Adapt.fire
  cases n.parent with
  | none => exact .ok h
  | some p =>
    refine (h.childHasFired p).bind fun g₁ w₁ _ h₁ => ?_
    refine (h₁.queued i).bind fun q q' _ hq => ?_
    subst hq
    exact Guard.Follows.ite_some (fun _ => h₁.armLater i) fun _ => .ok h₁

end Adapt

namespace QueueBuffer

theorem dropCritical_shows (h : Shows g w) (hlt : ∀ i ∈ g.cells, i < g.created) (i : Nat) (n : Cell α) :
    Guard.Follows Shows (dropCritical g i n) (World.QueueBuffer.dropCritical w i n.toStorageNode) := by
  unfold dropCritical World.QueueBuffer.dropCritical
  cases n.body.child with
  | none => exact .ok h
  | some child =>
    cases n.body.queue with
    | nil => exact .ok h
    | cons x xs =>
      refine Guard.Follows.ite Iff.rfl (fun _ => ?_) fun _ => .ok h
      exact (h.resetChild hlt i).bind fun g₁ w₁ _ h₁ => h₁.clearChildStorage i

theorem fire_shows (h : Shows g w) (hsafe : Safe g 0 0) {depth : Nat → Nat} (hranked : g.Ranked depth)
    (hn : g.cells.lookup i = some n) (hmerger : n.body.merger = none)
    (hspared : n.body.drops → ∀ c ∈ n.body.owned, g.Spared c) :
    Guard.Follows Shows (QueueBuffer.fire g i n) (World.QueueBuffer.fire w i n.toStorageNode) := by
  refine (dropCritical_shows h (fun j hj => (hsafe.cells j hj).2) i n).bind fun g₁ w₁ hg₁ h₁ => ?_
  obtain ⟨hsafe₁, -, n₁, hn₁, hparent, hmerger₁⟩ := (dropCritical_spec hsafe hranked hn hmerger hspared).result hg₁
  refine (h₁.space i).bind fun k k' _ hk => ?_
  subst hk
  rw [← hparent]
  refine (h₁.fireParent hsafe₁ hn₁ fun g w h => h.armLater i).bind fun g₂ w₂ hg₂ h₂ => ?_
  obtain ⟨hsafe₂, -⟩ := (hsafe₁.fireParent arms_later hn₁ hmerger₁).result hg₂
  refine (h₂.get i).bind fun n₂ n₂' _ hn₂ => ?_
  obtain ⟨-, rfl⟩ := hn₂
  cases n₂.childStorage with
  | none => exact .ok h₂
  | some c => exact Guard.Follows.ite Iff.rfl (fun _ => .ok h₂) fun _ => h₂.parentHasFired hsafe₂ c

end QueueBuffer

theorem Merge.fire_shows (h : Shows g w) (hsafe : Safe g 0 0) (hn : g.cells.lookup i = some n) :
    Guard.Follows Shows (Merge.fire g i n) (World.Merge.fire w i n.toStorageNode) := by
  refine (h.queued i).bind fun q q' _ hq => ?_
  subst hq
  refine (check_follows (0 < q)).bind fun _ _ _ _ => ?_
  exact h.fireParent hsafe hn fun g w h => h.armLater i

/-- **A node's event**; the world knows no daemon. -/
theorem Shows.fire (h : Shows g w) (hsafe : Safe g 0 0) {depth : Nat → Nat} (hranked : g.Ranked depth)
    (hn : g.cells.lookup i = some n) (hmerger : n.body.merger = none)
    (hspared : n.body.drops → ∀ c ∈ n.body.owned, g.Spared c) (hsink : n.conveyorSink = false) :
    Guard.Follows Shows (g.fire i) (w.fire i) := by
  rw [Graph.fire, World.fire, get_bind hn, h.node hn]
  simp only [Option.bind_eq_bind, Option.bind_some]
  cases hbody : n.body with
  | adapt storage => exact Adapt.fire_shows h i n
  | queueBuffer child storage maxStore => exact QueueBuffer.fire_shows h hsafe hranked hn hmerger hspared
  | sink child =>
    have hfire : Sink.fire g i n = g.resetChild i := by
      rw [Sink.fire, hsink]
      exact bind_pure _
    rw [hfire]
    exact h.resetChild (fun j hj => (hsafe.cells j hj).2) i
  | immediate value retrieved => exact h.fireParent hsafe hn fun g w h => h.armLast i
  | merge appendages nextAppendage => exact Merge.fire_shows h hsafe hn
  | appendage child m errorOrValue => exact Guard.Follows.error

theorem Shows.turn (h : Shows g w) (hsane : Sane g) (hspared : ∀ v ∈ g.victims .turn, g.Spared v)
    (hnode : ∀ e, g.loop.head = some e → ∃ n, g.cells.lookup e = some n ∧ n.conveyorSink = false) :
    Guard.Follows (fun g r => Shows g r.2) g.turn w.turn := by
  obtain ⟨hsafe, depth, hranked⟩ := hsane
  rw [Graph.turn, World.turn, h.loop]
  rcases ht : g.loop.turn with ⟨_ | e, loop⟩
  · exact .ok h
  · obtain ⟨n, hn, hsink⟩ := hnode e (EventLoop.head_of_turn ht)
    obtain ⟨hq, hfires⟩ := hsafe.queue.turn ht
    have he : e ≠ conveyorSinks := fun heq => Nat.ne_of_gt (hsafe.cells e (mem_of_lookup hn)).1 heq
    obtain ⟨n', hn', hmerger⟩ := hfires.resolve_left he
    obtain rfl := Option.some.inj (hn.symm.trans hn')
    refine (h.enter .turn loop).bind_some fun g₁ hg₁ h₁ => ?_
    obtain rfl := Except.ok.inj ((hsafe.queue.enter .turn loop).symm.trans hg₁)
    rw [if_neg he]
    have hlater (c : Nat) (hc : g.Spared c) : ({ g with loop } : Graph α).Spared c := fun a ha =>
      hc a (EventLoop.later_turn ht ha)
    have hdrops : n.body.drops → ∀ c ∈ n.body.owned, ({ g with loop } : Graph α).Spared c := by
      refine fun hdrops c hc => hlater c (hspared c ?_)
      simp only [victims, EventLoop.head_of_turn ht, if_neg he, hn, if_pos hdrops]
      exact hc
    have hranked₁ : ({ g with loop } : Graph α).Ranked depth := hranked
    exact (h₁.fire (hsafe.requeue hq) hranked₁ hn hmerger hdrops hsink).bind_right fun g₂ w₂ _ h₂ => .ok h₂

/-! ## Building -/

theorem Shows.alloc (h : Shows g w) (n : Cell α) : Shows (g.alloc n).2 (w.alloc n.toStorageNode).2 := by
  obtain ⟨hloop, hnodes, hsize⟩ := h.put (i := g.created) n
  refine ⟨hloop, ?_, congrArg (· + 1) h.size⟩
  rw [World.alloc, h.size]
  exact hnodes

theorem Shows.setParent (h : Shows g w) (i p : Nat) : Guard.Follows Shows (g.setParent i p) (w.setParent i p) := by
  refine (h.get i).bind fun n n' _ hn => ?_
  obtain ⟨-, rfl⟩ := hn
  refine (h.queued i).bind fun q q' _ hq => ?_
  subst hq
  have hparent (g₁ : Graph α) (w₁ : World α) (h₁ : Shows g₁ w₁) :
      Guard.Follows Shows (g₁.modify i fun n => { n with parent := some p })
        (w₁.modify i fun n => { n with parent := some p }) := h₁.modify i fun _ => rfl
  refine Guard.Follows.ite (by rw [h.isArmed]) (fun _ => ?_) fun _ => hparent g w h
  refine (check_follows (n.parent = none)).bind fun _ _ _ _ => ?_
  refine (h.space p).bind fun k k' _ hk => ?_
  subst hk
  by_cases hk : 0 < k
  · rw [if_pos hk, if_pos hk]
    exact (h.armLater i).bind fun g₁ w₁ _ h₁ => hparent g₁ w₁ h₁
  · rw [if_neg hk, if_neg hk]
    exact hparent g w h

theorem Shows.hang (h : Shows g w) (c : Conveyor α) (body : StorageBody α) (conveyorSink : Bool) :
    Guard.Follows (fun r w' => r.1 = w.size ∧ Shows r.2 w') (g.hang c body conveyorSink)
      ((w.alloc ⟨none, some c.storage, body⟩).2.setParent c.storage w.size) := by
  rw [h.size, ← bind_pure (World.setParent _ _ _)]
  exact ((h.alloc _).setParent c.storage g.created).bind fun g₁ w₁ _ h₁ => .ok ⟨rfl, h₁⟩

theorem Shows.attach (h : Shows g w) (c : Conveyor α) (m : Nat) :
    Guard.Follows Shows (g.attach c m) (c.attach w m) := by
  refine (h.hang c (.appendage c.node m none) false).bind fun r w₁ _ hr => ?_
  obtain ⟨a, g₁⟩ := r
  obtain ⟨rfl, h₁⟩ := hr
  exact h₁.setBody m _

/-! ## Calls -/

/-- What a call does to the world of the graph: the handles and feeders say which nodes are meant. -/
def performOn (g : Graph α) (w : World α) : Op α → Option (World α)
  | .newConveyorAndFeeder => some (Conveyor.newConveyorAndFeeder w.skip).2.2.skip
  | .ofResult value => some (Conveyor.ofResult w value).2.skip
  | .then _ _ _ => some w
  | .buffer k limit => do
    let c ← (g.conveyorAt k).toOption
    return (← c.buffer w limit).2
  | .sink k => do
    let c ← (g.conveyorAt k).toOption
    return (← c.sink w).2
  | .detach k => do
    let c ← (g.conveyorAt k).toOption
    return (← c.sink w).2
  | .merge k => do
    let c ← (g.conveyorAt k).toOption
    return (← c.merge w).2.2.skip
  | .mergeAttach j k => do
    let c ← (g.conveyorAt k).toOption
    match g.handles.lookup j with
    | some (.merger m) => c.attach w m
    | _ => none
  | .take k => do
    let c ← (g.conveyorAt k).toOption
    return (← c.take w).2
  | .feed f x =>
    match g.feeders.lookup f with
    | some (some i) => some (w.feedResult i x)
    | _ => some w
  | .dropFeeder _ => some w
  | .dropHandle k =>
    match (g.handles.lookup k).bind Handle.root with
    | some i => some (World.destroy w.size w i)
    | none => some w
  | .turn => do return (← w.turn).2

theorem Shows.skip (h : Shows g w) : Shows { g with created := g.created + 1 } w.skip :=
  ⟨h.loop, h.nodes, congrArg (· + 1) h.size⟩

theorem Shows.release (h : Shows g w) (k : Nat) : Shows (g.release k) w := ⟨h.loop, h.nodes, h.size⟩

theorem Shows.hangBuffer (h : Shows g w) (c : Conveyor α) (limit : Nat) :
    Guard.Follows (fun r r' => Shows r.2 r'.2) (g.hang c (.queueBuffer (some c.node) [] limit) false)
      (c.buffer w limit) :=
  (h.hang c _ false).bind_right fun _ _ _ hr => .ok hr.2

theorem Shows.hangSink (h : Shows g w) (c : Conveyor α) (conveyorSink : Bool) :
    Guard.Follows (fun r r' => Shows r.2 r'.2) (g.hang c (.sink (some c.node)) conveyorSink) (c.sink w) :=
  (h.hang c _ conveyorSink).bind_right fun _ _ _ hr => .ok hr.2

theorem Shows.buffer (h : Shows g w) (k limit : Nat) :
    Guard.Follows Shows (g.buffer k limit) (g.performOn w (.buffer k limit)) := by
  refine Guard.Follows.toOption.bind fun c c' _ hc => ?_
  subst hc
  exact ((h.release k).hangBuffer c limit).bind fun r r' _ hr => .ok ⟨hr.loop, hr.nodes, hr.size⟩

theorem Shows.sink (h : Shows g w) (k : Nat) : Guard.Follows Shows (g.sink k) (g.performOn w (.sink k)) := by
  refine Guard.Follows.toOption.bind fun c c' _ hc => ?_
  subst hc
  exact ((h.release k).hangSink c false).bind fun r r' _ hr => .ok ⟨hr.loop, hr.nodes, hr.size⟩

theorem Shows.detach (h : Shows g w) (k : Nat) : Guard.Follows Shows (g.detach k) (g.performOn w (.detach k)) := by
  refine Guard.Follows.toOption.bind fun c c' _ hc => ?_
  subst hc
  exact ((h.release k).hangSink c true).bind fun r r' _ hr => .ok ⟨hr.loop, hr.nodes, hr.size⟩

theorem Shows.merge (h : Shows g w) (k : Nat) :
    Guard.Follows (fun r w' => Shows r.2 w') (g.merge k) (g.performOn w (.merge k)) := by
  refine Guard.Follows.toOption.bind fun c c' _ hc => ?_
  subst hc
  have hmerge : Guard.Follows (fun g₁ r => r.2.1 = g.created ∧ Shows g₁ r.2.2)
      (((g.release k).alloc ⟨⟨none, none, .merge [] 0⟩, none, false⟩).2.attach c g.created) (c.merge w) := by
    refine Guard.Follows.bind_right (R := Shows) ?_ fun g₁ w₁ _ h₁ => .ok ⟨h.size, h₁⟩
    rw [← h.size]
    exact ((h.release k).alloc ⟨⟨none, none, .merge [] 0⟩, none, false⟩).attach c w.size
  exact hmerge.bind fun g₁ r _ hr => .ok ⟨hr.2.loop, hr.2.nodes, congrArg (· + 1) hr.2.size⟩

theorem Shows.mergeAttach (h : Shows g w) (j k : Nat) :
    Guard.Follows Shows (g.mergeAttach j k) (g.performOn w (.mergeAttach j k)) := by
  refine Guard.Follows.toOption.bind fun c c' _ hc => ?_
  subst hc
  rcases g.handles.lookup j with _ | hd
  · exact Guard.Follows.error
  · cases hd with
    | merger m => exact Guard.Follows.bind_left fun _ _ => (h.release k).attach c m
    | _ => exact Guard.Follows.error

theorem Shows.take (h : Shows g w) (k : Nat) :
    Guard.Follows (fun r r' => r.1 = .result r'.1 ∧ Shows r.2 r'.2) (g.take k)
      (do (← (g.conveyorAt k).toOption).take w) := by
  refine Guard.Follows.toOption.bind fun c c' _ hc => ?_
  subst hc
  refine (h.queued c.storage).bind fun q q' _ hq => ?_
  subst hq
  refine Guard.Follows.ite Iff.rfl (fun _ => ?_) fun _ => .ok ⟨rfl, h⟩
  refine (h.getResult c.node).bind fun r r' _ hr => .ok ⟨?_, hr.2.deliver r'.1⟩
  rw [hr.1]

theorem Shows.feed (h : Shows g w) (f : Nat) (x : ErrorOr α) :
    Guard.Follows Shows (g.feed f x) (g.performOn w (.feed f x)) := by
  unfold Graph.feed
  cases hf : g.feeders.lookup f with
  | none => exact Guard.Follows.error
  | some feedee =>
    rw [performOn, hf]
    cases feedee with
    | none => exact .ok h
    | some i =>
      intro g' hg'
      cases hset : g.setBody i (.push x) with
      | error e =>
        simp only [hset] at hg'
        cases hg'
      | ok g₁ =>
        obtain ⟨w₁, hw₁, h₁⟩ := h.setBody i _ g₁ hset
        simp only [hset] at hg'
        simp only [World.feedResult, hw₁]
        exact h₁.armNext i g' hg'

theorem Shows.dropFeeder (h : Shows g w) (f : Nat) : Guard.Follows Shows (g.dropFeeder f) (some w) := by
  unfold Graph.dropFeeder
  rcases g.feeders.lookup f with _ | _ | i
  · exact Guard.Follows.error
  · exact .ok ⟨h.loop, h.nodes, h.size⟩
  · refine Guard.Follows.bind_left fun g₁ hg₁ => ?_
    cases hn : g.cells.lookup i with
    | none =>
      rw [Graph.modify, Graph.get, hn] at hg₁
      cases hg₁
    | some n =>
      obtain rfl := Except.ok.inj ((modify_eq hn _).symm.trans hg₁)
      have hleft := h.unfeed hn
      exact .ok ⟨hleft.loop, hleft.nodes, hleft.size⟩

theorem Shows.dropHandle (h : Shows g w) (hlt : ∀ i ∈ g.cells, i < g.created) (k : Nat) :
    Guard.Follows Shows (g.dropHandle k) (g.performOn w (.dropHandle k)) := by
  unfold Graph.dropHandle
  cases hk : g.handles.lookup k with
  | none => exact Guard.Follows.error
  | some hd =>
    rw [performOn, hk]
    cases hd with
    | conveyor c => exact (h.release k).drop hlt c.node.base
    | sink i => exact (h.release k).drop hlt i
    | merger m => exact .ok (h.release k)

/-- The next event is a node's, and not that of a sink of the daemon. -/
def Plain (g : Graph α) : Op α → Prop
  | .turn => ∀ e, g.loop.head = some e → ∃ n, g.cells.lookup e = some n ∧ n.conveyorSink = false
  | _ => True

/-- **A call of a graph is that of a world**, as long as the daemon does not drop its sinks. -/
theorem Shows.perform (h : Shows g w) (hsane : Sane g) {op : Op α} (hcareful : g.Careful op) (hplain : g.Plain op) :
    Guard.Follows (fun r w' => Shows r.2 w') (g.perform op) (g.performOn w op) := by
  have hlt : ∀ i ∈ g.cells, i < g.created := fun i hi => (hsane.1.cells i hi).2
  have hdone {x : Except Fault (Graph α)} {y : Option (World α)} (hx : Guard.Follows Shows x y) :
      Guard.Follows (fun r w' => Shows r.2 w') (do return (Reply.done (α := α), ← x)) y := by
    rw [← bind_pure y]
    exact hx.bind fun g₁ w₁ _ h₁ => .ok h₁
  cases op with
  | newConveyorAndFeeder =>
    have halloc := h.skip.alloc ⟨⟨none, none, .adapt []⟩, some g.created, false⟩
    exact .ok ⟨halloc.loop, halloc.nodes, congrArg (· + 1) halloc.size⟩
  | ofResult value =>
    have halloc := h.alloc ⟨⟨none, none, .immediate value 0⟩, none, false⟩
    exact .ok ⟨halloc.loop, halloc.nodes, congrArg (· + 1) halloc.size⟩
  | «then» k func errorFunc =>
    exact Guard.Follows.bind_left fun c _ => .ok ⟨h.loop, h.nodes, h.size⟩
  | buffer k limit => exact hdone (h.buffer k limit)
  | sink k => exact hdone (h.sink k)
  | detach k => exact hdone (h.detach k)
  | merge k => exact h.merge k
  | mergeAttach j k => exact hdone (h.mergeAttach j k)
  | take k =>
    have htake : Guard.Follows (fun r w' => Shows r.2 w') (g.take k)
        ((do (← (g.conveyorAt k).toOption).take w) >>= fun r => some r.2) :=
      (h.take k).bind_right fun r r' _ hr => .ok hr.2
    rwa [bind_assoc] at htake
  | feed f x => exact hdone (h.feed f x)
  | dropFeeder f => exact hdone (h.dropFeeder f)
  | dropHandle k => exact hdone (h.dropHandle hlt k)
  | turn => exact hdone ((h.turn hsane hcareful.2 hplain).bind_right fun _ _ _ h₁ => .ok h₁)

/-- A graph with a world next to it, which takes the calls that go through. -/
def stepBoth (s : Graph α × World α) (op : Op α) : Option (Except Fault (Reply α) × Graph α × World α) := do
  let (o, g) ← s.1.step op
  match o with
  | .ok _ => return (o, g, ← s.1.performOn s.2 op)
  | .error _ => return (o, g, s.2)

theorem Shows.step (h : Shows g w) (hsane : Sane g) {op : Op α} (hcareful : g.Careful op) (hplain : g.Plain op)
    {o : Except Fault (Reply α)} {g' : Graph α} (hstep : g.step op = some (o, g')) :
    ∃ w', stepBoth (g, w) op = some (o, g', w') ∧ Shows g' w' := by
  have hperform := h.perform hsane hcareful hplain
  simp only [stepBoth, hstep, Option.bind_eq_bind, Option.bind_some]
  unfold Graph.step at hstep
  cases hr : g.perform op with
  | ok r =>
    rw [hr] at hstep
    obtain ⟨rfl, rfl⟩ := Prod.mk.inj (Option.some.inj hstep)
    obtain ⟨w', hw', h'⟩ := hperform r hr
    simp only [hw']
    exact ⟨w', rfl, h'⟩
  | error fault =>
    rw [hr] at hstep
    cases fault with
    | notHeld =>
      obtain ⟨rfl, rfl⟩ := Prod.mk.inj (Option.some.inj hstep)
      exact ⟨w, rfl, h⟩
    | _ => cases hstep

theorem shows_new : Shows (new : Graph α) World.new.skip := ⟨rfl, fun _ => rfl, rfl⟩

/-- **Runs of a graph are runs of a world**: the world's steps go through as well. -/
theorem run_shows {ops : List (Op α)} (hcareful : Run.Along Graph.step Careful new ops)
    (hplain : Run.Along Graph.step Plain new ops) {answers g}
    (hrun : Run.exec Graph.step new ops = some (answers, g)) :
    ∃ w, Run.exec stepBoth (new, World.new.skip) ops = some (answers, g, w) ∧ Shows g w := by
  have hstep (g : Graph α) (s : Graph α × World α) (op : Op α) (o : Except Fault (Reply α)) (g' : Graph α)
      (h : Sane g ∧ s.1 = g ∧ Shows g s.2) (hop : g.Careful op ∧ g.Plain op) (hstep : g.step op = some (o, g')) :
      ∃ s', stepBoth s op = some (o, s') ∧ Sane g' ∧ s'.1 = g' ∧ Shows g' s'.2 := by
    obtain ⟨g₁, w⟩ := s
    obtain ⟨hsane, rfl, hshows⟩ := h
    obtain ⟨w', hboth, hshows'⟩ := hshows.step hsane hop.1 hop.2 hstep
    exact ⟨(g', w'), hboth, hsane.step hop.1 hstep, rfl, hshows'⟩
  obtain ⟨⟨g', w⟩, hboth, -, rfl, hshows⟩ := Run.exec_simulates _ _ hstep ops new (new, World.new.skip)
    ⟨sane_new, rfl, shows_new⟩ (hcareful.and hplain) hrun
  exact ⟨w, hboth, hshows⟩

end

end Graph

end Forstio
