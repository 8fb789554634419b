import Forstio.GraphDestroy

/-!
# Signals and firing

A signal up or down, or a pull, follows pointers to nodes that are there and loses none
of them. Only a critical error at a buffer and a sink destroy: both what is below them,
so that they and their parents are still there afterwards.
-/

namespace Forstio

namespace StorageBody

variable {α : Type}

/-- Buffers and sinks can give their child up; the others have none, but for an appendage. -/
theorem dropChild_of_child {b : StorageBody α} {l : ConveyorNode α} (h : b.child = some l) (hm : b.merger = none) :
    b.owned = [l.base] ∧ b.dropChild.child = none ∧ b.dropChild.owned = [] ∧ b.dropChild.merger = b.merger ∧
      b.dropChild.isMerge = b.isMerge := by
  cases b with
  | queueBuffer child storage maxStore =>
    obtain rfl : child = some l := h
    exact ⟨rfl, rfl, rfl, rfl, rfl⟩
  | sink child =>
    obtain rfl : child = some l := h
    exact ⟨rfl, rfl, rfl, rfl, rfl⟩
  | appendage child m errorOrValue => cases hm
  | _ => cases h

theorem drops_of_critical {b : StorageBody α} {l : ConveyorNode α} {x : ErrorOr α} {xs : List (ErrorOr α)}
    (hm : b.merger = none) (hchild : b.child = some l) (hqueue : b.queue = x :: xs) (hx : x.isCritical) : b.drops := by
  cases b with
  | queueBuffer child storage maxStore =>
    obtain rfl : child = some l := hchild
    obtain rfl : storage = x :: xs := hqueue
    exact hx
  | sink child => rfl
  | appendage child m errorOrValue => cases hm
  | _ => cases hchild

theorem alike_dropChild {b : StorageBody α} (h : b.child = none) : b.Alike b.dropChild := by
  cases b with
  | queueBuffer child storage maxStore =>
    obtain rfl : child = none := h
    exact .refl _
  | sink child =>
    obtain rfl : child = none := h
    exact .refl _
  | _ => exact .refl _

end StorageBody

namespace Graph

variable {α : Type}

section
variable {g : Graph α} {i : Nat} {n : Cell α}

/-! ## Pointers up -/

theorem Safe.parent (h : Safe g 0 0) (hn : g.cells.lookup i = some n) {p : Nat} (hp : n.parent = some p) :
    ∃ np, g.cells.lookup p = some np ∧ i ∈ np.body.owned := by
  have hup : p ∈ n.ups := List.mem_append.mpr (Or.inl (Option.mem_toList.mpr hp))
  obtain ⟨np, hnp, howner⟩ := h.ups i n hn p hup
  exact ⟨np, hnp, (howner.resolve_left (Multiset.notMem_zero i)).2⟩

theorem Safe.merger (h : Safe g 0 0) (hn : g.cells.lookup i = some n) {m : Nat} (hm : n.body.merger = some m) :
    ∃ nm, g.cells.lookup m = some nm ∧ nm.body.merger = none := by
  have hup : m ∈ n.ups := List.mem_append.mpr (Or.inr (Option.mem_toList.mpr hm))
  obtain ⟨nm, hnm, howner⟩ := h.ups i n hn m hup
  refine ⟨nm, hnm, ?_⟩
  have hown := (howner.resolve_left (Multiset.notMem_zero i)).2
  cases hbody : nm.body with
  | appendage child m' errorOrValue =>
    have hchild : nm.body.child = some child := by rw [hbody, StorageBody.child]
    obtain ⟨nl, hnl, hnone⟩ := h.child m nm child hnm (Multiset.notMem_zero m) hchild
    rw [hbody] at hown
    obtain rfl : i = child.base := List.mem_singleton.mp hown
    obtain rfl := Option.some.inj (hn.symm.trans hnl)
    rw [hm] at hnone
    cases hnone
  | _ => rfl

theorem parentOf_avoids (n : Cell α) : Guard.Avoids Fault.dangling (parentOf n) fun p => n.parent = some p := by
  unfold parentOf
  split
  next p hp => exact hp
  next => exact Guard.Avoids.error nofun

theorem check_avoids (p : Prop) [Decidable p] : Guard.Avoids Fault.dangling (check p) fun _ => p := by
  unfold check
  split
  next hp => exact hp
  next => exact Guard.Avoids.error nofun

theorem Safe.space (h : Safe g 0 0) (hn : g.cells.lookup i = some n) {p : Nat} (hp : n.parent = some p) :
    ∃ k, g.space p = .ok k := by
  obtain ⟨np, hnp, -⟩ := h.parent hn hp
  exact ⟨_, space_eq hnp⟩

theorem Calm.ite {x y : Except Fault (Graph α)} {p : Prop} [Decidable p] (hx : Calm g x) (hy : Calm g y) :
    Calm g (if p then x else y) := by
  split
  · exact hx
  · exact hy

/-! ## Signals -/

theorem Safe.calm_stored (h : Safe g 0 0) (hn : g.cells.lookup i = some n) (hmerger : n.body.merger = none)
    (eov : ErrorOr α) : Calm g (g.setBody i (.push eov) >>= fun g => g.armLater i) := by
  refine Calm.bind (h.calm_setBody hn (StorageBody.alike_push eov _)) fun g₁ h₁ hframe₁ => ?_
  obtain ⟨n₁, hn₁, hsame₁⟩ := hframe₁.same hn trivial
  exact h₁.calm_later hn₁ (hsame₁.body.merger.trans hmerger)

theorem Safe.calm_slot (h : Safe g 0 0) {child : ConveyorNode α} {m : Nat} (hn : g.cells.lookup i = some n)
    (halike : (StorageBody.appendage child m none).Alike n.body) (eov : ErrorOr α) :
    Calm g (do
      let g ← g.setBody i fun _ => .appendage child m (some eov)
      let _ ← g.get m
      g.armLater m) := by
  have hbody : n.body.Alike (.appendage child m (some eov)) :=
    ⟨halike.child.symm, halike.owned.symm, halike.merger.symm, halike.isMerge.symm⟩
  refine Calm.bind (h.calm_setBody hn hbody) fun g₁ h₁ hframe₁ => ?_
  obtain ⟨n₁, hn₁, hsame₁⟩ := hframe₁.same hn trivial
  have hm : n₁.body.merger = some m := hsame₁.body.merger.trans halike.merger
  obtain ⟨nm, hnm, hnone⟩ := h₁.merger hn₁ hm
  rw [get_bind hnm]
  exact h₁.calm_later hnm hnone

theorem Safe.childHasFired (h : Safe g 0 0) (hn : g.cells.lookup i = some n) : Calm g (g.childHasFired i) := by
  rw [Graph.childHasFired, get_bind hn]
  have hpull {l : ConveyorNode α} (hl : n.body.child = some l) : Pulls g (g.getResult l) := by
    obtain ⟨nl, hnl, hmerger⟩ := h.child i n l hn (Multiset.notMem_zero i) hl
    exact h.getResult l hnl hmerger
  cases hbody : n.body with
  | adapt storage => exact Guard.Avoids.error nofun
  | immediate value retrieved => exact Guard.Avoids.error nofun
  | merge appendages nextAppendage => exact Guard.Avoids.error nofun
  | queueBuffer child storage maxStore =>
    cases child with
    | none => exact h.calm
    | some child =>
      refine Calm.ite ?_ h.calm
      refine (hpull (by rw [hbody, StorageBody.child])).calm fun eov g₁ h₁ hframe₁ => ?_
      obtain ⟨n₁, hn₁, hsame₁⟩ := hframe₁.same hn trivial
      have hmerger : n₁.body.merger = none := hsame₁.body.merger.trans (by rw [hbody]; rfl)
      -- a critical error cuts the buffer off first
      show Calm g₁ (if eov.isCritical then _ else _)
      split
      · refine Calm.bind (h₁.calm_clearChildStorage hn₁) fun g₂ h₂ hframe₂ => ?_
        obtain ⟨n₂, hn₂, hsame₂⟩ := hframe₂.same hn₁ trivial
        exact h₂.calm_stored hn₂ (hsame₂.body.merger.trans hmerger) eov
      · exact h₁.calm_stored hn₁ hmerger eov
  | sink child =>
    cases child with
    | none => exact h.calm
    | some child =>
      refine (hpull (by rw [hbody, StorageBody.child])).calm fun dep g₁ h₁ hframe₁ => ?_
      obtain ⟨n₁, hn₁, hsame₁⟩ := hframe₁.same hn trivial
      have hmerger : n₁.body.merger = none := hsame₁.body.merger.trans (by rw [hbody]; rfl)
      exact Calm.ite (h₁.calm_arm arms_last (Or.inr ⟨n₁, hn₁, hmerger⟩)) h₁.calm
  | appendage child m errorOrValue =>
    refine Guard.Avoids.bind (check_avoids (errorOrValue.isNone = true)) fun _ _ => ?_
    refine (hpull (by rw [hbody, StorageBody.child])).calm fun eov g₁ h₁ hframe₁ => ?_
    obtain ⟨n₁, hn₁, hsame₁⟩ := hframe₁.same hn trivial
    have halike : (StorageBody.appendage child m none).Alike n.body := by
      rw [hbody]
      exact ⟨rfl, rfl, rfl, rfl⟩
    exact h₁.calm_slot hn₁ (halike.trans hsame₁.body) eov

theorem Safe.eventParentHasFired (h : Safe g 0 0) (hn : g.cells.lookup i = some n) (hmerger : n.body.merger = none) :
    Calm g (g.eventParentHasFired i) := by
  rw [Graph.eventParentHasFired, get_bind hn]
  have hi : g.Fires i := Or.inr ⟨n, hn, hmerger⟩
  have harm := h.calm_arm arms_later hi
  cases hbody : n.body with
  | adapt storage =>
    refine Guard.Avoids.bind (parentOf_avoids n) fun p hp => ?_
    obtain ⟨k, hk⟩ := h.space hn hp
    exact Guard.Avoids.of_ok hk h.calm
  | queueBuffer child storage maxStore =>
    refine Guard.Avoids.bind (parentOf_avoids n) fun p hp => ?_
    obtain ⟨k, hk⟩ := h.space hn hp
    exact Guard.Avoids.of_ok hk (Calm.ite h.calm (Calm.ite harm h.calm))
  | sink child => exact h.calm
  | immediate value retrieved =>
    refine Guard.Avoids.bind (parentOf_avoids n) fun p hp => ?_
    obtain ⟨k, hk⟩ := h.space hn hp
    refine Guard.Avoids.of_ok hk (Guard.Avoids.bind (check_avoids (0 < k)) fun _ _ => ?_)
    exact Calm.ite (h.calm_arm arms_next hi) h.calm
  | merge appendages nextAppendage =>
    refine Guard.Avoids.bind (parentOf_avoids n) fun p hp => ?_
    obtain ⟨q, hq⟩ := h.queued hn
    obtain ⟨k, hk⟩ := h.space hn hp
    exact Guard.Avoids.of_ok hq (Calm.ite h.calm (Guard.Avoids.of_ok hk (Calm.ite harm h.calm)))
  | appendage child m errorOrValue =>
    rw [hbody] at hmerger
    cases hmerger

theorem Safe.parentHasFired (h : Safe g 0 0) (hn : g.cells.lookup i = some n) : Calm g (g.parentHasFired i) := by
  rw [Graph.parentHasFired, get_bind hn]
  have hevent := h.eventParentHasFired hn
  cases hbody : n.body with
  | appendage child m errorOrValue =>
    cases hchild : n.childStorage with
    | none => exact h.calm
    | some c =>
      obtain ⟨nc, hnc, -, hmerger⟩ := h.down i n c hn hchild
      exact h.eventParentHasFired hnc hmerger
  | _ =>
    refine hevent ?_
    rw [hbody]
    rfl

theorem Safe.fireParent (h : Safe g 0 0) {rearm : Graph α → Nat → Except Fault (Graph α)} (harms : Arms rearm)
    (hn : g.cells.lookup i = some n) (hmerger : n.body.merger = none) : Calm g (g.fireParent rearm i n.parent) := by
  unfold Graph.fireParent
  split
  next => exact h.calm
  next p hp =>
    obtain ⟨np, hnp, -⟩ := h.parent hn hp
    refine Calm.bind (h.childHasFired hnp) fun g₁ h₁ hframe₁ => ?_
    obtain ⟨n₁, hn₁, hsame₁⟩ := hframe₁.same hn trivial
    obtain ⟨q, hq⟩ := h₁.queued hn₁
    obtain ⟨k, hk⟩ := h₁.space hn₁ (hsame₁.parent.trans hp)
    refine Guard.Avoids.of_ok hq (Calm.ite h₁.calm (Guard.Avoids.of_ok hk (Calm.ite ?_ h₁.calm)))
    exact h₁.calm_arm harms (Or.inr ⟨n₁, hn₁, hsame₁.body.merger.trans hmerger⟩)

/-! ## Firing -/

/-- A call that follows no dangling pointer, and may destroy. -/
def Fine (depth : Nat → Nat) (x : Except Fault (Graph α)) : Prop :=
  Guard.Avoids .dangling x fun g' => Safe g' 0 0 ∧ g'.Ranked depth

variable {depth : Nat → Nat}

theorem Calm.fine {x : Except Fault (Graph α)} (hx : Calm g x) (hranked : g.Ranked depth) : Fine depth x :=
  Guard.Avoids.mono hx fun _ hg' => ⟨hg'.1, hg'.2.ranked hranked⟩

theorem below_put {n' : Cell α} (hn : g.cells.lookup i = some n) (hsub : ∀ c ∈ n'.body.owned, c ∈ n.body.owned)
    {a b : Nat} (hbelow : (g.put i n').Below a b) : g.Below a b := by
  induction hbelow with
  | refl => exact .refl
  | tail _ howns ih =>
    obtain ⟨nj, hj, hown⟩ := howns
    rw [lookup_put] at hj
    split at hj
    next heq =>
      obtain rfl := Option.some.inj hj
      rw [heq] at ih
      exact ih.tail ⟨n, hn, hsub _ hown⟩
    next => exact ih.tail ⟨nj, hj, hown⟩

theorem Safe.resetChild (h : Safe g 0 0) (hranked : g.Ranked depth) (hn : g.cells.lookup i = some n)
    (hmerger : n.body.merger = none) (hspared : ∀ c ∈ n.body.owned, g.Spared c) :
    Guard.Avoids .dangling (g.resetChild i) fun g' => Safe g' 0 0 ∧ g'.Ranked depth ∧
      ∃ n', g'.cells.lookup i = some n' ∧ n'.parent = n.parent ∧ n'.body.merger = none := by
  rw [Graph.resetChild, get_bind hn]
  refine Guard.Avoids.of_ok (modify_eq hn _) ?_
  have hself (n' : Cell α) : (g.put i n').cells.lookup i = some n' := (lookup_put g i i n').trans (if_pos rfl)
  cases hchild : n.body.child with
  | none =>
    have hsame := same_setBody (StorageBody.alike_dropChild hchild)
    exact ⟨h.put hn hsame rfl, (Frame.put (fun _ => True) hn hsame).ranked hranked, _, hself _, rfl,
      hsame.body.merger.trans hmerger⟩
  | some l =>
    obtain ⟨howned, hnochild, hnone, hsame, hmerge⟩ := StorageBody.dropChild_of_child hchild hmerger
    have hsafe := h.giveUp hn howned hnochild hnone hsame hmerge
    have hranked' : (g.put i { n with body := n.body.dropChild }).Ranked depth := by
      intro j nj hj
      rw [lookup_put] at hj
      split at hj
      next heq =>
        subst heq
        obtain rfl := Option.some.inj hj
        refine ⟨?_, fun c hc => ?_⟩
        · unfold Cell.ups
          rw [hsame]
          exact (hranked j n hn).1
        · rw [hnone] at hc
          cases hc
      next => exact hranked j nj hj
    have hmem : l.base ∈ n.body.owned := StorageBody.mem_owned_child hchild
    have hbelow : depth i < depth l.base := (hranked i n hn).2 l.base hmem
    have hspared' : (g.put i { n with body := n.body.dropChild }).Spared l.base := by
      refine fun e he hbelow => hspared l.base hmem e he (below_put hn (fun c hc => ?_) hbelow)
      rw [hnone] at hc
      cases hc
    refine Guard.Avoids.mono (hsafe.drop hranked' (.zero _ depth l.base) hspared') fun g' hg' => ?_
    obtain ⟨n', hn', hsame'⟩ := hg'.2.1.same (hself _) hbelow
    exact ⟨hg'.1, hg'.2.1.ranked hranked', n', hn', hsame'.parent, hsame'.body.merger.trans (hsame.trans hmerger)⟩

namespace Adapt

theorem fire_calm (h : Safe g 0 0) (hn : g.cells.lookup i = some n) (hmerger : n.body.merger = none) :
    Calm g (Adapt.fire g i n) := by
  unfold Adapt.fire
  split
  next => exact h.calm
  next p hp =>
    obtain ⟨np, hnp, -⟩ := h.parent hn hp
    refine Calm.bind (h.childHasFired hnp) fun g₁ h₁ hframe₁ => ?_
    obtain ⟨n₁, hn₁, hsame₁⟩ := hframe₁.same hn trivial
    obtain ⟨q, hq⟩ := h₁.queued hn₁
    exact Guard.Avoids.of_ok hq (Calm.ite (h₁.calm_later hn₁ (hsame₁.body.merger.trans hmerger)) h₁.calm)

end Adapt

namespace QueueBuffer

theorem dropCritical_spec (h : Safe g 0 0) (hranked : g.Ranked depth) (hn : g.cells.lookup i = some n)
    (hmerger : n.body.merger = none) (hspared : n.body.drops → ∀ c ∈ n.body.owned, g.Spared c) :
    Guard.Avoids .dangling (dropCritical g i n) fun g' => Safe g' 0 0 ∧ g'.Ranked depth ∧
      ∃ n', g'.cells.lookup i = some n' ∧ n'.parent = n.parent ∧ n'.body.merger = none := by
  unfold dropCritical
  split
  next child x xs hchild hqueue =>
    split
    next hcritical =>
      have hdrops := StorageBody.drops_of_critical hmerger hchild hqueue hcritical
      refine Guard.Avoids.bind (h.resetChild hranked hn hmerger (hspared hdrops)) fun g₁ h₁ => ?_
      obtain ⟨h₁, hranked₁, n₁, hn₁, hparent, hnone⟩ := h₁
      refine Guard.Avoids.mono (h₁.calm_clearChildStorage hn₁) fun g₂ h₂ => ?_
      obtain ⟨n₂, hn₂, hsame₂⟩ := h₂.2.same hn₁ trivial
      exact ⟨h₂.1, h₂.2.ranked hranked₁, n₂, hn₂, hsame₂.parent.trans hparent, hsame₂.body.merger.trans hnone⟩
    next => exact ⟨h, hranked, n, hn, rfl, hmerger⟩
  next => exact ⟨h, hranked, n, hn, rfl, hmerger⟩

theorem fire_fine (h : Safe g 0 0) (hranked : g.Ranked depth) (hn : g.cells.lookup i = some n)
    (hmerger : n.body.merger = none) (hspared : n.body.drops → ∀ c ∈ n.body.owned, g.Spared c) :
    Fine depth (QueueBuffer.fire g i n) := by
  refine Guard.Avoids.bind (dropCritical_spec h hranked hn hmerger hspared) fun g₁ h₁ => ?_
  obtain ⟨h₁, hranked₁, n₁, hn₁, hparent, hnone⟩ := h₁
  refine Guard.Avoids.of_ok (space_eq hn₁) ?_
  refine Calm.fine ?_ hranked₁
  rw [← hparent]
  refine Calm.bind (h₁.fireParent arms_later hn₁ hnone) fun g₂ h₂ hframe₂ => ?_
  obtain ⟨n₂, hn₂, hsame₂⟩ := hframe₂.same hn₁ trivial
  rw [get_bind hn₂]
  split
  next => exact h₂.calm
  next c hc =>
    refine Calm.ite h₂.calm ?_
    obtain ⟨nc, hnc, -⟩ := h₂.down i n₂ c hn₂ hc
    exact h₂.parentHasFired hnc

end QueueBuffer

theorem Safe.destroySinkConveyorNode (h : Safe g 0 0) (i : Nat) :
    ∃ g', g.destroySinkConveyorNode i = .ok g' ∧ Safe g' 0 0 ∧ g'.cells = g.cells := by
  obtain ⟨loop, harm, hq, -⟩ := arms_last.armed h.queue (Or.inl rfl)
  have hdestroy : g.destroySinkConveyorNode i = .ok { g with loop, deleteNodes := g.deleteNodes ++ [i] } := by
    rw [Graph.destroySinkConveyorNode, harm]
    rfl
  refine ⟨_, hdestroy, ?_, rfl⟩
  exact ⟨h.counted, h.created, h.cells, h.handles, h.feeders, h.ups, h.down, h.child, h.conveyors, h.mergers, h.feedees,
    h.feeder, hq⟩

namespace Sink

theorem fire_fine (h : Safe g 0 0) (hranked : g.Ranked depth) (hn : g.cells.lookup i = some n)
    (hmerger : n.body.merger = none) (hspared : ∀ c ∈ n.body.owned, g.Spared c) : Fine depth (Sink.fire g i n) := by
  refine Guard.Avoids.bind (h.resetChild hranked hn hmerger hspared) fun g₁ h₁ => ?_
  obtain ⟨h₁, hranked₁, n₁, hn₁, -, -⟩ := h₁
  refine Guard.Avoids.ite (fun _ => ?_) fun _ => ⟨h₁, hranked₁⟩
  obtain ⟨g₂, hdestroy, h₂, hcells⟩ := h₁.destroySinkConveyorNode i
  refine Guard.Avoids.of_ok hdestroy ?_
  have hsame : n₁.Same { n₁ with conveyorSink := false } := ⟨rfl, Or.inl rfl, Or.inl rfl, .refl _⟩
  have hn₂ : g₂.cells.lookup i = some n₁ := by rwa [hcells]
  have hranked₂ : g₂.Ranked depth := by
    intro j nj hj
    rw [hcells] at hj
    exact hranked₁ j nj hj
  rw [modify_eq hn₂]
  exact ⟨h₂.put hn₂ hsame rfl, (Frame.put (fun _ => True) hn₂ hsame).ranked hranked₂⟩

end Sink

/-- **A node's event.** -/
theorem Safe.fire (h : Safe g 0 0) (hranked : g.Ranked depth) (hn : g.cells.lookup i = some n)
    (hmerger : n.body.merger = none) (hspared : n.body.drops → ∀ c ∈ n.body.owned, g.Spared c) :
    Fine depth (g.fire i) := by
  rw [Graph.fire, get_bind hn]
  cases hbody : n.body with
  | adapt storage => exact (Adapt.fire_calm h hn hmerger).fine hranked
  | queueBuffer child storage maxStore => exact QueueBuffer.fire_fine h hranked hn hmerger hspared
  | sink child => exact Sink.fire_fine h hranked hn hmerger (hspared (by rw [hbody]; rfl))
  | immediate value retrieved => exact (h.fireParent arms_last hn hmerger).fine hranked
  | merge appendages nextAppendage =>
    obtain ⟨q, hq⟩ := h.queued hn
    refine Guard.Avoids.of_ok hq (Guard.Avoids.bind (check_avoids (0 < q)) fun _ _ => ?_)
    exact (h.fireParent arms_later hn hmerger).fine hranked
  | appendage child m errorOrValue =>
    rw [hbody] at hmerger
    cases hmerger

/-! ## The daemon -/

theorem removeNode_perm {sinkNodes : List (Option Nat)} (hnodup : (sinkNodes.filterMap id).Nodup) (node : Nat) :
    (((sinkNodes.filterMap id).filter fun i => some i ∉ Daemon.removeNode sinkNodes node) ++
      (Daemon.removeNode sinkNodes node).filterMap id).Perm (sinkNodes.filterMap id) := by
  have hle : List.Subperm ((Daemon.removeNode sinkNodes node).filterMap id) (sinkNodes.filterMap id) :=
    RemoveIf.removeIf_owned sinkNodes
  have hmem (i : Nat) : i ∈ (Daemon.removeNode sinkNodes node).filterMap id ↔ some i ∈ Daemon.removeNode sinkNodes node := by
    simp
  refine (List.perm_ext_iff_of_nodup ?_ hnodup).mpr fun i => ?_
  · refine (hnodup.filter _).append (Multiset.coe_nodup.mp (Multiset.nodup_of_le (Multiset.coe_le.mpr hle) hnodup)) ?_
    intro i hmoved hkept
    exact of_decide_eq_true (List.mem_filter.mp hmoved).2 ((hmem i).mp hkept)
  · rw [List.mem_append, List.mem_filter, decide_eq_true_iff, ← hmem i]
    constructor
    · intro hi
      rcases hi with hmoved | hkept
      · exact hmoved.1
      · exact hle.subset hkept
    · intro hi
      by_cases hkept : i ∈ (Daemon.removeNode sinkNodes node).filterMap id
      · exact Or.inr hkept
      · exact Or.inl ⟨hi, hkept⟩

theorem Safe.root_ups {H D : Multiset Nat} (h : Safe g H D) (hi : i ∈ g.held) (hn : g.cells.lookup i = some n) :
    n.ups = [] := by
  refine List.eq_nil_iff_forall_not_mem.mpr fun u hu => ?_
  obtain ⟨nu, hnu, howner⟩ := h.ups i n hn u hu
  rcases howner with hmem | hmem
  · exact Multiset.disjoint_left.mp (Multiset.nodup_add.mp (Multiset.nodup_add.mp h.nodup).1).2.2 hmem hi
  · exact (h.owned_apart hnu hmem.1 hmem.2).2 hi

theorem drops_spec {rest : List Nat} (h : Safe g (rest : Multiset Nat) 0) (hranked : g.Ranked depth)
    (hroots : ∀ j ∈ rest, ∀ nj, g.cells.lookup j = some nj → nj.ups = []) (hspared : ∀ j ∈ rest, g.Spared j) :
    Guard.Avoids .dangling (rest.foldlM Graph.drop g) fun g' =>
      Safe g' 0 0 ∧ Frame (fun _ => False) g g' ∧ Thinned g g' := by
  refine (Guard.Avoids.foldlM (fun left s => Safe s (left : Multiset Nat) 0 ∧ Frame (fun _ => False) g s ∧ Thinned g s ∧
    ∀ j ∈ left, j ∈ rest) ?_ rest g ⟨h, .refl _ g, .of_loop rfl, fun _ hj => hj⟩).mono
    fun g' hg' => ⟨hg'.1, hg'.2.1, hg'.2.2.1⟩
  intro i left s hs
  obtain ⟨hsafe, hframe, hthin, hleft⟩ := hs
  rw [← Multiset.cons_coe, ← Multiset.singleton_add] at hsafe
  have haside : Aside s (left : Multiset Nat) depth i := by
    intro j hj nj' hnj' u hu
    obtain ⟨nj, hnj, hsame⟩ := hframe.back j nj' hnj'
    rw [hsame.ups, hroots j (hleft j (List.mem_cons_of_mem i hj)) nj hnj] at hu
    cases hu
  have hspared' := (hspared i (hleft i List.mem_cons_self)).frame hframe hthin.later
  refine (hsafe.drop (hframe.ranked hranked) haside hspared').mono fun s' hs' => ?_
  have hframe' : Frame (fun _ => False) s s' := hs'.2.1.weaken fun _ => False.elim
  exact ⟨hs'.1, hframe.trans hframe', hthin.trans hs'.2.2 hframe', fun j hj => hleft j (List.mem_cons_of_mem i hj)⟩

theorem Safe.removeNode (h : Safe g 0 0) (hranked : g.Ranked depth) (node : Nat)
    (hspared : ∀ v, some v ∈ g.sinkNodes → some v ∉ Daemon.removeNode g.sinkNodes node → g.Spared v) :
    Guard.Avoids .dangling (g.removeNode node) fun g' => Safe g' 0 0 ∧ g'.Ranked depth ∧
      g'.sinkNodes = Daemon.removeNode g.sinkNodes node ∧ ∀ v, g.Spared v → g'.Spared v := by
  have hnodup : (g.sinkNodes.filterMap id).Nodup :=
    Multiset.coe_nodup.mp (Multiset.nodup_add.mp (Multiset.nodup_add.mp (Multiset.nodup_add.mp h.nodup).1).2.1).2.1
  have hperm := removeNode_perm hnodup node
  refine (drops_spec (g := { g with sinkNodes := Daemon.removeNode g.sinkNodes node }) ⟨?_, h.created, h.cells, h.handles,
    h.feeders, ?_, h.down, h.child, h.conveyors, h.mergers, h.feedees, h.feeder, h.queue⟩ hranked
    (fun j hj nj hnj => ?_) fun j hj => ?_).mono fun g' hg' => ?_
  · have hcounted := h.counted
    unfold held at hcounted ⊢
    rw [← Multiset.coe_eq_coe.mpr hperm, ← Multiset.coe_add] at hcounted
    rw [← hcounted]
    simp only [zero_add, add_zero]
    show _ + (Heap.total _ g.handles + _) + g.ownedBut 0 = _
    abel
  · intro j nj hj u hu
    obtain ⟨nu, hnu, howner⟩ := h.ups j nj hj u hu
    exact ⟨nu, hnu, Or.inr (howner.resolve_left (Multiset.notMem_zero j))⟩
  · refine h.root_ups ?_ hnj
    exact Multiset.mem_add.mpr (Or.inr (Multiset.mem_coe.mpr (List.mem_of_mem_filter hj)))
  · obtain ⟨hmem, hgone⟩ := List.mem_filter.mp hj
    obtain ⟨e, he, hej⟩ := List.mem_filterMap.mp hmem
    obtain rfl : e = some j := hej
    exact hspared j he (of_decide_eq_true hgone)
  · obtain ⟨hsafe, hframe, hthin⟩ := hg'
    have hranked' : ({ g with sinkNodes := Daemon.removeNode g.sinkNodes node } : Graph α).Ranked depth := hranked
    refine ⟨hsafe, hframe.ranked hranked', hframe.sinkNodes, fun v hv => ?_⟩
    have hv' : ({ g with sinkNodes := Daemon.removeNode g.sinkNodes node } : Graph α).Spared v := hv
    exact hv'.frame hframe hthin.later

theorem removeNode_sub (sinkNodes : List (Option Nat)) (node : Nat) {v : Nat}
    (hv : some v ∈ Daemon.removeNode sinkNodes node) : some v ∈ sinkNodes := by
  have hle : List.Subperm ((Daemon.removeNode sinkNodes node).filterMap id) (sinkNodes.filterMap id) :=
    RemoveIf.removeIf_owned sinkNodes
  obtain ⟨e, he, hev⟩ := List.mem_filterMap.mp (hle.subset (List.mem_filterMap.mpr ⟨some v, hv, rfl⟩))
  obtain rfl : e = some v := hev
  exact he

theorem foldl_removeNode_sub {v : Nat} : ∀ (nodes : List Nat) (sinkNodes : List (Option Nat)),
    some v ∈ nodes.foldl Daemon.removeNode sinkNodes → some v ∈ sinkNodes
  | [], _, hv => hv
  | node :: nodes, sinkNodes, hv => removeNode_sub sinkNodes node (foldl_removeNode_sub nodes _ hv)

/-- **The daemon's event.** -/
theorem Safe.fireSinks (h : Safe g 0 0) (hranked : g.Ranked depth) (hspared : ∀ v ∈ g.droppedSinks, g.Spared v) :
    Fine depth g.fireSinks := by
  refine Guard.Avoids.bind (Guard.Avoids.foldlM (fun nodes s => Safe s 0 0 ∧ s.Ranked depth ∧
    ∀ v, some v ∈ s.sinkNodes → some v ∉ nodes.foldl Daemon.removeNode s.sinkNodes → s.Spared v) ?_ _ _
    ⟨h, hranked, fun v hmem hgone => ?_⟩) fun g₂ h₂ => ?_
  · intro node nodes s hs
    obtain ⟨hsafe, hranked, hspared⟩ := hs
    have hnow : ∀ v, some v ∈ s.sinkNodes → some v ∉ Daemon.removeNode s.sinkNodes node → s.Spared v := fun v hmem hgone =>
      hspared v hmem fun hstill => hgone (foldl_removeNode_sub nodes _ hstill)
    refine (hsafe.removeNode hranked node hnow).mono fun s' hs' => ?_
    obtain ⟨hsafe', hranked', hnodes, hkept⟩ := hs'
    refine ⟨hsafe', hranked', fun v hmem hgone => hkept v ?_⟩
    rw [hnodes] at hmem hgone
    exact hspared v (removeNode_sub _ node hmem) hgone
  · refine hspared v (List.mem_filter.mpr ⟨List.mem_filterMap.mpr ⟨some v, hmem, rfl⟩, decide_eq_true hgone⟩)
  · obtain ⟨h₂, hranked₂, -⟩ := h₂
    exact ⟨⟨h₂.counted, h₂.created, h₂.cells, h₂.handles, h₂.feeders, h₂.ups, h₂.down, h₂.child, h₂.conveyors, h₂.mergers,
      h₂.feedees, h₂.feeder, h₂.queue⟩, hranked₂⟩

theorem Queue.turn (h : Queue g.loop g.cells) {e : Nat} {loop : EventLoop Nat} (ht : g.loop.turn = (some e, loop)) :
    Queue loop g.cells ∧ g.Fires e := by
  obtain ⟨harmed, hsound, hrest⟩ := h.sound.turn (show g.loop.turn.1 = some e by rw [ht])
  rw [ht] at hsound hrest
  exact ⟨⟨hsound, fun a ha => h.alive a ((hrest a).mp ha).2⟩, h.alive e harmed⟩

/-- **One event**, unless what it destroys holds the later insertion point. -/
theorem Safe.turn (h : Safe g 0 0) (hranked : g.Ranked depth) (hspared : ∀ v ∈ g.victims .turn, g.Spared v) :
    Fine depth g.turn := by
  unfold Graph.turn
  split
  next => exact ⟨h, hranked⟩
  next e loop ht =>
    obtain ⟨hq, hfires⟩ := h.queue.turn ht
    refine Guard.Avoids.of_ok (h.queue.enter .turn loop) ?_
    have h₁ := h.requeue hq
    have hranked₁ : ({ g with loop } : Graph α).Ranked depth := hranked
    have hlater {v : Nat} (hv : g.Spared v) : ({ g with loop } : Graph α).Spared v := fun a ha =>
      hv a (EventLoop.later_turn ht ha)
    simp only [victims, EventLoop.head_of_turn ht] at hspared
    by_cases he : e = conveyorSinks
    · rw [if_pos he] at hspared ⊢
      exact h₁.fireSinks hranked₁ fun v hv => hlater (hspared v hv)
    · rw [if_neg he] at hspared ⊢
      obtain ⟨n, hn, hmerger⟩ := hfires.resolve_left he
      refine h₁.fire hranked₁ hn hmerger fun hdrops c hc => hlater (hspared c ?_)
      simp only [hn]
      rw [if_pos hdrops]
      exact hc

end

end Graph

end Forstio
