import Forstio.EventQueue
import Forstio.Graph
import Forstio.Lib.Guard
import Mathlib.Algebra.Order.Group.Multiset
import Mathlib.Data.Multiset.UnionInter
import Mathlib.Tactic.Abel

/-!
# Nothing dangles in a graph

Each node has one owner, and what a raw pointer refers to goes after the pointer: a
destructor tells the other end first. The loop's pointers all lie in the queue of the
armed events. Nodes that a destructor is working on, and those it holds but has not come
to yet, are kept apart from the owned ones; the depth below a handle shows that
destruction does not come back to where it started.
-/

namespace Forstio

namespace StorageBody

variable {α : Type}

def merger : StorageBody α → Option Nat
  | appendage _ m _ => some m
  | _ => none

def isMerge : StorageBody α → Bool
  | merge _ _ => true
  | _ => false

/-- The same pointers. -/
structure Alike (b b' : StorageBody α) : Prop where
  child : b'.child = b.child
  owned : b'.owned = b.owned
  merger : b'.merger = b.merger
  isMerge : b'.isMerge = b.isMerge

theorem Alike.refl (b : StorageBody α) : b.Alike b := ⟨rfl, rfl, rfl, rfl⟩

theorem Alike.trans {b b' b'' : StorageBody α} (h : b.Alike b') (h' : b'.Alike b'') : b.Alike b'' :=
  ⟨h'.child.trans h.child, h'.owned.trans h.owned, h'.merger.trans h.merger, h'.isMerge.trans h.isMerge⟩

theorem alike_push (x : ErrorOr α) (b : StorageBody α) : b.Alike (b.push x) := by
  cases b <;> exact ⟨rfl, rfl, rfl, rfl⟩

theorem alike_clear (b : StorageBody α) : b.Alike b.clear := by
  cases b <;> exact ⟨rfl, rfl, rfl, rfl⟩

theorem mem_owned_child {b : StorageBody α} {l : ConveyorNode α} (h : b.child = some l) : l.base ∈ b.owned := by
  have hmem : l.base ∈ (b.child.map ConveyorNode.base).toList := by
    rw [h]
    exact List.mem_singleton_self l.base
  cases b with
  | merge appendages nextAppendage => cases h
  | _ => exact hmem

end StorageBody

namespace Cell

variable {α : Type}

/-- The pointers up: to the parent, and from an appendage to its merge node. -/
def ups (n : Cell α) : List Nat := n.parent.toList ++ n.body.merger.toList

/-- A pointer down or to a feeder may have become null. -/
structure Same (n n' : Cell α) : Prop where
  parent : n'.parent = n.parent
  childStorage : n'.childStorage = n.childStorage ∨ n'.childStorage = none
  feeder : n'.feeder = n.feeder ∨ n'.feeder = none
  body : n.body.Alike n'.body

theorem Same.refl (n : Cell α) : n.Same n := ⟨rfl, Or.inl rfl, Or.inl rfl, .refl _⟩

theorem Same.trans {n n' n'' : Cell α} (h : n.Same n') (h' : n'.Same n'') : n.Same n'' := by
  refine ⟨h'.parent.trans h.parent, ?_, ?_, h.body.trans h'.body⟩
  · rcases h'.childStorage with heq | hnone
    · rw [heq]
      exact h.childStorage
    · exact Or.inr hnone
  · rcases h'.feeder with heq | hnone
    · rw [heq]
      exact h.feeder
    · exact Or.inr hnone

/-- What it owns may have changed, too. -/
structure Near (n n' : Cell α) : Prop where
  parent : n'.parent = n.parent
  childStorage : n'.childStorage = n.childStorage ∨ n'.childStorage = none
  merger : n'.body.merger = n.body.merger
  isMerge : n'.body.isMerge = n.body.isMerge
  child : ∀ l, n'.body.child = some l → n.body.child = some l

theorem Near.refl (n : Cell α) : n.Near n := ⟨rfl, Or.inl rfl, rfl, rfl, fun _ hl => hl⟩

theorem Same.near {n n' : Cell α} (h : n.Same n') : n.Near n' :=
  ⟨h.parent, h.childStorage, h.body.merger, h.body.isMerge, fun _ hl => h.body.child.symm.trans hl⟩

theorem Near.ups {n n' : Cell α} (h : n.Near n') : n'.ups = n.ups := by
  unfold Cell.ups
  rw [h.parent, h.merger]

theorem Same.ups {n n' : Cell α} (h : n.Same n') : n'.ups = n.ups := h.near.ups

end Cell

namespace Handle

variable {α : Type}

def owned (h : Handle α) : Multiset Nat := (h.root.toList : Multiset Nat)

end Handle

namespace Graph

variable {α : Type}

/-- What the nodes own, without those that are being destroyed. -/
def ownedBut (g : Graph α) (D : Multiset Nat) : Multiset Nat :=
  g.cells.total fun i n => if i ∈ D then 0 else (n.body.owned : Multiset Nat)

def held (g : Graph α) : Multiset Nat :=
  g.handles.total (fun _ h => h.owned) + (g.sinkNodes.filterMap id : List Nat)

/-- The loop is in order, and the events in its queue are the daemon's and those of nodes. -/
structure Queue (loop : EventLoop Nat) (cells : Heap Nat (Cell α)) : Prop where
  sound : loop.Sound
  alive : ∀ i, loop.isArmed i → i = conveyorSinks ∨ ∃ n, cells.lookup i = some n ∧ n.body.merger = none

/-- The nodes `D` are being destroyed; `H` have no owner at the moment. -/
structure Safe (g : Graph α) (H D : Multiset Nat) : Prop where
  counted : H + D + g.held + g.ownedBut D = Heap.addresses g.cells
  created : conveyorSinks < g.created
  cells : ∀ i ∈ g.cells, conveyorSinks < i ∧ i < g.created
  handles : ∀ k ∈ g.handles, k < g.created
  feeders : ∀ f ∈ g.feeders, f < g.created
  ups : ∀ i n, g.cells.lookup i = some n → ∀ u ∈ n.ups, ∃ nu, g.cells.lookup u = some nu ∧
    (i ∈ H + D ∨ u ∉ D ∧ i ∈ nu.body.owned)
  down : ∀ i n c, g.cells.lookup i = some n → n.childStorage = some c →
    ∃ nc, g.cells.lookup c = some nc ∧ nc.parent = some i ∧ nc.body.merger = none
  child : ∀ i n l, g.cells.lookup i = some n → i ∉ D → n.body.child = some l →
    ∃ nl, g.cells.lookup l.base = some nl ∧ nl.body.merger = none
  conveyors : ∀ k c, g.handles.lookup k = some (.conveyor c) → c.storage = c.node.base ∧
    ∃ n, g.cells.lookup c.storage = some n ∧ n.body.merger = none
  mergers : ∀ k m, g.handles.lookup k = some (.merger m) → m < g.created ∧
    ∀ n, g.cells.lookup m = some n → n.body.isMerge
  feedees : ∀ f i, g.feeders.lookup f = some (some i) →
    ∃ n, g.cells.lookup i = some n ∧ n.feeder = some f ∧ n.body.merger = none
  feeder : ∀ i n f, g.cells.lookup i = some n → n.feeder = some f → g.feeders.lookup f = some (some i)
  queue : Queue g.loop g.cells

/-- Owners and parents are above. -/
def Ranked (g : Graph α) (depth : Nat → Nat) : Prop :=
  ∀ i n, g.cells.lookup i = some n → (∀ u ∈ n.ups, depth u < depth i) ∧ ∀ c ∈ n.body.owned, depth i < depth c

/-- What a call leaves: nothing is added, and the nodes that `stay` speaks of are still there. -/
structure Frame (stay : Nat → Prop) (g g' : Graph α) : Prop where
  back : ∀ i n', g'.cells.lookup i = some n' → ∃ n, g.cells.lookup i = some n ∧ n.Same n'
  stays : ∀ i n, g.cells.lookup i = some n → stay i → ∃ n', g'.cells.lookup i = some n'
  handles : g'.handles = g.handles
  created : g'.created = g.created
  sinkNodes : g'.sinkNodes = g.sinkNodes

theorem Frame.refl (stay : Nat → Prop) (g : Graph α) : Frame stay g g :=
  ⟨fun _ n h => ⟨n, h, .refl n⟩, fun _ n h _ => ⟨n, h⟩, rfl, rfl, rfl⟩

theorem Frame.trans {stay : Nat → Prop} {g g' g'' : Graph α} (h : Frame stay g g') (h' : Frame stay g' g'') :
    Frame stay g g'' := by
  refine ⟨fun i n'' hn'' => ?_, fun i n hn hi => ?_, h'.handles.trans h.handles, h'.created.trans h.created,
    h'.sinkNodes.trans h.sinkNodes⟩
  · obtain ⟨n', hn', hsame'⟩ := h'.back i n'' hn''
    obtain ⟨n, hn, hsame⟩ := h.back i n' hn'
    exact ⟨n, hn, hsame.trans hsame'⟩
  · obtain ⟨n', hn'⟩ := h.stays i n hn hi
    exact h'.stays i n' hn' hi

theorem Frame.weaken {stay stay' : Nat → Prop} {g g' : Graph α} (h : Frame stay g g') (hstay : ∀ i, stay' i → stay i) :
    Frame stay' g g' :=
  ⟨h.back, fun i n hn hi => h.stays i n hn (hstay i hi), h.handles, h.created, h.sinkNodes⟩

theorem Frame.same {stay : Nat → Prop} {g g' : Graph α} (h : Frame stay g g') {i : Nat} {n : Cell α}
    (hn : g.cells.lookup i = some n) (hi : stay i) : ∃ n', g'.cells.lookup i = some n' ∧ n.Same n' := by
  obtain ⟨n', hn'⟩ := h.stays i n hn hi
  obtain ⟨n₀, hn₀, hsame⟩ := h.back i n' hn'
  obtain rfl := Option.some.inj (hn.symm.trans hn₀)
  exact ⟨n', hn', hsame⟩

theorem Frame.ranked {stay : Nat → Prop} {g g' : Graph α} {depth : Nat → Nat} (h : Frame stay g g')
    (hg : g.Ranked depth) : g'.Ranked depth := by
  intro i n' hn'
  obtain ⟨n, hn, hsame⟩ := h.back i n' hn'
  rw [hsame.ups, hsame.body.owned]
  exact hg i n hn

/-! ## Who owns what -/

section
variable {g : Graph α} {H D : Multiset Nat} {i j : Nat} {n : Cell α}

theorem Safe.nodup (h : Safe g H D) : (H + D + g.held + g.ownedBut D).Nodup := by
  rw [h.counted]
  exact Heap.nodup_addresses _

theorem lookup_of_mem (hi : i ∈ g.cells) : ∃ n, g.cells.lookup i = some n :=
  Option.isSome_iff_exists.mp (AList.lookup_isSome.mpr hi)

theorem mem_of_lookup (hn : g.cells.lookup i = some n) : i ∈ g.cells := AList.lookup_isSome.mp (by rw [hn]; rfl)

theorem Safe.alive (h : Safe g H D) (hi : i ∈ H + D + g.held + g.ownedBut D) : ∃ n, g.cells.lookup i = some n := by
  rw [h.counted, Heap.mem_addresses] at hi
  exact lookup_of_mem hi

theorem mem_ownedBut (hn : g.cells.lookup i = some n) (hi : i ∉ D) (hj : j ∈ n.body.owned) : j ∈ g.ownedBut D := by
  refine Heap.mem_total.mpr ⟨i, n, hn, ?_⟩
  rw [if_neg hi]
  exact Multiset.mem_coe.mpr hj

theorem Safe.owned_alive (h : Safe g H D) (hn : g.cells.lookup i = some n) (hi : i ∉ D) (hj : j ∈ n.body.owned) :
    ∃ nj, g.cells.lookup j = some nj :=
  h.alive (Multiset.mem_add.mpr (Or.inr (mem_ownedBut hn hi hj)))

theorem Safe.owned_apart (h : Safe g H D) (hn : g.cells.lookup i = some n) (hi : i ∉ D) (hj : j ∈ n.body.owned) :
    j ∉ H + D ∧ j ∉ g.held := by
  have hnodup := (Multiset.nodup_add.mp h.nodup).2.2
  have hmem := mem_ownedBut hn hi hj
  constructor
  · exact fun hmem' => Multiset.disjoint_left.mp hnodup (Multiset.mem_add.mpr (Or.inl hmem')) hmem
  · exact fun hmem' => Multiset.disjoint_left.mp hnodup (Multiset.mem_add.mpr (Or.inr hmem')) hmem

theorem Safe.owner_unique (h : Safe g H D) {i' : Nat} {n' : Cell α} (hn : g.cells.lookup i = some n) (hi : i ∉ D)
    (hn' : g.cells.lookup i' = some n') (hi' : i' ∉ D) (hj : j ∈ n.body.owned) (hj' : j ∈ n'.body.owned) : i = i' := by
  have hnodup : (g.ownedBut D).Nodup := (Multiset.nodup_add.mp h.nodup).2.1
  refine Heap.total_unique hnodup hn hn' (b := j) ?_ ?_
  · rw [if_neg hi]
    exact Multiset.mem_coe.mpr hj
  · rw [if_neg hi']
    exact Multiset.mem_coe.mpr hj'

theorem Queue.move {loop : EventLoop Nat} {cells cells' : Heap Nat (Cell α)} (h : Queue loop cells)
    (hmove : ∀ j nj, cells.lookup j = some nj → nj.body.merger = none →
      ∃ nj', cells'.lookup j = some nj' ∧ nj'.body.merger = none) : Queue loop cells' := by
  refine ⟨h.sound, fun a ha => ?_⟩
  rcases h.alive a ha with hsinks | ⟨n, hn, hmerger⟩
  · exact Or.inl hsinks
  · exact Or.inr (hmove a n hn hmerger)

/-! ## Changing a node -/

theorem lookup_put (g : Graph α) (i j : Nat) (n : Cell α) :
    (g.put i n).cells.lookup j = if j = i then some n else g.cells.lookup j := Heap.lookup_insert g.cells i j n

theorem Frame.put (stay : Nat → Prop) {n' : Cell α} (hn : g.cells.lookup i = some n) (hsame : n.Same n') :
    Frame stay g (g.put i n') := by
  refine ⟨fun j nj hj => ?_, fun j nj hj _ => ?_, rfl, rfl, rfl⟩
  · rw [lookup_put] at hj
    split at hj
    next heq =>
      subst heq
      obtain rfl := Option.some.inj hj
      exact ⟨n, hn, hsame⟩
    next => exact ⟨nj, hj, .refl nj⟩
  · rw [lookup_put]
    split
    · exact ⟨n', rfl⟩
    · exact ⟨nj, hj⟩

theorem near_put {n' : Cell α} (hn : g.cells.lookup i = some n) (hnear : n.Near n') {nj : Cell α}
    (hj : g.cells.lookup j = some nj) :
    ∃ nj', (g.put i n').cells.lookup j = some nj' ∧ nj.Near nj' ∧ (j ≠ i → nj' = nj) := by
  rw [lookup_put]
  split
  next heq =>
    subst heq
    obtain rfl := Option.some.inj (hn.symm.trans hj)
    exact ⟨n', rfl, hnear, fun hne => absurd rfl hne⟩
  next => exact ⟨nj, hj, .refl nj, fun _ => rfl⟩

theorem near_of_put {n' nj' : Cell α} (hn : g.cells.lookup i = some n) (hnear : n.Near n')
    (hj : (g.put i n').cells.lookup j = some nj') : ∃ nj, g.cells.lookup j = some nj ∧ nj.Near nj' := by
  rw [lookup_put] at hj
  split at hj
  next heq =>
    subst heq
    obtain rfl := Option.some.inj hj
    exact ⟨n, hn, hnear⟩
  next => exact ⟨nj', hj, .refl nj'⟩

theorem Safe.counted_put (h : Safe g H D) {H' : Multiset Nat} {n' : Cell α} (hn : g.cells.lookup i = some n)
    (howned : H' + (n'.body.owned : Multiset Nat) = H + (n.body.owned : Multiset Nat)) (hD : i ∈ D → H' = H) :
    H' + D + g.held + (g.put i n').ownedBut D = Heap.addresses (g.put i n').cells := by
  have hupdate := Heap.total_update (fun j (nj : Cell α) => if j ∈ D then 0 else (nj.body.owned : Multiset Nat)) hn n'
  have haddresses : Heap.addresses (g.put i n').cells = Heap.addresses g.cells := Heap.addresses_update hn n'
  rw [haddresses, ← h.counted]
  change (g.put i n').ownedBut D + _ = _ + g.ownedBut D at hupdate
  by_cases hi : i ∈ D
  · rw [if_pos hi, if_pos hi, add_zero, zero_add] at hupdate
    rw [hupdate, hD hi]
  · rw [if_neg hi, if_neg hi] at hupdate
    refine add_right_cancel (b := (n.body.owned : Multiset Nat)) ?_
    calc H' + D + g.held + (g.put i n').ownedBut D + (n.body.owned : Multiset Nat)
        = H' + D + g.held + ((n'.body.owned : Multiset Nat) + g.ownedBut D) := by rw [add_assoc, hupdate]
      _ = (H' + (n'.body.owned : Multiset Nat)) + (D + g.held + g.ownedBut D) := by abel
      _ = (H + (n.body.owned : Multiset Nat)) + (D + g.held + g.ownedBut D) := by rw [howned]
      _ = H + D + g.held + g.ownedBut D + (n.body.owned : Multiset Nat) := by abel

theorem owner_self {H' : Multiset Nat} {n' : Cell α}
    (howned : H' + (n'.body.owned : Multiset Nat) = H + (n.body.owned : Multiset Nat)) (hD : i ∈ D → H' = H)
    (howner : j ∈ H + D ∨ i ∉ D ∧ j ∈ n.body.owned) : j ∈ H' + D ∨ i ∉ D ∧ j ∈ n'.body.owned := by
  by_cases hi : i ∈ D
  · rw [hD hi]
    exact Or.inl (howner.resolve_right fun hmem => hmem.1 hi)
  · have hmem : j ∈ D ∨ j ∈ H' + (n'.body.owned : Multiset Nat) := by
      rw [howned]
      rcases howner with hmem | hmem
      · exact (Multiset.mem_add.mp hmem).symm.imp_right fun hH => Multiset.mem_add.mpr (Or.inl hH)
      · exact Or.inr (Multiset.mem_add.mpr (Or.inr (Multiset.mem_coe.mpr hmem.2)))
    rcases hmem with hj | hmem
    · exact Or.inl (Multiset.mem_add.mpr (Or.inr hj))
    · rcases Multiset.mem_add.mp hmem with hH | hown
      · exact Or.inl (Multiset.mem_add.mpr (Or.inl hH))
      · exact Or.inr ⟨hi, Multiset.mem_coe.mp hown⟩

theorem Safe.owner_other (h : Safe g H D) {H' : Multiset Nat} {n' : Cell α} (hn : g.cells.lookup i = some n)
    (howned : H' + (n'.body.owned : Multiset Nat) = H + (n.body.owned : Multiset Nat)) (hD : i ∈ D → H' = H)
    (hold : j ∈ n'.body.owned → j ∈ n.body.owned) (hmem : j ∈ H + D) : j ∈ H' + D := by
  by_cases hi : i ∈ D
  · rw [hD hi]
    exact hmem
  · rcases Multiset.mem_add.mp hmem with hH | hj
    · have hin : j ∈ H' + (n'.body.owned : Multiset Nat) := by
        rw [howned]
        exact Multiset.mem_add.mpr (Or.inl hH)
      rcases Multiset.mem_add.mp hin with hH' | hown
      · exact Multiset.mem_add.mpr (Or.inl hH')
      · exact absurd hmem (h.owned_apart hn hi (hold (Multiset.mem_coe.mp hown))).1
    · exact Multiset.mem_add.mpr (Or.inr hj)

section
variable {n' : Cell α} (h : Safe g H D) (hn : g.cells.lookup i = some n) (hnear : n.Near n')
include h hn hnear

theorem Safe.cells_put : ∀ j ∈ (g.put i n').cells, conveyorSinks < j ∧ j < g.created := by
  intro j hj
  obtain ⟨nj', hj'⟩ := lookup_of_mem hj
  obtain ⟨nj, hj, -⟩ := near_of_put hn hnear hj'
  exact h.cells j (mem_of_lookup hj)

theorem Safe.ups_put {H' : Multiset Nat} (howned : H' + (n'.body.owned : Multiset Nat) = H + (n.body.owned : Multiset Nat))
    (hD : i ∈ D → H' = H)
    (hnew : ∀ j ∈ n'.body.owned, j ∈ n.body.owned ∨ ∀ nj, g.cells.lookup j = some nj → ∀ u ∈ nj.ups, u = i)
    {nj' : Cell α} (hj' : (g.put i n').cells.lookup j = some nj') {u : Nat} (hu : u ∈ nj'.ups) :
    ∃ nu', (g.put i n').cells.lookup u = some nu' ∧ (j ∈ H' + D ∨ u ∉ D ∧ j ∈ nu'.body.owned) := by
  obtain ⟨nj, hj, hs⟩ := near_of_put hn hnear hj'
  rw [hs.ups] at hu
  obtain ⟨nu, hnu, howner⟩ := h.ups j nj hj u hu
  obtain ⟨nu', hnu', -, hrest⟩ := near_put hn hnear hnu
  refine ⟨nu', hnu', ?_⟩
  by_cases hui : u = i
  · subst hui
    obtain rfl := Option.some.inj (hn.symm.trans hnu)
    obtain rfl : n' = nu' := Option.some.inj (((lookup_put g u u n').trans (if_pos rfl)).symm.trans hnu')
    exact owner_self howned hD howner
  · rw [hrest hui]
    refine howner.imp_left (h.owner_other hn howned hD fun hown => ?_)
    exact (hnew j hown).resolve_right fun honly => hui (honly nj hj u hu)

theorem Safe.down_put {nj' : Cell α} {c : Nat} (hj' : (g.put i n').cells.lookup j = some nj')
    (hc : nj'.childStorage = some c) :
    ∃ nc', (g.put i n').cells.lookup c = some nc' ∧ nc'.parent = some j ∧ nc'.body.merger = none := by
  obtain ⟨nj, hj, hs⟩ := near_of_put hn hnear hj'
  rcases hs.childStorage with heq | hnone
  · obtain ⟨nc, hnc, hparent, hmerger⟩ := h.down j nj c hj (heq.symm.trans hc)
    obtain ⟨nc', hnc', hsc, -⟩ := near_put hn hnear hnc
    exact ⟨nc', hnc', hsc.parent.trans hparent, hsc.merger.trans hmerger⟩
  · rw [hnone] at hc
    cases hc

theorem Safe.child_put {nj' : Cell α} {l : ConveyorNode α} (hj' : (g.put i n').cells.lookup j = some nj') (hj : j ∉ D)
    (hl : nj'.body.child = some l) : ∃ nl', (g.put i n').cells.lookup l.base = some nl' ∧ nl'.body.merger = none := by
  obtain ⟨nj, hnj, hs⟩ := near_of_put hn hnear hj'
  obtain ⟨nl, hnl, hmerger⟩ := h.child j nj l hnj hj (hs.child l hl)
  obtain ⟨nl', hnl', hsl, -⟩ := near_put hn hnear hnl
  exact ⟨nl', hnl', hsl.merger.trans hmerger⟩

theorem Safe.conveyors_put {k : Nat} {c : Conveyor α} (hk : g.handles.lookup k = some (.conveyor c)) :
    c.storage = c.node.base ∧ ∃ nc', (g.put i n').cells.lookup c.storage = some nc' ∧ nc'.body.merger = none := by
  obtain ⟨hstorage, nc, hnc, hmerger⟩ := h.conveyors k c hk
  obtain ⟨nc', hnc', hsc, -⟩ := near_put hn hnear hnc
  exact ⟨hstorage, nc', hnc', hsc.merger.trans hmerger⟩

theorem Safe.mergers_put {k m : Nat} (hk : g.handles.lookup k = some (.merger m)) :
    m < g.created ∧ ∀ nm', (g.put i n').cells.lookup m = some nm' → nm'.body.isMerge := by
  refine ⟨(h.mergers k m hk).1, fun nm' hm' => ?_⟩
  obtain ⟨nm, hm, hs⟩ := near_of_put hn hnear hm'
  rw [hs.isMerge]
  exact (h.mergers k m hk).2 nm hm

theorem Safe.queue_put : Queue g.loop (g.put i n').cells := by
  refine h.queue.move fun j nj hj hmerger => ?_
  obtain ⟨nj', hnj', hs, -⟩ := near_put hn hnear hj
  exact ⟨nj', hnj', hs.merger.trans hmerger⟩

/-- A node changes, and the feeders along with it; what it takes over looks up to it only. -/
theorem Safe.putWith {H' : Multiset Nat}
    (howned : H' + (n'.body.owned : Multiset Nat) = H + (n.body.owned : Multiset Nat)) (hD : i ∈ D → H' = H)
    (hnew : ∀ j ∈ n'.body.owned, j ∈ n.body.owned ∨ ∀ nj, g.cells.lookup j = some nj → ∀ u ∈ nj.ups, u = i)
    {feeders : Heap Nat (Option Nat)} (hlt : ∀ f ∈ feeders, f < g.created)
    (hfeedees : ∀ f j, feeders.lookup f = some (some j) → ∃ nj, (g.put i n').cells.lookup j = some nj ∧
      nj.feeder = some f ∧ nj.body.merger = none)
    (hfeeder : ∀ j nj f, (g.put i n').cells.lookup j = some nj → nj.feeder = some f →
      feeders.lookup f = some (some j)) : Safe { g.put i n' with feeders := feeders } H' D where
  counted := h.counted_put hn howned hD
  created := h.created
  cells := h.cells_put hn hnear
  handles := h.handles
  feeders := hlt
  ups _ _ hj _ hu := h.ups_put hn hnear howned hD hnew hj hu
  down _ _ _ hj hc := h.down_put hn hnear hj hc
  child _ _ _ hj hjD hl := h.child_put hn hnear hj hjD hl
  conveyors _ _ hk := h.conveyors_put hn hnear hk
  mergers _ _ hk := h.mergers_put hn hnear hk
  feedees := hfeedees
  feeder := hfeeder
  queue := h.queue_put hn hnear

end

theorem Safe.reown (h : Safe g H D) {H' : Multiset Nat} {n' : Cell α} (hn : g.cells.lookup i = some n)
    (hnear : n.Near n') (howned : H' + (n'.body.owned : Multiset Nat) = H + (n.body.owned : Multiset Nat))
    (hD : i ∈ D → H' = H)
    (hnew : ∀ j ∈ n'.body.owned, j ∈ n.body.owned ∨ ∀ nj, g.cells.lookup j = some nj → ∀ u ∈ nj.ups, u = i)
    (hfeeder : n'.feeder = n.feeder) : Safe (g.put i n') H' D := by
  refine h.putWith hn hnear howned hD hnew h.feeders ?_ ?_
  · intro f j hf
    obtain ⟨nj, hj, hfj, hmerger⟩ := h.feedees f j hf
    rw [lookup_put]
    split
    next heq =>
      subst heq
      obtain rfl := Option.some.inj (hn.symm.trans hj)
      exact ⟨n', rfl, hfeeder.trans hfj, hnear.merger.trans hmerger⟩
    next => exact ⟨nj, hj, hfj, hmerger⟩
  · intro j nj f hj hf
    rw [lookup_put] at hj
    split at hj
    next heq =>
      subst heq
      obtain rfl := Option.some.inj hj
      exact h.feeder j n f hn (hfeeder.symm.trans hf)
    next => exact h.feeder j nj f hj hf

theorem Safe.put (h : Safe g H D) {n' : Cell α} (hn : g.cells.lookup i = some n) (hsame : n.Same n')
    (hfeeder : n'.feeder = n.feeder) : Safe (g.put i n') H D := by
  refine h.reown hn hsame.near ?_ (fun _ => rfl) (fun j hj => Or.inl ?_) hfeeder
  · rw [hsame.body.owned]
  · rw [← hsame.body.owned]
    exact hj

/-! ## The event queue -/

theorem Queue.follows (h : Queue g.loop g.cells) (op : EventLoop.Op Nat) :
    ∀ p ∈ g.loop.followed op, ∀ e ∈ g.loop.around p, e = conveyorSinks ∨ e ∈ g.cells := by
  intro p hp e he
  rcases h.alive e (h.sound.followed op p hp e he) with rfl | ⟨n, hn, -⟩
  · exact Or.inl rfl
  · exact Or.inr (mem_of_lookup hn)

/-- **The loop** follows no dangling pointer. -/
theorem Queue.enter (h : Queue g.loop g.cells) (op : EventLoop.Op Nat) (loop : EventLoop Nat) :
    g.enter op loop = .ok { g with loop } := if_pos (h.follows op)

theorem Frame.requeue (stay : Nat → Prop) (g : Graph α) (loop : EventLoop Nat) : Frame stay g { g with loop } :=
  ⟨fun _ n hn => ⟨n, hn, .refl n⟩, fun _ n hn _ => ⟨n, hn⟩, rfl, rfl, rfl⟩

theorem Safe.requeue (h : Safe g H D) {loop : EventLoop Nat} (hq : Queue loop g.cells) : Safe { g with loop } H D :=
  ⟨h.counted, h.created, h.cells, h.handles, h.feeders, h.ups, h.down, h.child, h.conveyors, h.mergers, h.feedees,
    h.feeder, hq⟩

def Fires (g : Graph α) (i : Nat) : Prop := i = conveyorSinks ∨ ∃ n, g.cells.lookup i = some n ∧ n.body.merger = none

theorem Queue.armed (h : Queue g.loop g.cells) (hi : g.Fires i) {loop : EventLoop Nat} (hsound : loop.Sound)
    (harmed : ∀ a, loop.isArmed a ↔ a = i ∨ g.loop.isArmed a) : Queue loop g.cells := by
  refine ⟨hsound, fun a ha => ?_⟩
  rcases (harmed a).mp ha with rfl | ha
  · exact hi
  · exact h.alive a ha

structure Arms (arm : Graph α → Nat → Except Fault (Graph α)) : Prop where
  armed : ∀ {g : Graph α} {i : Nat}, Queue g.loop g.cells → g.Fires i →
    ∃ loop, arm g i = .ok { g with loop } ∧ Queue loop g.cells ∧ ∀ a, loop.isArmed a ↔ a = i ∨ g.loop.isArmed a

theorem arms_next : Arms (α := α) Graph.armNext :=
  ⟨fun h hi => ⟨_, h.enter _ _, h.armed hi (h.sound.armNext _) (h.sound.isArmed_armNext _),
    h.sound.isArmed_armNext _⟩⟩

theorem arms_later : Arms (α := α) Graph.armLater :=
  ⟨fun h hi => ⟨_, h.enter _ _, h.armed hi (h.sound.armLater _) (h.sound.isArmed_armLater _),
    h.sound.isArmed_armLater _⟩⟩

theorem arms_last : Arms (α := α) Graph.armLast :=
  ⟨fun h hi => ⟨_, h.enter _ _, h.armed hi (h.sound.armLast _) (h.sound.isArmed_armLast _),
    h.sound.isArmed_armLast _⟩⟩

theorem Safe.disarm (h : Safe g H D) (hspare : g.loop.laterInsertPoint ≠ .next i) :
    ∃ loop, g.disarm i = .ok { g with loop } ∧ Safe { g with loop } H D ∧
      loop.laterInsertPoint = g.loop.laterInsertPoint ∧ ∀ a, loop.isArmed a ↔ a ≠ i ∧ g.loop.isArmed a := by
  obtain ⟨hsound, harmed⟩ := h.queue.sound.disarm hspare
  refine ⟨_, h.queue.enter _ _, h.requeue ⟨hsound, fun a ha => h.queue.alive a ((harmed a).mp ha).2⟩,
    EventLoop.laterInsertPoint_disarm _ _, harmed⟩

/-! ## Following pointers -/

theorem get_eq (hn : g.cells.lookup i = some n) : g.get i = .ok n := by
  rw [get, hn]

theorem get_bind {β : Type} (hn : g.cells.lookup i = some n) (f : Cell α → Except Fault β) : g.get i >>= f = f n := by
  rw [get_eq hn]
  rfl

theorem modify_eq (hn : g.cells.lookup i = some n) (f : Cell α → Cell α) : g.modify i f = .ok (g.put i (f n)) := by
  rw [modify, get_eq hn]
  rfl

theorem space_eq (hn : g.cells.lookup i = some n) : g.space i = .ok n.body.space := by
  rw [space, get_eq hn]
  rfl

theorem same_clearChildStorage (n : Cell α) : n.Same { n with childStorage := none } :=
  ⟨rfl, Or.inr rfl, Or.inl rfl, .refl _⟩

theorem same_setBody {body : StorageBody α} (h : n.body.Alike body) : n.Same { n with body := body } :=
  ⟨rfl, Or.inl rfl, Or.inl rfl, h⟩

/-- A call that follows no dangling pointer and loses no node. -/
def Calm (g : Graph α) (x : Except Fault (Graph α)) : Prop :=
  Guard.Avoids .dangling x fun g' => Safe g' 0 0 ∧ Frame (fun _ => True) g g'

theorem Safe.calm (h : Safe g 0 0) : Calm g (.ok g) := ⟨h, .refl _ g⟩

theorem Calm.bind {x : Except Fault (Graph α)} {f : Graph α → Except Fault (Graph α)} (hx : Calm g x)
    (hf : ∀ g', Safe g' 0 0 → Frame (fun _ => True) g g' → Calm g' (f g')) : Calm g (x >>= f) :=
  Guard.Avoids.bind hx fun g' hg' => (hf g' hg'.1 hg'.2).mono fun _ hg'' => ⟨hg''.1, hg'.2.trans hg''.2⟩

theorem Safe.calm_arm (h : Safe g 0 0) {arm : Graph α → Nat → Except Fault (Graph α)} (harms : Arms arm)
    (hi : g.Fires i) : Calm g (arm g i) := by
  obtain ⟨loop, harm, hq, -⟩ := harms.armed h.queue hi
  rw [harm]
  exact ⟨h.requeue hq, .requeue _ g loop⟩

theorem Safe.calm_later (h : Safe g 0 0) (hn : g.cells.lookup i = some n) (hmerger : n.body.merger = none) :
    Calm g (g.armLater i) := h.calm_arm arms_later (Or.inr ⟨n, hn, hmerger⟩)

theorem Safe.calm_setBody (h : Safe g 0 0) (hn : g.cells.lookup i = some n) {f : StorageBody α → StorageBody α}
    (hf : n.body.Alike (f n.body)) : Calm g (g.setBody i f) := by
  rw [setBody, modify_eq hn]
  exact ⟨h.put hn (same_setBody hf) rfl, .put _ hn (same_setBody hf)⟩

theorem Safe.calm_clearChildStorage (h : Safe g 0 0) (hn : g.cells.lookup i = some n) :
    Calm g (g.clearChildStorage i) := by
  rw [clearChildStorage, modify_eq hn]
  exact ⟨h.put hn (same_clearChildStorage n) rfl, .put _ hn (same_clearChildStorage n)⟩

/-! ## Pulling a result -/

theorem slotsQueued_alive : ∀ (appendages : List Nat), (∀ a ∈ appendages, ∃ n, g.cells.lookup a = some n) →
    ∃ k, g.slotsQueued appendages = .ok k
  | [], _ => ⟨0, rfl⟩
  | a :: appendages, halive => by
    obtain ⟨n, hn⟩ := halive a List.mem_cons_self
    obtain ⟨k, hk⟩ := slotsQueued_alive appendages fun b hb => halive b (List.mem_cons_of_mem a hb)
    refine ⟨n.body.queued + k, ?_⟩
    rw [slotsQueued, get_eq hn, hk]
    rfl

theorem queued_alive (hn : g.cells.lookup i = some n) (howned : ∀ a ∈ n.body.owned, ∃ na, g.cells.lookup a = some na) :
    ∃ k, g.queued i = .ok k := by
  rw [Graph.queued, get_eq hn]
  cases hbody : n.body with
  | merge appendages nextAppendage =>
    rw [hbody] at howned
    obtain ⟨k, hk⟩ := slotsQueued_alive appendages howned
    refine ⟨k, ?_⟩
    simp only [bind, Except.bind, hbody, hk]
  | _ =>
    refine ⟨n.body.queued, ?_⟩
    simp only [bind, Except.bind, hbody]
    rfl

theorem Safe.queued (h : Safe g 0 0) (hn : g.cells.lookup i = some n) : ∃ k, g.queued i = .ok k :=
  queued_alive hn fun _ ha => h.owned_alive hn (Multiset.notMem_zero i) ha

theorem findSlot_alive {appendages : List Nat} (halive : ∀ a ∈ appendages, ∃ n, g.cells.lookup a = some n) :
    ∀ n i : Nat, ∃ slot, g.findSlot appendages n i = .ok slot ∧ ∀ s ∈ slot, s.2.1 ∈ appendages
  | 0, _ => ⟨none, rfl, nofun⟩
  | n + 1, i => by
    rw [findSlot]
    cases ha : appendages[i]? with
    | none => exact findSlot_alive halive n (i + 1)
    | some a =>
      have hmem : a ∈ appendages := List.mem_of_getElem? ha
      obtain ⟨c, hc⟩ := halive a hmem
      simp only [bind, Except.bind, get_eq hc]
      cases hq : c.body.queue with
      | nil => exact findSlot_alive halive n (i + 1)
      | cons x xs =>
        refine ⟨some (i, a, x), rfl, fun s hs => ?_⟩
        obtain rfl := Option.some.inj hs
        exact hmem

def Pulls (g : Graph α) (x : Except Fault (ErrorOr α × Graph α)) : Prop :=
  Guard.Avoids .dangling x fun r => Safe r.2 0 0 ∧ Frame (fun _ => True) g r.2

theorem Calm.pulls {x : Except Fault (Graph α)} (hx : Calm g x) (y : ErrorOr α) :
    Pulls g (do return (y, ← x)) := Guard.Avoids.bind hx fun _ hg' => hg'

theorem Pulls.calm {x : Except Fault (ErrorOr α × Graph α)} {f : ErrorOr α × Graph α → Except Fault (Graph α)}
    (hx : Pulls g x) (hf : ∀ y g', Safe g' 0 0 → Frame (fun _ => True) g g' → Calm g' (f (y, g'))) :
    Calm g (x >>= f) := by
  refine Guard.Avoids.bind hx fun r hr => ?_
  obtain ⟨y, g₁⟩ := r
  obtain ⟨h₁, hframe₁⟩ := hr
  exact (hf y g₁ h₁ hframe₁).mono fun g' hg' => ⟨hg'.1, hframe₁.trans hg'.2⟩

theorem nextSlot_alive {appendages : List Nat} (next : Nat) (halive : ∀ a ∈ appendages, ∃ n, g.cells.lookup a = some n) :
    ∃ slot, g.nextSlot appendages next = .ok slot ∧ ∀ s ∈ slot, s.2.1 ∈ appendages := by
  obtain ⟨slot₁, hslot₁, hmem₁⟩ := findSlot_alive halive (appendages.length - next) next
  obtain ⟨slot₂, hslot₂, hmem₂⟩ := findSlot_alive halive next 0
  rw [nextSlot, hslot₁]
  cases slot₁ with
  | none => exact ⟨slot₂, hslot₂, hmem₂⟩
  | some s => exact ⟨some s, rfl, hmem₁⟩

theorem Safe.pulls_cursor (h : Safe g 0 0) (hn : g.cells.lookup i = some n) {appendages : List Nat} {next : Nat}
    (hbody : n.body.Alike (.merge appendages next)) (x : ErrorOr α) (next' : Nat) :
    Pulls g (do return (x, ← g.setBody i fun _ => .merge appendages next')) := by
  refine Calm.pulls (h.calm_setBody hn ?_) x
  exact hbody.trans ⟨rfl, rfl, rfl, rfl⟩

theorem Safe.serve (h : Safe g 0 0) {appendages : List Nat} {nextAppendage : Nat} (hn : g.cells.lookup i = some n)
    (hbody : n.body = .merge appendages nextAppendage) (next : Nat) {slot : Option (Nat × Nat × ErrorOr α)}
    (hslot : ∀ s ∈ slot, ∃ na, g.cells.lookup s.2.1 = some na) : Pulls g (g.serve i appendages next slot) := by
  have halike : n.body.Alike (.merge appendages nextAppendage) := by
    rw [hbody]
    exact .refl _
  cases slot with
  | none => exact h.pulls_cursor hn halike _ next
  | some s =>
    obtain ⟨na, hna⟩ := hslot s rfl
    refine Guard.Avoids.bind (h.calm_setBody hna na.body.alike_clear) fun g' hg' => ?_
    obtain ⟨n', hn', hsame⟩ := hg'.2.same hn trivial
    have halike' : n'.body.Alike (.merge appendages nextAppendage) := by
      rw [← hbody]
      exact ⟨hsame.body.child.symm, hsame.body.owned.symm, hsame.body.merger.symm, hsame.body.isMerge.symm⟩
    exact (hg'.1.pulls_cursor hn' halike' s.2.2 (s.1 + 1)).mono fun r hr => ⟨hr.1, hg'.2.trans hr.2⟩

theorem Safe.getMerged (h : Safe g 0 0) {appendages : List Nat} {nextAppendage : Nat} (hn : g.cells.lookup i = some n)
    (hbody : n.body = .merge appendages nextAppendage) : Pulls g (g.getMerged i appendages nextAppendage) := by
  have halive : ∀ a ∈ appendages, ∃ na, g.cells.lookup a = some na := by
    intro a ha
    refine h.owned_alive hn (Multiset.notMem_zero i) ?_
    rw [hbody]
    exact ha
  obtain ⟨slot, hslot, hmem⟩ := nextSlot_alive (min appendages.length nextAppendage) halive
  rw [Graph.getMerged, hslot]
  exact h.serve hn hbody _ fun s hs => halive _ (hmem s hs)

theorem Safe.getResult (h : Safe g 0 0) : ∀ (l : ConveyorNode α) {n : Cell α}, g.cells.lookup l.base = some n →
    n.body.merger = none → Pulls g (g.getResult l)
  | .convert child func errorFunc, n, hn, hmerger => by
    refine Guard.Avoids.bind (h.getResult child hn hmerger) fun r hr => ?_
    obtain ⟨dep, g'⟩ := r
    cases dep with
    | value v => exact hr
    | error e => exact hr
  | .storage i, n, hn, hmerger => by
    have hset {f : StorageBody α → StorageBody α} (hf : n.body.Alike (f n.body)) (x : ErrorOr α) :
        Pulls g (do return (x, ← g.setBody i f)) := Calm.pulls (h.calm_setBody hn hf) x
    have hn : g.cells.lookup i = some n := hn
    unfold Graph.getResult
    rw [get_eq hn]
    simp only [bind, Except.bind]
    cases hbody : n.body with
    | adapt storage =>
      cases storage with
      | nil => exact ⟨h, .refl _ g⟩
      | cons x storage =>
        refine hset ?_ x
        rw [hbody]
        exact ⟨rfl, rfl, rfl, rfl⟩
    | queueBuffer child storage maxStore =>
      cases storage with
      | nil => exact Guard.Avoids.error nofun
      | cons x storage =>
        refine hset ?_ x
        rw [hbody]
        exact ⟨rfl, rfl, rfl, rfl⟩
    | sink child => exact ⟨h, .refl _ g⟩
    | immediate value retrieved =>
      refine hset ?_ _
      rw [hbody]
      exact ⟨rfl, rfl, rfl, rfl⟩
    | merge appendages nextAppendage => exact h.getMerged hn hbody
    | appendage child m errorOrValue =>
      rw [hbody] at hmerger
      cases hmerger

end

end Graph

end Forstio
