import Forstio.GraphSignals

/-!
# Building a graph

A new node is nobody's until a handle, the daemon or a merge node takes it. The node it
is put on top of was a root, so its tree can be moved down as a whole: the depth below
the new node is as large as is wanted.
-/

namespace Forstio

namespace Graph

variable {α : Type}

def Roots (g : Graph α) (H : Multiset Nat) : Prop := ∀ j ∈ H, ∀ nj, g.cells.lookup j = some nj → nj.ups = []

section
variable {g : Graph α} {H : Multiset Nat} {i j : Nat} {n : Cell α} {depth : Nat → Nat}

theorem Roots.zero (g : Graph α) : Roots g 0 := nofun

/-! ## The trees -/

theorem Safe.up_owned (h : Safe g H 0) (hroots : Roots g H) (hn : g.cells.lookup j = some n) {u : Nat}
    (hu : u ∈ n.ups) : ∃ nu, g.cells.lookup u = some nu ∧ j ∈ nu.body.owned := by
  obtain ⟨nu, hnu, howner⟩ := h.ups j n hn u hu
  refine ⟨nu, hnu, ?_⟩
  rcases howner with hmem | hmem
  · rw [add_zero] at hmem
    rw [hroots j hmem n hn] at hu
    cases hu
  · exact hmem.2

theorem Safe.below_of_owns (h : Safe g H 0) (hi : i ∈ H + g.held) {p c : Nat} {np : Cell α}
    (hp : g.cells.lookup p = some np) (hc : c ∈ np.body.owned) (hbelow : g.Below i c) : g.Below i p := by
  rcases Relation.ReflTransGen.cases_tail hbelow with heq | htail
  · obtain ⟨hnot, hheld⟩ := h.owned_apart hp (Multiset.notMem_zero p) hc
    rw [heq, add_zero] at hnot
    rw [heq] at hheld
    rcases Multiset.mem_add.mp hi with hH | hi
    · exact absurd hH hnot
    · exact absurd hi hheld
  · obtain ⟨w, hw, nw, hnw, hcw⟩ := htail
    rw [h.owner_unique hp (Multiset.notMem_zero p) hnw (Multiset.notMem_zero w) hc hcw]
    exact hw

open Classical in
/-- A depth that is larger below `i`. -/
noncomputable def lowered (g : Graph α) (depth : Nat → Nat) (i k : Nat) (j : Nat) : Nat :=
  if g.Below i j then depth j + k else depth j

theorem lowered_below (hbelow : g.Below i j) (k : Nat) : g.lowered depth i k j = depth j + k := if_pos hbelow

theorem lowered_aside (haside : ¬ g.Below i j) (k : Nat) : g.lowered depth i k j = depth j := if_neg haside

/-- **The tree of a root can be lowered.** -/
theorem Safe.lower (h : Safe g H 0) (hroots : Roots g H) (hranked : g.Ranked depth) (hi : i ∈ H + g.held) (k : Nat) :
    g.Ranked (g.lowered depth i k) := by
  intro j nj hj
  have hedge {p c : Nat} {np : Cell α} (hp : g.cells.lookup p = some np) (hc : c ∈ np.body.owned)
      (hlt : depth p < depth c) : g.lowered depth i k p < g.lowered depth i k c := by
    by_cases hbelow : g.Below i p
    · rw [lowered_below hbelow, lowered_below (hbelow.tail ⟨np, hp, hc⟩)]
      exact Nat.add_lt_add_right hlt k
    · rw [lowered_aside hbelow, lowered_aside fun hcbelow => hbelow (h.below_of_owns hi hp hc hcbelow)]
      exact hlt
  refine ⟨fun u hu => ?_, fun c hc => hedge hj hc ((hranked j nj hj).2 c hc)⟩
  obtain ⟨nu, hnu, hown⟩ := h.up_owned hroots hj hu
  exact hedge hnu hown ((hranked j nj hj).1 u hu)

/-! ## Handles -/

theorem Safe.release (h : Safe g H 0) {k : Nat} {hd : Handle α} (hk : g.handles.lookup k = some hd) :
    Safe (g.release k) (hd.owned + H) 0 := by
  have hback {k' : Nat} {hd' : Handle α} (hk' : (g.handles.erase k).lookup k' = some hd') :
      g.handles.lookup k' = some hd' := by
    by_cases heq : k' = k
    · rw [heq, AList.lookup_erase] at hk'
      cases hk'
    · exact (AList.lookup_erase_ne heq).symm.trans hk'
  refine ⟨?_, h.created, h.cells, fun k' hk' => h.handles k' (AList.mem_erase.mp hk').2, h.feeders, ?_, h.down, h.child,
    fun k' c hk' => h.conveyors k' c (hback hk'), fun k' m hk' => h.mergers k' m (hback hk'), h.feedees, h.feeder,
    h.queue⟩
  · have herase := Heap.total_erase (fun _ (hd : Handle α) => hd.owned) hk
    refine Eq.trans ?_ h.counted
    unfold held
    rw [herase]
    show hd.owned + H + 0 + (Heap.total _ (g.handles.erase k) + (g.sinkNodes.filterMap id : List Nat)) + g.ownedBut 0 = _
    abel
  · intro j nj hj u hu
    obtain ⟨nu, hnu, howner⟩ := h.ups j nj hj u hu
    refine ⟨nu, hnu, howner.imp_left fun hmem => ?_⟩
    rw [add_assoc]
    exact Multiset.mem_add.mpr (Or.inr hmem)

def Fits (g : Graph α) : Handle α → Prop
  | .conveyor c => c.storage = c.node.base ∧ ∃ n, g.cells.lookup c.storage = some n ∧ n.body.merger = none
  | .sink _ => True
  | .merger m => m < g.created ∧ ∀ n, g.cells.lookup m = some n → n.body.isMerge

theorem Safe.rehold {hd : Handle α} (h : Safe g (hd.owned + H) 0) {k : Nat} (hk : k ∉ g.handles) (hlt : k < g.created)
    (hroots : Roots g hd.owned) (hfits : g.Fits hd) : Safe (g.rehold k hd) H 0 := by
  have hback {k' : Nat} {hd' : Handle α} (hk' : (g.handles.insert k hd).lookup k' = some hd') :
      hd' = hd ∨ g.handles.lookup k' = some hd' := by
    by_cases heq : k' = k
    · rw [heq, AList.lookup_insert] at hk'
      exact Or.inl (Option.some.inj hk').symm
    · exact Or.inr ((AList.lookup_insert_ne heq).symm.trans hk')
  refine ⟨?_, h.created, h.cells, ?_, h.feeders, ?_, h.down, h.child, ?_, ?_, h.feedees, h.feeder, h.queue⟩
  · have hinsert := Heap.total_insert (fun _ (hd : Handle α) => hd.owned) hk hd
    refine Eq.trans ?_ h.counted
    unfold held
    show H + 0 + (Heap.total _ (g.handles.insert k hd) + (g.sinkNodes.filterMap id : List Nat)) + g.ownedBut 0 = _
    rw [hinsert]
    abel
  · intro k' hk'
    rcases (AList.mem_insert _).mp hk' with heq | hold
    · rw [heq]
      exact hlt
    · exact h.handles k' hold
  · intro j nj hj u hu
    obtain ⟨nu, hnu, howner⟩ := h.ups j nj hj u hu
    refine ⟨nu, hnu, howner.imp_left fun hmem => ?_⟩
    rw [add_assoc] at hmem
    rcases Multiset.mem_add.mp hmem with hown | hH
    · rw [hroots j hown nj hj] at hu
      cases hu
    · exact hH
  · intro k' c hk'
    rcases hback hk' with heq | hold
    · rw [← heq] at hfits
      exact hfits
    · exact h.conveyors k' c hold
  · intro k' m hk'
    rcases hback hk' with heq | hold
    · rw [← heq] at hfits
      exact hfits
    · exact h.mergers k' m hold

theorem Safe.fresh (h : Safe g H 0) : Safe { g with created := g.created + 1 } H 0 :=
  ⟨h.counted, Nat.lt_succ_of_lt h.created, fun i hi => ⟨(h.cells i hi).1, Nat.lt_succ_of_lt (h.cells i hi).2⟩,
    fun k hk => Nat.lt_succ_of_lt (h.handles k hk), fun f hf => Nat.lt_succ_of_lt (h.feeders f hf), h.ups, h.down, h.child,
    h.conveyors, fun k m hk => ⟨Nat.lt_succ_of_lt (h.mergers k m hk).1, (h.mergers k m hk).2⟩, h.feedees, h.feeder,
    h.queue⟩

theorem Fits.fresh {hd : Handle α} (hfits : g.Fits hd) : Fits { g with created := g.created + 1 } hd := by
  cases hd with
  | merger m => exact ⟨Nat.lt_succ_of_lt hfits.1, hfits.2⟩
  | _ => exact hfits

theorem Safe.hold {hd : Handle α} (h : Safe g (hd.owned + H) 0) (hroots : Roots g hd.owned) (hfits : g.Fits hd) :
    Safe (g.hold hd).2 H 0 := by
  refine h.fresh.rehold (fun hk => ?_) (Nat.lt_succ_self _) hroots hfits.fresh
  exact Nat.lt_irrefl _ (h.handles _ hk)

/-! ## New nodes -/

theorem Safe.ne_created (h : Safe g H 0) (hn : g.cells.lookup j = some n) : j ≠ g.created :=
  Nat.ne_of_lt (h.cells j (mem_of_lookup hn)).2

theorem Safe.created_new (h : Safe g H 0) : g.created ∉ g.cells := fun hmem => Nat.lt_irrefl _ (h.cells _ hmem).2

section
variable (h : Safe g H 0)
include h

theorem Safe.lookup_alloc {nj : Cell α} (hj : g.cells.lookup j = some nj) :
    (g.put g.created n).cells.lookup j = some nj := by
  rw [lookup_put, if_neg (h.ne_created hj), hj]

omit h in
theorem of_lookup_alloc {nj : Cell α} (hj : (g.put g.created n).cells.lookup j = some nj) :
    j = g.created ∧ nj = n ∨ g.cells.lookup j = some nj := by
  rw [lookup_put] at hj
  split at hj
  next heq => exact Or.inl ⟨heq, (Option.some.inj hj).symm⟩
  next => exact Or.inr hj

theorem Safe.counted_alloc (howned : n.body.owned = []) :
    {g.created} + H + 0 + g.held + (g.put g.created n).ownedBut 0 = Heap.addresses (g.put g.created n).cells := by
  have hi : g.created ∉ g.cells := h.created_new
  have hbut : (g.put g.created n).ownedBut 0 = g.ownedBut 0 := by
    unfold ownedBut
    show Heap.total _ (g.cells.insert g.created n) = _
    rw [Heap.total_insert _ hi, howned]
    simp
  show _ = Heap.addresses (g.cells.insert g.created n)
  rw [Heap.addresses_insert hi, hbut, ← h.counted]
  abel

theorem Safe.cells_alloc (hj : j ∈ (g.put g.created n).cells) : conveyorSinks < j ∧ j < g.created + 1 := by
  obtain ⟨nj, hj⟩ := lookup_of_mem hj
  rcases of_lookup_alloc hj with hnew | hj
  · rw [hnew.1]
    exact ⟨h.created, Nat.lt_succ_self _⟩
  · exact ⟨(h.cells j (mem_of_lookup hj)).1, Nat.lt_succ_of_lt (h.cells j (mem_of_lookup hj)).2⟩

theorem Safe.ups_alloc (hups : n.ups = []) {nj : Cell α} (hj : (g.put g.created n).cells.lookup j = some nj) {u : Nat}
    (hu : u ∈ nj.ups) : ∃ nu, (g.put g.created n).cells.lookup u = some nu ∧
      (j ∈ {g.created} + H + 0 ∨ u ∉ (0 : Multiset Nat) ∧ j ∈ nu.body.owned) := by
  rcases of_lookup_alloc hj with hnew | hj
  · rw [hnew.2, hups] at hu
    cases hu
  · obtain ⟨nu, hnu, howner⟩ := h.ups j nj hj u hu
    refine ⟨nu, h.lookup_alloc hnu, howner.imp_left fun hmem => ?_⟩
    rw [add_assoc]
    exact Multiset.mem_add.mpr (Or.inr hmem)

theorem Safe.down_alloc (hdown : n.childStorage = none) {nj : Cell α} {c : Nat}
    (hj : (g.put g.created n).cells.lookup j = some nj) (hc : nj.childStorage = some c) :
    ∃ nc, (g.put g.created n).cells.lookup c = some nc ∧ nc.parent = some j ∧ nc.body.merger = none := by
  rcases of_lookup_alloc hj with hnew | hj
  · rw [hnew.2, hdown] at hc
    cases hc
  · obtain ⟨nc, hnc, hparent⟩ := h.down j nj c hj hc
    exact ⟨nc, h.lookup_alloc hnc, hparent⟩

theorem Safe.child_alloc (howned : n.body.owned = []) {nj : Cell α} {l : ConveyorNode α}
    (hj : (g.put g.created n).cells.lookup j = some nj) (hl : nj.body.child = some l) :
    ∃ nl, (g.put g.created n).cells.lookup l.base = some nl ∧ nl.body.merger = none := by
  rcases of_lookup_alloc hj with hnew | hj
  · rw [hnew.2] at hl
    have hmem := StorageBody.mem_owned_child hl
    rw [howned] at hmem
    cases hmem
  · obtain ⟨nl, hnl, hmerger⟩ := h.child j nj l hj (Multiset.notMem_zero j) hl
    exact ⟨nl, h.lookup_alloc hnl, hmerger⟩

theorem Safe.mergers_alloc {k m : Nat} (hk : g.handles.lookup k = some (.merger m)) :
    m < g.created + 1 ∧ ∀ nm, (g.put g.created n).cells.lookup m = some nm → nm.body.isMerge := by
  obtain ⟨hm, hmerge⟩ := h.mergers k m hk
  refine ⟨Nat.lt_succ_of_lt hm, fun nm hnm => ?_⟩
  rcases of_lookup_alloc hnm with hnew | hnm
  · rw [hnew.1] at hm
    exact absurd hm (Nat.lt_irrefl _)
  · exact hmerge nm hnm

theorem Safe.allocWith (hups : n.ups = []) (hdown : n.childStorage = none) (howned : n.body.owned = [])
    (feeders : Heap Nat (Option Nat)) (hlt : ∀ f ∈ feeders, f < g.created)
    (hkept : ∀ f i, g.feeders.lookup f = some (some i) → feeders.lookup f = some (some i))
    (hback : ∀ f i, feeders.lookup f = some (some i) →
      g.feeders.lookup f = some (some i) ∨ i = g.created ∧ n.feeder = some f)
    (hnew : ∀ f, n.feeder = some f → feeders.lookup f = some (some g.created)) :
    Safe { (g.alloc n).2 with feeders := feeders } ({g.created} + H) 0 where
  counted := h.counted_alloc howned
  created := Nat.lt_succ_of_lt h.created
  cells _ hj := h.cells_alloc hj
  handles k hk := Nat.lt_succ_of_lt (h.handles k hk)
  feeders f hf := Nat.lt_succ_of_lt (hlt f hf)
  ups _ _ hj _ hu := h.ups_alloc hups hj hu
  down _ _ _ hj hc := h.down_alloc hdown hj hc
  child _ _ _ hj _ hl := h.child_alloc howned hj hl
  conveyors k c hk := by
    obtain ⟨hstorage, nc, hnc, hmerger⟩ := h.conveyors k c hk
    exact ⟨hstorage, nc, h.lookup_alloc hnc, hmerger⟩
  mergers _ _ hk := h.mergers_alloc hk
  feedees f j hf := by
    rcases hback f j hf with hf | hf
    · obtain ⟨nj, hj, hfj, hmerger⟩ := h.feedees f j hf
      exact ⟨nj, h.lookup_alloc hj, hfj, hmerger⟩
    · have hnone := Option.toList_eq_nil_iff.mp (List.append_eq_nil_iff.mp hups).2
      rw [hf.1]
      exact ⟨n, (lookup_put g _ _ n).trans (if_pos rfl), hf.2, hnone⟩
  feeder j nj f hj hf := by
    rcases of_lookup_alloc hj with hself | hj
    · rw [hself.1]
      rw [hself.2] at hf
      exact hnew f hf
    · exact hkept f j (h.feeder j nj f hj hf)
  queue := h.queue.move fun _ nj hj hmerger => ⟨nj, h.lookup_alloc hj, hmerger⟩

end

theorem Safe.alloc (h : Safe g H 0) {n : Cell α} (hups : n.ups = []) (hdown : n.childStorage = none)
    (howned : n.body.owned = []) (hfeeder : n.feeder = none) : Safe (g.alloc n).2 ({g.created} + H) 0 := by
  refine h.allocWith hups hdown howned g.feeders h.feeders (fun _ _ hf => hf) (fun _ _ hf => Or.inl hf) fun f hf => ?_
  rw [hfeeder] at hf
  cases hf

/-! ## A node on top of a root -/

def adopted (g : Graph α) (n : Cell α) (x : Nat) (nx : Cell α) : Graph α :=
  (g.alloc n).2.put x { nx with parent := some g.created }

/-- A node with one member, the child's storage. -/
structure Tops (n : Cell α) (x : Nat) : Prop where
  parent : n.parent = none
  childStorage : n.childStorage = some x
  feeder : n.feeder = none
  owned : n.body.owned = [x]

section
variable {x : Nat} {nx : Cell α}

theorem Safe.lookup_adopted (h : Safe g H 0) {nj : Cell α} (hj : g.cells.lookup j = some nj) :
    (g.adopted n x nx).cells.lookup j = some (if j = x then { nx with parent := some g.created } else nj) := by
  show ((g.put g.created n).put x _).cells.lookup j = _
  rw [lookup_put]
  split
  · rfl
  · rw [lookup_put, if_neg (h.ne_created hj), hj]

theorem Safe.adopted_old (h : Safe g H 0) (hx : g.cells.lookup x = some nx) {nj : Cell α}
    (hj : g.cells.lookup j = some nj) : ∃ nj', (g.adopted n x nx).cells.lookup j = some nj' ∧ nj'.body = nj.body ∧
      nj'.feeder = nj.feeder ∧ nj'.childStorage = nj.childStorage ∧ (j ≠ x → nj' = nj) := by
  refine ⟨_, h.lookup_adopted hj, ?_⟩
  split
  next heq =>
    subst heq
    obtain rfl := Option.some.inj (hx.symm.trans hj)
    exact ⟨rfl, rfl, rfl, fun hne => absurd rfl hne⟩
  next => exact ⟨rfl, rfl, rfl, fun _ => rfl⟩

theorem Safe.adopted_new (h : Safe g H 0) (hx : g.cells.lookup x = some nx) :
    (g.adopted n x nx).cells.lookup g.created = some n := by
  show ((g.put g.created n).put x _).cells.lookup g.created = _
  rw [lookup_put, if_neg (h.ne_created hx).symm, lookup_put, if_pos rfl]

theorem adopted_cases (hx : g.cells.lookup x = some nx) (hroot : nx.ups = []) {nj' : Cell α}
    (hj : (g.adopted n x nx).cells.lookup j = some nj') :
    j = g.created ∧ nj' = n ∨ ∃ nj, g.cells.lookup j = some nj ∧ nj'.body = nj.body ∧ nj'.feeder = nj.feeder ∧
      nj'.childStorage = nj.childStorage ∧ (j ≠ x → nj' = nj) ∧ (j = x → nj'.ups = [g.created]) := by
  change ((g.put g.created n).put x _).cells.lookup j = _ at hj
  rw [lookup_put] at hj
  split at hj
  next heq =>
    subst heq
    obtain rfl := Option.some.inj hj
    refine Or.inr ⟨nx, hx, rfl, rfl, rfl, fun hne => absurd rfl hne, fun _ => ?_⟩
    have hnone : nx.body.merger.toList = [] := (List.append_eq_nil_iff.mp hroot).2
    unfold Cell.ups
    rw [hnone]
    rfl
  next hne =>
    rw [lookup_put] at hj
    split at hj
    next heq => exact Or.inl ⟨heq, (Option.some.inj hj).symm⟩
    next => exact Or.inr ⟨nj', hj, rfl, rfl, rfl, fun _ => rfl, fun heq => absurd heq hne⟩

theorem Safe.counted_adopted (h : Safe g ({x} + H) 0) (hx : g.cells.lookup x = some nx) (hn : n.body.owned = [x]) :
    {g.created} + H + 0 + g.held + (g.adopted n x nx).ownedBut 0 = Heap.addresses (g.adopted n x nx).cells := by
  have hi : g.created ∉ g.cells := h.created_new
  have hx' : (g.cells.insert g.created n).lookup x = some nx := by
    rw [AList.lookup_insert_ne, hx]
    intro heq
    rw [heq] at hx
    exact hi (mem_of_lookup hx)
  have hbut : (g.adopted n x nx).ownedBut 0 = {x} + g.ownedBut 0 := by
    unfold ownedBut
    show Heap.total _ ((g.cells.insert g.created n).insert x _) = _
    rw [Heap.total_update_same (y := { nx with parent := some g.created }) _ hx' rfl, Heap.total_insert _ hi, hn]
    simp
  have haddresses : Heap.addresses (g.adopted n x nx).cells = {g.created} + Heap.addresses g.cells := by
    show Heap.addresses ((g.cells.insert g.created n).insert x _) = _
    rw [Heap.addresses_update hx', Heap.addresses_insert hi]
  rw [haddresses, hbut, ← h.counted]
  abel

section
variable (h : Safe g ({x} + H) 0) (hx : g.cells.lookup x = some nx) (hroot : nx.ups = []) (htops : Tops n x)

include h hx hroot in
theorem Safe.cells_adopted : ∀ j ∈ (g.adopted n x nx).cells, conveyorSinks < j ∧ j < g.created + 1 := by
  intro j hj
  obtain ⟨nj', hj'⟩ := lookup_of_mem hj
  rcases adopted_cases hx hroot hj' with hnew | hj
  · rw [hnew.1]
    exact ⟨h.created, Nat.lt_succ_self _⟩
  · obtain ⟨nj, hj, -⟩ := hj
    obtain ⟨hpos, hlt⟩ := h.cells j (mem_of_lookup hj)
    exact ⟨hpos, Nat.lt_succ_of_lt hlt⟩

include h hx in
theorem Safe.low_adopted : (g.adopted n x nx).cells.lookup x = some { nx with parent := some g.created } := by
  rw [h.lookup_adopted hx, if_pos rfl]

include h hx hroot htops in
theorem Safe.ups_adopted (hmerger : ∀ m, n.body.merger = some m → ∃ nm, g.cells.lookup m = some nm) {nj' : Cell α}
    (hj' : (g.adopted n x nx).cells.lookup j = some nj') {u : Nat} (hu : u ∈ nj'.ups) :
    ∃ nu', (g.adopted n x nx).cells.lookup u = some nu' ∧
      (j ∈ {g.created} + H + 0 ∨ u ∉ (0 : Multiset Nat) ∧ j ∈ nu'.body.owned) := by
  rcases adopted_cases hx hroot hj' with hnew | hj
  · rw [hnew.2, Cell.ups, htops.parent] at hu
    obtain ⟨nm, hnm⟩ := hmerger u (Option.mem_toList.mp hu)
    obtain ⟨nm', hnm', -⟩ := h.adopted_old (n := n) hx hnm
    refine ⟨nm', hnm', Or.inl ?_⟩
    rw [hnew.1]
    simp
  · obtain ⟨nj, hj, -, -, -, hsame, hup⟩ := hj
    by_cases hjx : j = x
    · rw [hup hjx] at hu
      rw [List.mem_singleton.mp hu, hjx]
      refine ⟨n, h.adopted_new hx, Or.inr ⟨Multiset.notMem_zero _, ?_⟩⟩
      rw [htops.owned]
      exact List.mem_singleton_self x
    · rw [hsame hjx] at hu
      obtain ⟨nu, hnu, howner⟩ := h.ups j nj hj u hu
      obtain ⟨nu', hnu', hbody, -⟩ := h.adopted_old (n := n) hx hnu
      refine ⟨nu', hnu', ?_⟩
      rw [hbody]
      refine howner.imp_left fun hmem => ?_
      simp only [Multiset.mem_add, Multiset.mem_singleton, Multiset.notMem_zero, or_false, hjx, false_or] at hmem ⊢
      exact Or.inr hmem

include h hx hroot htops in
theorem Safe.down_adopted {nj' : Cell α} {c : Nat} (hj' : (g.adopted n x nx).cells.lookup j = some nj')
    (hc : nj'.childStorage = some c) :
    ∃ nc', (g.adopted n x nx).cells.lookup c = some nc' ∧ nc'.parent = some j ∧ nc'.body.merger = none := by
  have hnone : nx.body.merger = none := Option.toList_eq_nil_iff.mp (List.append_eq_nil_iff.mp hroot).2
  have hparent : nx.parent = none := Option.toList_eq_nil_iff.mp (List.append_eq_nil_iff.mp hroot).1
  rcases adopted_cases hx hroot hj' with hnew | hj
  · rw [hnew.2, htops.childStorage] at hc
    obtain rfl := Option.some.inj hc
    rw [hnew.1]
    exact ⟨_, h.low_adopted hx, rfl, hnone⟩
  · obtain ⟨nj, hj, -, -, hchild, -⟩ := hj
    obtain ⟨nc, hnc, hup, hcmerger⟩ := h.down j nj c hj (hchild.symm.trans hc)
    obtain ⟨nc', hnc', -, -, -, hsame⟩ := h.adopted_old (n := n) hx hnc
    have hne : c ≠ x := by
      rintro rfl
      rw [Option.some.inj (hnc.symm.trans hx), hparent] at hup
      cases hup
    rw [hsame hne] at hnc'
    exact ⟨nc, hnc', hup, hcmerger⟩

include h hx hroot htops in
theorem Safe.child_adopted {nj' : Cell α} {l : ConveyorNode α} (hj' : (g.adopted n x nx).cells.lookup j = some nj')
    (hl : nj'.body.child = some l) :
    ∃ nl', (g.adopted n x nx).cells.lookup l.base = some nl' ∧ nl'.body.merger = none := by
  have hnone : nx.body.merger = none := Option.toList_eq_nil_iff.mp (List.append_eq_nil_iff.mp hroot).2
  rcases adopted_cases hx hroot hj' with hnew | hj
  · rw [hnew.2] at hl
    have hmem := StorageBody.mem_owned_child hl
    rw [htops.owned] at hmem
    rw [List.mem_singleton.mp hmem]
    exact ⟨_, h.low_adopted hx, hnone⟩
  · obtain ⟨nj, hj, hbody, -⟩ := hj
    rw [hbody] at hl
    obtain ⟨nl, hnl, hmerger⟩ := h.child j nj l hj (Multiset.notMem_zero j) hl
    obtain ⟨nl', hnl', hlbody, -⟩ := h.adopted_old (n := n) hx hnl
    rw [← hlbody] at hmerger
    exact ⟨nl', hnl', hmerger⟩

include h hx in
theorem Safe.conveyors_adopted {k : Nat} {c : Conveyor α} (hk : g.handles.lookup k = some (.conveyor c)) :
    c.storage = c.node.base ∧ ∃ nc', (g.adopted n x nx).cells.lookup c.storage = some nc' ∧ nc'.body.merger = none := by
  obtain ⟨hstorage, nc, hnc, hmerger⟩ := h.conveyors k c hk
  obtain ⟨nc', hnc', hbody, -⟩ := h.adopted_old (n := n) hx hnc
  rw [← hbody] at hmerger
  exact ⟨hstorage, nc', hnc', hmerger⟩

include h hx hroot in
theorem Safe.mergers_adopted {k m : Nat} (hk : g.handles.lookup k = some (.merger m)) :
    m < g.created + 1 ∧ ∀ nm', (g.adopted n x nx).cells.lookup m = some nm' → nm'.body.isMerge := by
  obtain ⟨hm, hmerge⟩ := h.mergers k m hk
  refine ⟨Nat.lt_succ_of_lt hm, fun nm' hnm' => ?_⟩
  rcases adopted_cases hx hroot hnm' with hnew | hnm
  · rw [hnew.1] at hm
    exact absurd hm (Nat.lt_irrefl _)
  · obtain ⟨nm, hnm, hbody, -⟩ := hnm
    rw [hbody]
    exact hmerge nm hnm

include h hx in
theorem Safe.feedees_adopted {f : Nat} (hf : g.feeders.lookup f = some (some j)) :
    ∃ nj', (g.adopted n x nx).cells.lookup j = some nj' ∧ nj'.feeder = some f ∧ nj'.body.merger = none := by
  obtain ⟨nj, hj, hfj, hmerger⟩ := h.feedees f j hf
  obtain ⟨nj', hj', hbody, hfeeder, -⟩ := h.adopted_old (n := n) hx hj
  rw [← hbody] at hmerger
  exact ⟨nj', hj', hfeeder.trans hfj, hmerger⟩

include h hx hroot htops in
theorem Safe.feeder_adopted {nj' : Cell α} {f : Nat} (hj' : (g.adopted n x nx).cells.lookup j = some nj')
    (hf : nj'.feeder = some f) : g.feeders.lookup f = some (some j) := by
  rcases adopted_cases hx hroot hj' with hnew | hj
  · rw [hnew.2, htops.feeder] at hf
    cases hf
  · obtain ⟨nj, hj, -, hfeeder, -⟩ := hj
    exact h.feeder j nj f hj (hfeeder.symm.trans hf)

include h hx in
theorem Safe.queue_adopted : Queue g.loop (g.adopted n x nx).cells := by
  refine h.queue.move fun j nj hj hmerger => ?_
  obtain ⟨nj', hj', hbody, -⟩ := h.adopted_old (n := n) hx hj
  rw [← hbody] at hmerger
  exact ⟨nj', hj', hmerger⟩

include h hx hroot htops in
/-- **A root is put below a new node.** -/
theorem Safe.adopt (hmerger : ∀ m, n.body.merger = some m → ∃ nm, g.cells.lookup m = some nm) :
    Safe (g.adopted n x nx) ({g.created} + H) 0 where
  counted := h.counted_adopted hx htops.owned
  created := Nat.lt_succ_of_lt h.created
  cells := h.cells_adopted hx hroot
  handles k hk := Nat.lt_succ_of_lt (h.handles k hk)
  feeders f hf := Nat.lt_succ_of_lt (h.feeders f hf)
  ups _ _ hj _ hu := h.ups_adopted hx hroot htops hmerger hj hu
  down _ _ _ hj hc := h.down_adopted hx hroot htops hj hc
  child _ _ _ hj _ hl := h.child_adopted hx hroot htops hj hl
  conveyors _ _ hk := h.conveyors_adopted hx hk
  mergers _ _ hk := h.mergers_adopted hx hroot hk
  feedees _ _ hf := h.feedees_adopted hx hf
  feeder _ _ _ hj hf := h.feeder_adopted hx hroot htops hj hf
  queue := h.queue_adopted hx

end

theorem Safe.ranked_adopted (h : Safe g ({x} + H) 0) (hroots : Roots g ({x} + H)) (hranked : g.Ranked depth)
    (hx : g.cells.lookup x = some nx) (htops : Tops n x)
    (hmerger : ∀ m, n.body.merger = some m → (∃ nm, g.cells.lookup m = some nm) ∧ ¬ g.Below x m) :
    ∃ depth', (g.adopted n x nx).Ranked depth' ∧ ∀ m, n.body.merger = some m → depth' m < depth' g.created := by
  obtain ⟨b, hb⟩ : ∃ b, ∀ m, n.body.merger = some m → depth m < b := by
    cases n.body.merger with
    | none => exact ⟨0, nofun⟩
    | some m => exact ⟨depth m + 1, fun m' hm' => Option.some.inj hm' ▸ Nat.lt_succ_self _⟩
  have hin : x ∈ {x} + H := Multiset.mem_add.mpr (Or.inl (Multiset.mem_singleton_self x))
  have hlow := h.lower hroots hranked (Multiset.mem_add.mpr (Or.inl hin)) (b + 1)
  have hold {j : Nat} {nj : Cell α} (hj : g.cells.lookup j = some nj) :
      Function.update (g.lowered depth x (b + 1)) g.created b j = g.lowered depth x (b + 1) j :=
    Function.update_of_ne (h.ne_created hj) _ _
  have htop : b < g.lowered depth x (b + 1) x := by
    rw [lowered_below .refl]
    omega
  have hups : ∀ m, n.body.merger = some m →
      Function.update (g.lowered depth x (b + 1)) g.created b m < b := by
    intro m hm
    obtain ⟨⟨nm, hnm⟩, haside⟩ := hmerger m hm
    rw [hold hnm, lowered_aside haside]
    exact hb m hm
  refine ⟨Function.update (g.lowered depth x (b + 1)) g.created b, ?_, ?_⟩
  · intro j nj' hj'
    rcases adopted_cases hx (hroots x hin nx hx) hj' with hnew | hj
    · rw [hnew.1, hnew.2, Function.update_self, Cell.ups, htops.parent, htops.owned]
      refine ⟨fun u hu => hups u (Option.mem_toList.mp hu), fun c hc => ?_⟩
      rw [List.mem_singleton.mp hc, hold hx]
      exact htop
    · obtain ⟨nj, hj, hbody, -, -, hsame, hup⟩ := hj
      rw [hold hj, hbody]
      refine ⟨fun u hu => ?_, fun c hc => ?_⟩
      · by_cases hjx : j = x
        · rw [hup hjx] at hu
          rw [List.mem_singleton.mp hu, Function.update_self, hjx]
          exact htop
        · rw [hsame hjx] at hu
          obtain ⟨nu, hnu, -⟩ := h.ups j nj hj u hu
          rw [hold hnu]
          exact (hlow j nj hj).1 u hu
      · obtain ⟨nc, hnc⟩ := h.owned_alive hj (Multiset.notMem_zero j) hc
        rw [hold hnc]
        exact (hlow j nj hj).2 c hc
  · intro m hm
    rw [Function.update_self]
    exact hups m hm

/-! ## Hanging and attaching -/

/-- The node `n` hangs above `x`, and nobody owns it yet. -/
structure Hung (g : Graph α) (n : Cell α) (x : Nat) (H : Multiset Nat) (g' : Graph α) : Prop where
  safe : Safe g' ({g.created} + H) 0
  ranked : ∃ depth, g'.Ranked depth ∧ ∀ m, n.body.merger = some m → depth m < depth g.created
  new : g'.cells.lookup g.created = some n
  old : ∀ j nj, g.cells.lookup j = some nj → ∃ nj', g'.cells.lookup j = some nj' ∧ nj'.body = nj.body
  roots : Roots g' H
  handles : g'.handles = g.handles
  created : g'.created = g.created + 1

theorem Hung.requeue {g' : Graph α} (h : Hung g n x H g') {loop : EventLoop Nat} (hq : Queue loop g'.cells) :
    Hung g n x H { g' with loop } :=
  ⟨h.safe.requeue hq, h.ranked, h.new, h.old, h.roots, h.handles, h.created⟩

theorem Safe.hung (h : Safe g ({x} + H) 0) (hroots : Roots g ({x} + H)) (hranked : g.Ranked depth)
    (hx : g.cells.lookup x = some nx) (htops : Tops n x)
    (hmerger : ∀ m, n.body.merger = some m → (∃ nm, g.cells.lookup m = some nm) ∧ ¬ g.Below x m) :
    Hung g n x H (g.adopted n x nx) := by
  have hroot := hroots x (Multiset.mem_add.mpr (Or.inl (Multiset.mem_singleton_self x))) nx hx
  refine ⟨h.adopt hx hroot htops fun m hm => (hmerger m hm).1, h.ranked_adopted hroots hranked hx htops hmerger,
    h.adopted_new hx, ?_, ?_, rfl, rfl⟩
  · intro j nj hj
    obtain ⟨nj', hj', hbody, -⟩ := h.adopted_old (n := n) hx hj
    exact ⟨nj', hj', hbody⟩
  · intro j hj nj' hj'
    have hmem : j ∈ {x} + H := Multiset.mem_add.mpr (Or.inr hj)
    obtain ⟨nj, hnj⟩ := h.alive (i := j) (by simp [hj])
    obtain ⟨nj₀, hj₀, -, -, -, hsame⟩ := h.adopted_old (n := n) hx hnj
    obtain rfl := Option.some.inj (hj'.symm.trans hj₀)
    rw [hsame, hroots j hmem nj hnj]
    intro heq
    have hdisjoint := (Multiset.nodup_add.mp (Multiset.nodup_add.mp (Multiset.nodup_add.mp
      (Multiset.nodup_add.mp h.nodup).1).1).1).2.2
    rw [heq] at hj
    exact Multiset.disjoint_left.mp hdisjoint (Multiset.mem_singleton_self x) hj

theorem setParent_avoids {p : Nat} {np : Cell α} (hn : g.cells.lookup i = some n) (hp : g.cells.lookup p = some np)
    (howned : ∀ a ∈ n.body.owned, ∃ na, g.cells.lookup a = some na) (hq : Queue g.loop g.cells)
    (hmerger : n.body.merger = none) :
    Guard.Avoids .dangling (g.setParent i p) fun g' =>
      ∃ loop, g' = { g.put i { n with parent := some p } with loop } ∧ Queue loop g.cells := by
  have hparent {loop : EventLoop Nat} (hq : Queue loop g.cells) :
      Guard.Avoids .dangling (modify { g with loop } i fun n => { n with parent := some p }) fun g' =>
        ∃ loop, g' = { g.put i { n with parent := some p } with loop } ∧ Queue loop g.cells := by
    have hn' : ({ g with loop } : Graph α).cells.lookup i = some n := hn
    rw [modify_eq hn']
    exact ⟨loop, rfl, hq⟩
  rw [Graph.setParent, get_bind hn]
  obtain ⟨q, hqueued⟩ := queued_alive hn howned
  refine Guard.Avoids.of_ok hqueued ?_
  split
  · refine Guard.Avoids.bind (check_avoids (n.parent = none)) fun _ _ => ?_
    refine Guard.Avoids.of_ok (space_eq hp) ?_
    split
    · obtain ⟨loop, harm, hq', -⟩ := arms_later.armed hq (Or.inr ⟨n, hn, hmerger⟩)
      exact Guard.Avoids.of_ok harm (hparent hq')
    · exact Guard.Avoids.of_ok rfl (hparent hq)
  · exact Guard.Avoids.of_ok rfl (hparent hq)

theorem Safe.hang {c : Conveyor α} {body : StorageBody α} (h : Safe g ({c.storage} + H) 0)
    (hroots : Roots g ({c.storage} + H)) (hranked : g.Ranked depth) (hbody : body.owned = [c.storage])
    (hmerger : ∀ m, body.merger = some m → (∃ nm, g.cells.lookup m = some nm) ∧ ¬ g.Below c.storage m)
    (conveyorSink : Bool) :
    Guard.Avoids .dangling (g.hang c body conveyorSink) fun r => r.1 = g.created ∧
      Hung g ⟨⟨none, some c.storage, body⟩, none, conveyorSink⟩ c.storage H r.2 := by
  obtain ⟨nx, hx⟩ := h.alive (i := c.storage) (by simp)
  have hroot := hroots c.storage (by simp) nx hx
  have hung := h.hung (n := ⟨⟨none, some c.storage, body⟩, none, conveyorSink⟩) hroots hranked hx ⟨rfl, rfl, rfl, hbody⟩
    hmerger
  have hold {j : Nat} {nj : Cell α} (hj : g.cells.lookup j = some nj) :
      (g.alloc ⟨⟨none, some c.storage, body⟩, none, conveyorSink⟩).2.cells.lookup j = some nj := by
    show (g.put g.created _).cells.lookup j = _
    rw [lookup_put, if_neg (h.ne_created hj), hj]
  have hnew : (g.alloc ⟨⟨none, some c.storage, body⟩, none, conveyorSink⟩).2.cells.lookup g.created =
      some ⟨⟨none, some c.storage, body⟩, none, conveyorSink⟩ := (lookup_put g _ _ _).trans (if_pos rfl)
  have hnone : nx.body.merger = none := Option.toList_eq_nil_iff.mp (List.append_eq_nil_iff.mp hroot).2
  refine Guard.Avoids.bind (setParent_avoids (hold hx) hnew (fun a ha => ?_)
    (h.queue.move fun j nj hj hmerger => ⟨nj, hold hj, hmerger⟩) hnone) fun g' hg' => ⟨rfl, ?_⟩
  · obtain ⟨na, hna⟩ := h.owned_alive hx (Multiset.notMem_zero _) ha
    exact ⟨na, hold hna⟩
  · obtain ⟨loop, rfl, hq⟩ := hg'
    refine hung.requeue (hq.move fun j nj hj hmerger => ?_)
    rw [adopted, lookup_put]
    split
    · exact ⟨_, rfl, hnone⟩
    · exact ⟨nj, hj, hmerger⟩

/-- What attaching to a merge node leaves: its nodes are what they were, but for what they own. -/
structure Attached (g : Graph α) (H : Multiset Nat) (g' : Graph α) : Prop where
  safe : Safe g' H 0
  ranked : ∃ depth, g'.Ranked depth
  roots : Roots g' H
  old : ∀ j nj, g.cells.lookup j = some nj → ∃ nj', g'.cells.lookup j = some nj' ∧
    nj'.body.merger = nj.body.merger ∧ nj'.body.isMerge = nj.body.isMerge
  handles : g'.handles = g.handles
  created : g.created ≤ g'.created

theorem Hung.join {a m : Nat} {nm : Cell α} {g' : Graph α} {n : Cell α} (h : Hung g n x H g') (ha : a = g.created)
    (hparent : n.parent = none) (hmerger : n.body.merger = some m) (hm : g'.cells.lookup m = some nm)
    {appendages : List Nat} {nextAppendage : Nat} (hbody : nm.body = .merge appendages nextAppendage) :
    Attached g H (g'.put m { nm with body := .merge (appendages ++ [a]) nextAppendage }) := by
  obtain ⟨depth, hranked, hup⟩ := h.ranked
  have hnear : nm.Near { nm with body := .merge (appendages ++ [a]) nextAppendage } := by
    refine ⟨rfl, Or.inl rfl, ?_, ?_, fun l hl => ?_⟩
    · rw [hbody]
      rfl
    · rw [hbody]
      rfl
    · cases hl
  have howned : H + ((appendages ++ [a] : List Nat) : Multiset Nat) = {g.created} + H + (appendages : Multiset Nat) := by
    rw [← Multiset.coe_add, Multiset.coe_singleton, ha]
    abel
  refine ⟨h.safe.reown hm hnear ?_ (fun hD => absurd hD (Multiset.notMem_zero m)) ?_ rfl, ⟨depth, ?_⟩, ?_, ?_,
    h.handles, ?_⟩
  · rw [hbody]
    exact howned
  · intro j hj
    rcases List.mem_append.mp hj with hold | hnew
    · rw [hbody]
      exact Or.inl hold
    · refine Or.inr fun nj hnj u hu => ?_
      rw [List.mem_singleton.mp hnew, ha, h.new] at hnj
      obtain rfl := Option.some.inj hnj
      rw [Cell.ups, hparent, hmerger] at hu
      exact List.mem_singleton.mp hu
  · intro j nj hj
    rw [lookup_put] at hj
    split at hj
    next heq =>
      subst heq
      obtain rfl := Option.some.inj hj
      rw [hnear.ups]
      refine ⟨(hranked j nm hm).1, fun c hc => ?_⟩
      rcases List.mem_append.mp hc with hold | hnew
      · refine (hranked j nm hm).2 c ?_
        rw [hbody]
        exact hold
      · rw [List.mem_singleton.mp hnew, ha]
        exact hup j hmerger
    next => exact hranked j nj hj
  · intro j hj nj hnj
    obtain ⟨nj₀, hnj₀, hs⟩ := near_of_put hm hnear hnj
    rw [hs.ups]
    exact h.roots j hj nj₀ hnj₀
  · intro j nj hj
    obtain ⟨nj₀, hj₀, hsame⟩ := h.old j nj hj
    obtain ⟨nj', hj', hs, -⟩ := near_put hm hnear hj₀
    exact ⟨nj', hj', hs.merger.trans (by rw [hsame]), hs.isMerge.trans (by rw [hsame])⟩
  · show g.created ≤ g'.created
    rw [h.created]
    exact Nat.le_succ _

/-- **Attaching** a root to a merge node that is not below it. -/
theorem Safe.attach {c : Conveyor α} {m : Nat} {nm : Cell α} (h : Safe g ({c.storage} + H) 0)
    (hroots : Roots g ({c.storage} + H)) (hranked : g.Ranked depth) (hbase : c.storage = c.node.base)
    (hm : g.cells.lookup m = some nm) (hmerge : nm.body.isMerge) (hapart : ¬ g.Below c.storage m) :
    Guard.Avoids .dangling (g.attach c m) fun g' => Attached g H g' := by
  have howned : (StorageBody.appendage c.node m none).owned = [c.storage] := by
    rw [hbase]
    rfl
  refine Guard.Avoids.bind (h.hang hroots hranked howned ?_ false) fun r hr => ?_
  · intro m' hm'
    obtain rfl := Option.some.inj hm'
    exact ⟨⟨nm, hm⟩, hapart⟩
  · obtain ⟨a, g'⟩ := r
    obtain ⟨ha, hung⟩ := hr
    obtain ⟨nm', hm', hbody⟩ := hung.old m nm hm
    show Guard.Avoids .dangling (g'.setBody m _) _
    rw [setBody, modify_eq hm']
    cases hshape : nm'.body with
    | merge appendages nextAppendage => exact hung.join ha rfl rfl hm' hshape
    | _ =>
      rw [← hbody, hshape] at hmerge
      cases hmerge

end

end

end Graph

end Forstio
