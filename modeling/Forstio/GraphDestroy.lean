import Forstio.GraphSafe
import Mathlib.Logic.Relation

/-!
# Destroying a node

A destructor tells the feeder, destroys what the node owns, leaves the event queue and
makes the parent forget the node. What it then frees is referred to by nobody, unless
the loop's later insertion point is in its event, which `disarm` does not look after. The
depth of the nodes below grows, and what lies above is still there.
-/

namespace Forstio

namespace Graph

variable {α : Type}

/-- `j` is a member of `i`. -/
def Owns (g : Graph α) (i j : Nat) : Prop := ∃ n, g.cells.lookup i = some n ∧ j ∈ n.body.owned

/-- `j` is `i` or goes with it. -/
def Below (g : Graph α) : Nat → Nat → Prop := Relation.ReflTransGen g.Owns

/-- The later insertion point is in no event that goes with node `i`. -/
def Spared (g : Graph α) (i : Nat) : Prop := ∀ e, g.loop.laterInsertPoint = .next e → ¬ g.Below i e

/-- What destruction leaves of the event queue: the events that are still there. -/
structure Thinned (g g' : Graph α) : Prop where
  later : g'.loop.laterInsertPoint = g.loop.laterInsertPoint
  armed : ∀ a, a = conveyorSinks ∨ a ∈ g'.cells → (g'.loop.isArmed a ↔ g.loop.isArmed a)

section
variable {g g' g'' : Graph α} {H D : Multiset Nat} {i : Nat} {n : Cell α} {stay : Nat → Prop}

theorem Frame.cells (h : Frame stay g g') {j : Nat} (hj : j ∈ g'.cells) : j ∈ g.cells := by
  obtain ⟨nj', hj'⟩ := lookup_of_mem hj
  obtain ⟨nj, hj, -⟩ := h.back j nj' hj'
  exact mem_of_lookup hj

theorem Frame.below (h : Frame stay g g') {i j : Nat} (hbelow : g'.Below i j) : g.Below i j := by
  induction hbelow with
  | refl => exact .refl
  | tail _ howns ih =>
    obtain ⟨n', hn', hown⟩ := howns
    obtain ⟨n, hn, hsame⟩ := h.back _ n' hn'
    rw [hsame.body.owned] at hown
    exact ih.tail ⟨n, hn, hown⟩

theorem Spared.frame (h : g.Spared i) (hframe : Frame stay g g')
    (hlater : g'.loop.laterInsertPoint = g.loop.laterInsertPoint) : g'.Spared i := by
  intro e he hbelow
  exact h e (hlater.symm.trans he) (hframe.below hbelow)

theorem Spared.member (h : g.Spared i) (hn : g.cells.lookup i = some n) {c : Nat} (hc : c ∈ n.body.owned) :
    g.Spared c := fun e he hbelow => h e he (.head ⟨n, hn, hc⟩ hbelow)

theorem Thinned.of_loop (h : g'.loop = g.loop) : Thinned g g' := by
  refine ⟨by rw [h], fun a _ => ?_⟩
  rw [h]

theorem Thinned.trans (h : Thinned g g') (h' : Thinned g' g'') (hframe : Frame stay g' g'') : Thinned g g'' := by
  refine ⟨h'.later.trans h.later, fun a ha => (h'.armed a ha).trans (h.armed a ?_)⟩
  exact ha.imp_right hframe.cells

/-! ## Before and after the members -/

theorem same_leaveFeeder (n : Cell α) : n.Same { n with feeder := none } :=
  ⟨rfl, Or.inl rfl, Or.inr rfl, .refl _⟩

theorem Safe.unfeed (h : Safe g H D) (hn : g.cells.lookup i = some n) {feeders : Heap Nat (Option Nat)}
    (hlt : ∀ f ∈ feeders, f < g.created) (hgone : ∀ f, n.feeder = some f → feeders.lookup f ≠ some (some i))
    (hkept : ∀ f, n.feeder ≠ some f → feeders.lookup f = g.feeders.lookup f)
    (hothers : ∀ f j, feeders.lookup f = some (some j) → g.feeders.lookup f = some (some j)) :
    Safe { g.put i { n with feeder := none } with feeders := feeders } H D := by
  refine h.putWith hn (same_leaveFeeder n).near rfl (fun _ => rfl) (fun _ hj => Or.inl hj) hlt ?_ ?_
  · intro f j hf
    obtain ⟨nj, hj, hfj, hmerger⟩ := h.feedees f j (hothers f j hf)
    rw [lookup_put]
    split
    next heq =>
      subst heq
      obtain rfl := Option.some.inj (hn.symm.trans hj)
      exact absurd hf (hgone f hfj)
    next => exact ⟨nj, hj, hfj, hmerger⟩
  · intro j nj f hj hf
    rw [lookup_put] at hj
    split at hj
    next =>
      obtain rfl := Option.some.inj hj
      cases hf
    next hne =>
      have hfeeder := h.feeder j nj f hj hf
      rw [hkept f, hfeeder]
      intro hni
      rw [h.feeder i n f hn hni] at hfeeder
      exact hne (Option.some.inj (Option.some.inj hfeeder)).symm

theorem Frame.unfeed (stay : Nat → Prop) (hn : g.cells.lookup i = some n) (feeders : Heap Nat (Option Nat)) :
    Frame stay g { g.put i { n with feeder := none } with feeders := feeders } :=
  have hput := Frame.put stay hn (same_leaveFeeder n)
  ⟨hput.back, hput.stays, rfl, rfl, rfl⟩

theorem Safe.leaveFeeder (h : Safe g H D) (hn : g.cells.lookup i = some n) :
    Guard.Avoids .dangling (g.leaveFeeder i n) fun g' => Safe g' H D ∧ Frame (fun _ => True) g g' ∧
      g'.loop = g.loop ∧ ∃ n', g'.cells.lookup i = some n' ∧ n'.feeder = none := by
  unfold Graph.leaveFeeder
  split
  next hnone => exact ⟨h, .refl _ g, rfl, n, hn, hnone⟩
  next f hf =>
    have hfeeder := h.feeder i n f hn hf
    rw [hfeeder]
    have hlookup (f' : Nat) := Heap.lookup_insert g.feeders f f' none
    refine ⟨h.unfeed hn ?_ ?_ ?_ ?_, .unfeed _ hn _, rfl, _, (lookup_put g i i _).trans (if_pos rfl), rfl⟩
    · intro f' hf'
      rcases AList.mem_insert _ |>.mp hf' with rfl | hold
      · exact h.feeders f' (AList.lookup_isSome.mp (by rw [hfeeder]; rfl))
      · exact h.feeders f' hold
    · intro f' hf'
      obtain rfl := Option.some.inj (hf.symm.trans hf')
      rw [hlookup, if_pos rfl]
      nofun
    · intro f' hne
      rw [hlookup, if_neg]
      intro heq
      rw [heq] at hne
      exact hne hf
    · intro f' j hf'
      rw [hlookup] at hf'
      split at hf'
      · cases hf'
      · exact hf'

theorem Safe.waiting (h : Safe g ({i} + H) D) : i ∉ D := by
  have hnodup := (Multiset.nodup_add.mp (Multiset.nodup_add.mp (Multiset.nodup_add.mp h.nodup).1).1).2.2
  exact Multiset.disjoint_left.mp hnodup (Multiset.mem_add.mpr (Or.inl (Multiset.mem_singleton_self i)))

theorem Safe.open (h : Safe g ({i} + H) D) (hn : g.cells.lookup i = some n) :
    Safe g ((n.body.owned : Multiset Nat) + H) ({i} + D) := by
  have hi := h.waiting
  refine ⟨?_, h.created, h.cells, h.handles, h.feeders, ?_, h.down, ?_, h.conveyors, h.mergers, h.feedees, h.feeder,
    h.queue⟩
  · have hsplit : g.ownedBut D = (n.body.owned : Multiset Nat) + g.ownedBut ({i} + D) := by
      unfold ownedBut
      rw [Heap.total_except _ hn, if_neg hi]
      refine congrArg _ (Heap.total_congr fun j nj _ => ?_)
      by_cases hj : j = i
      · simp [hj]
      · simp [hj]
    rw [← h.counted, hsplit]
    abel
  · intro j nj hj u hu
    obtain ⟨nu, hnu, howner⟩ := h.ups j nj hj u hu
    refine ⟨nu, hnu, ?_⟩
    rcases howner with hmem | hmem
    · left
      simp only [Multiset.mem_add, Multiset.mem_singleton] at hmem ⊢
      tauto
    · obtain ⟨huD, hown⟩ := hmem
      by_cases hui : u = i
      · subst hui
        obtain rfl := Option.some.inj (hn.symm.trans hnu)
        left
        simp only [Multiset.mem_add, Multiset.mem_coe]
        exact Or.inl (Or.inl hown)
      · right
        refine ⟨?_, hown⟩
        simp only [Multiset.mem_add, Multiset.mem_singleton]
        tauto
  · intro j nj l hj hjD hl
    refine h.child j nj l hj (fun hmem => hjD ?_) hl
    exact Multiset.mem_add.mpr (Or.inr hmem)

theorem lookup_freed {j : Nat} (hne : j ≠ i) : (g.cells.erase i).lookup j = g.cells.lookup j :=
  AList.lookup_erase_ne hne

theorem of_lookup_freed {j : Nat} {nj : Cell α} (hj : (g.cells.erase i).lookup j = some nj) :
    j ≠ i ∧ g.cells.lookup j = some nj := by
  have hne : j ≠ i := by
    intro heq
    rw [heq, AList.lookup_erase] at hj
    cases hj
  exact ⟨hne, (lookup_freed hne).symm.trans hj⟩

theorem mem_freed {j : Nat} (hne : j ≠ i) : j ∈ ({i} + D : Multiset Nat) ↔ j ∈ D := by
  simp [hne]

section
variable (h : Safe g H ({i} + D))
include h

theorem Safe.counted_free (hn : g.cells.lookup i = some n) :
    H + D + g.held + ownedBut { g with cells := g.cells.erase i } D = Heap.addresses (g.cells.erase i) := by
  have hbut : ownedBut { g with cells := g.cells.erase i } D = g.ownedBut ({i} + D) := by
    unfold ownedBut
    rw [Heap.total_erase _ hn, if_pos (by simp), zero_add]
    refine Heap.total_congr fun j nj hj => ?_
    simp only [mem_freed (of_lookup_freed hj).1]
  have hcounted := h.counted
  rw [Heap.addresses_erase hn] at hcounted
  refine add_left_cancel (a := ({i} : Multiset Nat)) ?_
  rw [← hcounted, hbut]
  show {i} + (H + D + g.held + g.ownedBut ({i} + D)) = _
  abel

theorem Safe.ups_free (hups : ∀ j nj, g.cells.lookup j = some nj → i ∉ nj.ups) {j : Nat} {nj : Cell α}
    (hj : (g.cells.erase i).lookup j = some nj) {u : Nat} (hu : u ∈ nj.ups) :
    ∃ nu, (g.cells.erase i).lookup u = some nu ∧ (j ∈ H + D ∨ u ∉ D ∧ j ∈ nu.body.owned) := by
  obtain ⟨hne, hold⟩ := of_lookup_freed hj
  obtain ⟨nu, hnu, howner⟩ := h.ups j nj hold u hu
  have hui : u ≠ i := by
    intro heq
    rw [heq] at hu
    exact hups j nj hold hu
  refine ⟨nu, (lookup_freed hui).trans hnu, ?_⟩
  rcases howner with hmem | hmem
  · rcases Multiset.mem_add.mp hmem with hH | hmem
    · exact Or.inl (Multiset.mem_add.mpr (Or.inl hH))
    · exact Or.inl (Multiset.mem_add.mpr (Or.inr ((mem_freed hne).mp hmem)))
  · exact Or.inr ⟨fun hu => hmem.1 ((mem_freed hui).mpr hu), hmem.2⟩

theorem Safe.down_free (hdown : ∀ j nj, g.cells.lookup j = some nj → nj.childStorage ≠ some i) {j : Nat} {nj : Cell α}
    {c : Nat} (hj : (g.cells.erase i).lookup j = some nj) (hc : nj.childStorage = some c) :
    ∃ nc, (g.cells.erase i).lookup c = some nc ∧ nc.parent = some j ∧ nc.body.merger = none := by
  obtain ⟨-, hold⟩ := of_lookup_freed hj
  obtain ⟨nc, hnc, hparent⟩ := h.down j nj c hold hc
  refine ⟨nc, (lookup_freed fun heq => ?_).trans hnc, hparent⟩
  rw [heq] at hc
  exact hdown j nj hold hc

theorem Safe.child_free {j : Nat} {nj : Cell α} {l : ConveyorNode α} (hj : (g.cells.erase i).lookup j = some nj)
    (hjD : j ∉ D) (hl : nj.body.child = some l) :
    ∃ nl, (g.cells.erase i).lookup l.base = some nl ∧ nl.body.merger = none := by
  obtain ⟨hne, hj⟩ := of_lookup_freed hj
  have hjD' : j ∉ ({i} + D : Multiset Nat) := fun hmem => hjD ((mem_freed hne).mp hmem)
  obtain ⟨nl, hnl, hmerger⟩ := h.child j nj l hj hjD' hl
  refine ⟨nl, (lookup_freed fun heq => ?_).trans hnl, hmerger⟩
  have hapart := (h.owned_apart hj hjD' (StorageBody.mem_owned_child hl)).1
  rw [heq] at hapart
  exact hapart (by simp)

theorem Safe.conveyors_free {k : Nat} {c : Conveyor α} (hk : g.handles.lookup k = some (.conveyor c)) :
    c.storage = c.node.base ∧ ∃ nc, (g.cells.erase i).lookup c.storage = some nc ∧ nc.body.merger = none := by
  obtain ⟨hstorage, nc, hnc, hmerger⟩ := h.conveyors k c hk
  refine ⟨hstorage, nc, (lookup_freed fun heq => ?_).trans hnc, hmerger⟩
  have hheld : i ∈ g.held := by
    refine Multiset.mem_add.mpr (Or.inl (Heap.mem_total.mpr ⟨k, _, hk, ?_⟩))
    rw [← heq, hstorage]
    exact Multiset.mem_singleton_self _
  have happ := (Multiset.nodup_add.mp (Multiset.nodup_add.mp h.nodup).1).2.2
  exact Multiset.disjoint_left.mp happ (by simp) hheld

theorem Safe.feedees_free (hn : g.cells.lookup i = some n) (hfeeder : n.feeder = none) {f j : Nat}
    (hf : g.feeders.lookup f = some (some j)) :
    ∃ nj, (g.cells.erase i).lookup j = some nj ∧ nj.feeder = some f ∧ nj.body.merger = none := by
  obtain ⟨nj, hj, hfj, hmerger⟩ := h.feedees f j hf
  refine ⟨nj, (lookup_freed fun heq => ?_).trans hj, hfj, hmerger⟩
  rw [heq, hn] at hj
  obtain rfl := Option.some.inj hj
  rw [hfeeder] at hfj
  cases hfj

theorem Safe.queue_free (harmed : ¬ g.loop.isArmed i) : Queue g.loop (g.cells.erase i) := by
  refine ⟨h.queue.sound, fun j hj => ?_⟩
  rcases h.queue.alive j hj with hsinks | ⟨nj, hnj, hmerger⟩
  · exact Or.inl hsinks
  · refine Or.inr ⟨nj, (lookup_freed fun heq => ?_).trans hnj, hmerger⟩
    rw [heq] at hj
    exact harmed hj

theorem Safe.free (hn : g.cells.lookup i = some n) (hfeeder : n.feeder = none) (harmed : ¬ g.loop.isArmed i)
    (hups : ∀ j nj, g.cells.lookup j = some nj → i ∉ nj.ups)
    (hdown : ∀ j nj, g.cells.lookup j = some nj → nj.childStorage ≠ some i) :
    Safe { g with cells := g.cells.erase i } H D where
  counted := h.counted_free hn
  created := h.created
  cells j hj := by
    obtain ⟨nj, hj⟩ := lookup_of_mem hj
    exact h.cells j (mem_of_lookup (of_lookup_freed hj).2)
  handles := h.handles
  feeders := h.feeders
  ups _ _ hj _ hu := h.ups_free hups hj hu
  down _ _ _ hj hc := h.down_free hdown hj hc
  child _ _ _ hj hjD hl := h.child_free hj hjD hl
  conveyors _ _ hk := h.conveyors_free hk
  mergers k m hk := ⟨(h.mergers k m hk).1, fun nm hm => (h.mergers k m hk).2 nm (of_lookup_freed hm).2⟩
  feedees _ _ hf := h.feedees_free hn hfeeder hf
  feeder j nj f hj hf := h.feeder j nj f (of_lookup_freed hj).2 hf
  queue := h.queue_free harmed

end

theorem Frame.free (stay : Nat → Prop) (hi : ¬ stay i) : Frame stay g { g with cells := g.cells.erase i } := by
  refine ⟨fun j nj hj => ?_, fun j nj hj hstay => ⟨nj, ?_⟩, rfl, rfl, rfl⟩
  · have hne : j ≠ i := by
      intro heq
      rw [heq, AList.lookup_erase] at hj
      cases hj
    exact ⟨nj, (AList.lookup_erase_ne hne).symm.trans hj, .refl nj⟩
  · have hne : j ≠ i := by
      intro heq
      rw [heq] at hstay
      exact hi hstay
    exact (AList.lookup_erase_ne hne).trans hj

/-! ## The destructor -/

theorem Frame.card (stay : Nat → Prop) {g' : Graph α} (h : Frame stay g g') :
    (Heap.addresses g'.cells).card ≤ (Heap.addresses g.cells).card := by
  refine Multiset.card_le_card ((Multiset.le_iff_subset (Heap.nodup_addresses _)).mpr fun j hj => ?_)
  obtain ⟨nj', hj'⟩ := lookup_of_mem (Heap.mem_addresses.mp hj)
  obtain ⟨nj, hj, -⟩ := h.back j nj' hj'
  exact Heap.mem_addresses.mpr (mem_of_lookup hj)

theorem Safe.unlinkChild (h : Safe g H D) {p : Option Nat} (hp : ∀ u ∈ p, ∃ nu, g.cells.lookup u = some nu) :
    Guard.Avoids .dangling (g.unlinkChild p) fun g' => Safe g' H D ∧ Frame (fun _ => True) g g' ∧
      g'.loop = g.loop ∧ ∀ u ∈ p, ∀ nu, g'.cells.lookup u = some nu → nu.childStorage = none := by
  cases p with
  | none => exact ⟨h, .refl _ g, rfl, nofun⟩
  | some u =>
    obtain ⟨nu, hnu⟩ := hp u rfl
    show Guard.Avoids .dangling (g.clearChildStorage u) _
    rw [clearChildStorage, modify_eq hnu]
    refine ⟨h.put hnu (same_clearChildStorage nu) rfl, .put _ hnu (same_clearChildStorage nu), rfl, ?_⟩
    intro u' hu' nu' hnu'
    obtain rfl := Option.some.inj hu'
    rw [lookup_put, if_pos rfl] at hnu'
    obtain rfl := Option.some.inj hnu'
    rfl

/-- The nodes of `H` refer up to what is above `i` only. -/
def Aside (g : Graph α) (H : Multiset Nat) (depth : Nat → Nat) (i : Nat) : Prop :=
  ∀ j ∈ H, ∀ nj, g.cells.lookup j = some nj → ∀ u ∈ nj.ups, depth u < depth i

theorem Aside.zero (g : Graph α) (depth : Nat → Nat) (i : Nat) : Aside g 0 depth i := nofun

theorem Aside.frame {stay : Nat → Prop} {g' : Graph α} {depth : Nat → Nat} (h : Aside g H depth i)
    (hframe : Frame stay g g') : Aside g' H depth i := by
  intro j hj nj' hj' u hu
  obtain ⟨nj, hlookup, hsame⟩ := hframe.back j nj' hj'
  rw [hsame.ups] at hu
  exact h j hj nj hlookup u hu

theorem Safe.up_owner (h : Safe g H D) (hn : g.cells.lookup i = some n) (hi : i ∉ D) {j : Nat} (hj : j ∈ n.body.owned)
    {nj : Cell α} (hnj : g.cells.lookup j = some nj) {u : Nat} (hu : u ∈ nj.ups) : u = i := by
  obtain ⟨nu, hnu, howner⟩ := h.ups j nj hnj u hu
  rcases howner with hmem | hmem
  · exact absurd hmem (h.owned_apart hn hi hj).1
  · exact (h.owner_unique hn hi hnu hmem.1 hj hmem.2).symm

theorem Thinned.disarm {loop : EventLoop Nat} (hi : i ≠ conveyorSinks)
    (hlater : loop.laterInsertPoint = g.loop.laterInsertPoint)
    (harmed : ∀ a, loop.isArmed a ↔ a ≠ i ∧ g.loop.isArmed a) (hloop : g'.loop = loop) (hgone : i ∉ g'.cells) :
    Thinned g g' := by
  rw [← hloop] at hlater harmed
  refine ⟨hlater, fun a ha => ?_⟩
  rw [harmed]
  refine and_iff_right ?_
  rintro rfl
  rcases ha with hsinks | hmem
  · exact hi hsinks
  · exact hgone hmem

theorem Safe.finish (h : Safe g H ({i} + D)) {depth : Nat → Nat} (hn : g.cells.lookup i = some n)
    (hfeeder : n.feeder = none) (hranked : g.Ranked depth) (hD : ∀ j ∈ D, depth j < depth i)
    (haside : Aside g H depth i) (hspared : g.Spared i) :
    Guard.Avoids .dangling (g.disarm i >>= fun g => g.unlinkChild n.parent >>= fun g =>
      .ok { g with cells := g.cells.erase i })
      fun g' => Safe g' H D ∧ Frame (fun j => depth j < depth i) g g' ∧ Thinned g g' := by
  obtain ⟨loop, hdisarm, hsafe₀, hlater, harmed⟩ := h.disarm fun he => hspared i he .refl
  refine Guard.Avoids.of_ok hdisarm ?_
  refine Guard.Avoids.bind (hsafe₀.unlinkChild fun u hu => ?_) fun g' h' => ?_
  · have hup : u ∈ n.ups := List.mem_append.mpr (Or.inl (Option.mem_toList.mpr hu))
    obtain ⟨nu, hnu, -⟩ := h.ups i n hn u hup
    exact ⟨nu, hnu⟩
  · obtain ⟨hsafe, hunlinked, hloop, hforgot⟩ := h'
    obtain ⟨n', hn', hsame⟩ := hunlinked.same hn trivial
    have hframe : Frame (fun _ => True) g g' := (Frame.requeue _ g loop).trans hunlinked
    have hranked' := hframe.ranked hranked
    refine ⟨hsafe.free hn' ?_ ?_ ?_ ?_, (hframe.weaken fun _ _ => trivial).trans (.free _ (Nat.lt_irrefl _)), ?_⟩
    · rcases hsame.feeder with heq | hnone
      · exact heq.trans hfeeder
      · exact hnone
    · rw [hloop]
      exact fun hi => ((harmed i).mp hi).1 rfl
    · intro j nj hj hup
      obtain ⟨nu, -, howner⟩ := hsafe.ups j nj hj i hup
      have hlt := (hranked' j nj hj).1 i hup
      rcases howner with hmem | hmem
      · simp only [Multiset.mem_add, Multiset.mem_singleton] at hmem
        rcases hmem with hH | heq | hmem
        · exact Nat.lt_irrefl _ (haside.frame hframe j hH nj hj i hup)
        · rw [heq] at hlt
          exact Nat.lt_irrefl _ hlt
        · exact Nat.lt_asymm hlt (hD j hmem)
      · exact hmem.1 (Multiset.mem_add.mpr (Or.inl (Multiset.mem_singleton_self i)))
    · intro j nj hj hchild
      obtain ⟨nc, hnc, hup, -⟩ := hsafe.down j nj i hj hchild
      obtain rfl := Option.some.inj (hn'.symm.trans hnc)
      rw [hforgot j (hsame.parent.symm.trans hup) nj hj] at hchild
      cases hchild
    · refine Thinned.disarm (Nat.ne_of_gt (h.cells i (mem_of_lookup hn)).1) hlater harmed hloop fun hmem => ?_
      exact (AList.mem_erase.mp hmem).1 rfl

/-- **Destruction** of a node that nobody owns follows no dangling pointer, and what lies above it stays. -/
theorem destroy_spec {depth : Nat → Nat} : ∀ (fuel : Nat) {g : Graph α} {H D : Multiset Nat} {i : Nat},
    Safe g ({i} + H) D → g.Ranked depth → (∀ j ∈ D, depth j < depth i) → Aside g H depth i → g.Spared i →
    (Heap.addresses g.cells).card ≤ fuel + D.card →
    Guard.Avoids .dangling (destroy fuel g i) fun g' =>
      Safe g' H D ∧ Frame (fun j => depth j < depth i) g g' ∧ Thinned g g'
  | 0, g, H, D, i, h, _, _, _, _, hfuel => by
    have hcard := congrArg Multiset.card h.counted
    simp only [Multiset.card_add, Multiset.card_singleton] at hcard
    omega
  | fuel + 1, g, H, D, i, h, hranked, hD, haside, hspared, hfuel => by
    obtain ⟨n, hn⟩ := h.alive (i := i) (by simp)
    rw [destroy, get_bind hn]
    refine Guard.Avoids.bind (h.leaveFeeder hn) fun g₁ h₁ => ?_
    obtain ⟨hsafe₁, hframe₁, hloop₁, n₁, hn₁, hfeeder₁⟩ := h₁
    obtain ⟨n₀, hn₀, hsame₁⟩ := hframe₁.back i n₁ hn₁
    obtain rfl := Option.some.inj (hn.symm.trans hn₀)
    have hranked₁ := hframe₁.ranked hranked
    have hthin₁ : Thinned g g₁ := .of_loop hloop₁
    have hspared₁ := hspared.frame hframe₁ hthin₁.later
    rw [← hsame₁.body.owned]
    -- each of the members is destroyed while its siblings wait
    refine Guard.Avoids.bind (Guard.Avoids.foldlM (fun rest s => Safe s ((rest : Multiset Nat) + H) ({i} + D) ∧
      Frame (fun j => depth j < depth i + 1) g₁ s ∧ Thinned g₁ s ∧ ∀ c ∈ rest, c ∈ n₁.body.owned) ?_ _ _
      ⟨hsafe₁.open hn₁, .refl _ g₁, .of_loop rfl, fun _ hc => hc⟩) fun g₂ h₂ => ?_
    · intro c rest s hs
      obtain ⟨hsafe, hframe, hthin, hrest⟩ := hs
      have hc : c ∈ n₁.body.owned := hrest c List.mem_cons_self
      have hci : depth i < depth c := (hranked₁ i n₁ hn₁).2 c hc
      rw [← Multiset.cons_coe, ← Multiset.singleton_add, add_assoc] at hsafe
      refine (destroy_spec fuel hsafe (hframe.ranked hranked₁) ?_ ?_ ?_ ?_).mono fun s' hs' =>
        ⟨hs'.1, hframe.trans (hs'.2.1.weaken fun j hj => by omega), hthin.trans hs'.2.2 hs'.2.1,
          fun c' hc' => hrest c' (List.mem_cons_of_mem c hc')⟩
      · intro j hj
        rcases Multiset.mem_add.mp hj with heq | hmem
        · rw [Multiset.mem_singleton.mp heq]
          exact hci
        · exact (hD j hmem).trans hci
      · refine Aside.frame ?_ hframe
        intro j hj nj hnj u hu
        rcases Multiset.mem_add.mp hj with hsibling | hmem
        · rw [hsafe₁.up_owner hn₁ h.waiting (hrest j (List.mem_cons_of_mem c hsibling)) hnj hu]
          exact hci
        · exact (haside.frame hframe₁ j hmem nj hnj u hu).trans hci
      · exact (hspared₁.member hn₁ hc).frame hframe hthin.later
      · have hcard := hframe.card.trans hframe₁.card
        rw [Multiset.card_add, Multiset.card_singleton]
        omega
    · obtain ⟨hsafe₂, hframe₂, hthin₂, -⟩ := h₂
      rw [Multiset.coe_nil, zero_add] at hsafe₂
      obtain ⟨n₂, hn₂, hsame₂⟩ := hframe₂.same hn₁ (Nat.lt_succ_self _)
      have hfeeder₂ : n₂.feeder = none := hsame₂.feeder.elim (fun heq => heq.trans hfeeder₁) id
      have hframe := (hframe₁.weaken fun _ _ => trivial).trans hframe₂
      have hthin := hthin₁.trans hthin₂ hframe₂
      rw [← hsame₁.parent, ← hsame₂.parent]
      refine (hsafe₂.finish hn₂ hfeeder₂ (hframe.ranked hranked) hD (haside.frame hframe)
        (hspared.frame hframe hthin.later)).mono fun g₃ h₃ => ?_
      exact ⟨h₃.1, (hframe.weaken fun j hj => by omega).trans h₃.2.1, hthin.trans h₃.2.2 h₃.2.1⟩

theorem Safe.drop (h : Safe g ({i} + H) 0) {depth : Nat → Nat} (hranked : g.Ranked depth)
    (haside : Aside g H depth i) (hspared : g.Spared i) :
    Guard.Avoids .dangling (g.drop i) fun g' => Safe g' H 0 ∧ Frame (fun j => depth j < depth i) g g' ∧ Thinned g g' := by
  refine destroy_spec _ h hranked (fun j hj => absurd hj (Multiset.notMem_zero j)) haside hspared ?_
  rw [Heap.addresses_eq]
  exact Nat.le_refl _

/-! ## A node that gives its child up -/

theorem Safe.giveUp (h : Safe g H 0) (hn : g.cells.lookup i = some n) {c : Nat} (howned : n.body.owned = [c])
    {body : StorageBody α} (hchild : body.child = none) (hnone : body.owned = []) (hmerger : body.merger = n.body.merger)
    (hmerge : body.isMerge = n.body.isMerge) : Safe (g.put i { n with body := body }) ({c} + H) 0 := by
  have hnear : n.Near { n with body := body } := by
    refine ⟨rfl, Or.inl rfl, hmerger, hmerge, fun l hl => ?_⟩
    rw [hchild] at hl
    cases hl
  refine h.reown hn hnear ?_ (fun hi => absurd hi (Multiset.notMem_zero i)) (fun j hj => ?_) rfl
  · rw [hnone, howned, Multiset.coe_nil, Multiset.coe_singleton, add_zero, add_comm]
  · rw [hnone] at hj
    cases hj

end

end Graph

end Forstio
