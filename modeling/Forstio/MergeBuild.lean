import Forstio.MergeLog

/-!
# Building a network

A new node is put in front of others: `alloc` adds it and `link` makes it the
parent of the end of a source. Both keep a network wired up.
-/

namespace Forstio

/-- The role of a node that gets the parent `p`. -/
def Role.under (p : Nat) : Role → Role
  | .feeder _ => .feeder (some p)
  | .buffer child limit _ => .buffer child limit (some p)
  | r => r

namespace Net

variable {α : Type}

def alloc (s : Net α) (r : Role) : Net α := { s with role := Function.update s.role s.size r, size := s.size + 1 }

/-- A new node with role `r` behind the merge node. -/
def outletAdded (s : Net α) (r : Role) (loop : EventLoop Nat) : Net α :=
  { s.alloc r with outlet := some s.size, loop := loop }

/-- A new node with role `r` becomes the parent of node `i`. -/
def link (s : Net α) (i : Nat) (r : Role) : Net α :=
  { s with
    role := Function.update (Function.update s.role s.size r) i ((s.role i).under s.size)
    size := s.size + 1 }

/-- Node `i` is armed in `loop` if it can hand something on. -/
def Woken (s : Net α) (i : Nat) (ready : Prop) (loop : EventLoop Nat) : Prop :=
  ready ∧ loop = s.loop.armLater i ∨ ¬ ready ∧ loop = s.loop

/-- A source that can still be attached ends in node `i`. -/
def Loose (s : Net α) (i : Nat) : Prop :=
  s.role i = .feeder none ∨ ∃ f l, s.role i = .buffer f l none ∧ s.role f = .feeder (some i)

section
variable {s : Net α} {i : Nat}

/-! ## Roles after building -/

theorem Wired.ne_size (h : Wired s) (hi : s.role i ≠ .free) : i ≠ s.size := by
  rintro rfl
  exact hi (h.fresh _ (Nat.le_refl _))

theorem role_alloc (r : Role) : (s.alloc r).role s.size = r := Function.update_self ..

theorem role_alloc_ne {r : Role} {j : Nat} (hj : j ≠ s.size) : (s.alloc r).role j = s.role j :=
  Function.update_of_ne hj ..

theorem role_link (r : Role) : (s.link i r).role i = (s.role i).under s.size := Function.update_self ..

theorem role_link_new {r : Role} (hi : i ≠ s.size) : (s.link i r).role s.size = r := by
  refine (Function.update_of_ne (Ne.symm hi) _ _).trans ?_
  exact Function.update_self ..

theorem role_link_ne {r : Role} {j : Nat} (hi : j ≠ i) (hj : j ≠ s.size) : (s.link i r).role j = s.role j := by
  refine (Function.update_of_ne hi _ _).trans ?_
  exact Function.update_of_ne hj _ _

theorem Wired.empty_size (h : Wired s) : s.queue s.size = [] :=
  h.empty s.size (Or.inr (Or.inr (h.fresh _ (Nat.le_refl _))))

theorem Loose.holds (hi : s.Loose i) : s.Holds i := by
  rcases hi with hi | ⟨f, l, hi, -⟩
  · exact Or.inl ⟨none, hi⟩
  · exact Or.inr ⟨f, l, none, hi⟩

theorem Holds.ne_free (hi : s.Holds i) : s.role i ≠ .free := fun hfree => hi.role (Or.inr (Or.inr hfree))

theorem Loose.ne_free (hi : s.Loose i) : s.role i ≠ .free := hi.holds.ne_free

/-! ## Worlds after building -/

theorem world_eq {w : World α} (hloop : w.loop = s.loop) (hnodes : ∀ j, w.nodes j = s.node j) (hsize : w.size = s.size)
    (hdelivered : w.delivered = s.delivered) (hstarved : w.starved = false) : w = s.world := by
  obtain ⟨loop, nodes, size, delivered, starved⟩ := w
  obtain rfl : nodes = s.node := funext hnodes
  subst hloop hsize hdelivered hstarved
  rfl

theorem node_congr {t : Net α} {j : Nat} (hrole : t.role j = s.role j) (hqueue : t.queue j = s.queue j)
    (hhub : t.hub = s.hub)
    (hmerger : s.role j = .merger → t.outlet = s.outlet ∧ t.slots = s.slots ∧ t.cursor = s.cursor) :
    t.node j = s.node j := by
  unfold node
  rw [hrole, hqueue, hhub]
  cases hj : s.role j with
  | merger =>
    obtain ⟨houtlet, hslots, hcursor⟩ := hmerger hj
    rw [houtlet, hslots, hcursor]
  | _ => rfl

theorem node_alloc_ne {r : Role} {j : Nat} (hj : j ≠ s.size) : (s.alloc r).node j = s.node j :=
  node_congr (role_alloc_ne hj) rfl rfl fun _ => ⟨rfl, rfl, rfl⟩

theorem node_link_ne {r : Role} {j : Nat} (hi : j ≠ i) (hj : j ≠ s.size) : (s.link i r).node j = s.node j :=
  node_congr (role_link_ne hi hj) rfl rfl fun _ => ⟨rfl, rfl, rfl⟩

theorem alloc_world {r : Role} {n : StorageNode α} (hn : (s.alloc r).node s.size = some n) :
    (s.world.alloc n).2 = (s.alloc r).world := by
  refine world_eq rfl (fun j => ?_) rfl rfl rfl
  by_cases hj : j = s.size
  · subst hj
    rw [hn]
    exact Function.update_self ..
  · rw [node_alloc_ne hj]
    exact Function.update_of_ne hj _ _

theorem woken (s : Net α) {m : StorageNode α} {k l : Nat} (i : Nat) : ∃ loop, s.Woken i (0 < k ∧ 0 < l) loop ∧
    (if ¬ (s.world.alloc m).2.isArmed i ∧ 0 < k ∧ 0 < l then (s.world.alloc m).2.armLater i else (s.world.alloc m).2) =
      { (s.world.alloc m).2 with loop := loop } := by
  by_cases hready : 0 < k ∧ 0 < l
  · refine ⟨s.loop.armLater i, Or.inl ⟨hready, rfl⟩, ?_⟩
    by_cases harmed : s.loop.isArmed i
    · rw [if_neg fun hall => hall.1 harmed, EventLoop.armLater_isArmed harmed]
      rfl
    · rw [if_pos ⟨harmed, hready⟩]
      rfl
  · refine ⟨s.loop, Or.inr ⟨hready, rfl⟩, ?_⟩
    rw [if_neg fun hall => hready hall.2]
    rfl

theorem Wired.setParent_link (h : Wired s) (hi : s.Loose i) {r : Role} {m : StorageNode α}
    (hm : (s.link i r).node s.size = some m) : ∃ loop, s.Woken i (s.queue i ≠ [] ∧ 0 < m.body.space) loop ∧
      (s.world.alloc m).2.setParent i s.size = some ({ s.link i r with loop := loop } : Net α).world := by
  have hsize : i ≠ s.size := h.ne_size hi.ne_free
  obtain ⟨n, hn, hparent, hnode⟩ : ∃ n, s.node i = some n ∧ n.parent = none ∧
      (s.link i r).node i = some { n with parent := some s.size } := by
    rcases hi with hi | ⟨f, l, hi, -⟩
    · refine ⟨_, node_feeder hi, rfl, node_feeder ?_⟩
      rw [role_link, hi]
      rfl
    · refine ⟨_, node_buffer hi, rfl, node_buffer ?_⟩
      rw [role_link, hi]
      rfl
  have hvn : (s.world.alloc m).2.nodes i = some n := (Function.update_of_ne hsize _ _).trans hn
  have hvs : (s.world.alloc m).2.space s.size = some m.body.space := by
    rw [World.space, show (s.world.alloc m).2.nodes s.size = some m from Function.update_self ..]
    rfl
  have hvq : (s.world.alloc m).2.queued i = some (s.queue i).length := by
    have hq := queued_holds hi.holds
    have hw : s.world.nodes i = some n := hn
    simp only [World.queued, hvn, hw, Option.bind_eq_bind, Option.bind_some] at hq ⊢
    cases hbody : n.body with
    | merge _ _ =>
      rcases hi with hi | ⟨f, l, hi, -⟩
      · rw [node_feeder hi] at hn
        rw [← Option.some.inj hn] at hbody
        cases hbody
      · rw [node_buffer hi] at hn
        rw [← Option.some.inj hn] at hbody
        cases hbody
    | _ =>
      rw [hbody] at hq
      exact hq
  have hready : 0 < (s.queue i).length ↔ s.queue i ≠ [] := List.length_pos_iff
  obtain ⟨loop, hwoken, harm⟩ := s.woken (m := m) (k := (s.queue i).length) (l := m.body.space) i
  rw [hready] at hwoken
  refine ⟨loop, hwoken, ?_⟩
  rw [World.setParent_eq hvn hvq hvs hparent, harm]
  refine congrArg some (world_eq rfl (fun j => ?_) rfl rfl rfl)
  by_cases hji : j = i
  · subst hji
    exact (Function.update_self ..).trans hnode.symm
  · refine (Function.update_of_ne hji _ _).trans ?_
    by_cases hjs : j = s.size
    · subst hjs
      exact (Function.update_self ..).trans hm.symm
    · exact (Function.update_of_ne hjs _ _).trans (node_link_ne hji hjs).symm

theorem Wired.setParent_outlet (h : Wired s) (hi : s.role i = .merger) (ho : s.outlet = none) {r : Role}
    {m : StorageNode α} (hm : ({ s.alloc r with outlet := some s.size } : Net α).node s.size = some m) :
    ∃ loop, s.Woken i (s.Taken ∧ 0 < m.body.space) loop ∧ (s.world.alloc m).2.setParent i s.size =
      some (s.outletAdded r loop).world := by
  have hsize : i ≠ s.size := h.ne_size (by rw [hi]; exact Role.noConfusion)
  have hn : s.node i = some ⟨none, none, .merge s.slots s.cursor⟩ := by
    rw [node_merger hi, ho]
  have hvn : (s.world.alloc m).2.nodes i = some ⟨none, none, .merge s.slots s.cursor⟩ :=
    (Function.update_of_ne hsize _ _).trans hn
  have hvs : (s.world.alloc m).2.space s.size = some m.body.space := by
    rw [World.space, show (s.world.alloc m).2.nodes s.size = some m from Function.update_self ..]
    rfl
  obtain ⟨k, hk, hpos⟩ := h.queued_merger hi
  have hvq : (s.world.alloc m).2.queued i = some k := by
    rw [← hk]
    simp only [World.queued, hvn, show s.world.nodes i = _ from hn, Option.bind_eq_bind, Option.bind_some]
    refine World.slotsQueued_congr fun a ha => Function.update_of_ne (h.ne_size ?_) _ _
    obtain ⟨c, hslot⟩ := h.slots a ha
    rw [hslot]
    exact Role.noConfusion
  obtain ⟨loop, hwoken, harm⟩ := s.woken (m := m) (k := k) (l := m.body.space) i
  refine ⟨loop, by rwa [hpos] at hwoken, ?_⟩
  rw [World.setParent_eq hvn hvq hvs rfl, harm]
  refine congrArg some (world_eq rfl (fun j => ?_) rfl rfl rfl)
  by_cases hji : j = i
  · subst hji
    have hrole : (s.outletAdded r loop).role j = .merger :=
      (role_alloc_ne hsize).trans hi
    rw [node_merger hrole]
    exact Function.update_self ..
  · refine (Function.update_of_ne hji _ _).trans ?_
    by_cases hjs : j = s.size
    · subst hjs
      exact (Function.update_self ..).trans hm.symm
    · refine (Function.update_of_ne hjs _ _).trans ?_
      have hrole : (s.outletAdded r loop).role j = s.role j := role_alloc_ne hjs
      refine (node_congr hrole rfl rfl fun hj => absurd ?_ hji).symm
      exact Option.some.inj (((h.merger j).mp hj).symm.trans ((h.merger i).mp hi))

/-! ## Building keeps a network wired up -/

section
variable {r r' : Role} {j : Nat}

theorem role_of_alloc (hj : (s.alloc r).role j = r') (hr : r' ≠ r) : s.role j = r' := by
  by_cases hjs : j = s.size
  · subst hjs
    exact absurd (hj.symm.trans (role_alloc r)) hr
  · exact (role_alloc_ne hjs).symm.trans hj

theorem Wired.alloc_keeps (h : Wired s) (hj : s.role j = r') (hr : r' ≠ .free) : (s.alloc r).role j = r' :=
  (role_alloc_ne (h.ne_size (hj ▸ hr))).trans hj

theorem Wired.alloc_fresh (h : Wired s) (hj : (s.alloc r).size ≤ j) : (s.alloc r).role j = .free := by
  have hlt : s.size + 1 ≤ j := hj
  rw [role_alloc_ne (by omega)]
  exact h.fresh j (by omega)

theorem Wired.alloc_feeder (h : Wired s) {p : Nat} (hj : (s.alloc r).role j = .feeder (some p))
    (hr : r ≠ .feeder (some p)) :
    (∃ l a, (s.alloc r).role p = .buffer j l a) ∨ (s.alloc r).role p = .slot j := by
  rcases h.feeder j p (role_of_alloc hj hr.symm) with ⟨l, a, hp⟩ | hp
  · exact Or.inl ⟨l, a, h.alloc_keeps hp Role.noConfusion⟩
  · exact Or.inr (h.alloc_keeps hp Role.noConfusion)

theorem Wired.alloc_buffer (h : Wired s) {c l : Nat} {p : Option Nat} (hj : s.role j = .buffer c l p) :
    l < 2 ^ 64 ∧ (s.queue j).length ≤ l ∧
      ((s.alloc r).role c = .feeder (some j) ∧ (∀ a, p = some a → (s.alloc r).role a = .slot j) ∨
        s.merger = some c ∧ s.outlet = some j ∧ p = none) := by
  obtain ⟨hl, hlen, ⟨hc, hslot⟩ | hout⟩ := h.buffer j c l p hj
  · exact ⟨hl, hlen, Or.inl ⟨h.alloc_keeps hc Role.noConfusion, fun a ha => h.alloc_keeps (hslot a ha) Role.noConfusion⟩⟩
  · exact ⟨hl, hlen, Or.inr hout⟩

theorem Wired.alloc_slot (h : Wired s) {c : Nat} (hj : s.role j = .slot c) : j ∈ s.slots ∧ s.merger ≠ none ∧
    (s.queue j).length ≤ 1 ∧
      ((s.alloc r).role c = .feeder (some j) ∨ ∃ f l, (s.alloc r).role c = .buffer f l (some j)) := by
  obtain ⟨hmem, hm, hlen, hc | ⟨f, l, hc⟩⟩ := h.slot j c hj
  · exact ⟨hmem, hm, hlen, Or.inl (h.alloc_keeps hc Role.noConfusion)⟩
  · exact ⟨hmem, hm, hlen, Or.inr ⟨f, l, h.alloc_keeps hc Role.noConfusion⟩⟩

theorem Wired.alloc_slots (h : Wired s) (hj : j ∈ s.slots) : ∃ c, (s.alloc r).role j = .slot c := by
  obtain ⟨c, hslot⟩ := h.slots j hj
  exact ⟨c, h.alloc_keeps hslot Role.noConfusion⟩

theorem Wired.alloc_empty (h : Wired s)
    (hj : (s.alloc r).role j = .merger ∨ (s.alloc r).role j = .sink ∨ (s.alloc r).role j = .free) :
    s.queue j = [] := by
  by_cases hjs : j = s.size
  · subst hjs
    exact h.empty_size
  · rw [role_alloc_ne hjs] at hj
    exact h.empty j hj

end

theorem Wired.newFeeder (h : Wired s) : Wired (s.alloc (.feeder none)) := by
  refine ⟨fun j => h.alloc_fresh, fun j p hj => ?_, fun j c l p hj => ?_, fun a c ha => ?_, fun a => h.alloc_slots,
    fun j => ?_, fun o ho => ?_, fun j hj => ?_, fun j => h.alloc_empty, h.calm⟩
  · exact h.alloc_feeder hj (by simp)
  · exact h.alloc_buffer (role_of_alloc hj Role.noConfusion)
  · exact h.alloc_slot (role_of_alloc ha Role.noConfusion)
  · exact ⟨fun hj => (h.merger j).mp (role_of_alloc hj Role.noConfusion),
      fun hj => h.alloc_keeps ((h.merger j).mpr hj) Role.noConfusion⟩
  · obtain ⟨m, hm, hsink | ⟨l, hbuffer⟩⟩ := h.outlet o ho
    · exact ⟨m, hm, Or.inl (h.alloc_keeps hsink Role.noConfusion)⟩
    · exact ⟨m, hm, Or.inr ⟨l, h.alloc_keeps hbuffer Role.noConfusion⟩⟩
  · exact h.sink j (role_of_alloc hj Role.noConfusion)

theorem Wired.newMerger (h : Wired s) (hm : s.merger = none) :
    Wired ({ s.alloc .merger with merger := some s.size } : Net α) := by
  have hmerger : ∀ j, s.role j ≠ .merger := by
    intro j hj
    rw [(h.merger j).mp hj] at hm
    cases hm
  have houtlet : s.outlet = none := by
    cases ho : s.outlet with
    | none => rfl
    | some o =>
      obtain ⟨m, hm', -⟩ := h.outlet o ho
      rw [hm] at hm'
      cases hm'
  refine ⟨fun j => h.alloc_fresh, fun j p hj => ?_, fun j c l p hj => ?_, fun a c ha => ?_, fun a => h.alloc_slots,
    fun j => ⟨fun hj => ?_, fun hj => ?_⟩, fun o ho => ?_, fun j hj => ?_, fun j => h.alloc_empty, h.calm⟩
  · exact h.alloc_feeder hj Role.noConfusion
  · obtain ⟨hl, hlen, hc | ⟨hc, -⟩⟩ := h.alloc_buffer (role_of_alloc hj Role.noConfusion)
    · exact ⟨hl, hlen, Or.inl hc⟩
    · rw [hm] at hc
      cases hc
  · obtain ⟨-, hne, -⟩ := h.slot a c (role_of_alloc ha Role.noConfusion)
    exact absurd hm hne
  · refine Classical.byContradiction fun hne => hmerger j ?_
    rwa [← role_alloc_ne (r := .merger) fun hjs => hne (congrArg some hjs.symm)]
  · obtain rfl := Option.some.inj hj
    exact role_alloc _
  · rw [show s.outlet = some o from ho] at houtlet
    cases houtlet
  · exact h.sink j (role_of_alloc hj Role.noConfusion)

/-- The outlet of a merge node `m`. -/
def Outlet (m : Nat) (r : Role) : Prop := r = .sink ∨ ∃ l, l < 2 ^ 64 ∧ r = .buffer m l none

theorem Wired.newOutlet (h : Wired s) {m : Nat} (hm : s.merger = some m) (ho : s.outlet = none) {r : Role}
    (hr : Outlet m r) : Wired ({ s.alloc r with outlet := some s.size } : Net α) := by
  have hne : ∀ r', (∀ c l p, r' ≠ .buffer c l p) → r' ≠ .sink → r' ≠ r := by
    rintro r' hbuffer hsink rfl
    rcases hr with rfl | ⟨l, -, rfl⟩
    · exact hsink rfl
    · exact hbuffer m l none rfl
  refine ⟨fun j => h.alloc_fresh, fun j p hj => ?_, fun j c l p hj => ?_, fun a c ha => ?_, fun a => h.alloc_slots,
    fun j => ⟨fun hj => ?_, fun hj => ?_⟩, fun o ho' => ?_, fun j hj => ?_, fun j => h.alloc_empty, h.calm⟩
  · exact h.alloc_feeder hj (hne _ (fun _ _ _ => Role.noConfusion) Role.noConfusion).symm
  · by_cases hjs : j = s.size
    · subst hjs
      have hr' : r = .buffer c l p := (role_alloc r).symm.trans hj
      rcases hr with rfl | ⟨l', hl', rfl⟩
      · cases hr'
      · cases hr'
        refine ⟨hl', ?_, Or.inr ⟨hm, rfl, rfl⟩⟩
        rw [show ({ s.alloc (.buffer m l none) with outlet := some s.size } : Net α).queue s.size = [] from h.empty_size]
        exact Nat.zero_le _
    · obtain ⟨hl, hlen, hc | ⟨-, hout, -⟩⟩ := h.alloc_buffer (r := r) ((role_alloc_ne hjs).symm.trans hj)
      · exact ⟨hl, hlen, Or.inl hc⟩
      · rw [ho] at hout
        cases hout
  · exact h.alloc_slot (role_of_alloc ha (hne _ (fun _ _ _ => Role.noConfusion) Role.noConfusion))
  · exact (h.merger j).mp (role_of_alloc hj (hne _ (fun _ _ _ => Role.noConfusion) Role.noConfusion))
  · exact h.alloc_keeps ((h.merger j).mpr hj) Role.noConfusion
  · obtain rfl := Option.some.inj ho'
    refine ⟨m, hm, ?_⟩
    rcases hr with rfl | ⟨l, -, rfl⟩
    · exact Or.inl (role_alloc _)
    · exact Or.inr ⟨l, role_alloc _⟩
  · by_cases hjs : j = s.size
    · exact congrArg some hjs.symm
    · have hout := h.sink j ((role_alloc_ne hjs).symm.trans hj)
      rw [ho] at hout
      cases hout

theorem Loose.under (hi : s.Loose i) (p : Nat) : (s.role i).under p = .feeder (some p) ∧ s.role i = .feeder none ∨
    ∃ f l, (s.role i).under p = .buffer f l (some p) ∧ s.role i = .buffer f l none ∧ s.role f = .feeder (some i) := by
  rcases hi with hi | ⟨f, l, hi, hf⟩
  · exact Or.inl ⟨by rw [hi]; rfl, hi⟩
  · exact Or.inr ⟨f, l, by rw [hi]; rfl, hi, hf⟩

section
variable {r r' : Role} {j : Nat}

theorem role_of_link (hj : (s.link i r).role j = r') :
    j = i ∧ r' = (s.role i).under s.size ∨ j ≠ i ∧ j = s.size ∧ r' = r ∨ j ≠ i ∧ j ≠ s.size ∧ s.role j = r' := by
  by_cases hji : j = i
  · subst hji
    exact Or.inl ⟨rfl, hj.symm.trans (role_link r)⟩
  · by_cases hjs : j = s.size
    · subst hjs
      exact Or.inr (Or.inl ⟨hji, rfl, hj.symm.trans (role_link_new (Ne.symm hji))⟩)
    · exact Or.inr (Or.inr ⟨hji, hjs, (role_link_ne hji hjs).symm.trans hj⟩)

theorem Loose.ne_child (hi : s.Loose i) {p : Nat}
    (hj : s.role j = .feeder (some p) ∨ ∃ c l, s.role j = .buffer c l (some p)) : j ≠ i := by
  rintro rfl
  rcases hi with hi | ⟨f, l, hi, -⟩
  · rw [hi] at hj
    rcases hj with hj | ⟨c, l, hj⟩ <;> cases hj
  · rw [hi] at hj
    rcases hj with hj | ⟨c, l, hj⟩ <;> cases hj

theorem Loose.ne_other (hi : s.Loose i) (hj : s.role j = r') (hfeeder : ∀ p, r' ≠ .feeder p)
    (hbuffer : ∀ c l p, r' ≠ .buffer c l p) : j ≠ i := by
  rintro rfl
  rcases hi with hi | ⟨f, l, hi, -⟩
  · exact hfeeder none (hj.symm.trans hi)
  · exact hbuffer f l none (hj.symm.trans hi)

theorem Wired.link_keeps (h : Wired s) (hj : s.role j = r') (hr : r' ≠ .free) (hji : j ≠ i) :
    (s.link i r).role j = r' :=
  (role_link_ne hji (h.ne_size (hj ▸ hr))).trans hj

theorem Wired.link_other (h : Wired s) (hi : s.Loose i) (hj : s.role j = r') (hr : r' ≠ .free)
    (hfeeder : ∀ p, r' ≠ .feeder p) (hbuffer : ∀ c l p, r' ≠ .buffer c l p) : (s.link i r).role j = r' :=
  h.link_keeps hj hr (hi.ne_other hj hfeeder hbuffer)

theorem Loose.was (hi : s.Loose i) (hj : (s.link i r).role j = r') (hr : r' ≠ r) (hfeeder : ∀ p, r' ≠ .feeder p)
    (hbuffer : ∀ c l p, r' ≠ .buffer c l p) : s.role j = r' := by
  rcases role_of_link hj with ⟨-, hu⟩ | ⟨-, -, hr'⟩ | ⟨-, -, hj⟩
  · rcases hi.under s.size with ⟨hu', -⟩ | ⟨f, l, hu', -⟩
    · exact absurd (hu.trans hu') (hfeeder _)
    · exact absurd (hu.trans hu') (hbuffer _ _ _)
  · exact absurd hr' hr
  · exact hj

end

/-! Each part of `Wired` for the network with the link. -/

section
variable (h : Wired s) (hi : s.Loose i) {r : Role} {j : Nat}
include h hi

theorem Wired.link_fresh (hj : (s.link i r).size ≤ j) : (s.link i r).role j = .free := by
  have hlt : s.size + 1 ≤ j := hj
  have hfree : s.role j = .free := h.fresh j (by omega)
  refine (role_link_ne ?_ (by omega)).trans hfree
  rintro rfl
  exact hi.ne_free hfree

theorem Wired.link_feeder {p : Nat} (hj : s.role j = .feeder (some p)) :
    (∃ l a, (s.link i r).role p = .buffer j l a) ∨ (s.link i r).role p = .slot j := by
  rcases h.feeder j p hj with ⟨l, a, hp⟩ | hp
  · by_cases hpi : p = i
    · subst hpi
      refine Or.inl ⟨l, some s.size, (role_link r).trans ?_⟩
      rw [hp]
      rfl
    · exact Or.inl ⟨l, a, h.link_keeps hp Role.noConfusion hpi⟩
  · exact Or.inr (h.link_other hi hp Role.noConfusion (fun _ => Role.noConfusion) fun _ _ _ => Role.noConfusion)

theorem Wired.link_buffer {c l : Nat} {p : Option Nat} (hj : s.role j = .buffer c l p) :
    l < 2 ^ 64 ∧ (s.queue j).length ≤ l ∧
      ((s.link i r).role c = .feeder (some j) ∧ (∀ a, p = some a → (s.link i r).role a = .slot j) ∨
        s.merger = some c ∧ s.outlet = some j ∧ p = none) := by
  obtain ⟨hl, hlen, ⟨hc, hslot⟩ | hout⟩ := h.buffer j c l p hj
  · refine ⟨hl, hlen, Or.inl ⟨h.link_keeps hc Role.noConfusion (hi.ne_child (Or.inl hc)), fun a ha => ?_⟩⟩
    exact h.link_other hi (hslot a ha) Role.noConfusion (fun _ => Role.noConfusion) fun _ _ _ => Role.noConfusion
  · exact ⟨hl, hlen, Or.inr hout⟩

theorem Wired.link_slot {c : Nat} (hj : s.role j = .slot c) : j ∈ s.slots ∧ s.merger ≠ none ∧
    (s.queue j).length ≤ 1 ∧
      ((s.link i r).role c = .feeder (some j) ∨ ∃ f l, (s.link i r).role c = .buffer f l (some j)) := by
  obtain ⟨hmem, hm, hlen, hc | ⟨f, l, hc⟩⟩ := h.slot j c hj
  · exact ⟨hmem, hm, hlen, Or.inl (h.link_keeps hc Role.noConfusion (hi.ne_child (Or.inl hc)))⟩
  · exact ⟨hmem, hm, hlen, Or.inr ⟨f, l, h.link_keeps hc Role.noConfusion (hi.ne_child (Or.inr ⟨f, l, hc⟩))⟩⟩

theorem Wired.link_slots (hj : j ∈ s.slots) : ∃ c, (s.link i r).role j = .slot c := by
  obtain ⟨c, hslot⟩ := h.slots j hj
  exact ⟨c, h.link_other hi hslot Role.noConfusion (fun _ => Role.noConfusion) fun _ _ _ => Role.noConfusion⟩

theorem Wired.link_merger (hr : r ≠ .merger) : (s.link i r).role j = .merger ↔ s.merger = some j := by
  refine ⟨fun hj => ?_, fun hj => ?_⟩
  · exact (h.merger j).mp (hi.was hj hr.symm (fun _ => Role.noConfusion) fun _ _ _ => Role.noConfusion)
  · exact h.link_other hi ((h.merger j).mpr hj) Role.noConfusion (fun _ => Role.noConfusion)
      fun _ _ _ => Role.noConfusion

theorem Wired.link_outlet (hj : s.outlet = some j) :
    ∃ m, s.merger = some m ∧ ((s.link i r).role j = .sink ∨ ∃ l, (s.link i r).role j = .buffer m l none) := by
  obtain ⟨m, hm, hsink | ⟨l, hbuffer⟩⟩ := h.outlet j hj
  · exact ⟨m, hm, Or.inl (h.link_other hi hsink Role.noConfusion (fun _ => Role.noConfusion)
      fun _ _ _ => Role.noConfusion)⟩
  · refine ⟨m, hm, Or.inr ⟨l, h.link_keeps hbuffer Role.noConfusion ?_⟩⟩
    -- the outlet pulls from the merge node, the end of a source does not
    rintro rfl
    rcases hi with hi | ⟨f, l', hi, hf⟩
    · rw [hbuffer] at hi
      cases hi
    · rw [hbuffer] at hi
      cases hi
      rw [(h.merger m).mpr hm] at hf
      cases hf

theorem Wired.link_sink (hr : r ≠ .sink) (hj : (s.link i r).role j = .sink) : s.outlet = some j :=
  h.sink j (hi.was hj hr.symm (fun _ => Role.noConfusion) fun _ _ _ => Role.noConfusion)

theorem Wired.link_empty (hj : (s.link i r).role j = .merger ∨ (s.link i r).role j = .sink ∨
    (s.link i r).role j = .free) : s.queue j = [] := by
  by_cases hjs : j = s.size
  · subst hjs
    exact h.empty_size
  by_cases hji : j = i
  · subst hji
    rw [role_link] at hj
    rcases hi.under s.size with ⟨hu, -⟩ | ⟨f, l, hu, -⟩ <;> rw [hu] at hj
    · rcases hj with hj | hj | hj <;> cases hj
    · rcases hj with hj | hj | hj <;> cases hj
  · rw [role_link_ne hji hjs] at hj
    exact h.empty j hj

end

theorem Wired.newBuffer (h : Wired s) (hi : s.role i = .feeder none) {l : Nat} (hl : l < 2 ^ 64) :
    Wired (s.link i (.buffer i l none)) := by
  have hloose : s.Loose i := Or.inl hi
  have hself : (s.link i (.buffer i l none)).role i = .feeder (some s.size) := by
    rw [role_link, hi]
    rfl
  have hnew : (s.link i (.buffer i l none)).role s.size = .buffer i l none := role_link_new (h.ne_size hloose.ne_free)
  refine ⟨fun j => h.link_fresh hloose, fun j p hj => ?_, fun j c l' p hj => ?_, fun a c ha => ?_,
    fun a => h.link_slots hloose, fun j => h.link_merger hloose Role.noConfusion, fun o => h.link_outlet hloose,
    fun j => h.link_sink hloose Role.noConfusion, fun j => h.link_empty hloose, h.calm⟩
  · rcases role_of_link hj with ⟨rfl, hr⟩ | ⟨-, -, hr⟩ | ⟨-, -, hj⟩
    · rw [hi] at hr
      cases hr
      exact Or.inl ⟨l, none, hnew⟩
    · cases hr
    · exact h.link_feeder hloose hj
  · rcases role_of_link hj with ⟨rfl, hr⟩ | ⟨-, rfl, hr⟩ | ⟨-, -, hj⟩
    · rw [hi] at hr
      cases hr
    · cases hr
      refine ⟨hl, ?_, Or.inl ⟨hself, fun a ha => by cases ha⟩⟩
      rw [show (s.link i (.buffer i l none)).queue s.size = [] from h.empty_size]
      exact Nat.zero_le _
    · exact h.link_buffer hloose hj
  · exact h.link_slot hloose (hloose.was ha Role.noConfusion (fun _ => Role.noConfusion) fun _ _ _ => Role.noConfusion)

theorem Wired.newSlot (h : Wired s) (hi : s.Loose i) (hm : s.merger ≠ none) :
    Wired ({ s.link i (.slot i) with slots := s.slots ++ [s.size] } : Net α) := by
  have hself : (s.link i (.slot i)).role i = (s.role i).under s.size := role_link _
  have hnew : (s.link i (.slot i)).role s.size = .slot i := role_link_new (h.ne_size hi.ne_free)
  refine ⟨fun j => h.link_fresh hi, fun j p hj => ?_, fun j c l p hj => ?_, fun a c ha => ?_, fun a ha => ?_,
    fun j => h.link_merger hi Role.noConfusion, fun o => h.link_outlet hi, fun j => h.link_sink hi Role.noConfusion,
    fun j => h.link_empty hi, h.calm⟩
  · rcases role_of_link hj with ⟨rfl, hr⟩ | ⟨-, -, hr⟩ | ⟨-, -, hj⟩
    · rcases hi.under s.size with ⟨hu, -⟩ | ⟨f, l, hu, -⟩
      · rw [hu] at hr
        cases hr
        exact Or.inr hnew
      · rw [hu] at hr
        cases hr
    · cases hr
    · exact h.link_feeder hi hj
  · rcases role_of_link hj with ⟨rfl, hr⟩ | ⟨-, -, hr⟩ | ⟨-, -, hj⟩
    · rcases hi.under s.size with ⟨hu, -⟩ | ⟨f, l', hu, hb, hf⟩
      · rw [hu] at hr
        cases hr
      · rw [hu] at hr
        cases hr
        obtain ⟨hl, hlen, -⟩ := h.buffer j c l none hb
        refine ⟨hl, hlen, Or.inl ⟨h.link_keeps hf Role.noConfusion (hi.ne_child (Or.inl hf)), fun a ha => ?_⟩⟩
        obtain rfl := Option.some.inj ha
        exact hnew
    · cases hr
    · exact h.link_buffer hi hj
  · rcases role_of_link ha with ⟨rfl, hr⟩ | ⟨-, rfl, hr⟩ | ⟨-, -, ha⟩
    · rcases hi.under s.size with ⟨hu, -⟩ | ⟨f, l, hu, -⟩ <;> rw [hu] at hr <;> cases hr
    · cases hr
      refine ⟨List.mem_append_right _ (List.mem_singleton_self _), hm, ?_, ?_⟩
      · rw [show ({ s.link i (.slot i) with slots := s.slots ++ [s.size] } : Net α).queue s.size = [] from h.empty_size]
        exact Nat.zero_le _
      · rcases hi.under s.size with ⟨hu, -⟩ | ⟨f, l, hu, -⟩
        · exact Or.inl (hself.trans hu)
        · exact Or.inr ⟨f, l, hself.trans hu⟩
    · obtain ⟨hmem, hm, hlen, hc⟩ := h.link_slot (r := .slot i) hi ha
      exact ⟨List.mem_append_left _ hmem, hm, hlen, hc⟩
  · rcases List.mem_append.mp ha with ha | ha
    · exact h.link_slots hi ha
    · rw [List.mem_singleton.mp ha]
      exact ⟨i, hnew⟩

end

end Net

end Forstio
