import Forstio.MergeBuild

/-!
# Growing a network

What feeding, taking and each step of building do to a network that is awake:
a new source, a buffer for it, the merge node, a slot for a source, and the
outlet of the merge node.
-/

namespace Forstio

namespace Net

variable {α : Type}

section
variable {s : Net α} {i : Nat}

/-! ## Building keeps a network awake -/

section
variable {t : Net α}

structure Extends (s t : Net α) : Prop where
  role : ∀ j, s.role j ≠ .free → ∃ p, t.role j = s.role j ∨ t.role j = (s.role j).under p
  queue : t.queue = s.queue
  merger : ∀ m, s.merger = some m → t.merger = some m
  delivered : t.delivered = s.delivered
  passed : t.passed = s.passed
  path : ∀ f, t.path f = s.path f ∨ ∃ p, s.queue p = [] ∧ t.path f = p :: s.path f

theorem Extends.loaded (ht : Extends s t) {j : Nat} (hj : s.Loaded j) : t.Loaded j := by
  unfold Loaded at hj ⊢
  have hrole : s.role j ≠ .free → ∃ p, t.role j = s.role j ∨ t.role j = (s.role j).under p := ht.role j
  rw [ht.queue]
  cases hs : s.role j with
  | feeder p =>
    rw [hs] at hj hrole
    obtain ⟨p', hr | hr⟩ := hrole Role.noConfusion
    · rw [hr]
      exact hj
    · rw [hr]
      exact hj
  | buffer c l p =>
    rw [hs] at hj hrole
    obtain ⟨p', hr | hr⟩ := hrole Role.noConfusion
    · rw [hr]
      exact hj.imp_left (ht.merger c)
    · rw [hr]
      exact hj.imp_left (ht.merger c)
  | merger =>
    rw [hs] at hrole
    obtain ⟨p', hr | hr⟩ := hrole Role.noConfusion
    · rw [hr]
      trivial
    · rw [hr]
      trivial
  | _ =>
    rw [hs] at hj
    exact hj.elim

theorem Extends.held (ht : Extends s t) (f : Nat) : t.held f = s.held f := by
  rcases ht.path f with hpath | ⟨p, hp, hpath⟩
  · rw [Net.held, hpath, ht.queue]
    rfl
  · rw [Net.held, hpath, ht.queue, List.flatMap_cons, hp]
    rfl

theorem Extends.logged (ht : Extends s t) {fed : Nat → List (ErrorOr α)} (h : Logged s fed) : Logged t fed :=
  h.same (by rw [ht.delivered, ht.passed]) ht.held

theorem Extends.awake (ht : Extends s t) (h : Awake s) (hw : Wired t) {ready : Prop} (hloop : s.Woken i ready t.loop)
    (hi : ready → s.Loaded i) : Awake t := by
  rcases hloop with ⟨hready, hloop⟩ | ⟨-, hloop⟩
  · refine ⟨hw, by rw [hloop]; exact h.loop.armLater i, fun j hj => ht.loaded ?_⟩
    rw [isArmed, hloop, h.loop.isArmed_armLater] at hj
    rcases hj with rfl | hj
    · exact hi hready
    · exact h.loaded j hj
  · refine ⟨hw, by rw [hloop]; exact h.loop, fun j hj => ht.loaded (h.loaded j ?_)⟩
    rw [isArmed, hloop] at hj
    exact hj

theorem Woken.isArmed {ready : Prop} {loop : EventLoop Nat} (hw : s.Woken i ready loop) (h : s.loop.Sound) :
    (∀ j, s.isArmed j → loop.isArmed j) ∧ (ready → loop.isArmed i) := by
  rcases hw with ⟨-, rfl⟩ | ⟨hnot, rfl⟩
  · exact ⟨fun j hj => (h.isArmed_armLater i j).mpr (Or.inr hj), fun _ => (h.isArmed_armLater i i).mpr (Or.inl rfl)⟩
  · exact ⟨fun _ => id, fun hready => absurd hready hnot⟩

end

/-! ## Paths after building -/

theorem path_congr {t : Net α} {f : Nat} (hf : t.role f = s.role f)
    (hp : ∀ p, s.role f = .feeder (some p) → t.role p = s.role p) : t.path f = s.path f := by
  unfold path
  rw [hf]
  cases hrole : s.role f with
  | feeder p =>
    cases p with
    | none => rfl
    | some p => simp only [hp p hrole]
  | _ => rfl

theorem Wired.parent_ne_size (h : Wired s) {f p : Nat} (hf : s.role f = .feeder (some p)) : p ≠ s.size := by
  refine h.ne_size ?_
  rcases h.feeder f p hf with ⟨l, a, hp⟩ | hp
  · rw [hp]
    exact Role.noConfusion
  · rw [hp]
    exact Role.noConfusion

theorem Wired.path_size (h : Wired s) : s.path s.size = [] := by
  simp only [path, h.fresh _ (Nat.le_refl _)]

theorem Wired.path_alloc (h : Wired s) {r : Role} {f : Nat} (hf : f ≠ s.size) : (s.alloc r).path f = s.path f :=
  path_congr (role_alloc_ne hf) fun _ hp => role_alloc_ne (h.parent_ne_size hp)

section
variable {r : Role}

theorem Wired.path_link_source (h : Wired s) (hi : s.Loose i) (hr : r = .slot i ∨ ∃ l, r = .buffer i l none) :
    (s.link i r).path (s.source i) = s.size :: s.path (s.source i) := by
  have hsize : i ≠ s.size := h.ne_size hi.ne_free
  have hnew : (s.link i r).role s.size = r := role_link_new hsize
  rcases hi with hi | ⟨c, l, hi, hc⟩
  · have hself : (s.link i r).role i = .feeder (some s.size) := by
      rw [role_link, hi]
      rfl
    have hsource : s.source i = i := by simp only [source, hi]
    rw [hsource, path_loose hi]
    rcases hr with rfl | ⟨l, rfl⟩
    · exact path_slot hself hnew
    · exact path_buffer hself hnew
  · have hself : (s.link i r).role i = .buffer c l (some s.size) := by
      rw [role_link, hi]
      rfl
    have hsource : s.source i = c := by simp only [source, hi]
    have hci : c ≠ i := by
      rintro rfl
      rw [hc] at hi
      cases hi
    have hkeep : (s.link i r).role c = .feeder (some i) :=
      (role_link_ne hci (h.ne_size (by rw [hc]; exact Role.noConfusion))).trans hc
    rw [hsource, path_buffer hc hi]
    exact path_attached hkeep hself

theorem Wired.path_link_ne (h : Wired s) (hi : s.Loose i) (hr : r = .slot i ∨ ∃ l, r = .buffer i l none) {f : Nat}
    (hf : f ≠ s.source i) : (s.link i r).path f = s.path f := by
  have hnew : (s.link i r).role s.size = r := role_link_new (h.ne_size hi.ne_free)
  by_cases hfs : f = s.size
  · subst hfs
    rw [h.path_size]
    rcases hr with rfl | ⟨l, rfl⟩
    · simp only [path, hnew]
    · simp only [path, hnew]
  · by_cases hfi : f = i
    · subst hfi
      rcases hi with hi | ⟨c, l, hi, hc⟩
      · exact absurd (by simp only [source, hi]) hf
      · have hself : (s.link f r).role f = .buffer c l (some s.size) := by
          rw [role_link, hi]
          rfl
        simp only [path, hself, hi]
    · refine path_congr (role_link_ne hfi hfs) fun p hp => role_link_ne ?_ (h.parent_ne_size hp)
      rintro rfl
      rcases h.feeder f p hp with ⟨l, a, hb⟩ | hb
      · exact hf (by simp only [source, hb])
      · rcases hi.holds with ⟨_, hi⟩ | ⟨_, _, _, hi⟩
        · rw [hb] at hi
          cases hi
        · rw [hb] at hi
          cases hi

theorem Wired.path_link (h : Wired s) (hi : s.Loose i) (hr : r = .slot i ∨ ∃ l, r = .buffer i l none) (f : Nat) :
    (s.link i r).path f = s.path f ∨ (s.link i r).path f = s.size :: s.path f := by
  by_cases hf : f = s.source i
  · rw [hf]
    exact Or.inr (h.path_link_source hi hr)
  · exact Or.inl (h.path_link_ne hi hr hf)

end

/-! ## Building -/

theorem Wired.extends_alloc (h : Wired s) {r : Role} {t : Net α} (hr : r = .feeder none ∨ ∀ p, r ≠ .feeder p)
    (hrole : t.role = (s.alloc r).role) (hqueue : t.queue = s.queue) (hmerger : ∀ m, s.merger = some m → t.merger = some m)
    (hdelivered : t.delivered = s.delivered) (houtlet : t.outlet = s.outlet ∨ t.outlet = some s.size ∧ s.outlet = none) :
    Extends s t := by
  refine ⟨fun j hj => ⟨0, Or.inl ?_⟩, hqueue, hmerger, hdelivered, ?_, fun f => ?_⟩
  · rw [hrole]
    exact role_alloc_ne (h.ne_size hj)
  · rcases houtlet with houtlet | ⟨houtlet, hnone⟩
    · exact passed_congr houtlet fun o _ => by rw [hqueue]
    · rw [passed, passed, houtlet, hnone]
      exact (congrFun hqueue _).trans h.empty_size
  · have hpath : t.path f = (s.alloc r).path f := by
      refine path_congr (by rw [hrole]) fun p _ => by rw [hrole]
    rw [hpath]
    by_cases hf : f = s.size
    · subst hf
      rw [h.path_size]
      rcases hr with rfl | hr
      · exact Or.inr ⟨s.size, h.empty_size, path_loose (role_alloc _)⟩
      · left
        unfold path
        rw [role_alloc]
        cases r with
        | feeder p => exact absurd rfl (hr p)
        | _ => rfl
    · exact Or.inl (h.path_alloc hf)

theorem Wired.extends_link (h : Wired s) (hi : s.Loose i) {r : Role} (hr : r = .slot i ∨ ∃ l, r = .buffer i l none)
    {t : Net α} (hrole : t.role = (s.link i r).role) (hqueue : t.queue = s.queue) (hmerger : t.merger = s.merger)
    (hdelivered : t.delivered = s.delivered) (houtlet : t.outlet = s.outlet) : Extends s t := by
  refine ⟨fun j hj => ⟨s.size, ?_⟩, hqueue, fun m hm => hmerger.trans hm, hdelivered,
    passed_congr houtlet fun o _ => by rw [hqueue], fun f => ?_⟩
  · rw [hrole]
    by_cases hji : j = i
    · subst hji
      exact Or.inr (role_link r)
    · exact Or.inl (role_link_ne hji (h.ne_size hj))
  · have hpath : t.path f = (s.link i r).path f := path_congr (by rw [hrole]) fun p _ => by rw [hrole]
    rw [hpath]
    exact (h.path_link hi hr f).imp_right fun hp => ⟨s.size, h.empty_size, hp⟩

/-- **A new source.** -/
theorem Awake.newConveyorAndFeeder (h : Awake s) :
    Conveyor.newConveyorAndFeeder s.world = (s.size, ⟨.storage s.size, s.size⟩, (s.alloc (.feeder none)).world) ∧
      Awake (s.alloc (.feeder none)) ∧ Extends s (s.alloc (.feeder none)) := by
  have hn : (s.alloc (.feeder none)).node s.size = some ⟨none, none, .adapt []⟩ := by
    rw [node_feeder (role_alloc _), show (s.alloc (.feeder none)).queue s.size = [] from h.empty_size]
  have hext : Extends s (s.alloc (.feeder none)) :=
    h.toWired.extends_alloc (Or.inl rfl) rfl rfl (fun _ => id) rfl (Or.inl rfl)
  refine ⟨?_, hext.awake h h.toWired.newFeeder (show s.Woken 0 False _ from Or.inr ⟨id, rfl⟩) False.elim, hext⟩
  have halloc : s.world.alloc ⟨none, none, .adapt []⟩ = (s.size, (s.alloc (.feeder none)).world) :=
    Prod.ext rfl (alloc_world hn)
  simp only [Conveyor.newConveyorAndFeeder, halloc]

def bufferAdded (s : Net α) (i limit : Nat) (loop : EventLoop Nat) : Net α :=
  { s.link i (.buffer i limit none) with loop := loop }

/-- **A buffer** in front of a feeder's node. -/
theorem Awake.buffered (h : Awake s) (hi : s.role i = .feeder none) {limit : Nat} (hlimit : limit < 2 ^ 64) :
    ∃ loop, Conveyor.buffer ⟨.storage i, i⟩ s.world limit =
        some (⟨.storage s.size, s.size⟩, (s.bufferAdded i limit loop).world) ∧
      Awake (s.bufferAdded i limit loop) ∧ Extends s (s.bufferAdded i limit loop) ∧
      ∃ k, s.Woken i (s.queue i ≠ [] ∧ 0 < k) loop := by
  have hsize : i ≠ s.size := h.ne_size (by rw [hi]; exact Role.noConfusion)
  have hm : (s.link i (.buffer i limit none)).node s.size =
      some ⟨none, some i, .queueBuffer (some (.storage i)) [] limit⟩ := by
    rw [node_buffer (role_link_new hsize), show (s.link i (.buffer i limit none)).queue s.size = [] from h.empty_size]
  obtain ⟨loop, hwoken, hparent⟩ := h.toWired.setParent_link (Or.inl hi) hm
  have hext : Extends s (s.bufferAdded i limit loop) :=
    h.toWired.extends_link (Or.inl hi) (Or.inr ⟨limit, rfl⟩) rfl rfl rfl rfl rfl
  have hw := h.toWired.newBuffer hi hlimit
  have hw' : Wired (s.bufferAdded i limit loop) :=
    ⟨hw.fresh, hw.feeder, hw.buffer, hw.slot, hw.slots, hw.merger, hw.outlet, hw.sink, hw.empty, hw.calm⟩
  refine ⟨loop, ?_, hext.awake h hw' hwoken fun hready => loaded_feeder hi hready.1, hext, _, hwoken⟩
  have halloc : (s.world.alloc ⟨none, some i, .queueBuffer (some (.storage i)) [] limit⟩).1 = s.size := rfl
  simp only [Conveyor.buffer, halloc, hparent, Option.bind_eq_bind, Option.bind_some, Option.pure_def]
  rfl

theorem Wired.unmerged (h : Wired s) (hm : s.merger = none) : s.slots = [] ∧ s.outlet = none := by
  constructor
  · refine List.eq_nil_iff_forall_not_mem.mpr fun a ha => ?_
    obtain ⟨c, hslot⟩ := h.slots a ha
    exact (h.slot a c hslot).2.1 hm
  · cases ho : s.outlet with
    | none => rfl
    | some o =>
      obtain ⟨m, hm', -⟩ := h.outlet o ho
      rw [hm] at hm'
      cases hm'

def mergerAdded (s : Net α) : Net α := { s.alloc .merger with merger := some s.size, cursor := 0 }

theorem Wired.alloc_merger (h : Wired s) (hm : s.merger = none) :
    (s.world.alloc ⟨none, none, .merge [] 0⟩).2 = s.mergerAdded.world := by
  obtain ⟨hslots, houtlet⟩ := h.unmerged hm
  refine world_eq rfl (fun j => ?_) rfl rfl rfl
  by_cases hj : j = s.size
  · subst hj
    refine (Function.update_self ..).trans ?_
    rw [node_merger (show s.mergerAdded.role s.size = .merger from role_alloc _)]
    rw [show s.mergerAdded.outlet = none from houtlet, show s.mergerAdded.slots = [] from hslots]
    rfl
  · refine (Function.update_of_ne hj _ _).trans ?_
    have hrole : s.mergerAdded.role j = s.role j := role_alloc_ne hj
    have hqueue : s.mergerAdded.queue j = s.queue j := rfl
    change s.node j = _
    unfold node
    rw [hrole, hqueue]
    cases hs : s.role j with
    | merger =>
      rw [(h.merger j).mp hs] at hm
      cases hm
    | slot c => exact absurd hm (h.slot j c hs).2.1
    | sink =>
      rw [h.sink j hs] at houtlet
      cases houtlet
    | _ => rfl

theorem Awake.mergerAdded (h : Awake s) (hm : s.merger = none) : Awake s.mergerAdded ∧ Extends s s.mergerAdded := by
  have hext : Extends s s.mergerAdded := by
    refine h.toWired.extends_alloc (r := .merger) (Or.inr fun _ => Role.noConfusion) rfl rfl (fun m hm' => ?_) rfl
      (Or.inl rfl)
    rw [hm] at hm'
    cases hm'
  have hw := h.toWired.newMerger hm
  have hw' : Wired s.mergerAdded :=
    ⟨hw.fresh, hw.feeder, hw.buffer, hw.slot, hw.slots, hw.merger, hw.outlet, hw.sink, hw.empty, hw.calm⟩
  exact ⟨hext.awake h hw' (show s.Woken 0 False _ from Or.inr ⟨id, rfl⟩) False.elim, hext⟩

def slotAdded (s : Net α) (i : Nat) (loop : EventLoop Nat) : Net α :=
  { s.link i (.slot i) with slots := s.slots ++ [s.size], loop := loop }

/-- **Attaching** a source to the merge node. -/
theorem Awake.attach (h : Awake s) (hi : s.Loose i) {m : Nat} (hm : s.merger = some m) :
    ∃ loop, Conveyor.attach ⟨.storage i, i⟩ s.world m = some (s.slotAdded i loop).world ∧
      Awake (s.slotAdded i loop) ∧ Extends s (s.slotAdded i loop) ∧ s.Woken i (s.queue i ≠ []) loop := by
  have hsize : i ≠ s.size := h.ne_size hi.ne_free
  have hhub : s.hub = m := by
    rw [hub, hm]
    rfl
  have hrole : s.role m = .merger := (h.merger m).mpr hm
  have hmi : m ≠ i := by
    rintro rfl
    exact hi.holds.role (Or.inl hrole)
  have hms : m ≠ s.size := h.ne_size (by rw [hrole]; exact Role.noConfusion)
  have hnew : (s.link i (.slot i)).node s.size = some ⟨none, some i, .appendage (.storage i) m none⟩ := by
    rw [node_slot (role_link_new hsize), show (s.link i (.slot i)).queue s.size = [] from h.empty_size,
      show (s.link i (.slot i)).hub = m from hhub]
    rfl
  obtain ⟨loop, hwoken, hparent⟩ := h.toWired.setParent_link hi hnew
  have hready : s.Woken i (s.queue i ≠ []) loop := by
    unfold Woken at hwoken ⊢
    rwa [show 0 < StorageBody.space (.appendage (.storage i) m none : StorageBody α) ↔ True by
      simp [StorageBody.space], and_true] at hwoken
  have hext : Extends s (s.slotAdded i loop) :=
    h.toWired.extends_link hi (Or.inl rfl) rfl rfl rfl rfl rfl
  have hw := h.toWired.newSlot hi (by rw [hm]; exact Option.some_ne_none m)
  have hw' : Wired (s.slotAdded i loop) :=
    ⟨hw.fresh, hw.feeder, hw.buffer, hw.slot, hw.slots, hw.merger, hw.outlet, hw.sink, hw.empty, hw.calm⟩
  refine ⟨loop, ?_, hext.awake h hw' hready fun hq => ?_, hext, hready⟩
  · have hnm : ({ s.link i (.slot i) with loop := loop } : Net α).world.nodes m =
        some ⟨s.outlet, none, .merge s.slots s.cursor⟩ :=
      node_merger (s := { s.link i (.slot i) with loop := loop }) ((role_link_ne hmi hms).trans hrole)
    have halloc : (s.world.alloc ⟨none, some i, .appendage (.storage i) m none⟩).1 = s.size := rfl
    simp only [Conveyor.attach, halloc, hparent, World.setBody_eq hnm, Option.bind_eq_bind, Option.bind_some]
    refine congrArg some (world_eq rfl (fun j => ?_) rfl rfl rfl)
    by_cases hj : j = m
    · subst hj
      rw [node_merger (show (s.slotAdded i loop).role j = .merger from (role_link_ne hmi hms).trans hrole)]
      exact Function.update_self ..
    · refine (Function.update_of_ne hj _ _).trans (node_congr rfl rfl rfl fun hmj => absurd ?_ hj)
      exact Option.some.inj (((hw'.merger j).mp hmj).symm.trans hm)
  · rcases hi with hi | ⟨f, l, hi, -⟩
    · exact loaded_feeder hi hq
    · exact loaded_buffer hi hq

/-- **The outlet** of the merge node. -/
theorem Awake.outletAdded (h : Awake s) {m : Nat} (hm : s.merger = some m) (ho : s.outlet = none) {r : Role}
    (hr : Outlet m r) {n : StorageNode α} (hn : (s.alloc r).node s.size = some n) :
    ∃ loop, (s.world.alloc n).2.setParent m s.size =
        some (s.outletAdded r loop).world ∧
      Awake (s.outletAdded r loop) ∧
      Extends s (s.outletAdded r loop) ∧
      s.Woken m (s.Taken ∧ 0 < n.body.space) loop := by
  have hrole : s.role m = .merger := (h.merger m).mpr hm
  have hn' : ({ s.alloc r with outlet := some s.size } : Net α).node s.size = some n := by
    rw [← hn]
    refine node_congr rfl rfl rfl fun hmerger => ?_
    rw [role_alloc] at hmerger
    rcases hr with rfl | ⟨l, -, rfl⟩ <;> cases hmerger
  obtain ⟨loop, hwoken, hparent⟩ := h.toWired.setParent_outlet hrole ho hn'
  have hext : Extends s (s.outletAdded r loop) := by
    refine h.toWired.extends_alloc (r := r) (Or.inr fun p => ?_) rfl rfl (fun _ => id) rfl (Or.inr ⟨rfl, ho⟩)
    rcases hr with rfl | ⟨l, -, rfl⟩
    · exact Role.noConfusion
    · exact Role.noConfusion
  have hw := h.toWired.newOutlet hm ho hr
  have hw' : Wired (s.outletAdded r loop) :=
    ⟨hw.fresh, hw.feeder, hw.buffer, hw.slot, hw.slots, hw.merger, hw.outlet, hw.sink, hw.empty, hw.calm⟩
  exact ⟨loop, hparent, hext.awake h hw' hwoken fun _ => loaded_merger hrole, hext, hwoken⟩

/-! ## Feeding -/

structure Same (s t : Net α) : Prop where
  role : t.role = s.role
  slots : t.slots = s.slots
  merger : t.merger = s.merger
  outlet : t.outlet = s.outlet

theorem Fires.same {t : Net α} (hf : Fires s i t) : Same s t := by
  cases hf with
  | idle => exact ⟨rfl, rfl, rfl, rfl⟩
  | retry => exact ⟨rfl, rfl, rfl, rfl⟩
  | store p l a x xs t hrole hp hq hroom ht =>
    rw [ht]
    by_cases hxs : xs = []
    · rw [if_pos hxs]
      exact ⟨rfl, rfl, rfl, rfl⟩
    · rw [if_neg hxs]
      exact ⟨rfl, rfl, rfl, rfl⟩
  | offer p x xs t hrole hp hq hempty ht =>
    rw [ht]
    by_cases hxs : xs = []
    · rw [if_pos hxs]
      exact ⟨rfl, rfl, rfl, rfl⟩
    · rw [if_neg hxs]
      exact ⟨rfl, rfl, rfl, rfl⟩
  | release => exact ⟨rfl, rfl, rfl, rfl⟩
  | deliver o a k x t u hrole ho hsink ha hqa ht hu =>
    rcases hu with ⟨-, rfl⟩ | ⟨-, rfl⟩
    · rw [ht]
      exact ⟨rfl, rfl, rfl, rfl⟩
    · rw [ht]
      exact ⟨rfl, rfl, rfl, rfl⟩
  | pass o l a k x t u hrole ho hbuffer ha hqa hroom ht hu =>
    rcases hu with ⟨-, rfl⟩ | rfl
    · rw [ht]
      exact ⟨rfl, rfl, rfl, rfl⟩
    · rw [ht]
      exact ⟨rfl, rfl, rfl, rfl⟩

theorem Turns.same {t : Net α} (ht : Turns s t) : Same s t := by
  cases ht with
  | rest => exact ⟨rfl, rfl, rfl, rfl⟩
  | fire i loop t hturn hi hf =>
    have hsame := hf.same
    exact ⟨hsame.role, hsame.slots, hsame.merger, hsame.outlet⟩

/-- `x` was fed to feeder node `f`. -/
def given (s : Net α) (f : Nat) (x : ErrorOr α) : Net α :=
  { s.setQueue f (s.queue f ++ [x]) with loop := s.loop.armNext f }

/-- **Feeding.** -/
theorem Awake.feed (h : Awake s) {f : Nat} {p : Option Nat} (hf : s.role f = .feeder p) {x : ErrorOr α}
    (hx : x.isCritical = false) : s.world.feedResult f x = (s.given f x).world ∧ Awake (s.given f x) := by
  constructor
  · have hn : s.world.nodes f = some ⟨p, none, .adapt (s.queue f)⟩ := node_feeder hf
    have hput : (s.setQueue f (s.queue f ++ [x])).node f = some ⟨p, none, .adapt (s.queue f ++ [x])⟩ := by
      rw [node_feeder (show (s.setQueue f (s.queue f ++ [x])).role f = _ from hf), queue_setQueue_self]
    simp only [World.feedResult, World.setBody_eq hn, StorageBody.push, put_world hput]
    rfl
  · have hne : ∀ c l p', s.role f ≠ .buffer c l p' := by
      intro c l p' hb
      rw [hf] at hb
      cases hb
    have hw : Wired (s.setQueue f (s.queue f ++ [x])) := by
      refine h.toWired.setQueue (fun c l p' hb => absurd hb (hne c l p')) (fun c hs => ?_)
        (Holds.role (Or.inl ⟨p, hf⟩)) fun y hy => ?_
      · rw [hf] at hs
        cases hs
      · rcases List.mem_append.mp hy with hy | hy
        · exact h.calm f y hy
        · rw [List.mem_singleton.mp hy]
          exact hx
    have hawake := h.setQueue hw fun _ => List.append_ne_nil_of_right_ne_nil _ (List.cons_ne_nil _ _)
    refine ⟨⟨hw.fresh, hw.feeder, hw.buffer, hw.slot, hw.slots, hw.merger, hw.outlet, hw.sink, hw.empty, hw.calm⟩,
      h.loop.armNext f, fun j hj => ?_⟩
    rcases (h.loop.isArmed_armNext f j).mp hj with rfl | hj
    · refine loaded_feeder (p := p) hf ?_
      change (s.setQueue j (s.queue j ++ [x])).queue j ≠ []
      rw [queue_setQueue_self]
      exact List.append_ne_nil_of_right_ne_nil _ (List.cons_ne_nil _ _)
    · exact hawake.loaded j hj

theorem Wired.path_feeder (h : Wired s) {f : Nat} {p : Option Nat} (hf : s.role f = .feeder p) :
    ∃ js, s.path f = js ++ [f] := by
  rcases h.path_cases f with hpath | ⟨-, hpath⟩ | ⟨p', l, -, -, hpath⟩ | ⟨a, -, -, hpath⟩ | ⟨a, p', l, -, -, -, hpath⟩
  · cases p with
    | none =>
      rw [path_loose hf] at hpath
      cases hpath
    | some p =>
      unfold path at hpath
      rw [hf] at hpath
      dsimp only at hpath
      split at hpath
      · cases hpath
      · cases hpath
  · exact ⟨[], hpath⟩
  · exact ⟨[p'], hpath⟩
  · exact ⟨[a], hpath⟩
  · exact ⟨[a, p'], hpath⟩

theorem Logged.feed {fed : Nat → List (ErrorOr α)} (h : Logged s fed) (hw : Wired s) {f : Nat} {p : Option Nat}
    (hf : s.role f = .feeder p) (x : ErrorOr α) :
    Logged (s.given f x) (Function.update fed f (fed f ++ [x])) := by
  obtain ⟨js, hpath⟩ := hw.path_feeder hf
  have hmem : f ∈ s.path f := by
    rw [hpath]
    simp
  obtain ⟨log, hlog, hfed⟩ := h
  refine ⟨log, ?_, fun g => ?_⟩
  · have hpassed : (s.given f x).passed = s.passed := by
      refine passed_congr rfl fun o ho => queue_setQueue ?_ _
      rintro rfl
      exact hw.outlet_path ho o hmem
    rw [hpassed]
    exact hlog
  · by_cases hg : g = f
    · subst hg
      have hjs : g ∉ js := by
        have hnd := hw.nodup_path g
        rw [hpath] at hnd
        exact fun hin => (List.nodup_append.mp hnd).2.2 g hin g (List.mem_singleton_self g) rfl
      have hheld : (s.given g x).held g = s.held g ++ [x] := by
        calc (s.given g x).held g = (js ++ [g]).flatMap (s.setQueue g (s.queue g ++ [x])).queue := by
              rw [← hpath]
              rfl
          _ = js.flatMap s.queue ++ (s.queue g ++ [x]) := by
              rw [List.flatMap_append, List.flatMap_singleton, queue_setQueue_self]
              exact congrArg (· ++ _) (flatMap_update hjs)
          _ = s.held g ++ [x] := by
              rw [held, hpath, List.flatMap_append, List.flatMap_singleton, List.append_assoc]
      rw [hheld, Function.update_self, ← hfed g, List.append_assoc]
    · have hheld : (s.given f x).held g = s.held g := by
        refine held_setQueue (fun hin => hg ?_) _
        exact (hw.source_path hin).symm.trans (hw.source_path hmem)
      rw [hheld, Function.update_of_ne hg]
      exact hfed g

/-! ## Staying alert -/

/-- Whoever has something for a parent that could take it sometime is armed, and so is the merge node
in front of a sink when a slot is taken. -/
structure Alert (s : Net α) : Prop where
  feeder : ∀ f p, s.role f = .feeder (some p) → s.queue f ≠ [] → s.isArmed f
  buffer : ∀ b c l a, s.role b = .buffer c l (some a) → s.queue b ≠ [] → s.isArmed b
  slots : ∀ o, s.outlet = some o → s.role o = .sink → s.Taken → s.isArmed s.hub

section
variable {t : Net α}

theorem Alert.alloc (h : Alert s) {r : Role} (hr : ∀ p, r ≠ .feeder (some p)) (hr' : ∀ c l p, r ≠ .buffer c l (some p))
    (hrole : t.role = (s.alloc r).role) (hqueue : t.queue = s.queue) (harmed : ∀ j, s.isArmed j → t.isArmed j)
    (hslots : ∀ o, t.outlet = some o → t.role o = .sink → t.Taken → t.isArmed t.hub) : Alert t := by
  refine ⟨fun f p hf hq => ?_, fun b c l a hb hq => ?_, hslots⟩
  · rw [hrole] at hf
    rw [hqueue] at hq
    exact harmed f (h.feeder f p (role_of_alloc hf (hr p).symm) hq)
  · rw [hrole] at hb
    rw [hqueue] at hq
    exact harmed b (h.buffer b c l a (role_of_alloc hb (hr' c l a).symm) hq)

theorem Alert.newFeeder (h : Alert s) : Alert (s.alloc (.feeder none)) := by
  refine h.alloc (by simp) (by simp) rfl rfl (fun _ => id) fun o ho hsink htaken => ?_
  exact h.slots o ho (role_of_alloc hsink Role.noConfusion) htaken

theorem Alert.mergerAdded (h : Alert s) (hw : Wired s) (hm : s.merger = none) : Alert s.mergerAdded := by
  refine h.alloc (r := .merger) (by simp) (by simp) rfl rfl (fun _ => id) fun o ho => ?_
  rw [show s.mergerAdded.outlet = none from (hw.unmerged hm).2] at ho
  cases ho

theorem Alert.link (h : Alert s) (hw : Wired s) (hi : s.Loose i) {r : Role}
    (hr : r = .slot i ∨ ∃ l, r = .buffer i l none) (hrole : t.role = (s.link i r).role) (hqueue : t.queue = s.queue)
    (harmed : ∀ j, s.isArmed j → t.isArmed j) (hwoken : s.queue i ≠ [] → t.isArmed i) (houtlet : t.outlet = s.outlet)
    (hmerger : t.merger = s.merger) (hslots : t.slots = s.slots ∨ t.slots = s.slots ++ [s.size]) : Alert t := by
  refine ⟨fun f p hf hq => ?_, fun b c l a hb hq => ?_, fun o ho hsink htaken => ?_⟩
  · rw [hrole] at hf
    rw [hqueue] at hq
    rcases role_of_link hf with ⟨rfl, -⟩ | ⟨-, -, hrf⟩ | ⟨-, -, hf⟩
    · exact hwoken hq
    · rcases hr with rfl | ⟨l, rfl⟩ <;> cases hrf
    · exact harmed f (h.feeder f p hf hq)
  · rw [hrole] at hb
    rw [hqueue] at hq
    rcases role_of_link hb with ⟨rfl, -⟩ | ⟨-, -, hrb⟩ | ⟨-, -, hb⟩
    · exact hwoken hq
    · rcases hr with rfl | ⟨l, rfl⟩ <;> cases hrb
    · exact harmed b (h.buffer b c l a hb hq)
  · have hhub : t.hub = s.hub := by
      unfold hub
      rw [hmerger]
    have hsink' : s.role o = .sink := by
      rw [hrole] at hsink
      rcases role_of_link hsink with ⟨rfl, hro⟩ | ⟨-, -, hro⟩ | ⟨-, -, ho⟩
      · rcases hi.under s.size with ⟨hu, -⟩ | ⟨f, l, hu, -⟩
        · rw [hu] at hro
          cases hro
        · rw [hu] at hro
          cases hro
      · rcases hr with rfl | ⟨l, rfl⟩ <;> cases hro
      · exact ho
    rw [hhub]
    refine harmed _ (h.slots o (houtlet ▸ ho) hsink' ?_)
    obtain ⟨a, ha, hq⟩ := htaken
    rw [hqueue] at hq
    rcases hslots with hslots | hslots
    · exact ⟨a, hslots ▸ ha, hq⟩
    · rw [hslots] at ha
      rcases List.mem_append.mp ha with ha | ha
      · exact ⟨a, ha, hq⟩
      · rw [List.mem_singleton.mp ha] at hq
        exact absurd hw.empty_size hq

theorem Alert.slotAdded (h : Alert s) (ha : Awake s) (hi : s.Loose i) {loop : EventLoop Nat}
    (hwoken : s.Woken i (s.queue i ≠ []) loop) : Alert (s.slotAdded i loop) := by
  obtain ⟨harmed, hready⟩ := hwoken.isArmed ha.loop
  exact h.link ha.toWired hi (Or.inl rfl) rfl rfl harmed hready rfl rfl (Or.inr rfl)

theorem Alert.outletAdded (h : Alert s) (ha : Awake s) {m : Nat} (hm : s.merger = some m) {r : Role} (hr : Outlet m r)
    {loop : EventLoop Nat} {k : Nat} (hk : r = .sink → 0 < k) (hwoken : s.Woken m (s.Taken ∧ 0 < k) loop) :
    Alert (s.outletAdded r loop) := by
  obtain ⟨harmed, hready⟩ := hwoken.isArmed ha.loop
  have hhub : s.hub = m := by
    rw [hub, hm]
    rfl
  refine h.alloc (r := r) (fun p => ?_) (fun c l p => ?_) rfl rfl harmed fun o ho hsink htaken => ?_
  · rcases hr with rfl | ⟨l, -, rfl⟩
    · exact Role.noConfusion
    · exact Role.noConfusion
  · rcases hr with rfl | ⟨l', -, rfl⟩
    · exact Role.noConfusion
    · simp
  · obtain rfl := Option.some.inj ho
    have hr' : r = .sink := (role_alloc r).symm.trans hsink
    change loop.isArmed s.hub
    rw [hhub]
    exact hready ⟨htaken, hk hr'⟩

theorem Alert.given (h : Alert s) (ha : Awake s) {f : Nat} {p : Option Nat} (hf : s.role f = .feeder p) (x : ErrorOr α) :
    Alert (s.given f x) := by
  have harmed : ∀ j, s.isArmed j → (s.given f x).isArmed j := fun j hj => (ha.loop.isArmed_armNext f j).mpr (Or.inr hj)
  have hself : (s.given f x).isArmed f := (ha.loop.isArmed_armNext f f).mpr (Or.inl rfl)
  have hqueue : ∀ {j}, j ≠ f → (s.given f x).queue j = s.queue j := fun hj => queue_setQueue hj _
  refine ⟨fun g p' hg hq => ?_, fun b c l a hb hq => ?_, fun o ho hsink htaken => ?_⟩
  · by_cases hgf : g = f
    · rw [hgf]
      exact hself
    · rw [hqueue hgf] at hq
      exact harmed g (h.feeder g p' hg hq)
  · have hbf : b ≠ f := by
      rintro rfl
      rw [show s.role b = _ from hb] at hf
      cases hf
    rw [hqueue hbf] at hq
    exact harmed b (h.buffer b c l a hb hq)
  · refine harmed _ (h.slots o ho hsink ?_)
    obtain ⟨a, hmem, hq⟩ := htaken
    have haf : a ≠ f := by
      rintro rfl
      obtain ⟨c, hslot⟩ := ha.slots a hmem
      rw [hslot] at hf
      cases hf
    rw [hqueue haf] at hq
    exact ⟨a, hmem, hq⟩

theorem Alert.taken (h : Alert s) (hsame : Same s t) (hloop : t.loop = s.loop)
    (hqueue : ∀ j, t.queue j ≠ [] → s.queue j ≠ []) (hsink : ∀ o, s.outlet = some o → s.role o ≠ .sink) : Alert t := by
  have harmed : ∀ j, s.isArmed j → t.isArmed j := by
    intro j hj
    rw [isArmed, hloop]
    exact hj
  refine ⟨fun f p hf hq => ?_, fun b c l a hb hq => ?_, fun o ho hs => ?_⟩
  · rw [hsame.role] at hf
    exact harmed f (h.feeder f p hf (hqueue f hq))
  · rw [hsame.role] at hb
    exact harmed b (h.buffer b c l a hb (hqueue b hq))
  · rw [hsame.role] at hs
    rw [hsame.outlet] at ho
    exact absurd hs (hsink o ho)

end

inductive Grows : Net α → Net α → Prop where
  | refl (s : Net α) : Grows s s
  | feeder (s : Net α) : Grows s (s.alloc (.feeder none))
  | buffer {s : Net α} {i : Nat} (limit : Nat) : s.Loose i → s.queue i = [] →
      Grows s (s.bufferAdded i limit s.loop)
  | merger {s : Net α} : s.merger = none → Grows s s.mergerAdded
  | slot {s : Net α} {i : Nat} {loop : EventLoop Nat} : s.Loose i → s.Woken i (s.queue i ≠ []) loop →
      Grows s (s.slotAdded i loop)
  | outlet {s : Net α} {m k : Nat} {r : Role} {loop : EventLoop Nat} : s.merger = some m → Outlet m r →
      (r = .sink → 0 < k) → s.Woken m (s.Taken ∧ 0 < k) loop → Grows s (s.outletAdded r loop)
  | trans {s t u : Net α} : Grows s t → Awake t → Grows t u → Grows s u

theorem Grows.alert {t : Net α} (hg : Grows s t) (ha : Awake s) (h : Alert s) : Alert t := by
  induction hg with
  | refl s => exact h
  | feeder s => exact h.newFeeder
  | buffer limit hi hq =>
    exact h.link ha.toWired hi (Or.inr ⟨limit, rfl⟩) rfl rfl (fun _ => id) (fun hne => absurd hq hne) rfl rfl (Or.inl rfl)
  | merger hm => exact h.mergerAdded ha.toWired hm
  | slot hi hwoken => exact h.slotAdded ha hi hwoken
  | outlet hm hr hk hwoken => exact h.outletAdded ha hm hr hk hwoken
  | trans _ ha' _ ih₁ ih₂ => exact ih₂ ha' (ih₁ ha h)

/-! ## Taking -/

/-- What taking does: nothing, or it empties a slot of the bare merge node, or it takes from the buffer behind. -/
inductive Takes (s : Net α) : Net α → Prop where
  | nothing : Takes s s
  | slot (m a k : Nat) (x : ErrorOr α) : s.role m = .merger → s.outlet = none → a ∈ s.slots → s.queue a = [x] →
      Takes s { s.unslot a k with delivered := s.delivered ++ [x] }
  | buffer (o m l : Nat) (x : ErrorOr α) (xs : List (ErrorOr α)) : s.outlet = some o → s.role o = .buffer m l none →
      s.queue o = x :: xs → Takes s { s.setQueue o xs with delivered := s.delivered ++ [x] }

theorem Takes.alert {t : Net α} (ht : Takes s t) (h : Alert s) : Alert t := by
  cases ht with
  | nothing => exact h
  | slot m a k x hm ho ha hqa =>
    refine h.taken ⟨rfl, rfl, rfl, rfl⟩ rfl (fun j hq => ?_) fun o ho' => ?_
    · by_cases hj : j = a
      · rw [hj, hqa]
        exact List.cons_ne_nil _ _
      · rwa [show ({ s.unslot a k with delivered := s.delivered ++ [x] } : Net α).queue j = s.queue j from
          queue_setQueue hj []] at hq
    · rw [ho] at ho'
      cases ho'
  | buffer o m l x xs ho hrole hq =>
    refine h.taken ⟨rfl, rfl, rfl, rfl⟩ rfl (fun j hj => ?_) fun o' ho' => ?_
    · by_cases hjo : j = o
      · rw [hjo, hq]
        exact List.cons_ne_nil _ _
      · rwa [show ({ s.setQueue o xs with delivered := s.delivered ++ [x] } : Net α).queue j = s.queue j from
          queue_setQueue hjo xs] at hj
    · obtain rfl := Option.some.inj (ho.symm.trans ho')
      rw [hrole]
      exact Role.noConfusion

/-- **Taking** from the bare merge node. -/
theorem Awake.take_merger (h : Awake s) {m : Nat} (hm : s.role m = .merger) (ho : s.outlet = none) :
    ∃ x t, Conveyor.take ⟨.storage m, m⟩ s.world = some (x, t.world) ∧ Awake t ∧ Same s t ∧
      (∀ fed, Logged s fed → Logged t fed) ∧ Takes s t := by
  obtain ⟨k, hk, hpos⟩ := h.toWired.queued_merger hm
  by_cases htaken : s.Taken
  · obtain ⟨a₀, ha₀, hq₀⟩ := htaken
    obtain ⟨a, x, c, ha, hqa, hget⟩ := h.toWired.getResult_merger hm ha₀ hq₀
    have h0 : 0 < k := hpos.mpr ⟨a₀, ha₀, hq₀⟩
    refine ⟨x, { s.unslot a c with delivered := s.delivered ++ [x] }, ?_, (h.unslot c ha).deliver x, ⟨rfl, rfl, rfl, rfl⟩,
      fun fed hlog => ?_, .slot m a c x hm ho ha hqa⟩
    · simp only [Conveyor.take, hk, hget, if_pos h0, Option.bind_eq_bind, Option.bind_some, Option.pure_def]
      rfl
    · obtain ⟨f, hf, hrest⟩ := h.toWired.held_unslot (k := c) ha hqa
      refine hlog.leave ?_ hf hrest
      simp only [passed, Net.unslot, Net.setQueue, ho, List.append_nil]
  · have h0 : ¬ 0 < k := fun h0 => htaken (hpos.mp h0)
    refine ⟨.error (recoverableError "Conveyor buffer has no elements"), s, ?_, h, ⟨rfl, rfl, rfl, rfl⟩, fun _ => id, .nothing⟩
    simp only [Conveyor.take, hk, if_neg h0, Option.bind_eq_bind, Option.bind_some, Option.pure_def]

theorem Awake.take_buffer (h : Awake s) {o m l : Nat} (ho : s.outlet = some o) (hm : s.merger = some m)
    (hrole : s.role o = .buffer m l none) :
    ∃ x t, Conveyor.take ⟨.storage o, o⟩ s.world = some (x, t.world) ∧ Awake t ∧ Same s t ∧
      (∀ fed, Logged s fed → Logged t fed) ∧ Takes s t := by
  have hholds : s.Holds o := Or.inr ⟨m, l, none, hrole⟩
  have hk := queued_holds hholds
  cases hq : s.queue o with
  | nil =>
    refine ⟨.error (recoverableError "Conveyor buffer has no elements"), s, ?_, h, ⟨rfl, rfl, rfl, rfl⟩, fun _ => id, .nothing⟩
    rw [hq] at hk
    simp only [Conveyor.take, hk, List.length_nil, lt_irrefl, if_false, Option.bind_eq_bind, Option.bind_some,
      Option.pure_def]
  | cons x xs =>
    rw [hq] at hk
    have hw : Wired (s.setQueue o xs) := h.toWired.shrink (by rw [hq]; exact List.sublist_cons_self x xs) hholds.role
    have hawake : Awake (s.setQueue o xs) := by
      refine ⟨hw, h.loop, fun j hj => ?_⟩
      by_cases hjo : j = o
      · subst hjo
        unfold Loaded
        rw [show (s.setQueue j xs).role j = _ from hrole]
        exact Or.inl hm
      · exact (loaded_setQueue hjo xs).mpr (h.loaded j hj)
    refine ⟨x, { s.setQueue o xs with delivered := s.delivered ++ [x] }, ?_, hawake.deliver x, ⟨rfl, rfl, rfl, rfl⟩,
      fun fed hlog => ?_, .buffer o m l x xs ho hrole hq⟩
    · simp only [Conveyor.take, hk, getResult_holds hholds hq, List.length_cons, Nat.zero_lt_succ, if_true,
        Option.bind_eq_bind, Option.bind_some, Option.pure_def]
      rfl
    · refine hlog.same ?_ fun f => held_setQueue (h.toWired.outlet_path ho f) xs
      simp only [passed, Net.setQueue, ho, hq, Function.update_self, List.append_assoc]
      rfl

end

end Net

end Forstio
