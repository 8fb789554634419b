import Forstio.MergeDrain

/-!
# Calls that keep the assertions of a merge

A source re-arms itself without asking whether its slot is free, and taking from
the bare merge node does not disarm it. So it is up to the calls: nothing is fed
behind a slot that is taken, nothing is fired that would arm a node behind such a
slot, and an armed merge node is not asked for its last result.
`Steady` says what they keep: behind a slot that is taken nobody is armed, and an
armed merge node has something to give.
-/

namespace Forstio

namespace World

variable {α : Type}

/-- Node `i` hangs on an appendage that has its value. -/
def behindTaken (w : World α) (i : Nat) : Bool :=
  ((w.nodes i).bind (·.parent)).any fun p => (w.nodes p).any (·.body.occupied)

/-- Node `i` is a feeder's node. Fired, it arms itself again although it hangs on an appendage, or
a buffer that hangs on one which has its value. -/
def crowds (w : World α) (i : Nat) : Bool :=
  match w.nodes i with
  | some ⟨some p, _, .adapt storage⟩ =>
    match w.nodes p with
    | some ⟨_, _, .appendage _ _ _⟩ => decide (1 < storage.length)
    | some ⟨_, _, .queueBuffer _ stored maxStore⟩ => decide (stored.length < maxStore) && w.behindTaken p
    | _ => false
  | _ => false

end World

namespace Net

variable {α : Type}

/-- Nobody behind a slot that is taken is armed, and an armed merge node finds a slot that is. -/
structure Steady (s : Net α) : Prop where
  distinct : s.slots.Nodup
  behind : ∀ a c, s.role a = .slot c → s.isArmed c → s.queue a = []
  hub : ∀ m, s.merger = some m → s.isArmed m → s.Taken

section
variable {s t : Net α} {i : Nat}

theorem Wired.slot_child (h : Wired s) {a c : Nat} (ha : s.role a = .slot c) {r : Role} (hc : s.role c = r) :
    r = .feeder (some a) ∨ ∃ f l, r = .buffer f l (some a) := by
  obtain ⟨-, -, -, hchild⟩ := h.slot a c ha
  rw [hc] at hchild
  exact hchild

theorem Wired.merger_ne (h : Wired s) {m : Nat} (hm : s.merger = some m) (hi : s.Holds i) : m ≠ i := by
  rintro rfl
  exact hi.role (Or.inl ((h.merger m).mpr hm))

/-! ## The head of the queue is not blocked -/

theorem Steady.clear (h : Steady s) (ha : Awake s) : s.world.Clear := by
  intro i hhead
  have hfires : s.loop.turn.1 = some i := by rw [EventLoop.turn_eq (show s.loop.head = some i from hhead)]
  have harmed : s.isArmed i := (ha.loop.turn hfires).1
  have hloaded := ha.loaded i harmed
  have hfree : ∀ {p}, s.role p = .slot i → s.world.blocked i = (s.world.nodes p).any (·.body.occupied) →
      s.world.blocked i = false := by
    intro p hp hblocked
    rw [← Bool.not_eq_true, hblocked, occupied_slot hp, not_not]
    exact h.behind p i hp harmed
  unfold Loaded at hloaded
  cases hrole : s.role i with
  | feeder p =>
    cases p with
    | none => exact blocked_loose (Or.inl hrole)
    | some p =>
      rcases ha.feeder i p hrole with ⟨l, a, hp⟩ | hp
      · rw [blocked_feeder hrole, show s.world.nodes p = _ from node_buffer hp]
        rfl
      · exact hfree hp (blocked_feeder hrole)
  | buffer c l p =>
    cases p with
    | none => exact blocked_loose (Or.inr ⟨c, l, hrole⟩)
    | some p =>
      obtain ⟨-, -, ⟨-, hslot⟩ | ⟨-, -, hnone⟩⟩ := ha.buffer i c l (some p) hrole
      · exact hfree (hslot p rfl) (blocked_buffer hrole)
      · cases hnone
  | merger =>
    rw [← Bool.not_eq_true, ha.toWired.blocked_merger hrole, not_not]
    exact h.hub i ((ha.merger i).mp hrole) harmed
  | _ =>
    rw [hrole] at hloaded
    exact hloaded.elim

/-! ## Building, feeding and taking -/

theorem Steady.grown (h : Steady s) (hw : Wired s) (hdistinct : t.slots.Nodup) (hslots : ∀ a ∈ s.slots, a ∈ t.slots)
    (hqueue : t.queue = s.queue) (hrole : ∀ a c, t.role a = .slot c → s.role a = .slot c ∨ s.queue a = [])
    (harmed : ∀ j, t.isArmed j → s.isArmed j ∨ s.Loose j ∨ s.merger = some j ∧ s.Taken)
    (hmerger : ∀ m, t.merger = some m → s.merger = some m ∨ ¬ t.isArmed m) : Steady t := by
  refine ⟨hdistinct, fun a c ha hc => ?_, fun m hm hc => ?_⟩
  · rw [hqueue]
    rcases hrole a c ha with ha | hempty
    · rcases harmed c hc with hc | hloose | ⟨hm, -⟩
      · exact h.behind a c ha hc
      · rcases hloose with hc | ⟨f, l, hc, -⟩
        · rcases hw.slot_child ha hc with hc | ⟨f, l, hc⟩ <;> cases hc
        · rcases hw.slot_child ha hc with hc | ⟨f, l, hc⟩ <;> cases hc
      · rcases hw.slot_child ha ((hw.merger c).mpr hm) with hc | ⟨f, l, hc⟩ <;> cases hc
    · exact hempty
  · have htaken : s.Taken := by
      rcases hmerger m hm with hm | hidle
      · rcases harmed m hc with hc | hloose | ⟨-, htaken⟩
        · exact h.hub m hm hc
        · exact absurd rfl (hw.merger_ne hm hloose.holds)
        · exact htaken
      · exact absurd hc hidle
    obtain ⟨a, ha, hq⟩ := htaken
    exact ⟨a, hslots a ha, by rwa [hqueue]⟩

theorem Woken.was {ready : Prop} {loop : EventLoop Nat} (hw : s.Woken i ready loop) (ha : Awake s) {j : Nat}
    (hj : loop.isArmed j) : s.isArmed j ∨ j = i ∧ ready := by
  rcases hw with ⟨hready, rfl⟩ | ⟨-, rfl⟩
  · rcases (ha.loop.isArmed_armLater i j).mp hj with rfl | hj
    · exact Or.inr ⟨rfl, hready⟩
    · exact Or.inl hj
  · exact Or.inl hj

/-- **Building** keeps a network steady. -/
theorem Grows.steady (hg : Grows s t) (ha : Awake s) (h : Steady s) : Steady t := by
  induction hg with
  | refl s => exact h
  | feeder s =>
    refine h.grown ha.toWired h.distinct (fun a => id) rfl (fun a c hrole => Or.inl ?_) (fun j => Or.inl) fun m => Or.inl
    exact role_of_alloc hrole Role.noConfusion
  | @buffer s i limit hi hq =>
    refine h.grown ha.toWired h.distinct (fun a => id) rfl (fun a c hrole => Or.inl ?_) (fun j => Or.inl) fun m => Or.inl
    exact hi.was hrole Role.noConfusion (fun p => Role.noConfusion) fun f l p => Role.noConfusion
  | @merger s hm =>
    refine h.grown ha.toWired h.distinct (fun a => id) rfl (fun a c hrole => Or.inl ?_) (fun j => Or.inl)
      fun m hsize => Or.inr fun harmed => ?_
    · exact role_of_alloc (r := .merger) hrole Role.noConfusion
    · obtain rfl := Option.some.inj hsize
      have hloaded := ha.loaded s.size harmed
      unfold Loaded at hloaded
      rw [ha.fresh _ (Nat.le_refl _)] at hloaded
      exact hloaded
  | @slot s i loop hi hwoken =>
    have hnew : s.size ∉ s.slots := by
      intro hmem
      obtain ⟨c, hslot⟩ := ha.slots _ hmem
      rw [ha.fresh _ (Nat.le_refl _)] at hslot
      cases hslot
    refine h.grown ha.toWired (List.nodup_append.mpr ⟨h.distinct, List.nodup_singleton _, ?_⟩)
      (fun a hmem => List.mem_append_left _ hmem) rfl (fun a c hrole => ?_) (fun j hj => ?_) fun m => Or.inl
    · intro a hmem b hb
      rw [List.mem_singleton.mp hb]
      rintro rfl
      exact hnew hmem
    · by_cases has : a = s.size
      · rw [has]
        exact Or.inr ha.toWired.empty_size
      · rcases role_of_link hrole with ⟨-, hu⟩ | ⟨-, hs, -⟩ | ⟨-, -, hrole⟩
        · rcases hi.under s.size with ⟨hu', -⟩ | ⟨f, l, hu', -⟩
          · rw [hu'] at hu
            cases hu
          · rw [hu'] at hu
            cases hu
        · exact absurd hs has
        · exact Or.inl hrole
    · rcases hwoken.was ha hj with hj | ⟨rfl, -⟩
      · exact Or.inl hj
      · exact Or.inr (Or.inl hi)
  | @outlet s m k r loop hm hr hk hwoken =>
    refine h.grown ha.toWired h.distinct (fun a => id) rfl (fun a c hrole => Or.inl ?_) (fun j hj => ?_) fun m => Or.inl
    · refine role_of_alloc (r := r) hrole ?_
      rcases hr with rfl | ⟨l, -, rfl⟩
      · exact Role.noConfusion
      · exact Role.noConfusion
    · rcases hwoken.was ha hj with hj | ⟨rfl, htaken, -⟩
      · exact Or.inl hj
      · exact Or.inr (Or.inr ⟨hm, htaken⟩)
  | trans _ ha' _ ih₁ ih₂ => exact ih₂ ha' (ih₁ ha h)

theorem Steady.same (h : Steady s) (hsame : Same s t) (hbehind : ∀ a c, s.role a = .slot c → t.isArmed c → t.queue a = [])
    (hhub : ∀ m, s.merger = some m → t.isArmed m → t.Taken) : Steady t := by
  refine ⟨by rw [hsame.slots]; exact h.distinct, fun a c ha => ?_, fun m hm => ?_⟩
  · rw [hsame.role] at ha
    exact hbehind a c ha
  · rw [hsame.merger] at hm
    exact hhub m hm

theorem Holds.ne_slot (hi : s.Holds i) {a c : Nat} (ha : s.role a = .slot c) : a ≠ i := by
  rintro rfl
  rcases hi with ⟨p, hi⟩ | ⟨c', l, p, hi⟩
  · rw [ha] at hi
    cases hi
  · rw [ha] at hi
    cases hi

/-- **Feeding** keeps a network steady, unless it is behind a slot that is taken. -/
theorem Steady.given (h : Steady s) (ha : Awake s) {f : Nat} {p : Option Nat} (hf : s.role f = .feeder p)
    (hfree : ∀ a, s.role a = .slot f → s.queue a = []) (x : ErrorOr α) : Steady (s.given f x) := by
  have hqueue : ∀ a c, s.role a = .slot c → (s.given f x).queue a = s.queue a := fun a c hrole =>
    queue_setQueue (Holds.ne_slot (Or.inl ⟨p, hf⟩) hrole) _
  refine h.same ⟨rfl, rfl, rfl, rfl⟩ (fun a c hrole hc => ?_) fun m hm hc => ?_
  · rw [hqueue a c hrole]
    rcases (ha.loop.isArmed_armNext f c).mp hc with rfl | hc
    · exact hfree a hrole
    · exact h.behind a c hrole hc
  · rcases (ha.loop.isArmed_armNext f m).mp hc with rfl | hc
    · exact absurd rfl (ha.toWired.merger_ne hm (Or.inl ⟨p, hf⟩))
    · obtain ⟨a, hmem, hq⟩ := h.hub m hm hc
      obtain ⟨c, hslot⟩ := ha.slots a hmem
      exact ⟨a, hmem, by rwa [hqueue a c hslot]⟩

/-- **Taking** keeps a network steady, unless it empties the slots of a merge node that is armed. -/
theorem Takes.steady (ht : Takes s t) (ha : Awake s) (h : Steady s)
    (hother : ∀ m a, s.merger = some m → s.isArmed m → s.outlet = none → ∃ b ∈ s.slots, b ≠ a ∧ s.queue b ≠ []) :
    Steady t := by
  cases ht with
  | nothing => exact h
  | slot m a k x hm ho hmem hqa =>
    refine h.same ⟨rfl, rfl, rfl, rfl⟩ (fun b c hrole hc => ?_) fun m' hm' hc => ?_
    · by_cases hba : b = a
      · rw [hba]
        exact queue_setQueue_self []
      · exact (queue_setQueue hba []).trans (h.behind b c hrole hc)
    · obtain ⟨b, hb, hba, hq⟩ := hother m' a hm' hc ho
      exact ⟨b, hb, fun hnil => hq ((queue_setQueue hba []).symm.trans hnil)⟩
  | buffer o m l x xs ho hrole hq =>
    have hqueue : ∀ a c, s.role a = .slot c → (s.setQueue o xs).queue a = s.queue a := fun a c ha' =>
      queue_setQueue (Holds.ne_slot (Or.inr ⟨m, l, none, hrole⟩) ha') xs
    refine h.same ⟨rfl, rfl, rfl, rfl⟩ (fun a c hslot hc => ?_) fun m' hm' hc => ?_
    · exact (hqueue a c hslot).trans (h.behind a c hslot hc)
    · obtain ⟨a, hmem, hqa⟩ := h.hub m' hm' hc
      obtain ⟨c, hslot⟩ := ha.slots a hmem
      exact ⟨a, hmem, fun hnil => hqa ((hqueue a c hslot).symm.trans hnil)⟩

/-! ## Firing -/

def Roomy (s : Net α) (i : Nat) : Prop :=
  ∀ p, s.role i = .feeder (some p) → (s.role p = .slot i → (s.queue i).length ≤ 1) ∧
    ∀ l a, s.role p = .buffer i l (some a) → (s.queue p).length < l → s.queue a = []

theorem Steady.offered (h : Steady s) (ha : Awake s) (hi : s.Holds i) (hu : s.isArmed i = false) {p : Nat}
    (hp : s.role p = .slot i) {x : ErrorOr α} {xs : List (ErrorOr α)} (hempty : s.queue p = []) :
    Steady ((s.hop i p x xs).armLater s.hub) := by
  have harmed : ∀ j, ((s.hop i p x xs).armLater s.hub).isArmed j → j = s.hub ∨ s.isArmed j := fun j hj =>
    (ha.loop.isArmed_armLater s.hub j).mp hj
  have hslot := (ha.slot p i hp).1
  refine h.same ⟨rfl, rfl, rfl, rfl⟩ (fun a c hrole hc => ?_) fun m hm hc => ⟨p, hslot, ?_⟩
  · rcases harmed c hc with rfl | hwas
    · rcases ha.toWired.slot_child hrole (ha.toWired.merger_hub hrole) with hchild | ⟨f, l, hchild⟩ <;> cases hchild
    · by_cases hap : a = p
      · subst hap
        rw [hp] at hrole
        cases hrole
        rw [hu] at hwas
        cases hwas
      · exact (queue_hop_ne (hi.ne_slot hrole) hap x xs).trans (h.behind a c hrole hwas)
  · change (s.hop i p x xs).queue p ≠ []
    rw [hop, queue_setQueue_self]
    exact List.append_ne_nil_of_right_ne_nil _ (List.cons_ne_nil _ _)

theorem Steady.armLater (h : Steady s) (hl : s.loop.Sound) {j : Nat} (hbehind : ∀ a, s.role a = .slot j → s.queue a = [])
    (hmerger : s.merger = some j → s.Taken) : Steady (s.armLater j) := by
  refine h.same ⟨rfl, rfl, rfl, rfl⟩ (fun a c hrole hc => ?_) fun m hm hc => ?_
  · rcases (hl.isArmed_armLater j c).mp hc with rfl | hc
    · exact hbehind a hrole
    · exact h.behind a c hrole hc
  · rcases (hl.isArmed_armLater j m).mp hc with rfl | hc
    · exact hmerger hm
    · exact h.hub m hm hc

theorem Steady.hop (h : Steady s) (ha : Awake s) (hi : s.Holds i) {p c l : Nat} {a : Option Nat}
    (hp : s.role p = .buffer c l a) (x : ErrorOr α) (xs : List (ErrorOr α)) : Steady (s.hop i p x xs) := by
  have hqueue : ∀ b c, s.role b = .slot c → (s.hop i p x xs).queue b = s.queue b := fun b c hb =>
    queue_hop_ne (hi.ne_slot hb) (Holds.ne_slot (Or.inr ⟨_, _, _, hp⟩) hb) x xs
  refine h.same ⟨rfl, rfl, rfl, rfl⟩ (fun b c hb hc => (hqueue b c hb).trans (h.behind b c hb hc)) fun m hm hc => ?_
  obtain ⟨b, hmem, hq⟩ := h.hub m hm hc
  obtain ⟨c, hb⟩ := ha.slots b hmem
  exact ⟨b, hmem, fun hnil => hq ((hqueue b c hb).symm.trans hnil)⟩

theorem Steady.unslotted (h : Steady s) (hw : Wired s) (hi : s.role i = .merger) (hu : s.isArmed i = false) {a : Nat}
    (hsame : Same s t) (hloop : t.loop = s.loop) (hempty : t.queue a = [])
    (hqueue : ∀ b ∈ s.slots, b ≠ a → t.queue b = s.queue b) : Steady t := by
  have harmed : ∀ j, t.isArmed j → s.isArmed j := by
    intro j hj
    rw [isArmed, hloop] at hj
    exact hj
  refine h.same hsame (fun b c hb hc => ?_) fun m hm hc => ?_
  · by_cases hba : b = a
    · rw [hba]
      exact hempty
    · exact (hqueue b (hw.slot b c hb).1 hba).trans (h.behind b c hb (harmed c hc))
  · obtain rfl := Option.some.inj (hm.symm.trans ((hw.merger i).mp hi))
    have hwas := harmed m hc
    rw [hu] at hwas
    cases hwas

theorem Wired.no_slot (h : Wired s) {p c l : Nat} {b : Option Nat} (hi : s.role i = .feeder (some p))
    (hp : s.role p = .buffer c l b) (a : Nat) : s.role a ≠ .slot i := by
  intro ha
  rcases h.slot_child ha hi with hchild | ⟨f, l', hchild⟩
  · cases hchild
    rw [ha] at hp
    cases hp
  · cases hchild

theorem Wired.merger_no_slot (h : Wired s) (hi : s.role i = .merger) (a : Nat) : s.role a ≠ .slot i := by
  intro ha
  rcases h.slot_child ha hi with hchild | ⟨f, l, hchild⟩ <;> cases hchild

theorem Steady.stored (h : Steady s) (ha : Awake s) (hroomy : s.Roomy i) {p l : Nat} {a : Option Nat}
    {x : ErrorOr α} {xs : List (ErrorOr α)} (hi : s.role i = .feeder (some p)) (hp : s.role p = .buffer i l a)
    (hroom : (s.queue p).length < l) (ht : t = (s.hop i p x xs).armLater p) : Steady (if xs = [] then t else t.armLater i) := by
  have hw := ha.toWired
  have hholds : s.Holds i := Or.inl ⟨_, hi⟩
  have hsteady : Steady t := by
    rw [ht]
    refine (h.hop ha hholds hp x xs).armLater ha.loop (fun b hb => ?_)
      fun hm => absurd rfl (hw.merger_ne hm (Or.inr ⟨_, _, _, hp⟩))
    have hfree : s.queue b = [] := by
      rcases hw.slot_child hb hp with hchild | ⟨f, l', hchild⟩
      · cases hchild
      · cases hchild
        exact (hroomy p hi).2 l b hp hroom
    exact (queue_hop_ne (hholds.ne_slot hb) (Holds.ne_slot (Or.inr ⟨_, _, _, hp⟩) hb) x xs).trans hfree
  by_cases hxs : xs = []
  · rwa [if_pos hxs]
  · rw [if_neg hxs]
    have hrole : t.role = s.role := by rw [ht]; rfl
    have hmerger : t.merger = s.merger := by rw [ht]; rfl
    refine hsteady.armLater (by rw [ht]; exact ha.loop.armLater p) (fun b hb => ?_) fun hm => ?_
    · rw [hrole] at hb
      exact absurd hb (hw.no_slot hi hp b)
    · rw [hmerger] at hm
      exact absurd rfl (hw.merger_ne hm hholds)

section
variable (h : Steady s) (ha : Awake s) (hu : s.isArmed i = false)
include h ha hu

theorem Steady.delivered {a k : Nat} {x : ErrorOr α} {u : Net α} (hi : s.role i = .merger)
    (ht : t = { s.unslot a k with delivered := s.delivered ++ [x] })
    (hagain : t.Taken ∧ u = t.armLater i ∨ ¬ t.Taken ∧ u = t) : Steady u := by
  have hw := ha.toWired
  have hsteady : Steady t := by
    refine h.unslotted hw hi hu (a := a) (by rw [ht]; exact ⟨rfl, rfl, rfl, rfl⟩) (by rw [ht]; rfl) ?_ fun b _ hba => ?_
    · rw [ht]
      exact queue_setQueue_self []
    · rw [ht]
      exact queue_setQueue hba []
  rcases hagain with ⟨htaken, rfl⟩ | ⟨-, rfl⟩
  · refine hsteady.armLater (by rw [ht]; exact ha.loop) (fun b hb => ?_) fun _ => htaken
    rw [ht] at hb
    exact absurd hb (hw.merger_no_slot hi b)
  · exact hsteady

theorem Steady.passed {o l a k : Nat} {x : ErrorOr α} {u : Net α} (hi : s.role i = .merger)
    (hbuffer : s.role o = .buffer i l none) (hmem : a ∈ s.slots)
    (ht : t = ((s.unslot a k).setQueue o (s.queue o ++ [x])).armLater o) (hagain : t.Taken ∧ u = t.armLater i ∨ u = t) :
    Steady u := by
  have hw := ha.toWired
  have hoa : ∀ b ∈ s.slots, b ≠ o := fun b hb => (hw.buffer_ne_slot hb hbuffer).symm
  have hgiven : Steady ((s.unslot a k).setQueue o (s.queue o ++ [x])) := by
    refine h.unslotted hw hi hu (a := a) ⟨rfl, rfl, rfl, rfl⟩ rfl ?_ fun b hb hba => ?_
    · exact (queue_setQueue (hoa a hmem) _).trans (queue_setQueue_self [])
    · exact (queue_setQueue (hoa b hb) _).trans (queue_setQueue hba [])
  have hsteady : Steady t := by
    rw [ht]
    refine hgiven.armLater ha.loop (fun b hb => ?_) fun hm => absurd rfl (hw.merger_ne hm (Or.inr ⟨_, _, _, hbuffer⟩))
    rcases hw.slot_child hb hbuffer with hchild | ⟨f, l', hchild⟩ <;> cases hchild
  rcases hagain with ⟨htaken, rfl⟩ | rfl
  · refine hsteady.armLater (by rw [ht]; exact ha.loop.armLater o) (fun b hb => ?_) fun _ => htaken
    rw [ht] at hb
    exact absurd hb (hw.merger_no_slot hi b)
  · exact hsteady

/-- **Firing** keeps a network steady, if it crowds nobody. -/
theorem Fires.steady (hf : Fires s i t) (hroomy : s.Roomy i) : Steady t := by
  have hw := ha.toWired
  cases hf with
  | idle => exact h
  | retry p l a hi hp =>
    refine h.armLater ha.loop (fun b hb => absurd hb (hw.no_slot hi hp b)) fun hm => ?_
    exact absurd rfl (hw.merger_ne hm (Or.inl ⟨_, hi⟩))
  | store p l a x xs t hi hp hq hroom ht => exact h.stored ha hroomy hi hp hroom ht
  | offer p x xs t hi hp hq hempty ht =>
    have hone := (hroomy p hi).1 hp
    rw [hq, List.length_cons] at hone
    rw [if_pos (List.length_eq_zero_iff.mp (by omega)), ht]
    exact h.offered ha (Or.inl ⟨_, hi⟩) hu hp hempty
  | release p c l x xs hi hp hq hempty => exact h.offered ha (Or.inr ⟨_, _, _, hi⟩) hu hp hempty
  | deliver o a k x t u hi ho hsink hmem hqa ht hagain => exact h.delivered ha hu hi ht hagain
  | pass o l a k x t u hi ho hbuffer hmem hqa hroom ht hagain => exact h.passed ha hu hi hbuffer hmem ht hagain

end

/-! ## What the calls have to watch -/

theorem Wired.slotsQueued_one (h : Wired s) {a : Nat} (hqa : s.queue a ≠ []) : ∀ {as : List Nat},
    (∀ b ∈ as, b ∈ s.slots) → as.Nodup → a ∈ as → (∀ b ∈ as, b ≠ a → s.queue b = []) →
      s.world.slotsQueued as = some 1
  | [], _, _, ha, _ => nomatch ha
  | b :: as, has, hnodup, ha, halone => by
    obtain ⟨hb, hnodup⟩ := List.nodup_cons.mp hnodup
    obtain ⟨c, hslot⟩ := h.slots b (has b List.mem_cons_self)
    have hn : s.world.nodes b = some ⟨none, some c, .appendage (.storage c) s.hub (s.queue b).head?⟩ := node_slot hslot
    have hrest : ∀ d ∈ as, d ∈ s.slots := fun d hd => has d (List.mem_cons_of_mem b hd)
    by_cases hba : b = a
    · subst hba
      obtain ⟨k, hk, hpos⟩ := slotsQueued_world h as hrest
      have hzero : k = 0 := by
        refine Nat.eq_zero_of_not_pos fun hlt => ?_
        obtain ⟨d, hd, hq⟩ := hpos.mp hlt
        exact hq (halone d (List.mem_cons_of_mem b hd) fun hdb => hb (hdb ▸ hd))
      obtain ⟨x, xs, hq⟩ := List.exists_cons_of_ne_nil hqa
      simp only [World.slotsQueued, StorageBody.queued, hn, hk, hzero, hq, List.head?_cons, Option.isSome_some, if_true,
        Option.bind_eq_bind, Option.bind_some, Option.pure_def]
    · have hmem : a ∈ as := List.mem_of_ne_of_mem (Ne.symm hba) ha
      have hone := h.slotsQueued_one hqa hrest hnodup hmem fun d hd => halone d (List.mem_cons_of_mem b hd)
      have hempty : s.queue b = [] := halone b List.mem_cons_self hba
      simp [World.slotsQueued, StorageBody.queued, hn, hone, hempty]

theorem Wired.other_taken (h : Wired s) (hnodup : s.slots.Nodup) (hi : s.role i = .merger) (htaken : s.Taken)
    (hqueued : s.world.queued i ≠ some 1) (a : Nat) : ∃ b ∈ s.slots, b ≠ a ∧ s.queue b ≠ [] := by
  by_contra hnone
  have halone : ∀ b ∈ s.slots, b ≠ a → s.queue b = [] := by
    intro b hb hba
    by_contra hq
    exact hnone ⟨b, hb, hba, hq⟩
  obtain ⟨b, hb, hq⟩ := htaken
  obtain rfl : b = a := by
    by_contra hba
    exact hq (halone b hb hba)
  refine hqueued ?_
  have hn : s.world.nodes i = some ⟨s.outlet, none, .merge s.slots s.cursor⟩ := node_merger hi
  simp only [World.queued, hn, h.slotsQueued_one hq (fun _ hd => hd) hnodup hb halone, Option.bind_eq_bind,
    Option.bind_some]

theorem behindTaken_slot {p a : Nat} (hi : (s.role i = .feeder (some a) ∨ ∃ c l, s.role i = .buffer c l (some a)))
    (ha : s.role a = .slot p) : s.world.behindTaken i = false ↔ s.queue a = [] := by
  have hparent : (s.world.nodes i).bind (·.parent) = some a := by
    rcases hi with hi | ⟨c, l, hi⟩
    · rw [show s.world.nodes i = _ from node_feeder hi]
      rfl
    · rw [show s.world.nodes i = _ from node_buffer hi]
      rfl
  rw [World.behindTaken, hparent, Option.any_some, ← Bool.not_eq_true, occupied_slot ha, not_not]

theorem Wired.roomy (h : Wired s) (hcrowds : s.world.crowds i = false) : s.Roomy i := by
  intro p hi
  have hn : s.world.nodes i = some ⟨some p, none, .adapt (s.queue i)⟩ := node_feeder hi
  unfold World.crowds at hcrowds
  simp only [hn] at hcrowds
  refine ⟨fun hp => ?_, fun l a hp hroom => ?_⟩
  · simp only [show s.world.nodes p = _ from node_slot hp] at hcrowds
    exact Nat.le_of_not_lt (of_decide_eq_false hcrowds)
  · simp only [show s.world.nodes p = _ from node_buffer hp] at hcrowds
    rw [decide_eq_true hroom, Bool.true_and] at hcrowds
    obtain ⟨-, -, ⟨-, hslot⟩ | ⟨-, -, hnone⟩⟩ := h.buffer p i l (some a) hp
    · exact (behindTaken_slot (Or.inr ⟨_, _, hp⟩) (hslot a rfl)).mp hcrowds
    · cases hnone

theorem Turns.steady (ht : Turns s t) (ha : Awake s) (h : Steady s)
    (hroomy : ∀ i, s.loop.head = some i → s.world.crowds i = false) : Steady t := by
  cases ht with
  | rest => exact h
  | fire i loop t hturn hi hf =>
    obtain ⟨hawake, hu, -⟩ := ha.extract hturn
    have hrest := (ha.loop.turn (show s.loop.turn.1 = some i by rw [hturn])).2.2
    rw [hturn] at hrest
    have hwas : Steady { s with loop := loop } := by
      refine ⟨h.distinct, fun a c ha hc => h.behind a c ha ((hrest c).mp hc).2, fun m hm hc => ?_⟩
      exact h.hub m hm ((hrest m).mp hc).2
    have hhead : s.loop.head = some i := EventLoop.head_of_turn hturn
    exact hf.steady hwas hawake hu (ha.toWired.roomy (hroomy i hhead))

end

end Net

namespace Merging

variable {α : Type} {s : Net α} {m : Merging α}

/-- Nothing is fed behind a slot that is taken, no turn fires a node that crowds, and no slot is
emptied of the last result while the bare merge node is armed. -/
def Cautious (m : Merging α) : Call α → Prop
  | .feed k _ => ∀ src, m.sources[k]? = some src → m.world.behindTaken src.feeder = false
  | .fail k _ _ => ∀ src, m.sources[k]? = some src → m.world.behindTaken src.feeder = false
  | .turn => ∀ i, m.world.loop.head = some i → m.world.crowds i = false
  | .take => ∀ merged, m.bare = some merged → m.world.isArmed merged.storage → m.world.queued merged.storage ≠ some 1
  | _ => True

instance (m : Merging α) : ∀ call : Call α, Decidable (m.Cautious call)
  | .feed k _ => decidable_of_iff (∀ src ∈ m.sources[k]?, m.world.behindTaken src.feeder = false) Iff.rfl
  | .fail k _ _ => decidable_of_iff (∀ src ∈ m.sources[k]?, m.world.behindTaken src.feeder = false) Iff.rfl
  | .turn => decidable_of_iff (∀ i ∈ m.world.loop.head, m.world.crowds i = false) Iff.rfl
  | .take => decidable_of_iff (∀ merged ∈ m.bare, m.world.isArmed merged.storage →
      m.world.queued merged.storage ≠ some 1) Iff.rfl
  | .source _ => isTrue trivial
  | .attach _ => isTrue trivial
  | .buffer _ => isTrue trivial
  | .sink => isTrue trivial

theorem steady_new : Net.Steady (Net.new : Net α) := by
  refine ⟨List.nodup_nil, fun a c ha => ?_, fun m hm => ?_⟩
  · cases (show (Net.new : Net α).role a = .free from rfl).symm.trans ha
  · cases hm

theorem Merged.unoccupied (h : Merged s m) {src : Source α} {p : Option Nat} (hf : s.role src.feeder = .feeder p)
    (hbehind : m.world.behindTaken src.feeder = false) : ∀ a, s.role a = .slot src.feeder → s.queue a = [] := by
  intro a ha
  rcases h.awake.toWired.slot_child ha hf with hchild | ⟨f, l, hchild⟩
  · obtain rfl := Role.feeder.inj hchild
    rw [h.world] at hbehind
    exact (Net.behindTaken_slot (Or.inl hf) ha).mp hbehind
  · cases hchild

theorem Merged.keeps_other (h : Merged s m) (hsteady : Net.Steady s) (hcautious : m.Cautious .take) {merger a : Nat}
    (hm : s.merger = some merger) (harmed : s.isArmed merger) (ho : s.outlet = none) :
    ∃ b ∈ s.slots, b ≠ a ∧ s.queue b ≠ [] := by
  have hbare : m.bare = some ⟨.storage merger, merger⟩ := by
    simp [Merging.bare, h.outer, h.merger, Net.outer, ho, hm]
  have hqueued := hcautious _ hbare (by rw [h.world]; exact harmed)
  rw [h.world] at hqueued
  have hrole := (h.awake.merger merger).mpr hm
  exact h.awake.toWired.other_taken hsteady.distinct hrole (hsteady.hub merger hm harmed) hqueued a

theorem Merged.cautious (h : Merged s m) (hsteady : Net.Steady s) {call : Call α} (hcautious : m.Cautious call) :
    ∃ result m', m.step call = some (result, m') ∧ ∃ t, Merged t m' ∧ Net.Steady t := by
  have hclear : m.Clear call := by
    cases call with
    | turn => exact (congrArg World.Clear h.world).mpr (hsteady.clear h.awake)
    | _ => trivial
  obtain ⟨result, m', t, hstep, h', hmoves⟩ := h.step hclear
  refine ⟨result, m', hstep, t, h', ?_⟩
  cases hmoves with
  | build _ _ hgrows => exact hgrows.steady h.awake hsteady
  | feed k v src p hk hf => exact hsteady.given h.awake hf (h.unoccupied hf (hcautious src hk)) (.value v)
  | fail k e recoverable src p hk hf => exact hsteady.given h.awake hf (h.unoccupied hf (hcautious src hk)) (.error e)
  | turn _ hturns =>
    refine hturns.steady h.awake hsteady fun i hi => ?_
    have hcrowds := hcautious i (by rw [h.world]; exact hi)
    rwa [h.world] at hcrowds
  | take _ htakes => exact htakes.steady h.awake hsteady fun merger a hm => h.keeps_other hsteady hcautious hm

/-- Three sources, the second one behind a buffer and the third one late; the first result is taken
from the bare merge node, which is armed. -/
def threeSources : List (Call Nat) :=
  [.source none, .source (some 2), .attach 0, .feed 0 1, .attach 1, .turn, .feed 1 2, .turn, .turn, .turn, .take,
    .source none, .feed 2 3, .sink, .attach 2, .turn, .turn,
    .fail 1 (recoverableError "reset") (recoverableError_isCritical "reset"), .turn, .turn, .turn, .turn, .turn,
    .feed 2 4, .turn, .turn]

end Merging

end Forstio
