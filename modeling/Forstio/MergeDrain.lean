import Forstio.Merging

/-!
# Draining a merge

With a sink behind the merge node, an idle event queue means that everything the
attached sources were fed has been delivered, unless some buffer fired while it
held more than one result: it is not armed again for the rest.
-/

namespace Forstio

namespace World

variable {α : Type}

/-- Node `i` is a buffer with a parent and more than one result. -/
def spills (w : World α) (i : Nat) : Bool :=
  match w.nodes i with
  | some ⟨some _, _, .queueBuffer _ storage _⟩ => decide (1 < storage.length)
  | _ => false

/-- The next turn does not fire such a node. -/
def Thrifty (w : World α) : Prop := ∀ i, w.loop.head = some i → w.spills i = false

instance (w : World α) : Decidable w.Thrifty :=
  match h : w.loop.head with
  | none => isTrue fun i hi => absurd (h.symm.trans hi) (Option.some_ne_none i).symm
  | some i => decidable_of_iff (w.spills i = false)
      ⟨fun hi _ hj => Option.some.inj (h.symm.trans hj) ▸ hi, fun hall => hall i h⟩

end World

namespace Net

variable {α : Type}

structure AlertBut (s : Net α) (i : Nat) : Prop where
  feeder : ∀ f p, f ≠ i → s.role f = .feeder (some p) → s.queue f ≠ [] → s.isArmed f
  buffer : ∀ b c l a, b ≠ i → s.role b = .buffer c l (some a) → s.queue b ≠ [] → s.isArmed b
  slots : ∀ o, s.hub ≠ i → s.outlet = some o → s.role o = .sink → s.Taken → s.isArmed s.hub

section
variable {s t : Net α} {i : Nat}

theorem Awake.isArmed_armLater (h : Awake s) (i j : Nat) : (s.armLater i).isArmed j ↔ j = i ∨ s.isArmed j :=
  h.loop.isArmed_armLater i j

theorem AlertBut.alert (h : AlertBut s i) (hsame : Same s t) (harmed : ∀ j, s.isArmed j → t.isArmed j)
    (hfeeder : ∀ f p, s.role f = .feeder (some p) → t.queue f ≠ [] → t.isArmed f ∨ f ≠ i ∧ s.queue f ≠ [])
    (hbuffer : ∀ b c l a, s.role b = .buffer c l (some a) → t.queue b ≠ [] → t.isArmed b ∨ b ≠ i ∧ s.queue b ≠ [])
    (hslots : ∀ o, s.outlet = some o → s.role o = .sink → t.Taken → t.isArmed s.hub ∨ s.hub ≠ i ∧ s.Taken) :
    Alert t := by
  have hhub : t.hub = s.hub := by
    unfold hub
    rw [hsame.merger]
  refine ⟨fun f p hf hq => ?_, fun b c l a hb hq => ?_, fun o ho hsink htaken => ?_⟩
  · rw [hsame.role] at hf
    rcases hfeeder f p hf hq with ha | ⟨hne, hqs⟩
    · exact ha
    · exact harmed f (h.feeder f p hne hf hqs)
  · rw [hsame.role] at hb
    rcases hbuffer b c l a hb hq with ha | ⟨hne, hqs⟩
    · exact ha
    · exact harmed b (h.buffer b c l a hne hb hqs)
  · rw [hsame.role] at hsink
    rw [hsame.outlet] at ho
    rw [hhub]
    rcases hslots o ho hsink htaken with ha | ⟨hne, htaken'⟩
    · exact ha
    · exact harmed s.hub (h.slots o hne ho hsink htaken')

theorem Taken.of_queue (h : t.Taken) (hslots : t.slots = s.slots) (hqueue : ∀ a ∈ s.slots, t.queue a = s.queue a) :
    s.Taken := by
  obtain ⟨a, ha, hq⟩ := h
  rw [hslots] at ha
  exact ⟨a, ha, by rwa [hqueue a ha] at hq⟩

theorem queue_hop_ne {p j : Nat} (hi : j ≠ i) (hp : j ≠ p) (x : ErrorOr α) (xs : List (ErrorOr α)) :
    (s.hop i p x xs).queue j = s.queue j := by
  rw [Net.hop, queue_setQueue hp, queue_setQueue hi]

theorem Wired.hub_ne (h : Wired s) {o : Nat} (ho : s.outlet = some o) (hi : s.Holds i) : s.hub ≠ i := by
  obtain ⟨m, hm, -⟩ := h.outlet o ho
  have hhub : s.hub = m := by
    rw [hub, hm]
    rfl
  rintro rfl
  rw [hhub] at hi
  exact hi.role (Or.inl ((h.merger m).mpr hm))

theorem AlertBut.hop (h : AlertBut s i) (hw : Wired s) (hi : s.Holds i) (p : Nat) (x : ErrorOr α)
    (xs : List (ErrorOr α)) (hrole : t.role = s.role) (hslots : t.slots = s.slots) (hmerger : t.merger = s.merger)
    (houtlet : t.outlet = s.outlet) (hqueue : t.queue = (s.hop i p x xs).queue)
    (harmed : ∀ j, s.isArmed j → t.isArmed j) (hpi : p ≠ i) (hxs : xs ≠ [] → t.isArmed i)
    (hp : (∀ c, s.role p ≠ .slot c) ∧ t.isArmed p ∨ (∃ c, s.role p = .slot c) ∧ t.isArmed s.hub) : Alert t := by
  have hqi : t.queue i = xs := by
    rw [hqueue]
    exact queue_hop hpi.symm x xs
  have hself : t.queue i ≠ [] → t.isArmed i := fun hq => hxs (by rwa [hqi] at hq)
  have hrest : ∀ {j}, j ≠ i → j ≠ p → t.queue j = s.queue j := by
    intro j hji hjp
    rw [hqueue]
    exact queue_hop_ne hji hjp x xs
  have hmoved : ∀ j, (∀ c, s.role j ≠ .slot c) → t.queue j ≠ [] → t.isArmed j ∨ j ≠ i ∧ s.queue j ≠ [] := by
    intro j hslot hq
    by_cases hji : j = i
    · subst hji
      exact Or.inl (hself hq)
    · by_cases hjp : j = p
      · subst hjp
        rcases hp with ⟨-, ha⟩ | ⟨⟨c, hc⟩, -⟩
        · exact Or.inl ha
        · exact absurd hc (hslot c)
      · rw [hrest hji hjp] at hq
        exact Or.inr ⟨hji, hq⟩
  refine h.alert ⟨hrole, hslots, hmerger, houtlet⟩ harmed (fun f p' hf => hmoved f fun c hc => ?_)
    (fun b c l a hb => hmoved b fun c hc => ?_) fun o ho hsink htaken => ?_
  · rw [hf] at hc
    cases hc
  · rw [hb] at hc
    cases hc
  · rcases hp with ⟨hslot, -⟩ | ⟨-, ha⟩
    · refine Or.inr ⟨hw.hub_ne ho hi, htaken.of_queue hslots fun a ha => hrest ?_ ?_⟩
      · rintro rfl
        obtain ⟨c, hc⟩ := hw.slots a ha
        rcases hi with ⟨p', hi⟩ | ⟨c', l, p', hi⟩
        · rw [hc] at hi
          cases hi
        · rw [hc] at hi
          cases hi
      · rintro rfl
        obtain ⟨c, hc⟩ := hw.slots a ha
        exact hslot c hc
    · exact Or.inl ha

theorem AlertBut.unslot (h : AlertBut s i) (hw : Wired s) (hi : s.role i = .merger) (hsame : Same s t)
    (harmed : ∀ j, s.isArmed j → t.isArmed j)
    (hqueue : ∀ j, (∃ p, s.role j = .feeder p) ∨ (∃ c l p, s.role j = .buffer c l (some p)) → t.queue j = s.queue j)
    (hagain : ∀ o, s.outlet = some o → s.role o = .sink → t.Taken → t.isArmed i) : Alert t := by
  have hhub : s.hub = i := by
    rw [hub, (hw.merger i).mp hi]
    rfl
  refine h.alert hsame harmed (fun f p hf hq => Or.inr ?_) (fun b c l p hb hq => Or.inr ?_) fun o ho hsink htaken => ?_
  · rw [hqueue f (Or.inl ⟨_, hf⟩)] at hq
    refine ⟨?_, hq⟩
    rintro rfl
    rw [hi] at hf
    cases hf
  · rw [hqueue b (Or.inr ⟨c, l, p, hb⟩)] at hq
    refine ⟨?_, hq⟩
    rintro rfl
    rw [hi] at hb
    cases hb
  · rw [hhub]
    exact Or.inl (hagain o ho hsink htaken)

theorem armed_twice (h : Awake s) {p : Nat} (hloop : t.loop = s.loop.armLater p) (i : Nat) (xs : List (ErrorOr α)) :
    (∀ j, j = p ∨ s.isArmed j → (if xs = [] then t else t.armLater i).isArmed j) ∧
      (xs ≠ [] → (if xs = [] then t else t.armLater i).isArmed i) := by
  have hsound : t.loop.Sound := by
    rw [hloop]
    exact h.loop.armLater p
  have harmed : ∀ j, j = p ∨ s.isArmed j → t.isArmed j := by
    intro j hj
    rw [isArmed, hloop]
    exact (h.loop.isArmed_armLater p j).mpr hj
  by_cases hxs : xs = []
  · rw [if_pos hxs]
    exact ⟨harmed, fun hne => absurd hxs hne⟩
  · rw [if_neg hxs]
    exact ⟨fun j hj => (hsound.isArmed_armLater i j).mpr (Or.inr (harmed j hj)),
      fun _ => (hsound.isArmed_armLater i i).mpr (Or.inl rfl)⟩

theorem AlertBut.idle (h : AlertBut s i) (hw : Wired s) (hidle : s.role i = .feeder none ∨
      (∃ c l, s.role i = .buffer c l none) ∨ s.role i = .merger ∧ ∀ o, s.outlet = some o → s.role o ≠ .sink) :
    Alert s := by
  refine h.alert ⟨rfl, rfl, rfl, rfl⟩ (fun _ => id) (fun f p hf hq => Or.inr ⟨?_, hq⟩)
    (fun b c l a hb hq => Or.inr ⟨?_, hq⟩) fun o ho hsink htaken => Or.inr ⟨?_, htaken⟩
  · rintro rfl
    rcases hidle with hi | ⟨c, l, hi⟩ | ⟨hi, -⟩ <;> · rw [hf] at hi; cases hi
  · rintro rfl
    rcases hidle with hi | ⟨c', l', hi⟩ | ⟨hi, -⟩ <;> · rw [hb] at hi; cases hi
  · rintro rfl
    rcases hidle with hi | ⟨c, l, hi⟩ | ⟨-, hnot⟩
    · exact hw.hub_ne ho (Or.inl ⟨_, hi⟩) rfl
    · exact hw.hub_ne ho (Or.inr ⟨_, _, _, hi⟩) rfl
    · exact hnot o ho hsink

theorem AlertBut.retry (h : AlertBut s i) (hawake : Awake s) {p : Nat} (hi : s.role i = .feeder (some p)) :
    Alert (s.armLater i) := by
  have hself : (s.armLater i).isArmed i := (hawake.isArmed_armLater i i).mpr (Or.inl rfl)
  have harmed : ∀ j, s.isArmed j → (s.armLater i).isArmed j := fun j hj => (hawake.isArmed_armLater i j).mpr (Or.inr hj)
  refine h.alert ⟨rfl, rfl, rfl, rfl⟩ harmed (fun f p hf hq => ?_) (fun b c l a hb hq => Or.inr ⟨?_, hq⟩)
    fun o ho hsink htaken => Or.inr ⟨hawake.toWired.hub_ne ho (Or.inl ⟨_, hi⟩), htaken⟩
  · by_cases hfi : f = i
    · rw [hfi]
      exact Or.inl hself
    · exact Or.inr ⟨hfi, hq⟩
  · rintro rfl
    rw [hi] at hb
    cases hb

theorem AlertBut.deliver (h : AlertBut s i) (hawake : Awake s) {a k : Nat} {x : ErrorOr α} {u : Net α}
    (hi : s.role i = .merger) (ha : a ∈ s.slots) (ht : t = { s.unslot a k with delivered := s.delivered ++ [x] })
    (hu : t.Taken ∧ u = t.armLater i ∨ ¬ t.Taken ∧ u = t) : Alert u := by
  have hw := hawake.toWired
  have hqueue : ∀ j, (∃ p, s.role j = .feeder p) ∨ (∃ c l p, s.role j = .buffer c l (some p)) →
      t.queue j = s.queue j := by
    intro j hj
    rw [ht]
    exact queue_setQueue (hw.ne_slot ha hj) []
  have hsame : Same s t := by
    rw [ht]
    exact ⟨rfl, rfl, rfl, rfl⟩
  have hloop : t.loop = s.loop := by rw [ht]; rfl
  rcases hu with ⟨-, rfl⟩ | ⟨hnot, rfl⟩
  · have harmed : ∀ j, j = i ∨ s.isArmed j → (t.armLater i).isArmed j := by
      intro j hj
      rw [isArmed, Net.armLater, hloop]
      exact (hawake.loop.isArmed_armLater i j).mpr hj
    exact h.unslot hw hi ⟨hsame.role, hsame.slots, hsame.merger, hsame.outlet⟩ (fun j hj => harmed j (Or.inr hj)) hqueue
      fun _ _ _ _ => harmed i (Or.inl rfl)
  · refine h.unslot hw hi hsame (fun j hj => ?_) hqueue fun _ _ _ htaken => absurd htaken hnot
    rw [isArmed, hloop]
    exact hj

theorem AlertBut.pass (h : AlertBut s i) (hawake : Awake s) {o l a k : Nat} {x : ErrorOr α} {u : Net α}
    (hi : s.role i = .merger) (ho : s.outlet = some o) (hbuffer : s.role o = .buffer i l none) (ha : a ∈ s.slots)
    (ht : t = ((s.unslot a k).setQueue o (s.queue o ++ [x])).armLater o) (hu : t.Taken ∧ u = t.armLater i ∨ u = t) :
    Alert u := by
  have hw := hawake.toWired
  have hqueue : ∀ j, (∃ p, s.role j = .feeder p) ∨ (∃ c l p, s.role j = .buffer c l (some p)) →
      t.queue j = s.queue j := by
    intro j hj
    rw [ht]
    refine (queue_setQueue ?_ _).trans (queue_setQueue (hw.ne_slot ha hj) [])
    rintro rfl
    rw [hbuffer] at hj
    rcases hj with ⟨p, hj⟩ | ⟨c', l, p, hj⟩ <;> cases hj
  have hsame : Same s t := by
    rw [ht]
    exact ⟨rfl, rfl, rfl, rfl⟩
  have hloop : t.loop = s.loop.armLater o := by rw [ht]; rfl
  have hnot : ∀ o', s.outlet = some o' → s.role o' ≠ .sink := by
    intro o' ho' hsink
    rw [Option.some.inj (ho'.symm.trans ho), hbuffer] at hsink
    cases hsink
  have harmed : ∀ j, s.isArmed j → t.isArmed j := by
    intro j hj
    rw [isArmed, hloop]
    exact (hawake.loop.isArmed_armLater o j).mpr (Or.inr hj)
  rcases hu with ⟨-, rfl⟩ | rfl
  · refine h.unslot hw hi ⟨hsame.role, hsame.slots, hsame.merger, hsame.outlet⟩ (fun j hj => ?_) hqueue
      fun o' ho' hsink _ => absurd hsink (hnot o' ho')
    rw [isArmed, Net.armLater, hloop]
    exact ((hawake.loop.armLater o).isArmed_armLater i j).mpr
      (Or.inr ((hawake.loop.isArmed_armLater o j).mpr (Or.inr hj)))
  · exact h.unslot hw hi hsame harmed hqueue fun o' ho' hsink _ => absurd hsink (hnot o' ho')

/-- **Firing** keeps everybody alert, unless a buffer has more than one result. -/
theorem Fires.alert (hf : Fires s i t) (hawake : Awake s) (h : AlertBut s i)
    (hthrifty : ∀ c l a, s.role i = .buffer c l (some a) → (s.queue i).length ≤ 1) : Alert t := by
  have hw := hawake.toWired
  cases hf with
  | idle hidle => exact h.idle hw hidle
  | retry p l a hi hp => exact h.retry hawake hi
  | store p l a x xs t hi hp hq hroom ht =>
    have hpi : p ≠ i := ne_of_role hp hi Role.noConfusion
    have hslot : ∀ c, s.role p ≠ .slot c := by
      intro c hc
      rw [hp] at hc
      cases hc
    have hloop : t.loop = s.loop.armLater p := by rw [ht]; rfl
    obtain ⟨harmed, hagain⟩ := armed_twice hawake hloop i xs
    refine h.hop hw (Or.inl ⟨_, hi⟩) p x xs ?_ ?_ ?_ ?_ ?_ (fun j hj => harmed j (Or.inr hj)) hpi hagain
      (Or.inl ⟨hslot, harmed p (Or.inl rfl)⟩)
    all_goals
      rw [ht]
      split <;> rfl
  | offer p x xs t hi hp hq hempty ht =>
    have hpi : p ≠ i := ne_of_role hp hi Role.noConfusion
    have hloop : t.loop = s.loop.armLater s.hub := by rw [ht]; rfl
    obtain ⟨harmed, hagain⟩ := armed_twice hawake hloop i xs
    refine h.hop hw (Or.inl ⟨_, hi⟩) p x xs ?_ ?_ ?_ ?_ ?_ (fun j hj => harmed j (Or.inr hj)) hpi
      hagain (Or.inr ⟨⟨i, hp⟩, harmed s.hub (Or.inl rfl)⟩)
    all_goals
      rw [ht]
      split <;> rfl
  | release p c l x xs hi hp hq hempty =>
    have hpi : p ≠ i := ne_of_role hp hi Role.noConfusion
    have hxs : xs = [] := by
      have hlen := hthrifty c l p hi
      rw [hq, List.length_cons] at hlen
      exact List.length_eq_zero_iff.mp (by omega)
    have harmed : ∀ j, j = s.hub ∨ s.isArmed j → ((s.hop i p x xs).armLater s.hub).isArmed j := fun j hj =>
      (hawake.loop.isArmed_armLater s.hub j).mpr hj
    exact h.hop hw (Or.inr ⟨c, l, _, hi⟩) p x xs rfl rfl rfl rfl rfl (fun j hj => harmed j (Or.inr hj)) hpi
      (fun hne => absurd hxs hne) (Or.inr ⟨⟨i, hp⟩, harmed s.hub (Or.inl rfl)⟩)
  | deliver o a k x t u hi ho hsink ha hqa ht hu => exact h.deliver hawake hi ha ht hu
  | pass o l a k x t u hi ho hbuffer ha hqa hroom ht hu => exact h.pass hawake hi ho hbuffer ha ht hu

theorem spills_buffer {c l a : Nat} (hi : s.role i = .buffer c l (some a)) :
    s.world.spills i = decide (1 < (s.queue i).length) := by
  unfold World.spills
  rw [show s.world.nodes i = _ from node_buffer hi]

theorem Turns.alert (ht : Turns s t) (hawake : Awake s) (h : Alert s) (hthrifty : s.world.Thrifty) : Alert t := by
  cases ht with
  | rest => exact h
  | fire i loop t hturn hi hf =>
    obtain ⟨hawake', hu, -⟩ := hawake.extract hturn
    have hhead : s.world.loop.head = some i := EventLoop.head_of_turn hturn
    have hrest := (hawake.loop.turn (show s.loop.turn.1 = some i by rw [hturn])).2.2
    rw [hturn] at hrest
    have harmed : ∀ j, j ≠ i → s.isArmed j → loop.isArmed j := fun j hj ha => (hrest j).mpr ⟨hj, ha⟩
    refine hf.alert hawake' ⟨fun f p hne hf hq => ?_, fun b c l a hne hb hq => ?_, fun o hne ho hsink htaken => ?_⟩
      fun c l a hrole => ?_
    · exact harmed f hne (h.feeder f p hf hq)
    · exact harmed b hne (h.buffer b c l a hb hq)
    · exact harmed s.hub hne (h.slots o ho hsink htaken)
    · have hspills := hthrifty i hhead
      rw [spills_buffer (s := s) hrole] at hspills
      exact Nat.le_of_not_lt (of_decide_eq_false hspills)

/-- In front of a sink, an alert network that is idle holds nothing for the merge node. -/
theorem Alert.drained (h : Alert s) (hw : Wired s) (hidle : ∀ j, ¬ s.isArmed j) {o : Nat} (ho : s.outlet = some o)
    (hsink : s.role o = .sink) {f a : Nat} {js : List Nat} (ha : a ∈ s.slots) (hpath : s.path f = a :: js) :
    s.held f = [] := by
  have hslot : s.queue a = [] := by
    refine Classical.byContradiction fun hq => hidle s.hub (h.slots o ho hsink ⟨a, ha, hq⟩)
  have hfeeder : ∀ f p, s.role f = .feeder (some p) → s.queue f = [] := fun f p hf =>
    Classical.byContradiction fun hq => hidle f (h.feeder f p hf hq)
  have hbuffer : ∀ b c l a, s.role b = .buffer c l (some a) → s.queue b = [] := fun b c l a hb =>
    Classical.byContradiction fun hq => hidle b (h.buffer b c l a hb hq)
  obtain ⟨c, hc⟩ := hw.slots a ha
  rcases hw.path_cases f with hp | ⟨hf, hp⟩ | ⟨p, l, hf, hb, hp⟩ | ⟨a', hf, -, hp⟩ | ⟨a', p, l, hf, hb, -, hp⟩
  · rw [hpath] at hp
    cases hp
  · rw [hpath] at hp
    cases hp
    rw [hf] at hc
    cases hc
  · rw [hpath] at hp
    cases hp
    rw [hb] at hc
    cases hc
  · rw [hpath] at hp
    cases hp
    rw [held, hpath]
    simp [hslot, hfeeder f a hf]
  · rw [hpath] at hp
    cases hp
    rw [held, hpath]
    simp [hslot, hfeeder f p hf, hbuffer p f l a hb]

end

end Net

namespace Merging

variable {α : Type} {s : Net α} {m : Merging α}

/-- No turn fires a blocked node or a buffer with more than one result. -/
def Careful (m : Merging α) : Call α → Prop
  | .turn => m.world.Clear ∧ m.world.Thrifty
  | _ => True

instance (m : Merging α) : ∀ call : Call α, Decidable (m.Careful call)
  | .turn => inferInstanceAs (Decidable (m.world.Clear ∧ m.world.Thrifty))
  | .source _ => isTrue trivial
  | .feed _ _ => isTrue trivial
  | .fail _ _ _ => isTrue trivial
  | .attach _ => isTrue trivial
  | .buffer _ => isTrue trivial
  | .sink => isTrue trivial
  | .take => isTrue trivial

def Sunk (m : Merging α) : Prop := m.merger ≠ none ∧ m.outer = none

/-- Nothing is left in the slots, buffers and feeders of the attached sources, and all that was fed to
them has been delivered. -/
def Drained (m : Merging α) : Prop :=
  ∃ log : List (Nat × ErrorOr α), log.map Prod.snd = m.world.delivered ∧ ∀ src ∈ m.sources, src.conveyor = none →
    m.world.held src.feeder = [] ∧ share log src.feeder = m.fed src.feeder

theorem Careful.clear {call : Call α} (h : m.Careful call) : m.Clear call := by
  cases call with
  | turn => exact h.1
  | _ => trivial

theorem Merged.sunk (h : Merged s m) (hsunk : m.Sunk) : ∃ o, s.outlet = some o ∧ s.role o = .sink := by
  obtain ⟨hm, ho⟩ := hsunk
  rw [h.merger] at hm
  rw [h.outer] at ho
  unfold Net.outer at ho
  cases hout : s.outlet with
  | none =>
    rw [hout] at ho
    exact absurd (Option.map_eq_none_iff.mp ho) hm
  | some o =>
    rw [hout] at ho
    obtain ⟨merger, -, hrole | ⟨l, hrole⟩⟩ := h.awake.outlet o hout
    · exact ⟨o, rfl, hrole⟩
    · simp only [hrole] at ho
      cases ho

theorem Merged.drained (h : Merged s m) (halert : Net.Alert s) (hidle : m.world.loop.head = none) (hsunk : m.Sunk) :
    m.Drained := by
  obtain ⟨o, ho, hsink⟩ := h.sunk hsunk
  have hw := h.awake.toWired
  rw [h.world] at hidle
  have hunarmed : ∀ j, ¬ s.isArmed j := h.awake.loop.not_isArmed hidle
  obtain ⟨log, hlog, hfed⟩ := h.logged
  have hpassed : s.passed = [] := by
    simp only [Net.passed, ho]
    exact hw.empty o (Or.inr (Or.inl hsink))
  refine ⟨log, ?_, fun src hsrc hattached => ?_⟩
  · rw [hpassed, List.append_nil] at hlog
    rw [h.world]
    exact hlog
  · obtain ⟨hf, hslot⟩ := h.sourced src hsrc
    rw [hattached] at hslot
    obtain ⟨a, ha, js, hpath⟩ := hslot
    have hheld : s.held src.feeder = [] := halert.drained hw hunarmed ho hsink ha hpath
    refine ⟨?_, ?_⟩
    · rw [h.world, held_world hw hf, hheld]
    · rw [← hfed src.feeder, hheld, List.append_nil]

theorem alert_new : Net.Alert (Net.new : Net α) := by
  refine ⟨fun f p hf => ?_, fun b c l a hb => ?_, fun o ho => ?_⟩
  · cases (show (Net.new : Net α).role f = .free from rfl).symm.trans hf
  · cases (show (Net.new : Net α).role b = .free from rfl).symm.trans hb
  · cases ho

/-- **Nothing is stranded.** In a run whose turns fire no blocked node and no buffer with more than one
result, an idle event queue in front of a sink means that all that was fed to the attached sources has
been delivered. -/
theorem merging_drains (calls : List (Call α)) (hcareful : Run.Along step Careful start calls) :
    ∃ results m, Run.exec step start calls = some (results, m) ∧
      (m.world.loop.head = none → m.Sunk → m.Drained) := by
  have hstep : ∀ (m : Merging α) call, (∃ s, Merged s m ∧ Net.Alert s) → m.Careful call →
      ∃ result m', m.step call = some (result, m') ∧ ∃ s, Merged s m' ∧ Net.Alert s := by
    intro m call ⟨s, h, halert⟩ hcareful
    obtain ⟨result, m', t, hstep, h', hmoves⟩ := h.step hcareful.clear
    refine ⟨result, m', hstep, t, h', ?_⟩
    cases hmoves with
    | build _ _ hgrows => exact hgrows.alert h.awake halert
    | feed k v src p hk hf => exact halert.given h.awake hf (.value v)
    | fail k e recoverable src p hk hf => exact halert.given h.awake hf (.error e)
    | turn _ hturns => exact hturns.alert h.awake halert (h.world ▸ hcareful.2)
    | take _ htakes => exact htakes.alert halert
  obtain ⟨results, m, hrun, s, h, halert⟩ :=
    Run.exec_invariant _ Careful hstep calls start ⟨_, merged_start, alert_new⟩ hcareful
  exact ⟨results, m, hrun, h.drained halert⟩

def twoSources : List (Call Nat) :=
  [.source (some ⟨2, by decide⟩), .attach 0, .sink, .feed 0 1, .source (some ⟨1, by decide⟩), .feed 1 2, .turn, .turn,
    .attach 1, .turn, .turn, .turn, .turn]

theorem merging_drains_twoSources : ∃ results m, Run.exec step start twoSources = some (results, m) ∧ m.Drained := by
  obtain ⟨results, m, hrun, hdrained⟩ := merging_drains twoSources (by decide)
  have hend : (Run.exec step start twoSources).map (fun r => (r.2.world.loop.head, r.2.merger.isSome, r.2.outer.isNone)) =
      some (none, true, true) := by decide
  rw [hrun] at hend
  obtain ⟨hidle, hend⟩ := Prod.mk.inj (Option.some.inj hend)
  obtain ⟨hmerger, houter⟩ := Prod.mk.inj hend
  exact ⟨results, m, hrun, hdrained hidle ⟨Option.isSome_iff_ne_none.mp hmerger, Option.isNone_iff_eq_none.mp houter⟩⟩

/-- A buffer that holds two elements when it is attached: the event queue runs empty with the second
one still in it. -/
theorem merging_strands : ∃ results m, Run.exec step start [.source (some ⟨2, by decide⟩), .feed 0 1, .feed 0 2, .turn,
      .turn, .turn, .attach 0, .sink, .turn, .turn] = some (results, m) ∧ m.world.loop.head = none ∧ m.Sunk ∧
    (∃ src ∈ m.sources, src.conveyor = none ∧ m.world.held src.feeder = [(.value 2 : ErrorOr Nat)]) ∧
    m.world.delivered = [.value 1] := by
  have hrun : ((Run.exec step start [.source (some ⟨2, by decide⟩), .feed 0 1, .feed 0 2, .turn, .turn, .turn, .attach 0,
      .sink, .turn, .turn]).map fun r => ((r.2.world.loop.head, r.2.merger.isSome, r.2.outer.isNone),
        decide (∃ src ∈ r.2.sources, src.conveyor.isNone ∧ r.2.world.held src.feeder = [(.value 2 : ErrorOr Nat)]),
        decide (r.2.world.delivered = [.value 1]))) = some ((none, true, true), true, true) := by decide
  obtain ⟨⟨results, m⟩, hexec, hend⟩ := Option.map_eq_some_iff.mp hrun
  obtain ⟨hstate, hend⟩ := Prod.mk.inj hend
  obtain ⟨hidle, hstate⟩ := Prod.mk.inj hstate
  obtain ⟨hmerger, houter⟩ := Prod.mk.inj hstate
  obtain ⟨hsource, hdelivered⟩ := Prod.mk.inj hend
  obtain ⟨src, hsrc, hattached, hheld⟩ := of_decide_eq_true hsource
  exact ⟨results, m, hexec, hidle, ⟨Option.isSome_iff_ne_none.mp hmerger, Option.isNone_iff_eq_none.mp houter⟩,
    ⟨src, hsrc, Option.isNone_iff_eq_none.mp hattached, hheld⟩, of_decide_eq_true hdelivered⟩

end Merging

end Forstio
