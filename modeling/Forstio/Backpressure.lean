import Forstio.ChainDrain

/-!
# Spinning in front of full buffers

The feeder is armed again as long as it holds anything, whether or not the first
buffer has room. A chain that is taken from therefore comes to rest between two
calls exactly if its buffers can take everything the feeder still holds. A buffer
that a `take` left asleep hands nothing on, so only the buffers behind it count.
-/

namespace Forstio

namespace Chain

/-- The number of elements the buffers up to `m` can hold. -/
def capacity {α : Type} (c : Chain α) : Nat → Nat
  | 0 => 0
  | m + 1 => c.capacity m + c.limit (m + 1)

end Chain

namespace World

variable {α : Type}

/-- The buffer behind the last one is full and not armed although the last one has room. -/
def Asleep (c : Chain α) (w : World α) : Prop :=
  1 < c.top ∧ w.space (c.top - 1) = some 0 ∧ w.isArmed (c.top - 1) = false ∧ w.space c.top ≠ some 0

instance (c : Chain α) (w : World α) : Decidable (w.Asleep c) := inferInstanceAs (Decidable (_ ∧ _ ∧ _ ∧ _))

/-- The last buffer that elements may move into. -/
def reach (c : Chain α) (w : World α) : Nat := if w.Asleep c then c.top - 2 else c.top

/-- The buffers within reach can hold what they and the feeder hold now. -/
def Fits (c : Chain α) (w : World α) : Prop := Pipe.load w.queueAt (w.reach c) ≤ c.capacity (w.reach c)

instance (c : Chain α) (w : World α) : Decidable (w.Fits c) := inferInstanceAs (Decidable (_ ≤ _))

end World

namespace Pipe

variable {α : Type} {c : Chain α}

section
variable {s : Pipe α} {i j m : Nat}

/-! ## The load -/

theorem load_turn (h : Inv c false s) (hm : m ≤ c.top) : load (s.turn c false).queues m ≤ load s.queues m ∧
    ((m < c.top → s.Full c (m + 1)) → load (s.turn c false).queues m = load s.queues m) := by
  unfold turn
  split
  next => exact ⟨le_rfl, fun _ => rfl⟩
  next i loop ht =>
    obtain ⟨-, -, -, hq, -⟩ := h.fires ht
    rcases fire_cases (s := { s with loop := loop }) hq with ⟨-, hfire⟩ | ⟨-, -, -, hfire⟩ | ⟨hp, hroom, hload⟩
    · rw [hfire]
      exact ⟨le_rfl, fun _ => rfl⟩
    · rw [hfire]
      exact ⟨le_rfl, fun _ => rfl⟩
    · have hmove := hload m hm
      refine ⟨by dsimp only at hmove; omega, fun hblocked => ?_⟩
      have hlt : i < c.top := hp.elim id fun hs => absurd hs.2 (by simp)
      have hmi : m ≠ i := by
        rintro rfl
        exact hroom hlt (hblocked hlt)
      rwa [if_neg hmi, Nat.add_zero] at hmove

theorem load_empty (h : Core c false s) (h0 : s.queues 0 = []) : ∀ {m : Nat}, m ≤ c.top →
    load s.queues m ≤ c.capacity m
  | 0, _ => by rw [load, h0]; exact le_rfl
  | m + 1, hm => Nat.add_le_add (load_empty h h0 (Nat.le_of_succ_le hm)) (h.bounded _ (Nat.succ_pos m) hm)

theorem load_full : ∀ {m : Nat}, (∀ j, 0 < j → j ≤ m → s.Full c j) →
    (s.queues 0).length + c.capacity m ≤ load s.queues m
  | 0, _ => le_rfl
  | m + 1, hfull => by
    have ih := load_full (m := m) fun j h0 hj => hfull j h0 (Nat.le_succ_of_le hj)
    have hlast : c.limit (m + 1) ≤ (s.queues (m + 1)).length := hfull (m + 1) (Nat.succ_pos m) le_rfl
    rw [Chain.capacity, load]
    omega

/-! ## Coming to rest -/

/-- A full buffer below `m` waits for the one ahead, or is armed. -/
def Handing (c : Chain α) (m : Nat) (s : Pipe α) : Prop := ∀ j, 0 < j → j < m → s.Full c j → s.Wakes c j

theorem Handing.turn (hc : c.Admissible) (h : Inv c false s) (hm : m ≤ c.top) (hw : s.Handing c m) :
    (s.turn c false).Handing c m := by
  intro j h0 hj hfull
  by_cases hbefore : s.Full c j
  · exact (hw j h0 hj hbefore).turn hc h (Or.inl (Nat.lt_of_lt_of_le hj hm))
  · revert hfull
    unfold Pipe.turn
    split
    next => exact fun hfull => absurd hfull hbefore
    next i loop ht =>
      intro hfull
      obtain ⟨hcore, hi, hu, -, -⟩ := h.fires ht
      rw [Full, queues_fire] at hfull
      exact wakes_filled hc hcore hi hu hbefore hfull

theorem Handing.live (hc : c.Admissible) (hm : m ≤ c.top) (hw : s.Handing c m)
    (hfits : load s.queues m ≤ c.capacity m) (hq : s.queues 0 ≠ []) (hfirst : s.Full c 1) :
    ∃ j, 0 < j ∧ s.Armed j := by
  refine Classical.byContradiction fun hnone => ?_
  have hfull : ∀ j, 0 < j → j ≤ m → s.Full c j := by
    intro j
    induction j with
    | zero => exact fun h0 => absurd h0 (Nat.lt_irrefl 0)
    | succ j ih =>
      intro _ hj
      rcases Nat.eq_zero_or_pos j with rfl | h0
      · exact hfirst
      · have hbehind := ih h0 (Nat.le_of_succ_le hj)
        have hpos := (Chain.limit_bounds hc h0 (show j ≤ c.top by omega)).1
        have hne : s.queues j ≠ [] := List.ne_nil_of_length_pos (Nat.lt_of_lt_of_le hpos hbehind)
        rcases hw j h0 hj hbehind hne with ha | ⟨-, -, hahead⟩
        · exact absurd ⟨j, h0, ha⟩ hnone
        · exact hahead
  have hload := load_full hfull
  have hlen := List.length_pos_of_ne_nil hq
  omega

theorem Reached.settles (hc : c.Admissible) (h : Reached c false s) (htop : 0 < c.top) (hm : m ≤ c.top)
    (hw : s.Handing c m) (hfits : load s.queues m ≤ c.capacity m) :
    ∃ n, ((Pipe.turn c false)^[n] s).loop.head = none := by
  refine Run.halts (Pipe.turn c false) (fun s => Reached c false s ∧ s.Handing c m ∧ load s.queues m ≤ c.capacity m)
    (fun s => s.loop.head = none) (rank c) (fun s hs hrun => ?_) s ⟨h, hw, hfits⟩
  obtain ⟨h, hw, hfits⟩ := hs
  have hload := (load_turn h.toInv hm).1
  refine ⟨⟨h.turn hc, hw.turn hc h.toInv hm, Nat.le_trans hload hfits⟩, ?_⟩
  refine h.gets_on (Or.inl htop) hrun fun ha _ hfull => ?_
  exact hw.live hc hm hfits (h.ready 0 (Or.inl htop) ha) hfull

/-! ## A buffer that sleeps -/

theorem queues_pull_full (hc : c.Admissible) (h : Core c false s) (hi : i ≤ c.top) (hne : j ≠ i)
    (hfull : s.Full c j) : (s.pull c false i).queues j = s.queues j := by
  by_cases hj : j = i + 1
  · subst hj
    rcases queues_pull_next hc h hi with heq | ⟨-, hroom, -, -⟩
    · exact heq
    · exact absurd hfull hroom
  · exact queues_pull hne hj

theorem length_pull_le (hj : j ≠ i + 1) : ((s.pull c false i).queues j).length ≤ (s.queues j).length := by
  by_cases hne : j = i
  · subst hne
    exact queues_pull_self.length_le
  · rw [queues_pull hne hj]

def Asleep (c : Chain α) (s : Pipe α) : Prop :=
  1 < c.top ∧ s.Full c (c.top - 1) ∧ ¬ s.Armed (c.top - 1) ∧ ¬ s.Full c c.top

theorem Asleep.turn (hc : c.Admissible) (h : Inv c false s) (hs : s.Asleep c) : (s.turn c false).Asleep c := by
  obtain ⟨h1, hfull, hunarmed, hroom⟩ := hs
  unfold Pipe.turn
  split
  next => exact ⟨h1, hfull, hunarmed, hroom⟩
  next i loop ht =>
    obtain ⟨hcore, hi, hu, -, -⟩ := h.fires ht
    have hturn := h.loop.turn (e := i) (by rw [ht])
    rw [ht] at hturn
    obtain ⟨harmed, -, hothers⟩ := hturn
    have hne : c.top - 1 ≠ i := fun heq => hunarmed (heq ▸ harmed)
    refine ⟨h1, ?_, fun ha => ?_, ?_⟩
    · rw [Full, queues_fire, queues_pull_full hc hcore hi hne hfull]
      exact hfull
    · rcases armed_fire hc hcore hi hu ha with ha | hi' | ⟨-, hno⟩ | ⟨hi', hlast⟩
      · exact hunarmed ((hothers (c.top - 1)).mp ha).2
      · exact hne hi'
      · exact hno hfull
      · rw [show i = c.top by omega] at hlast
        exact hroom hlast
    · rw [Full, queues_fire, Nat.not_le]
      refine Nat.lt_of_le_of_lt (length_pull_le ?_) (Nat.not_le.mp hroom)
      omega

open Classical in
noncomputable def reach (c : Chain α) (s : Pipe α) : Nat := if s.Asleep c then c.top - 2 else c.top

theorem reach_le : s.reach c ≤ c.top := by
  unfold reach
  split
  · exact Nat.sub_le ..
  · exact le_rfl

theorem Reached.handing (h : Reached c false s) : s.Handing c (s.reach c) := by
  intro j h0 hj hfull
  by_cases hlast : j + 1 < c.top
  · exact h.inner j (Or.inr hlast) (Or.inl (Nat.lt_of_succ_lt hlast))
  · unfold reach at hj
    split at hj
    next => omega
    next hawake =>
      have htop : c.top - 1 = j := by omega
      intro _
      by_cases ha : s.Armed j
      · exact Or.inl ha
      · refine Or.inr ⟨h0, hj, Classical.byContradiction fun hroom => hawake ⟨by omega, ?_, ?_, ?_⟩⟩
        · rwa [htop]
        · rwa [htop]
        · rwa [show c.top = j + 1 by omega]

theorem fits_of_rest (hc : c.Admissible) (htop : 0 < c.top) : ∀ (n : Nat) {s : Pipe α}, Reached c false s →
    m ≤ c.top → (m < c.top → m + 2 = c.top ∧ s.Asleep c) → ((Pipe.turn c false)^[n] s).loop.head = none →
    load s.queues m ≤ c.capacity m
  | 0, s, h, hm, _, hrest => by
    have hempty : s.queues 0 = [] := by
      refine Classical.byContradiction fun hq => ?_
      rcases h.inner 0 (Or.inl rfl) (Or.inl htop) hq with ha | ⟨h0, -, -⟩
      · exact h.loop.not_isArmed hrest 0 ha
      · exact Nat.lt_irrefl 0 h0
    exact load_empty h.toCore hempty hm
  | n + 1, s, h, hm, hsleep, hrest => by
    have hload := (load_turn h.toInv hm).2 fun hlt => by
      obtain ⟨hm', -, hfull, -, -⟩ := hsleep hlt
      rwa [show m + 1 = c.top - 1 by omega]
    rw [← hload]
    refine fits_of_rest hc htop n (h.turn hc) hm (fun hlt => ?_) hrest
    exact ⟨(hsleep hlt).1, (hsleep hlt).2.turn hc h.toInv⟩

/-- **When a chain that is taken from comes to rest.** -/
theorem Reached.settles_iff (hc : c.Admissible) (h : Reached c false s) (htop : 0 < c.top) :
    (∃ n, ((Pipe.turn c false)^[n] s).loop.head = none) ↔ load s.queues (s.reach c) ≤ c.capacity (s.reach c) := by
  refine ⟨fun ⟨n, hrest⟩ => ?_, h.settles hc htop reach_le h.handing⟩
  refine fits_of_rest hc htop n h reach_le (fun hlt => ?_) hrest
  unfold reach at hlt ⊢
  split at hlt
  next hasleep =>
    rw [if_pos hasleep]
    exact ⟨Nat.sub_add_cancel hasleep.1, hasleep⟩
  next => exact absurd hlt (Nat.lt_irrefl _)

/-! ## On the world -/

theorem asleep_world (hc : c.Admissible) (h : Core c false s) : (s.world c false).Asleep c ↔ s.Asleep c := by
  unfold World.Asleep Asleep
  by_cases h1 : 1 < c.top
  · rw [ne_eq, space_zero hc h (by omega) (by omega), space_zero hc h (by omega) le_rfl, Armed, Bool.not_eq_true]
    rfl
  · simp only [h1, false_and]

theorem reach_world (hc : c.Admissible) (h : Core c false s) : (s.world c false).reach c = s.reach c := by
  unfold World.reach reach
  by_cases hs : s.Asleep c
  · rw [if_pos hs, if_pos ((asleep_world hc h).mpr hs)]
  · rw [if_neg hs, if_neg fun hw => hs ((asleep_world hc h).mp hw)]

theorem fits_world (hc : c.Admissible) (h : Core c false s) :
    (s.world c false).Fits c ↔ load s.queues (s.reach c) ≤ c.capacity (s.reach c) := by
  rw [World.Fits, reach_world hc h, load_congr fun i hi => queueAt_world (Nat.le_trans hi reach_le)]

theorem rests_world (hc : c.Admissible) (h : Reached c false s) (htop : 0 < c.top) :
    (∃ n results w, Run.exec (World.step (some ⟨c.node, c.top⟩)) (s.world c false) (List.replicate n .turn) =
      some (results, w) ∧ w.loop.head = none) ↔ (s.world c false).Fits c := by
  rw [fits_world hc h.toCore, ← h.settles_iff hc htop]
  refine exists_congr fun n => ?_
  obtain ⟨results, hrun⟩ := turns_world hc h.toInv n
  constructor
  · intro ⟨results', w, hrun', hrest⟩
    obtain ⟨-, rfl⟩ := Prod.mk.inj (Option.some.inj (hrun.symm.trans hrun'))
    exact hrest
  · intro hrest
    exact ⟨results, _, hrun, hrest⟩

end

end Pipe

namespace Chain

variable {α : Type}

/-- **Back-pressure, exactly when.** From a state reached by any calls on a chain that is taken from, finitely
many turns empty the event queue if and only if the buffers within reach can hold everything the feeder
holds. -/
theorem suspends_iff (c : Chain α) (hc : c.Admissible) (htop : 0 < c.top) (calls : List (Call α))
    (hcalls : ∀ call ∈ calls, call.Tame) :
    ∃ taker w₀ results w, c.finish false = some (some taker, w₀) ∧
      Run.exec (World.step (some taker)) w₀ calls = some (results, w) ∧
      ((∃ n results' w', Run.exec (World.step (some taker)) w (List.replicate n .turn) = some (results', w') ∧
        w'.loop.head = none) ↔ w.Fits c) := by
  have hrun := Pipe.run_world hc calls (Pipe.empty_inv c false) hcalls
  have hreached := (Pipe.empty_reached c false).run hc calls hcalls
  exact ⟨_, _, _, _, c.finish_world false, hrun, Pipe.rests_world hc hreached htop⟩

def singleSlot : Chain Nat := feeder.buffer 1

theorem singleSlot_admissible : singleSlot.Admissible := by simp [singleSlot, Admissible]

theorem suspends_iff_singleSlot : ∃ taker w₀ results w, singleSlot.finish false = some (some taker, w₀) ∧
    Run.exec (World.step (some taker)) w₀ [.feed 1, .turn, .feed 2] = some (results, w) ∧
    ((∃ n results' w', Run.exec (World.step (some taker)) w (List.replicate n .turn) = some (results', w') ∧
      w'.loop.head = none) ↔ w.Fits singleSlot) :=
  suspends_iff singleSlot singleSlot_admissible Nat.one_pos [.feed 1, .turn, .feed 2] (by simp [Call.Tame])

/-- With one element in the buffer and one behind it, the feeder is armed after every turn. -/
theorem suspends_fails : ∃ taker w₀ results w, singleSlot.finish false = some (some taker, w₀) ∧
    Run.exec (World.step (some taker)) w₀ [.feed 1, .feed 2] = some (results, w) ∧
    ¬ ∃ n results' w', Run.exec (World.step (some taker)) w (List.replicate n .turn) = some (results', w') ∧
      w'.loop.head = none := by
  have hcalls : ∀ call ∈ [Call.feed 1, .feed 2], call.Tame := by simp [Call.Tame]
  have hrun := Pipe.run_world singleSlot_admissible _ (Pipe.empty_inv singleSlot false) hcalls
  have hreached := (Pipe.empty_reached singleSlot false).run singleSlot_admissible _ hcalls
  refine ⟨_, _, _, _, singleSlot.finish_world false, hrun, ?_⟩
  rw [Pipe.rests_world singleSlot_admissible hreached Nat.one_pos]
  decide

end Chain

end Forstio
