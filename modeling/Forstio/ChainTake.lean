import Forstio.ChainRun

/-!
# Taking from the end of a chain

A buffer that fires wakes the buffer behind it; `take` frees space in the last
buffer and wakes nobody. A chain that is taken from is responsive, that is, no
node holds elements behind free space without being armed, exactly as long as
no `take` is made on a full last buffer while the one behind it waits unarmed.
-/

namespace Forstio

namespace World

variable {α : Type}

/-- Every storage node that holds elements and whose parent has space is armed, and so nothing is stuck
in the chain when the event queue is empty and the last buffer has been taken from. -/
structure Responsive (c : Chain α) (w : World α) : Prop where
  armed : ∀ i < c.top, w.queueAt i ≠ [] → ∀ n, w.space (i + 1) = some n → 0 < n → w.isArmed i
  drained : w.loop.head = none → w.queueAt c.top = [] → ∀ i ≤ c.top, w.queueAt i = []

/-- A `take` is not made on a full buffer while another buffer behind it holds elements unarmed. -/
def TakesAwake (c : Chain α) (w : World α) : Call α → Prop
  | .take => ¬ (w.space c.top = some 0 ∧ 1 < c.top ∧ w.queueAt (c.top - 1) ≠ [] ∧ w.isArmed (c.top - 1) = false)
  | _ => True

instance (c : Chain α) (w : World α) (call : Call α) : Decidable (w.TakesAwake c call) :=
  match call with
  | .take => inferInstanceAs (Decidable (¬ (w.space c.top = some 0 ∧ 1 < c.top ∧ w.queueAt (c.top - 1) ≠ [] ∧ _ = _)))
  | .feed _ => isTrue trivial
  | .fail _ => isTrue trivial
  | .turn => isTrue trivial

end World

namespace Pipe

variable {α : Type} {c : Chain α} {s : Pipe α}

/-- In front of the last buffer nobody waits unarmed for a buffer with room. -/
def Alert (c : Chain α) (s : Pipe α) : Prop := ∀ i < c.top, s.Wakes c i

theorem Alert.turn (hc : c.Admissible) (h : Inv c false s) (ha : s.Alert c) : (s.turn c false).Alert c :=
  fun i hi => (ha i hi).turn hc h (Or.inl hi)

def TakeWakes (c : Chain α) (s : Pipe α) : Prop :=
  ¬ (s.Full c c.top ∧ 1 < c.top ∧ s.queues (c.top - 1) ≠ [] ∧ ¬ s.Armed (c.top - 1))

theorem queues_take {i : Nat} (hi : i ≠ c.top) : (s.take c).queues i = s.queues i := by
  unfold take
  split
  next => rfl
  next => exact Function.update_of_ne hi _ _

theorem armed_take {i : Nat} : (s.take c).Armed i ↔ s.Armed i := by
  unfold take
  split <;> rfl

theorem Wakes.take {i : Nat} (hi : i < c.top) (hlast : i = 0 ∨ i + 1 ≠ c.top) (hw : s.Wakes c i) :
    (s.take c).Wakes c i := by
  intro hq
  rw [queues_take (Nat.ne_of_lt hi)] at hq
  rw [armed_take]
  refine (hw hq).imp_right fun ⟨h0, _, hfull⟩ => ⟨h0, hi, ?_⟩
  rw [Full, queues_take (hlast.resolve_left (Nat.ne_of_gt h0))]
  exact hfull

theorem Alert.take (ha : s.Alert c) (hok : s.TakeWakes c) : (s.take c).Alert c := by
  intro i hi
  by_cases hlast : i + 1 = c.top
  · intro hq
    rw [queues_take (Nat.ne_of_lt hi)] at hq
    rw [armed_take]
    rcases ha i hi hq with harmed | ⟨h0, -, hfull⟩
    · exact Or.inl harmed
    · have hi' : i = c.top - 1 := by omega
      subst hi'
      rw [hlast] at hfull
      refine Or.inl (Classical.byContradiction fun hunarmed => hok ⟨hfull, by omega, hq, hunarmed⟩)
  · exact (ha i hi).take hi (Or.inr hlast)

theorem not_full_take (hc : c.Admissible) (h : Core c false s) (h0 : 0 < c.top) : ¬ (s.take c).Full c c.top := by
  have hlim := (Chain.limit_bounds hc h0 le_rfl).1
  have hlen := h.bounded c.top h0 le_rfl
  unfold take Full
  split
  next hq =>
    rw [hq, List.length_nil]
    omega
  next x xs hq =>
    rw [hq, List.length_cons] at hlen
    simp only [Function.update_self]
    omega

/-! ## On the world -/

theorem space_zero {i : Nat} (hc : c.Admissible) (h : Core c false s) (h0 : 0 < i) (hi : i ≤ c.top) :
    (s.world c false).space i = some 0 ↔ s.Full c i := by
  obtain ⟨k, rfl⟩ : ∃ k, i = k + 1 := ⟨i - 1, by omega⟩
  obtain ⟨n, hn, hroom⟩ := space_buffer hc h hi
  rw [hn, Option.some.injEq]
  by_cases hfull : s.Full c (k + 1)
  · simp only [hfull, not_true, iff_false] at hroom ⊢
    simpa using hroom
  · simp only [hfull, not_false_iff, iff_true, iff_false] at hroom ⊢
    omega

theorem takesAwake_world (hc : c.Admissible) (h : Core c false s) :
    (s.world c false).TakesAwake c .take ↔ s.TakeWakes c := by
  unfold World.TakesAwake TakeWakes
  by_cases h1 : 1 < c.top
  · rw [space_zero hc h (by omega) le_rfl, queueAt_world (by omega), Armed, Bool.not_eq_true]
    rfl
  · simp only [h1, false_and, and_false, not_false_iff]

theorem Alert.call (hc : c.Admissible) (h : Inv c false s) (ha : s.Alert c) (call : Call α)
    (hok : (s.world c false).TakesAwake c call) : (s.call c false call).Alert c := by
  cases call with
  | feed v => exact fun i hi => (ha i hi).feed h.toCore _
  | fail e => exact fun i hi => (ha i hi).feed h.toCore _
  | turn => exact ha.turn hc h
  | take => exact ha.take ((takesAwake_world hc h.toCore).mp hok)

theorem Alert.responsive (hc : c.Admissible) (h : Inv c false s) (ha : s.Alert c) :
    (s.world c false).Responsive c := by
  have harmed : ∀ i < c.top, s.queues i ≠ [] → ¬ s.Full c (i + 1) → s.Armed i := by
    intro i hi hq hroom
    exact (ha i hi hq).resolve_right fun ⟨_, _, hfull⟩ => hroom hfull
  refine ⟨fun i hi hq n hn hpos => ?_, fun hidle hlast => ?_⟩
  · rw [queueAt_world hi.le] at hq
    obtain ⟨m, hm, hroom⟩ := space_buffer hc h.toCore hi
    obtain rfl := Option.some.inj (hn.symm.trans hm)
    exact harmed i hi hq (hroom.mp hpos)
  · rw [queueAt_world le_rfl] at hlast
    -- from the last buffer down: the one ahead is empty, so it has room, and nobody is armed
    have hempty : ∀ k i, i + k = c.top → s.queues i = [] := by
      intro k
      induction k with
      | zero =>
        intro i hi
        rw [show i = c.top from hi]
        exact hlast
      | succ k ih =>
        intro i hi
        have hlim := (Chain.limit_bounds hc (Nat.succ_pos i) (show i + 1 ≤ c.top by omega)).1
        refine Classical.byContradiction fun hq => h.loop.not_isArmed hidle i (harmed i (by omega) hq ?_)
        rw [Full, ih (i + 1) (by omega), List.length_nil]
        exact Nat.not_le.mpr hlim
    intro i hi
    rw [queueAt_world hi]
    exact hempty (c.top - i) i (by omega)

end Pipe

namespace Chain

variable {α : Type} {c : Chain α}

theorem take_asleep (hc : c.Admissible) {s : Pipe α} (h : Pipe.Inv c false s) (hbad : ¬ s.TakeWakes c) :
    ¬ ((s.take c).world c false).Responsive c := by
  obtain ⟨hfull, h1, hq, hunarmed⟩ := not_not.mp hbad
  intro hresp
  have hlast : c.top - 1 + 1 = c.top := by omega
  obtain ⟨n, hn, hroom⟩ := Pipe.space_buffer hc h.take.toCore (i := c.top - 1) (by omega)
  refine hunarmed (Pipe.armed_take.mp (hresp.armed (c.top - 1) (by omega) ?_ n hn (hroom.mpr ?_)))
  · rw [Pipe.queueAt_world (by omega), Pipe.queues_take (by omega)]
    exact hq
  · rw [hlast]
    exact Pipe.not_full_take hc h.toCore (by omega)

/-- **No lost wakeups, exactly when.** A chain that is taken from is responsive all along a run if and
only if every `take` of the run meets the condition. -/
theorem responsive_iff (c : Chain α) (hc : c.Admissible) (calls : List { call : Call α // call.Tame }) :
    ∃ taker w₀, c.finish false = some (some taker, w₀) ∧
      ((∀ done, done <+: calls → ∃ results w,
          Run.exec (fun w call => World.step (some taker) w call.1) w₀ done = some (results, w) ∧ w.Responsive c) ↔
        Run.Along (fun w call => World.step (some taker) w call.1) (fun w call => w.TakesAwake c call.1) w₀ calls) := by
  refine ⟨_, _, c.finish_world false, ?_⟩
  refine Run.exec_invariant_iff (World.Responsive c)
    (fun w => ∃ s, w = Pipe.world c false s ∧ Pipe.Inv c false s ∧ s.Alert c) ?_ ?_ ?_ calls _ ?_
  · rintro _ ⟨s, rfl, h, ha⟩
    exact ha.responsive hc h
  · rintro _ ⟨call, hcall⟩ ⟨s, rfl, h, ha⟩ hok
    exact ⟨_, _, Pipe.call_world hc h call, s.call c false call, rfl, h.call hc hcall, ha.call hc h call hok⟩
  · rintro _ ⟨call, hcall⟩ ⟨s, rfl, h, ha⟩ hbad
    cases call with
    | feed v => exact absurd trivial hbad
    | fail e => exact absurd trivial hbad
    | turn => exact absurd trivial hbad
    | take =>
      have hsleeps := take_asleep hc h fun hok => hbad ((Pipe.takesAwake_world hc h.toCore).mpr hok)
      exact ⟨_, _, Pipe.call_world hc h .take, hsleeps⟩
  · exact ⟨Pipe.empty, rfl, Pipe.empty_inv c false, fun i _ hq => absurd rfl hq⟩

def twoSlots : Chain Nat := (feeder.buffer 1).buffer 1

theorem twoSlots_admissible : twoSlots.Admissible := by simp [twoSlots, Admissible]

/-- Two of the takes find the last buffer full and an element behind it, which is armed. -/
def takes : List { call : Call Nat // call.Tame } :=
  [⟨.feed 1, trivial⟩, ⟨.feed 2, trivial⟩, ⟨.turn, trivial⟩, ⟨.turn, trivial⟩, ⟨.turn, trivial⟩, ⟨.take, trivial⟩,
    ⟨.take, trivial⟩, ⟨.turn, trivial⟩, ⟨.turn, trivial⟩, ⟨.feed 3, trivial⟩, ⟨.turn, trivial⟩, ⟨.take, trivial⟩]

theorem responsive_iff_twoSlots : ∃ taker w₀, twoSlots.finish false = some (some taker, w₀) ∧
    ∀ done, done <+: takes → ∃ results w,
      Run.exec (fun w call => World.step (some taker) w call.1) w₀ done = some (results, w) ∧
        w.Responsive twoSlots := by
  obtain ⟨taker, w₀, hfinish, hiff⟩ := responsive_iff twoSlots twoSlots_admissible takes
  have hawake : (twoSlots.finish false).map (fun r => decide (Run.Along (fun w call => World.step r.1 w call.1)
      (fun w call => w.TakesAwake twoSlots call.1) r.2 takes)) = some true := by decide
  rw [hfinish] at hawake
  exact ⟨taker, w₀, hfinish, hiff.mpr (of_decide_eq_true (Option.some.inj hawake))⟩

/-- Both buffers fill up and all events are spent; then the second element stays in the first buffer
although the second buffer is empty. -/
theorem responsive_fails : ∃ taker w₀ results w, twoSlots.finish false = some (taker, w₀) ∧
    Run.exec (World.step taker) w₀ [.feed 1, .feed 2, .turn, .turn, .turn, .turn, .turn, .take] = some (results, w) ∧
      ¬ w.Responsive twoSlots := by
  have hrun : ((twoSlots.finish false).bind fun r => (Run.exec (World.step r.1) r.2
      [.feed 1, .feed 2, .turn, .turn, .turn, .turn, .turn, .take]).map fun r =>
        (r.2.queueAt 1, r.2.space 2, r.2.isArmed 1)) = some ([.value 2], some 1, false) := by decide
  obtain ⟨⟨taker, w₀⟩, hfinish, hrun⟩ := Option.bind_eq_some_iff.mp hrun
  obtain ⟨⟨results, w⟩, hexec, hend⟩ := Option.map_eq_some_iff.mp hrun
  obtain ⟨hqueue, hend⟩ := Prod.mk.inj hend
  obtain ⟨hspace, hunarmed⟩ := Prod.mk.inj hend
  refine ⟨taker, w₀, results, w, hfinish, hexec, fun h => ?_⟩
  have harmed := h.armed 1 (by decide) (by rw [hqueue]; exact List.cons_ne_nil _ _) 1 hspace Nat.one_pos
  rw [hunarmed] at harmed
  cases harmed

end Chain

end Forstio
