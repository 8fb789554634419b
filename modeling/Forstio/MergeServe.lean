import Forstio.Chained
import Forstio.Lib.RoundRobin
import Forstio.Lib.Run

/-!
# Which slot a merge node serves

The two loops of `getResult` are one round-robin search of the appendages from
`next_appendage` on. So the merge node passes a taken slot at most once in a
round, however the other slots are filled again in the meantime.
-/

namespace Forstio

namespace World

variable {α : Type}

def mergeAt (w : World α) (m : Nat) : Option (List Nat × Nat) :=
  match w.nodes m with
  | some ⟨_, _, .merge appendages nextAppendage⟩ => some (appendages, nextAppendage)
  | _ => none

def slotAt (w : World α) (a : Nat) : Option (Option (ErrorOr α)) :=
  match w.nodes a with
  | some ⟨_, _, .appendage _ _ errorOrValue⟩ => some errorOrValue
  | _ => none

def slotIn (w : World α) (appendages : List Nat) (k : Nat) : Option (Nat × ErrorOr α) :=
  appendages[k]?.bind fun a => (w.queueAt a).head?.map (a, ·)

/-- The appendages are owned by one vector, so they are storage nodes of their own. -/
structure Merges (w : World α) (m : Nat) (appendages : List Nat) (nextAppendage : Nat) : Prop where
  node : w.mergeAt m = some (appendages, nextAppendage)
  slots : ∀ a ∈ appendages, w.slotAt a ≠ none
  nodup : appendages.Nodup

section
variable {w : World α} {as : List Nat} {m next k a : Nat} {x : ErrorOr α} {n na : StorageNode α}

/-! ## The search -/

theorem findSlot_eq (w : World α) (as : List Nat) : ∀ n i : Nat,
    w.findSlot as n i = RoundRobin.scan (w.slotIn as) n i
  | 0, _ => rfl
  | n + 1, i => by
    unfold findSlot RoundRobin.scan slotIn
    rw [findSlot_eq w as n (i + 1)]
    cases as[i]?.bind fun a => (w.queueAt a).head?.map (a, ·) with
    | none => rfl
    | some r => rfl

theorem slotIn_some (h : w.slotIn as k = some (a, x)) : as[k]? = some a ∧ (w.queueAt a).head? = some x := by
  obtain ⟨a', ha, hhead⟩ := Option.bind_eq_some_iff.mp h
  obtain ⟨x', hx, heq⟩ := Option.map_eq_some_iff.mp hhead
  cases heq
  exact ⟨ha, hx⟩

theorem slotIn_of_head (ha : as[k]? = some a) (hx : (w.queueAt a).head? = some x) : w.slotIn as k = some (a, x) := by
  simp only [slotIn, ha, Option.bind_some, hx, Option.map_some]

theorem getMerged_serve (hn : w.nodes m = some n) (hna : w.nodes a = some na) (hne : a ≠ m)
    (h : RoundRobin.serve (w.slotIn as) as.length next = some (k, a, x)) : w.getMerged m as next =
      some (x, (w.put a { na with body := na.body.clear }).put m { n with body := .merge as (k + 1) }) := by
  have hn' : (w.put a { na with body := na.body.clear }).nodes m = some n := (nodes_put_ne hne.symm).trans hn
  unfold RoundRobin.serve at h
  simp only [getMerged, findSlot_eq, h, Option.bind_eq_bind, Option.bind_some, setBody_eq hna, setBody_eq hn',
    Option.pure_def]

theorem exists_serve (ha : a ∈ as) (hx : (w.queueAt a).head? = some x) (next : Nat) : ∃ k a x, as[k]? = some a ∧
    (w.queueAt a).head? = some x ∧ RoundRobin.serve (w.slotIn as) as.length next = some (k, a, x) := by
  obtain ⟨j, hj, hja⟩ := List.mem_iff_getElem.mp ha
  have hfull : w.slotIn as j ≠ none := by
    rw [slotIn_of_head ((List.getElem?_eq_getElem hj).trans (congrArg some hja)) hx]
    exact Option.some_ne_none _
  obtain ⟨k, ⟨a', x'⟩, hserve⟩ : ∃ k r, RoundRobin.serve (w.slotIn as) as.length next = some (k, r) :=
    RoundRobin.exists_serve hj hfull
  obtain ⟨ha', hx'⟩ := slotIn_some (RoundRobin.serve_some hserve).2.1
  exact ⟨k, a', x', ha', hx', hserve⟩

/-- The merge node hands out what is in slot `a`, which is empty then; nothing else changes but `next_appendage`. -/
structure Serves (m : Nat) (appendages : List Nat) (w : World α) (a : Nat) (x : ErrorOr α) (w' : World α) : Prop where
  mem : a ∈ appendages
  taken : w.slotAt a = some (some x)
  result : w.getResult (.storage m) = some (x, w')
  emptied : w'.slotAt a = some none
  others : ∀ i, i ≠ m → i ≠ a → w'.nodes i = w.nodes i
  node : ∃ nextAppendage, w'.mergeAt m = some (appendages, nextAppendage)
  rest : w'.loop = w.loop ∧ w'.delivered = w.delivered

/-! ## One call -/

theorem mergeAt_some (h : w.mergeAt m = some (as, next)) : ∃ n, w.nodes m = some n ∧ n.body = .merge as next := by
  unfold mergeAt at h
  split at h
  · next hn =>
    cases h
    exact ⟨_, hn, rfl⟩
  · cases h

theorem mergeAt_node (hn : w.nodes m = some n) (hbody : n.body = .merge as next) : w.mergeAt m = some (as, next) := by
  obtain ⟨parent, childStorage, body⟩ := n
  cases hbody
  simp only [mergeAt, hn]

theorem slotAt_some {slot : Option (ErrorOr α)} (h : w.slotAt a = some slot) :
    ∃ n child merger, w.nodes a = some n ∧ n.body = .appendage child merger slot := by
  unfold slotAt at h
  split at h
  · next hn =>
    cases h
    exact ⟨_, _, _, hn, rfl⟩
  · cases h

theorem slotAt_node {child : ConveyorNode α} {merger : Nat} {slot : Option (ErrorOr α)} (hn : w.nodes a = some n)
    (hbody : n.body = .appendage child merger slot) : w.slotAt a = some slot := by
  obtain ⟨parent, childStorage, body⟩ := n
  cases hbody
  simp only [slotAt, hn]

theorem slotAt_congr {w' : World α} (h : w'.nodes a = w.nodes a) : w'.slotAt a = w.slotAt a := by
  unfold slotAt
  rw [h]

theorem head_queueAt (h : w.slotAt a ≠ none) : (w.queueAt a).head? = some x ↔ w.slotAt a = some (some x) := by
  obtain ⟨slot, hslot⟩ := Option.ne_none_iff_exists'.mp h
  obtain ⟨n, child, merger, hn, hbody⟩ := slotAt_some hslot
  rw [queueAt_node hn, hbody, hslot]
  cases slot with
  | none => simp [StorageBody.queue]
  | some y => simp [StorageBody.queue]

theorem Merges.ne (h : w.Merges m as next) (ha : a ∈ as) : a ≠ m := by
  intro heq
  obtain ⟨n, hn, hbody⟩ := mergeAt_some h.node
  obtain ⟨slot, hslot⟩ := Option.ne_none_iff_exists'.mp (h.slots a ha)
  obtain ⟨n', child, merger, hn', hbody'⟩ := slotAt_some hslot
  rw [heq, hn] at hn'
  rw [← Option.some.inj hn', hbody] at hbody'
  cases hbody'

theorem Merges.serves (h : w.Merges m as next)
    (hserve : RoundRobin.serve (w.slotIn as) as.length next = some (k, a, x)) :
    ∃ w', Serves m as w a x w' ∧ w'.Merges m as (k + 1) := by
  obtain ⟨hk, hx⟩ := slotIn_some (RoundRobin.serve_some hserve).2.1
  have ha : a ∈ as := List.mem_of_getElem? hk
  have htaken := (head_queueAt (h.slots a ha)).mp hx
  obtain ⟨⟨p, c, body⟩, hn, rfl⟩ := mergeAt_some h.node
  obtain ⟨⟨pa, ca, bodya⟩, child, merger, hna, rfl⟩ := slotAt_some htaken
  have hresult := getMerged_serve hn hna (h.ne ha) hserve
  simp only [StorageBody.clear] at hresult
  generalize hw' : (w.put a _).put m _ = w' at hresult
  have hm : w'.nodes m = some ⟨p, c, .merge as (k + 1)⟩ := hw' ▸ nodes_put_self
  have hothers : ∀ i, i ≠ m → i ≠ a → w'.nodes i = w.nodes i := by
    intro i him hia
    rw [← hw', nodes_put_ne him, nodes_put_ne hia]
  have hna' : w'.nodes a = some ⟨pa, ca, .appendage child merger none⟩ := by
    rw [← hw', nodes_put_ne (h.ne ha), nodes_put_self]
  have hemptied : w'.slotAt a = some none := slotAt_node hna' rfl
  refine ⟨w', ⟨ha, htaken, ?_, hemptied, hothers, ⟨k + 1, mergeAt_node hm rfl⟩, ?_⟩, mergeAt_node hm rfl, ?_, h.nodup⟩
  · simp only [getResult, hn, Option.bind_eq_bind, Option.bind_some]
    exact hresult
  · rw [← hw']
    exact ⟨rfl, rfl⟩
  · intro b hb
    by_cases hba : b = a
    · rw [hba, hemptied]
      exact Option.some_ne_none _
    · rw [slotAt_congr (hothers b (h.ne hb) hba)]
      exact h.slots b hb

theorem Merges.exists_serve (h : w.Merges m as next) (ha : a ∈ as) (hx : w.slotAt a = some (some x)) :
    ∃ k a x w', RoundRobin.serve (w.slotIn as) as.length next = some (k, a, x) ∧ Serves m as w a x w' ∧
      w'.Merges m as (k + 1) := by
  obtain ⟨k, a', x', -, -, hserve⟩ := World.exists_serve ha ((head_queueAt (h.slots a ha)).mpr hx) next
  obtain ⟨w', hserves, hmerges⟩ := h.serves hserve
  exact ⟨k, a', x', w', hserve, hserves, hmerges⟩

theorem Merges.getResult (h : w.Merges m as next) :
    ∃ x w' next', w.getResult (.storage m) = some (x, w') ∧ w'.Merges m as next' := by
  cases hserve : RoundRobin.serve (w.slotIn as) as.length next with
  | some r =>
    obtain ⟨w', hserves, hmerges⟩ := h.serves hserve
    exact ⟨_, w', _, hserves.result, hmerges⟩
  | none =>
    obtain ⟨⟨p, c, body⟩, hn, rfl⟩ := mergeAt_some h.node
    unfold RoundRobin.serve at hserve
    refine ⟨.error (criticalError "No value in Merge Appendages"),
      w.put m ⟨p, c, .merge as (min as.length next)⟩, min as.length next, ?_,
      mergeAt_node nodes_put_self rfl, fun b hb => ?_, h.nodup⟩
    · simp only [World.getResult, hn, Option.bind_eq_bind, Option.bind_some, getMerged, findSlot_eq, hserve,
        setBody_eq hn, Option.pure_def]
    · rw [slotAt_congr (nodes_put_ne (h.ne hb))]
      exact h.slots b hb

end

end World

/-! ## Many calls -/

/-- `meanwhile w'`: the world has become `w'` when `getResult` is called again. -/
inductive MergeCall (α : Type) where
  | getResult
  | meanwhile (w' : World α)

namespace MergeCall

variable {α : Type}

def isGetResult : MergeCall α → Bool
  | getResult => true
  | meanwhile _ => false

end MergeCall

namespace World

variable {α : Type}

def mergeStep (m : Nat) (w : World α) : MergeCall α → Option (Option (ErrorOr α) × World α)
  | .getResult => do
    let (x, w) ← w.getResult (.storage m)
    return (some x, w)
  | .meanwhile w' => return (none, w')

/-- Nothing is attached, and a slot is empty or left as it is. -/
structure Refills (m : Nat) (appendages : List Nat) (w w' : World α) : Prop where
  node : w'.mergeAt m = w.mergeAt m
  slots : ∀ a ∈ appendages, w'.slotAt a ≠ none
  kept : ∀ a ∈ appendages, w.slotAt a = some none ∨ w'.slotAt a = w.slotAt a

def Undisturbed (m : Nat) (appendages : List Nat) (w : World α) : MergeCall α → Prop
  | .getResult => True
  | .meanwhile w' => Refills m appendages w w'

instance [DecidableEq α] (m : Nat) (appendages : List Nat) (w : World α) :
    ∀ call, Decidable (Undisturbed m appendages w call)
  | .getResult => isTrue trivial
  | .meanwhile w' =>
    decidable_of_iff (w'.mergeAt m = w.mergeAt m ∧ ∀ a ∈ appendages, w'.slotAt a ≠ none ∧
        (w.slotAt a = some none ∨ w'.slotAt a = w.slotAt a))
      ⟨fun h => ⟨h.1, fun a ha => (h.2 a ha).1, fun a ha => (h.2 a ha).2⟩,
        fun h => ⟨h.node, fun a ha => ⟨h.slots a ha, h.kept a ha⟩⟩⟩

section
variable {w w' : World α} {as : List Nat} {m next a j : Nat} {x : ErrorOr α} {n : StorageNode α} {call : MergeCall α}

theorem Refills.taken (h : Refills m as w w') (ha : a ∈ as) (hx : w.slotAt a = some (some x)) :
    w'.slotAt a = some (some x) := by
  rcases h.kept a ha with hempty | hkept
  · rw [hempty] at hx
    cases hx
  · exact hkept.trans hx

theorem Refills.merges (h : Refills m as w w') (hw : w.Merges m as next) : w'.Merges m as next :=
  ⟨h.node.trans hw.node, h.slots, hw.nodup⟩

theorem Merges.step (h : w.Merges m as next) (hcall : Undisturbed m as w call) :
    ∃ result w' next', mergeStep m w call = some (result, w') ∧ w'.Merges m as next' := by
  cases call with
  | getResult =>
    obtain ⟨x, w', next', hresult, hw'⟩ := h.getResult
    refine ⟨some x, w', next', ?_, hw'⟩
    simp only [mergeStep, hresult, Option.bind_eq_bind, Option.bind_some, Option.pure_def]
  | meanwhile w' => exact ⟨none, w', next, rfl, hcall.merges h⟩

theorem childHasFired_appendage {child : ConveyorNode α} {merger : Nat} {w₁ : World α} {n₁ : StorageNode α}
    (hn : w.nodes a = some n) (hbody : n.body = .appendage child merger none) (hget : w.getResult child = some (x, w₁))
    (hn₁ : w₁.nodes a = some n₁) : ∃ w', w.childHasFired a = some w' ∧
      w'.nodes = (w₁.put a { n₁ with body := .appendage child merger (some x) }).nodes := by
  simp only [childHasFired, hn, hbody, Option.bind_eq_bind, Option.bind_some, assert, Option.isNone_none, if_true, hget,
    setBody_eq hn₁, Option.pure_def]
  by_cases harmed : (w₁.put a { n₁ with body := .appendage child merger (some x) }).isArmed merger
  · exact ⟨_, rfl, by rw [if_pos harmed]⟩
  · exact ⟨_, rfl, by rw [if_neg harmed]; rfl⟩

/-- **A source that fires fills its empty slot** and no other, as long as pulling from it leaves the merge alone. -/
theorem Merges.childHasFired (h : w.Merges m as next) (ha : a ∈ as) {child : ConveyorNode α} {merger : Nat}
    (hn : w.nodes a = some n) (hbody : n.body = .appendage child merger none) {w₁ : World α}
    (hget : w.getResult child = some (x, w₁)) (hsource : Refills m as w w₁) :
    ∃ w', w.childHasFired a = some w' ∧ Refills m as w w' ∧ w'.slotAt a = some (some x) := by
  obtain ⟨slot, hslot⟩ := Option.ne_none_iff_exists'.mp (hsource.slots a ha)
  obtain ⟨n₁, -, -, hn₁, -⟩ := slotAt_some hslot
  obtain ⟨w', hfired, hnodes⟩ := childHasFired_appendage hn hbody hget hn₁
  have hfilled : w'.slotAt a = some (some x) := slotAt_node ((congrFun hnodes a).trans nodes_put_self) rfl
  have hothers : ∀ i, i ≠ a → w'.nodes i = w₁.nodes i := fun i hi => (congrFun hnodes i).trans (nodes_put_ne hi)
  refine ⟨w', hfired, ⟨?_, fun b hb => ?_, fun b hb => ?_⟩, hfilled⟩
  · rw [← hsource.node]
    unfold mergeAt
    rw [hothers m (h.ne ha).symm]
  · by_cases hba : b = a
    · rw [hba, hfilled]
      exact Option.some_ne_none _
    · rw [slotAt_congr (hothers b hba)]
      exact hsource.slots b hb
  · by_cases hba : b = a
    · exact Or.inl (hba ▸ slotAt_node hn hbody)
    · rw [slotAt_congr (hothers b hba)]
      exact hsource.kept b hb

def waits (m : Nat) (appendages : List Nat) (j : Nat) (w : World α) : Nat :=
  (w.mergeAt m).elim 0 fun r => RoundRobin.ahead appendages.length r.2 j

theorem Merges.waits (h : w.Merges m as next) : w.waits m as j = RoundRobin.ahead as.length next j := by
  rw [World.waits, h.node, Option.elim_some]

/-- **One call brings a taken slot nearer**, unless it serves it. -/
theorem Merges.step_waits (h : w.Merges m as next) (hj : as[j]? = some a) (hx : w.slotAt a = some (some x))
    (hcall : Undisturbed m as w call) (hgoal : ¬ (call = .getResult ∧ ∃ w', Serves m as w a x w')) :
    ∃ result w' next', mergeStep m w call = some (result, w') ∧ w'.Merges m as next' ∧
      w'.slotAt a = some (some x) ∧ w'.waits m as j + call.isGetResult.toNat ≤ w.waits m as j := by
  have ha : a ∈ as := List.mem_of_getElem? hj
  cases call with
  | meanwhile w' =>
    have hw' := hcall.merges h
    refine ⟨none, w', next, rfl, hw', hcall.taken ha hx, ?_⟩
    rw [hw'.waits, h.waits]
    exact Nat.le_refl _
  | getResult =>
    obtain ⟨k, b, y, w', hserve, hserves, hw'⟩ := h.exists_serve ha hx
    obtain ⟨hk, hfound, hfirst⟩ := RoundRobin.serve_some hserve
    have hkb := (slotIn_some hfound).1
    have hba : b ≠ a := by
      rintro rfl
      have heq := hserves.taken.symm.trans hx
      rw [Option.some.injEq, Option.some.injEq] at heq
      exact hgoal ⟨rfl, w', heq ▸ hserves⟩
    have hkj : k ≠ j := by
      rintro rfl
      exact hba (Option.some.inj (hkb.symm.trans hj))
    have hjn : j < as.length := (List.getElem?_eq_some_iff.mp hj).1
    have hfull : w.slotIn as j ≠ none := by
      rw [slotIn_of_head hj ((head_queueAt (h.slots a ha)).mpr hx)]
      exact Option.some_ne_none _
    refine ⟨some y, w', k + 1, ?_, hw', ?_, ?_⟩
    · simp only [mergeStep, hserves.result, Option.bind_eq_bind, Option.bind_some, Option.pure_def]
    · rw [slotAt_congr (hserves.others a (h.ne ha) hba.symm)]
      exact hx
    · rw [hw'.waits, h.waits]
      exact RoundRobin.ahead_next hk hjn hkj (hfirst j hjn hfull)

theorem Merges.run (h : w.Merges m as next) (calls : List (MergeCall α))
    (hcalls : Run.Along (mergeStep m) (Undisturbed m as) w calls) :
    ∃ results w' next', Run.exec (mergeStep m) w calls = some (results, w') ∧ w'.Merges m as next' := by
  have hstep : ∀ (w : World α) (call : MergeCall α), (∃ next, w.Merges m as next) → Undisturbed m as w call →
      ∃ result w', mergeStep m w call = some (result, w') ∧ ∃ next, w'.Merges m as next := by
    intro w call hw hcall
    obtain ⟨next, hw⟩ := hw
    obtain ⟨result, w', next', hstep, hw'⟩ := hw.step hcall
    exact ⟨result, w', hstep, next', hw'⟩
  obtain ⟨results, w', hrun, next', hw'⟩ := Run.exec_invariant _ _ hstep calls w ⟨next, h⟩ hcalls
  exact ⟨results, w', next', hrun, hw'⟩

/-- **Bounded waiting.** A taken slot is served by one of the next calls, at most as many as there are appendages. -/
theorem Merges.awaits (h : w.Merges m as next) (ha : a ∈ as) (hx : w.slotAt a = some (some x))
    (calls : List (MergeCall α)) (hcalls : Run.Along (mergeStep m) (Undisturbed m as) w calls)
    (hmany : as.length ≤ calls.countP MergeCall.isGetResult) :
    ∃ mid rest results w₁ w₂, calls = mid ++ .getResult :: rest ∧ mid.countP MergeCall.isGetResult < as.length ∧
      Run.exec (mergeStep m) w mid = some (results, w₁) ∧ Serves m as w₁ a x w₂ := by
  obtain ⟨j, hjn, hja⟩ := List.mem_iff_getElem.mp ha
  have hj : as[j]? = some a := (List.getElem?_eq_getElem hjn).trans (congrArg some hja)
  have hwaits : w.waits m as j < as.length := h.waits ▸ RoundRobin.ahead_lt hjn
  have hstep : ∀ (w : World α) (call : MergeCall α), (∃ next, w.Merges m as next ∧ w.slotAt a = some (some x)) →
      Undisturbed m as w call → ¬ (call = .getResult ∧ ∃ w', Serves m as w a x w') →
      ∃ result w', mergeStep m w call = some (result, w') ∧
        (∃ next, w'.Merges m as next ∧ w'.slotAt a = some (some x)) ∧
        w'.waits m as j + call.isGetResult.toNat ≤ w.waits m as j := by
    intro w call hw hcall hgoal
    obtain ⟨next, hw, hx⟩ := hw
    obtain ⟨result, w', next', hstep, hw', hx', hle⟩ := hw.step_waits hj hx hcall hgoal
    exact ⟨result, w', hstep, ⟨next', hw', hx'⟩, hle⟩
  obtain ⟨mid, call, rest, results, w₁, rfl, hrun, -, ⟨rfl, w₂, hserves⟩, hmid⟩ := Run.exec_reaches _ (World.waits m as j)
    MergeCall.isGetResult hstep calls w ⟨next, h, hx⟩ hcalls (Nat.lt_of_lt_of_le hwaits hmany)
  exact ⟨mid, rest, results, w₁, w₂, rfl, Nat.lt_of_le_of_lt hmid hwaits, hrun, hserves⟩

/-- **A merge node serves its slots fairly and drops nothing.** -/
theorem merge_serves_fairly (h : w.Merges m as next) (before after : List (MergeCall α))
    (hcalls : Run.Along (mergeStep m) (Undisturbed m as) w (before ++ after)) :
    ∃ results w₁, Run.exec (mergeStep m) w before = some (results, w₁) ∧
      ((∃ a ∈ as, ∃ x, w₁.slotAt a = some (some x)) → ∃ a x w₂, Serves m as w₁ a x w₂) ∧
      ∀ a ∈ as, ∀ x, w₁.slotAt a = some (some x) → as.length ≤ after.countP MergeCall.isGetResult →
        ∃ mid rest results' w₂ w₃, after = mid ++ .getResult :: rest ∧
          mid.countP MergeCall.isGetResult < as.length ∧
          Run.exec (mergeStep m) w₁ mid = some (results', w₂) ∧ Serves m as w₂ a x w₃ := by
  obtain ⟨results, w₁, next', hrun, hw₁⟩ := h.run before (hcalls.initial (List.prefix_append before after))
  refine ⟨results, w₁, hrun, ?_, ?_⟩
  · intro htaken
    obtain ⟨a, ha, x, hx⟩ := htaken
    obtain ⟨-, b, y, w₂, -, hserves, -⟩ := hw₁.exists_serve ha hx
    exact ⟨b, y, w₂, hserves⟩
  · intro a ha x hx hmany
    exact hw₁.awaits ha hx after (hcalls.of_append hrun) hmany

def ofSlots (slots : List (Option (ErrorOr Nat))) (nextAppendage : Nat) : World Nat :=
  ⟨EventLoop.new, fun i =>
    if i = 0 then some ⟨none, none, .merge (List.range' 1 slots.length) nextAppendage⟩
    else slots[i - 1]?.map fun slot => ⟨none, none, .appendage (.storage i) 0 slot⟩,
    slots.length + 1, [], false⟩

/-- The first source fills its slot again at once, and the second comes next all the same. -/
theorem merge_serves_fairly_refilled : ∃ mid rest results w₁ w₂,
    [.getResult, .meanwhile (ofSlots [some (.value 3), some (.value 2)] 1), .getResult] =
      mid ++ MergeCall.getResult :: rest ∧
    mid.countP MergeCall.isGetResult < 2 ∧
    Run.exec (mergeStep 0) (ofSlots [some (.value 1), some (.value 2)] 7) mid = some (results, w₁) ∧
    Serves 0 [1, 2] w₁ 2 (.value 2) w₂ := by
  have h : (ofSlots [some (.value 1), some (.value 2)] 7).Merges 0 [1, 2] 7 := ⟨rfl, by decide, by decide⟩
  obtain ⟨results, w₁, hrun, -, hfair⟩ := merge_serves_fairly h []
    [.getResult, .meanwhile (ofSlots [some (.value 3), some (.value 2)] 1), .getResult] (by decide)
  cases hrun
  exact hfair 2 (by decide) (.value 2) rfl (by decide)

end

end World

end Forstio
