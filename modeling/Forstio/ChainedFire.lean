import Forstio.Chained

/-!
# Firing in a chain

What a turn does to a chain that may have been cut: a buffer that is left with a
critical error drops what is behind it, the parent pulls from the fired node, and
the node behind may be woken.
-/

namespace Forstio

def StorageBody.drops {α : Type} : StorageBody α → Bool
  | sink _ => true
  | queueBuffer (some _) (x :: _) _ => x.isCritical
  | _ => false

namespace World

variable {α : Type} {c : Chain α} {sunk : Bool} {w : World α} {i : Nat} {n : StorageNode α}

/-! ## Counting -/

theorem queued_node (hn : w.nodes i = some n) (hfit : n.body.Fits c i) : w.queued i = some n.body.queued := by
  simp only [World.queued, hn, Option.bind_eq_bind, Option.bind_some]
  cases hbody : n.body with
  | merge _ _ => exact (hbody ▸ hfit : StorageBody.Fits c i (.merge _ _)).elim
  | _ => rfl

theorem Chained.queued (h : Chained c sunk w) (hn : w.nodes i = some n) :
    ∃ k, w.queued i = some k ∧ (0 < k ↔ w.queueAt i ≠ []) := by
  refine ⟨n.body.queued, queued_node hn (h.node i n hn).fits, ?_⟩
  rw [queueAt_node hn]
  exact (h.node i n hn).fits.queued_pos

/-- A node above the source has space, unless it is a full buffer. -/
theorem Chained.space (hc : c.Roomy) (h : Chained c sunk w) (hn : w.nodes i = some n) (h0 : 0 < i) :
    ∃ k, w.space i = some k ∧ (0 < k ↔ (i ≤ c.top → (w.queueAt i).length < c.limit i)) := by
  have hfit := (h.node i n hn).fits
  refine ⟨n.body.space, ?_, ?_⟩
  · rw [World.space, hn]
    rfl
  · rw [queueAt_node hn]
    cases hbody : n.body with
    | queueBuffer child st limit =>
      rw [hbody] at hfit
      obtain ⟨-, htop, rfl, hlen⟩ := hfit
      have hlimit := hc.limit_bounds h0 htop
      rw [StorageBody.space, sizeSub_eq hlen hlimit.2]
      simp only [htop, forall_const, StorageBody.queue]
      omega
    | sink child =>
      rw [hbody] at hfit
      have hi : i = c.top + 1 := hfit
      refine ⟨fun _ htop => absurd htop (by omega), fun _ => Nat.one_pos⟩
    | adapt st =>
      rw [hbody] at hfit
      exact absurd hfit (Nat.ne_of_gt h0)
    | immediate value retrieved =>
      rw [hbody] at hfit
      exact absurd hfit (Nat.ne_of_gt h0)
    | merge _ _ => exact (hbody ▸ hfit : StorageBody.Fits c i (.merge _ _)).elim
    | appendage _ _ _ => exact (hbody ▸ hfit : StorageBody.Fits c i (.appendage _ _ _)).elim

/-! ## Taking the event out -/

theorem Chained.relax (h : Chained c sunk w) {loop : EventLoop Nat} (hsound : loop.Sound)
    (harmed : ∀ a, loop.isArmed a → w.isArmed a) : Chained c sunk { w with loop := loop } :=
  ⟨hsound, h.size, fun j m hm => (h.node j m hm).of_live rfl rfl, h.above, h.last, fun j hj => h.ready j (harmed j hj),
    h.fed⟩

theorem Chained.extract (h : Chained c sunk w) {loop : EventLoop Nat} (ht : w.loop.turn = (some i, loop)) :
    Chained c sunk { w with loop := loop } ∧ loop.isArmed i = false ∧ (∀ a, loop.isArmed a → w.isArmed a) ∧
      ∃ n, w.nodes i = some n ∧ (n.parent ≠ none → n.body.queue ≠ []) := by
  obtain ⟨harmed, hsound, hrest⟩ := h.loop.turn (congrArg Prod.fst ht)
  rw [ht] at hsound hrest
  refine ⟨h.relax hsound fun a ha => ((hrest a).mp ha).2, ?_, fun a ha => ((hrest a).mp ha).2, h.ready i harmed⟩
  rw [← Bool.not_eq_true, hrest]
  exact fun hne => hne.1 rfl

/-! ## Firing into the parent -/

theorem Pulled.reloop {w' : World α} {x : ErrorOr α} {xs : List (ErrorOr α)} (h : Pulled c w i x xs w')
    (loop : EventLoop Nat) : Pulled c w i x xs { w' with loop := loop } :=
  ⟨h.live, h.instant, h.links, h.moved⟩

/-- `w'` is `w` after node `i` has fired into its parent, if it has one. -/
def Handed (c : Chain α) (w : World α) (i : Nat) (n : StorageNode α) (w' : World α) : Prop :=
  n.parent = none ∧ w' = w ∨
    n.parent = some (i + 1) ∧ ∃ x xs, n.body.queue = x :: xs ∧ Pulled c w i x xs w'

theorem Chained.hand (hc : c.Roomy) (h : Chained c sunk w) (hn : w.nodes i = some n) {p : Nat}
    (hp : n.parent = some p) (hready : n.parent ≠ none → n.body.queue ≠ []) (hu : w.isArmed i = false) :
    ∃ w' k s, w.childHasFired p = some w' ∧ w'.queued i = some k ∧ w'.space p = some s ∧
      (Chained c sunk w' ∧ Handed c w i n w' ∧ Stirred c w w' ∧ Unheld w w') ∧
      (0 < k → (Chained c sunk (w'.armLater i) ∧ Handed c w i n (w'.armLater i) ∧ Stirred c w (w'.armLater i) ∧
          (i ≠ 0 → Unheld w (w'.armLater i))) ∧
        (Chained c sunk (w'.armLast i) ∧ Handed c w i n (w'.armLast i) ∧ Stirred c w (w'.armLast i) ∧
          Unheld w (w'.armLast i))) := by
  obtain ⟨x, xs, hq⟩ := List.exists_cons_of_ne_nil (hready (by rw [hp]; exact Option.some_ne_none p))
  obtain ⟨w', hfired, h', hpulled, hstirred, hunheld⟩ := h.childHasFired hn hq hp hu
  obtain ⟨rfl, hlt, hi⟩ := h.top_of_parent hn hp
  have hlive := hpulled.live
  obtain ⟨n', hn'⟩ : ∃ n', w'.nodes i = some n' := by
    apply node_of_live
    rw [hlive]
    exact live_of_node hn
  obtain ⟨m', hm'⟩ : ∃ m', w'.nodes (i + 1) = some m' := by
    apply node_of_live
    rw [hlive]
    exact h.above i (live_of_node hn) hlt
  obtain ⟨k, hk, hpos⟩ := h'.queued hn'
  obtain ⟨s, hs, -⟩ := h'.space hc hm' (Nat.succ_pos i)
  have hhanded : ∀ loop, Handed c w i n { w' with loop := loop } := fun loop =>
    Or.inr ⟨hp, x, xs, hq, hpulled.reloop loop⟩
  refine ⟨w', k, s, hfired, hk, hs, ⟨h', hhanded w'.loop, hstirred, hunheld⟩, fun h0 => ?_⟩
  have hqueue : n'.body.queue ≠ [] := by
    rw [← queueAt_node hn']
    exact hpos.mp h0
  refine ⟨⟨h'.armLater hn' fun _ => hqueue, hhanded _, ?_, fun h0 hlater => ?_⟩,
    h'.armLast hn' fun _ => hqueue, hhanded _, ?_, fun hlater => ?_⟩
  · exact hstirred.trans (.arm (fun a => (h'.loop.isArmed_armLater i a).mp) hi)
  · exact hunheld (unheld_armLater h0 hlater)
  · exact hstirred.trans (.arm (fun a => (h'.loop.isArmed_armLast i a).mp) hi)
  · exact hunheld (unheld_armLast hlater)

section
variable (hc : c.Roomy) (h : Chained c sunk w) (hn : w.nodes i = some n)
  (hready : n.parent ≠ none → n.body.queue ≠ []) (hu : w.isArmed i = false)
include hc h hn hready hu

theorem Chained.fire_adapt :
    ∃ w', Adapt.fire w i n = some w' ∧ Chained c sunk w' ∧ Handed c w i n w' ∧ Stirred c w w' := by
  unfold Adapt.fire
  cases hp : n.parent with
  | none => exact ⟨w, rfl, h, Or.inl ⟨hp, rfl⟩, .refl⟩
  | some p =>
    obtain ⟨w', k, s, hfired, hk, -, hstay, harm⟩ := h.hand hc hn hp hready hu
    simp only [hfired, hk, Option.bind_eq_bind, Option.bind_some, Option.pure_def]
    by_cases h0 : 0 < k
    · rw [if_pos h0]
      obtain ⟨⟨h', hhanded, hstirred, -⟩, -⟩ := harm h0
      exact ⟨_, rfl, h', hhanded, hstirred⟩
    · rw [if_neg h0]
      obtain ⟨h', hhanded, hstirred, -⟩ := hstay
      exact ⟨_, rfl, h', hhanded, hstirred⟩

theorem Chained.fire_immediate : ∃ w', Immediate.fire w i n = some w' ∧ Chained c sunk w' ∧ Handed c w i n w' ∧
    Stirred c w w' ∧ Unheld w w' := by
  unfold Immediate.fire
  cases hp : n.parent with
  | none => exact ⟨w, rfl, h, Or.inl ⟨hp, rfl⟩, .refl, id⟩
  | some p =>
    obtain ⟨w', k, s, hfired, hk, hs, hstay, harm⟩ := h.hand hc hn hp hready hu
    simp only [hfired, hk, hs, Option.bind_eq_bind, Option.bind_some, Option.pure_def]
    by_cases h0 : 0 < k ∧ 0 < s
    · rw [if_pos h0]
      exact ⟨_, rfl, (harm h0.1).2⟩
    · rw [if_neg h0]
      exact ⟨_, rfl, hstay⟩

theorem Chained.fireParent (h0 : i ≠ 0) : ∃ w', QueueBuffer.fireParent w i n.parent = some w' ∧
    Chained c sunk w' ∧ Handed c w i n w' ∧ Stirred c w w' ∧ Unheld w w' := by
  unfold QueueBuffer.fireParent
  cases hp : n.parent with
  | none => exact ⟨w, rfl, h, Or.inl ⟨hp, rfl⟩, .refl, id⟩
  | some p =>
    obtain ⟨w', k, s, hfired, hk, hs, hstay, harm⟩ := h.hand hc hn hp hready hu
    simp only [hfired, hk, hs, Option.bind_eq_bind, Option.bind_some, Option.pure_def]
    by_cases hmore : 0 < k ∧ 0 < s
    · rw [if_pos hmore]
      obtain ⟨⟨h', hhanded, hstirred, hunheld⟩, -⟩ := harm hmore.1
      exact ⟨_, rfl, h', hhanded, hstirred, hunheld h0⟩
    · rw [if_neg hmore]
      exact ⟨_, rfl, hstay⟩

end

/-! ## Dropping the nodes behind a critical error -/

theorem Cut.unlink {w' : World α} (hcut : Cut w i w') (hn : w'.nodes i = some n) :
    Cut w i (w'.put i { n with childStorage := none }) := by
  refine ⟨hcut.delivered, fun j => ?_, fun j => ?_, ?_, hcut.later, hcut.armed, fun j k hj => ?_⟩
  · rw [live_put hn]
    exact hcut.live j
  · have hsame : (w'.put i { n with childStorage := none }).queueAt = w'.queueAt := queueAt_put_same hn rfl
    rw [hsame]
    exact hcut.queueAt j
  · have hsame : (w'.put i { n with childStorage := none }).instant = w'.instant := instant_put hn rfl
    rw [hsame]
    exact hcut.instant
  · by_cases hji : j = i
    · subst hji
      rw [links_node nodes_put_self] at hj
      cases hj
    · rw [links_put_ne hji] at hj
      exact hcut.links j k hj

theorem Cut.stirred {w' : World α} (hcut : Cut w i w') : Stirred c w w' := by
  refine ⟨?_, fun ha => Or.inl (hcut.armed _ ha)⟩
  rw [hcut.delivered]

theorem Cut.unheld {w' : World α} (hcut : Cut w i w') : Unheld w w' := fun hlater => hcut.later.symm.trans hlater

theorem cut_or_same {w' : World α} {kept cut : Prop} (h : kept ∧ w' = w ∨ cut ∧ Cut w i w') :
    Stirred c w w' ∧ Unheld w w' ∧ (∀ j, w'.isArmed j → w.isArmed j) ∧
      ∀ j k, w'.links j = some k → w.links j = some k := by
  rcases h with ⟨-, rfl⟩ | ⟨-, hcut⟩
  · exact ⟨Stirred.refl, fun hlater => hlater, fun _ => id, fun _ _ => id⟩
  · exact ⟨hcut.stirred, hcut.unheld, hcut.armed, hcut.links⟩

theorem Chained.dropCritical (h : Chained c sunk w) (hn : w.nodes i = some n)
    {child : Option (ConveyorNode α)} {st : List (ErrorOr α)} {limit : Nat}
    (hbody : n.body = .queueBuffer child st limit)
    (hspare : n.body.drops → ∀ j < i, w.loop.laterInsertPoint ≠ .next j) :
    ∃ w' n', QueueBuffer.dropCritical w i n = some w' ∧ Chained c sunk w' ∧ w'.nodes i = some n' ∧
      n'.parent = n.parent ∧ n'.body.queue = n.body.queue ∧
      (n.body.drops = false ∧ w' = w ∨ n.body.drops ∧ Cut w i w') := by
  obtain ⟨b, rfl⟩ : ∃ b, i = b + 1 := by
    have hf : (StorageBody.queueBuffer child st limit).Fits c i := hbody ▸ (h.node i n hn).fits
    exact ⟨i - 1, by have := hf.1; omega⟩
  by_cases hdrop : n.body.drops
  · obtain ⟨w', hreset, h', hcut⟩ := h.resetChild hn fun j hj => hspare hdrop j (Nat.lt_succ_of_le hj)
    obtain ⟨n', hn'⟩ : ∃ n', w'.nodes (b + 1) = some n' := by
      apply node_of_live
      rw [hcut.live, live_of_node hn, decide_eq_true (Nat.le_refl _)]
      rfl
    have hqueue : n'.body.queue = n.body.queue := by
      rw [← queueAt_node hn', hcut.queueAt, if_pos (Nat.le_refl _), queueAt_node hn]
    have hfit := h.node _ n hn
    have hfit' := h'.node _ n' hn'
    have hsize : w'.size = w.size := h'.size.trans h.size.symm
    have hparent : n'.parent = n.parent := by rw [hfit'.parent, hfit.parent, hsize]
    refine ⟨w'.put (b + 1) { n' with childStorage := none }, _, ?_, ?_, nodes_put_self, hparent, hqueue,
      Or.inr ⟨hdrop, hcut.unlink hn'⟩⟩
    · rw [hbody] at hdrop
      cases child with
      | none => cases hdrop
      | some child =>
        cases st with
        | nil => cases hdrop
        | cons x st =>
          have hx : x.isCritical = true := hdrop
          simp only [QueueBuffer.dropCritical, hbody, StorageBody.child, StorageBody.queue, hx, if_true, hreset,
            Option.bind_eq_bind, Option.bind_some, modify_eq hn']
    · refine h'.put hn' rfl hfit'.fits rfl (Or.inr rfl) fun ha hp => ?_
      obtain ⟨m, hm, hq⟩ := h'.ready _ ha
      obtain rfl := Option.some.inj (hn'.symm.trans hm)
      exact hq hp
  · refine ⟨w, n, ?_, h, hn, rfl, rfl, Or.inl ⟨Bool.not_eq_true _ ▸ hdrop, rfl⟩⟩
    rw [hbody] at hdrop
    cases child with
    | none => simp only [QueueBuffer.dropCritical, hbody, StorageBody.child]
    | some child =>
      cases st with
      | nil => simp only [QueueBuffer.dropCritical, hbody, StorageBody.child, StorageBody.queue]
      | cons x st =>
        have hx : ¬ x.isCritical = true := hdrop
        simp only [QueueBuffer.dropCritical, hbody, StorageBody.child, StorageBody.queue, if_neg hx]

/-! ## Waking the node behind -/

/-- An immediate node insists on space in its parent when it is woken. -/
theorem Chained.parentHasFired (hc : c.Roomy) (h : Chained c sunk w) (hn : w.nodes i = some n)
    (hlt : i + 1 < w.size)
    (hcalm : ∀ value retrieved, n.body = .immediate value retrieved → ∃ s, w.space (i + 1) = some s ∧ 0 < s) :
    ∃ loop, w.parentHasFired i = some { w with loop := loop } ∧ Chained c sunk { w with loop := loop } ∧
      Stirred c w { w with loop := loop } ∧ (i ≠ 0 → Unheld w { w with loop := loop }) := by
  have hfit := h.node i n hn
  have hparent : n.parent = some (i + 1) := hfit.parent.trans (if_pos hlt)
  obtain ⟨m, hm⟩ := node_of_live (h.above i (live_of_node hn) hlt)
  obtain ⟨s, hs, -⟩ := h.space hc hm (Nat.succ_pos i)
  have hi : i ≤ c.top := by
    have hsize := h.size
    have hle := Bool.toNat_le sunk
    omega
  have hstay : Chained c sunk w ∧ Stirred c w w ∧ (i ≠ 0 → Unheld w w) := ⟨h, .refl, fun _ => id⟩
  cases hbody : n.body with
  | adapt st =>
    refine ⟨w.loop, ?_, hstay⟩
    simp only [World.parentHasFired, eventParentHasFired, hn, hbody, hparent, hs, Option.bind_eq_bind,
      Option.bind_some, Option.pure_def]
  | queueBuffer child st limit =>
    simp only [World.parentHasFired, eventParentHasFired, hn, hbody, hparent, hs, Option.bind_eq_bind,
      Option.bind_some, Option.pure_def]
    by_cases hs0 : s = 0
    · refine ⟨w.loop, ?_, hstay⟩
      rw [if_pos hs0]
    · rw [if_neg hs0]
      by_cases h0 : 0 < st.length
      · rw [if_pos h0]
        have hqueue : n.body.queue ≠ [] := by
          rw [hbody]
          exact List.length_pos_iff.mp h0
        exact ⟨_, rfl, h.armLater hn fun _ => hqueue, .arm (fun a => (h.loop.isArmed_armLater i a).mp) hi,
          unheld_armLater⟩
      · rw [if_neg h0]
        exact ⟨w.loop, rfl, hstay⟩
  | sink child =>
    refine ⟨w.loop, ?_, hstay⟩
    simp only [World.parentHasFired, eventParentHasFired, hn, hbody, Option.bind_eq_bind, Option.bind_some,
      Option.pure_def]
  | immediate value retrieved =>
    obtain ⟨s', hs', hpos⟩ := hcalm value retrieved hbody
    have hzero : i = 0 := (hbody ▸ hfit.fits : StorageBody.Fits c i (.immediate value retrieved))
    have harm : 0 < n.body.queued → Chained c sunk (w.armNext i) := fun h0 =>
      h.armNext hn fun _ => hfit.fits.queued_pos.mp h0
    rw [hbody] at harm
    simp only [World.parentHasFired, eventParentHasFired, hn, hbody, hparent, hs', Option.bind_eq_bind,
      Option.bind_some, assert, hpos, if_true, Option.pure_def]
    by_cases h0 : 0 < (StorageBody.immediate value retrieved).queued
    · rw [if_pos h0]
      exact ⟨_, rfl, harm h0, .arm (fun a => (h.loop.isArmed_armNext i a).mp) hi, fun hne => absurd hzero hne⟩
    · rw [if_neg h0]
      exact ⟨w.loop, rfl, hstay⟩
  | merge _ _ => exact (hbody ▸ hfit.fits : StorageBody.Fits c i (.merge _ _)).elim
  | appendage _ _ _ => exact (hbody ▸ hfit.fits : StorageBody.Fits c i (.appendage _ _ _)).elim

/-! ## Firing -/

/-- The immediate node behind a full buffer is woken only if the parent takes something from the buffer. -/
def Calm (c : Chain α) (w : World α) (i : Nat) (n : StorageNode α) : Prop :=
  w.instant → n.childStorage = some 0 → c.limit i ≤ n.body.queue.length →
    n.parent ≠ none ∧ (i < c.top → (w.queueAt (i + 1)).length < c.limit (i + 1))

/-- `w'` is `w` after node `i` has fired. -/
def Fired (c : Chain α) (w : World α) (i : Nat) (n : StorageNode α) (w' : World α) : Prop :=
  ∃ w₁ w₂ loop, (n.body.drops = false ∧ w₁ = w ∨ n.body.drops ∧ Cut w i w₁) ∧ Handed c w₁ i n w₂ ∧
    w' = { w₂ with loop := loop }

theorem Handed.live {w' : World α} (h : Handed c w i n w') : w'.live = w.live := by
  rcases h with ⟨-, rfl⟩ | ⟨-, x, xs, -, hpulled⟩
  · rfl
  · exact hpulled.live

theorem Handed.instant {w' : World α} (h : Handed c w i n w') : w'.instant = w.instant := by
  rcases h with ⟨-, rfl⟩ | ⟨-, x, xs, -, hpulled⟩
  · rfl
  · exact hpulled.instant

theorem Handed.links {w' : World α} (h : Handed c w i n w') {j k : Nat} (hj : w'.links j = some k) :
    w.links j = some k := by
  rcases h with ⟨-, rfl⟩ | ⟨-, x, xs, -, hpulled⟩
  · exact hj
  · exact hpulled.links j k hj

theorem Fired.instant {w' : World α} (h : Fired c w i n w') (hw' : w'.instant) : w.instant := by
  obtain ⟨w₁, w₂, loop, hcut, hhanded, rfl⟩ := h
  have hw₁ : w₁.instant := by
    rw [← hhanded.instant]
    exact hw'
  rcases hcut with ⟨-, rfl⟩ | ⟨-, hcut⟩
  · exact hw₁
  · exact hcut.instant hw₁

theorem Fired.links {w' : World α} (h : Fired c w i n w') {j k : Nat} (hj : w'.links j = some k) :
    w.links j = some k := by
  obtain ⟨w₁, w₂, loop, hcut, hhanded, rfl⟩ := h
  have hw₁ : w₁.links j = some k := hhanded.links hj
  rcases hcut with ⟨-, rfl⟩ | ⟨-, hcut⟩
  · exact hw₁
  · exact hcut.links j k hw₁

theorem Handed.room {w' : World α} (h : Handed c w i n w') (hparent : n.parent ≠ none)
    (hroom : i < c.top → (w.queueAt (i + 1)).length < c.limit (i + 1)) (hq : w.queueAt i = n.body.queue) :
    (w'.queueAt i).length < (w.queueAt i).length := by
  rcases h with ⟨hnone, -⟩ | ⟨-, x, xs, hcons, hpulled⟩
  · exact absurd hnone hparent
  · rw [hq, hcons]
    rcases hpulled.moved with ⟨hi, hfull, -⟩ | ⟨-, -, -, hmoved, -⟩ | ⟨-, -, hmoved⟩
    · exact absurd (hroom hi) (Nat.not_lt.mpr hfull)
    · rw [hmoved, Function.update_of_ne (Nat.ne_of_lt (Nat.lt_succ_self i)), Function.update_self]
      exact Nat.lt_succ_self _
    · rw [hmoved, Function.update_self]
      exact Nat.lt_succ_self _

theorem Calm.wakes (hcalm : Calm c w 1 n) (hc : c.Roomy) (hn : w.nodes 1 = some n) {w₁ w₂ : World α}
    {n₂ : StorageNode α} (hw₁ : n.body.drops = false ∧ w₁ = w ∨ n.body.drops ∧ Cut w 1 w₁)
    (hq₁ : w₁.queueAt 1 = n.body.queue) (hhanded : Handed c w₁ 1 n w₂) (h₂ : Chained c sunk w₂)
    (hn₂ : w₂.nodes 1 = some n₂) (hstorage : n₂.childStorage = some 0) (hinstant : w₂.instant) (hlive : w₂.live 0)
    (hfull : c.limit 1 ≤ n.body.queue.length) (hlen : n.body.queue.length ≤ c.limit 1) :
    ∃ s, w₂.space 1 = some s ∧ 0 < s := by
  have hlinks : w₁.links 1 = some 0 := hhanded.links ((links_node hn₂).trans hstorage)
  rw [hhanded.instant] at hinstant
  obtain rfl : w₁ = w := by
    rcases hw₁ with ⟨-, hw₁⟩ | ⟨-, hcut⟩
    · exact hw₁
    · have hdead := hcut.live 0
      rw [← hhanded.live, hlive] at hdead
      cases hdead
  rw [links_node hn] at hlinks
  obtain ⟨hne, hroom⟩ := hcalm hinstant hlinks hfull
  obtain ⟨s, hs, hspace⟩ := h₂.space hc hn₂ Nat.one_pos
  refine ⟨s, hs, hspace.mpr fun _ => ?_⟩
  have hless := hhanded.room hne hroom hq₁
  rw [hq₁] at hless
  exact Nat.lt_of_lt_of_le hless hlen

section
variable (hc : c.Roomy) (h : Chained c sunk w) (hn : w.nodes i = some n)
  (hready : n.parent ≠ none → n.body.queue ≠ []) (hu : w.isArmed i = false)
  (hspare : n.body.drops → ∀ j < i, w.loop.laterInsertPoint ≠ .next j)
include hc h hn hready hu hspare

theorem Chained.fire_buffer {child : Option (ConveyorNode α)} {st : List (ErrorOr α)} {limit : Nat}
    (hbody : n.body = .queueBuffer child st limit) (hcalm : Calm c w i n) :
    ∃ w', QueueBuffer.fire w i n = some w' ∧ Chained c sunk w' ∧ Fired c w i n w' ∧ Stirred c w w' ∧
      (w.links 1 = none → Unheld w w') := by
  have hf : (StorageBody.queueBuffer child st limit).Fits c i := hbody ▸ (h.node i n hn).fits
  have h0 : 0 < i := hf.1
  obtain ⟨w₁, n₁, hdrop, h₁, hn₁, hparent, hqueue, hw₁⟩ := h.dropCritical hn hbody hspare
  obtain ⟨hstirred₁, hunheld₁, harmed₁, hlinks₁⟩ := cut_or_same (c := c) hw₁
  have hu₁ : w₁.isArmed i = false := by
    cases harmed : w₁.isArmed i with
    | false => rfl
    | true =>
      rw [harmed₁ i harmed] at hu
      cases hu
  obtain ⟨s, hs, hspace⟩ := h₁.space hc hn₁ h0
  have hready₁ : n₁.parent ≠ none → n₁.body.queue ≠ [] := by
    rw [hparent, hqueue]
    exact hready
  obtain ⟨w₂, hfired, h₂, hhanded, hstirred₂, hunheld₂⟩ :=
    h₁.fireParent hc hn₁ hready₁ hu₁ (Nat.ne_of_gt h0)
  have hstay : Stirred c w w₂ ∧ Unheld w w₂ :=
    ⟨hstirred₁.trans hstirred₂, fun hlater => hunheld₁ (hunheld₂ hlater)⟩
  rw [hparent] at hfired
  have hhanded' : Handed c w₁ i n w₂ := by
    unfold Handed at hhanded ⊢
    rwa [hparent, hqueue] at hhanded
  obtain ⟨n₂, hn₂⟩ : ∃ n₂, w₂.nodes i = some n₂ := by
    apply node_of_live
    rw [hhanded'.live]
    exact live_of_node hn₁
  simp only [QueueBuffer.fire, hdrop, hs, hfired, hn₂, Option.bind_eq_bind, Option.bind_some]
  cases hstorage : n₂.childStorage with
  | none => exact ⟨w₂, rfl, h₂, ⟨w₁, w₂, w₂.loop, hw₁, hhanded', rfl⟩, hstay.1, fun _ => hstay.2⟩
  | some k =>
    by_cases hspare₁ : 0 < s
    · simp only [hspare₁, decide_true, if_true]
      exact ⟨w₂, rfl, h₂, ⟨w₁, w₂, w₂.loop, hw₁, hhanded', rfl⟩, hstay.1, fun _ => hstay.2⟩
    · simp only [hspare₁, decide_false, Bool.false_eq_true, if_false]
      obtain ⟨rfl, hlive⟩ := (h₂.node i n₂ hn₂).storage k hstorage
      obtain ⟨m, hm⟩ := node_of_live hlive
      have hbelow := (h₂.node (k + 1) n₂ hn₂).below
      -- the immediate node stands at the bottom, and was there before
      have hwake : ∀ value retrieved, m.body = .immediate value retrieved →
          ∃ s, w₂.space (k + 1) = some s ∧ 0 < s := by
        intro value retrieved himm
        have hk : (StorageBody.immediate value retrieved).Fits c k := himm ▸ (h₂.node k m hm).fits
        obtain rfl : k = 0 := hk
        have hq₁ : w₁.queueAt 1 = n.body.queue := (queueAt_node hn₁).trans hqueue
        have hfull : c.limit 1 ≤ n.body.queue.length := by
          rw [hspace, hq₁] at hspare₁
          by_contra hlt
          exact hspare₁ fun _ => Nat.not_le.mp hlt
        have hlen : n.body.queue.length ≤ c.limit 1 := by
          rw [hbody]
          exact hf.2.2.2.trans_eq hf.2.2.1
        have hinstant : w₂.instant := by rw [World.instant, hm, Option.any_some, himm, StorageBody.isImmediate]
        exact hcalm.wakes hc hn hw₁ hq₁ hhanded' h₂ hn₂ hstorage hinstant (live_of_node hm) hfull hlen
      obtain ⟨loop, hwoken, h₃, hstirred₃, hunheld₃⟩ := h₂.parentHasFired hc hm hbelow hwake
      refine ⟨_, hwoken, h₃, ⟨w₁, w₂, loop, hw₁, hhanded', rfl⟩, hstay.1.trans hstirred₃, fun hlinks hlater => ?_⟩
      refine hstay.2 (hunheld₃ (fun hk => ?_) hlater)
      subst hk
      have hlinks₀ : w.links 1 = some 0 := hlinks₁ 1 0 (hhanded'.links ((links_node hn₂).trans hstorage))
      rw [hlinks₀] at hlinks
      cases hlinks

/-- **What firing does** to a chain. -/
theorem Chained.fire (hcalm : Calm c w i n) :
    ∃ w', w.fire i = some w' ∧ Chained c sunk w' ∧ Fired c w i n w' ∧ Stirred c w w' ∧
      (w.instant → w.links 1 = none → Unheld w w') := by
  have hfit := h.node i n hn
  simp only [World.fire, hn, Option.bind_eq_bind, Option.bind_some]
  cases hbody : n.body with
  | adapt st =>
    obtain ⟨w', hfired, h', hhanded, hstirred⟩ := h.fire_adapt hc hn hready hu
    refine ⟨w', hfired, h', ⟨w, w', w'.loop, Or.inl ⟨by rw [hbody]; rfl, rfl⟩, hhanded, rfl⟩, hstirred, fun hinstant => ?_⟩
    obtain rfl : i = 0 := (hbody ▸ hfit.fits : StorageBody.Fits c i (.adapt st))
    rw [World.instant, hn, Option.any_some, hbody] at hinstant
    cases hinstant
  | queueBuffer child st limit =>
    obtain ⟨w', hfired, h', hfires, hstirred, hunheld⟩ := h.fire_buffer hc hn hready hu hspare hbody hcalm
    exact ⟨w', hfired, h', hfires, hstirred, fun _ => hunheld⟩
  | sink child =>
    have hi : i = c.top + 1 := (hbody ▸ hfit.fits : StorageBody.Fits c i (.sink child))
    subst hi
    have hdrops : n.body.drops := by
      rw [hbody]
      rfl
    obtain ⟨w', hreset, h', hcut⟩ := h.resetChild hn fun j hj => hspare hdrops j (Nat.lt_succ_of_le hj)
    have hparent : n.parent = none := by
      have hsize := h.size
      have hle := Bool.toNat_le sunk
      exact hfit.parent.trans (if_neg (by omega))
    exact ⟨w', hreset, h', ⟨w', w', w'.loop, Or.inr ⟨hdrops, hcut⟩, Or.inl ⟨hparent, rfl⟩, rfl⟩, hcut.stirred,
      fun _ _ => hcut.unheld⟩
  | immediate value retrieved =>
    obtain ⟨w', hfired, h', hhanded, hstirred, hunheld⟩ := h.fire_immediate hc hn hready hu
    exact ⟨w', hfired, h', ⟨w, w', w'.loop, Or.inl ⟨by rw [hbody]; rfl, rfl⟩, hhanded, rfl⟩, hstirred, fun _ _ => hunheld⟩
  | merge _ _ => exact (hbody ▸ hfit.fits : StorageBody.Fits c i (.merge _ _)).elim
  | appendage _ _ _ => exact (hbody ▸ hfit.fits : StorageBody.Fits c i (.appendage _ _ _)).elim

end

/-- Whoever is about to drop nodes with their events does not drop the one that holds the later
insertion point, which its destructor would leave dangling. -/
def Spares (w : World α) : Prop :=
  ∀ i ∈ w.loop.head, ∀ n ∈ w.nodes i, n.body.drops → ∀ j < i, w.loop.laterInsertPoint ≠ .next j

instance : Decidable w.Spares :=
  inferInstanceAs (Decidable (∀ i ∈ w.loop.head, ∀ n ∈ w.nodes i, n.body.drops →
    ∀ j < i, w.loop.laterInsertPoint ≠ .next j))

theorem turn_later {loop : EventLoop Nat} (ht : w.loop.turn = (some i, loop)) {j : Nat}
    (hlater : loop.laterInsertPoint = .next j) : w.loop.laterInsertPoint = .next j := EventLoop.later_turn ht hlater

def Turned (c : Chain α) (w w' : World α) : Prop :=
  w' = w ∨ ∃ i n loop, w.loop.head = some i ∧ w.nodes i = some n ∧ Fired c { w with loop := loop } i n w'

/-- **One turn** of the loop. -/
theorem Chained.turn (hc : c.Roomy) (h : Chained c sunk w) (hspare : w.Spares)
    (hcalm : ∀ i n, w.loop.head = some i → w.nodes i = some n → Calm c w i n) :
    ∃ fired w', w.turn = some (fired, w') ∧ Chained c sunk w' ∧ Turned c w w' ∧ Stirred c w w' ∧
      (w.instant → w.links 1 = none → Unheld w w') := by
  unfold World.turn
  cases ht : w.loop.turn with
  | mk event loop =>
    cases event with
    | none => exact ⟨false, w, rfl, h, Or.inl rfl, .refl, fun _ _ => id⟩
    | some i =>
      have hhead := EventLoop.head_of_turn ht
      obtain ⟨h', hu, hextract, n, hn, hready⟩ := h.extract ht
      obtain ⟨w', hfired, h'', hw', hstirred, hunheld⟩ := h'.fire hc hn hready hu
        (fun hdrops j hj hlater => hspare i hhead n hn hdrops j hj (turn_later ht hlater)) (hcalm i n hhead hn)
      simp only [hfired, Option.bind_eq_bind, Option.bind_some, Option.pure_def]
      refine ⟨true, w', rfl, h'', Or.inr ⟨i, n, loop, hhead, hn, hw'⟩, ⟨hstirred.delivered, fun hsink => ?_⟩,
        fun hinstant hlinks hlater => turn_later ht (hunheld hinstant hlinks hlater)⟩
      exact (hstirred.sink hsink).imp_left (hextract _)

end World

end Forstio
