import Forstio.ChainRun
import Forstio.Traced

/-!
# Immediate values through buffers

A chain of buffers on an immediate value, which hands out its value and then one
`Exhausted` error. A full buffer wakes the immediate node when it has fired,
whether or not anybody took from the buffer; without a parent nobody does, and the
immediate node asserts that there is space.
-/

namespace Forstio

namespace Chain

variable {α : Type}

/-- Buffers only. -/
def Plain : Chain α → Prop
  | feeder => True
  | «then» _ _ => False
  | buffer c _ => c.Plain

/-- The chain on an immediate value in the place of the feeder. -/
def buildOn (value : ErrorOr α) : Chain α → Option (Conveyor α × World α)
  | feeder => some (Conveyor.ofResult World.new value)
  | «then» c func => do
    let (conveyor, w) ← c.buildOn value
    return (conveyor.then func, w)
  | buffer c limit => do
    let (conveyor, w) ← c.buildOn value
    conveyor.buffer w limit

def finishOn (c : Chain α) (value : ErrorOr α) (sunk : Bool) : Option (Option (Conveyor α) × World α) := do
  let (conveyor, w) ← c.buildOn value
  if sunk then
    let (_, w) ← conveyor.sink w
    return (none, w)
  else return (some conveyor, w)

/-! ## Chains without functions -/

theorem Plain.post : ∀ {c : Chain α}, c.Plain → c.post = id
  | feeder, _ => rfl
  | buffer _ _, _ => rfl

theorem Plain.apply : ∀ {c : Chain α}, c.Plain → c.apply = id
  | feeder, _ => rfl
  | buffer c _, hc => Plain.apply (c := c) hc

theorem Plain.upTo : ∀ {c : Chain α}, c.Plain → ∀ i, (c.upTo i).Plain
  | feeder, _, _ => trivial
  | buffer c limit, hc, i => by
    unfold Chain.upTo
    split
    · exact hc
    · exact Plain.upTo (c := c) hc i

theorem Plain.part {c d : Chain α} (hd : d.Part c) (hc : c.Plain) : d.Plain := by
  induction hd with
  | refl => exact hc
  | «then» _ _ _ => exact hc.elim
  | buffer _ _ ih => exact ih hc

def flow (q : Nat → List (ErrorOr α)) : Nat → List (ErrorOr α)
  | 0 => q 0
  | i + 1 => q (i + 1) ++ flow q i

theorem Plain.pending {q : Nat → List (ErrorOr α)} : ∀ {c : Chain α}, c.Plain → c.pending q = flow q c.top
  | feeder, _ => rfl
  | buffer c _, hc => by
    unfold Chain.pending
    rw [Plain.pending (c := c) hc]
    rfl

section
variable {q : Nat → List (ErrorOr α)}

theorem flow_suffix {i : Nat} : ∀ {k : Nat}, i ≤ k → flow q i <:+ flow q k
  | 0, h => by rw [Nat.le_zero.mp h]
  | k + 1, h => by
    by_cases hi : i = k + 1
    · rw [hi]
    · exact (flow_suffix (k := k) (by omega)).trans (List.suffix_append _ _)

theorem flow_ne_nil {j k : Nat} (hj : j ≤ k) (hq : q j ≠ []) : flow q k ≠ [] := by
  obtain ⟨before, hflow⟩ := flow_suffix (q := q) hj
  rw [← hflow]
  cases j with
  | zero => exact List.append_ne_nil_of_right_ne_nil _ hq
  | succ j => exact List.append_ne_nil_of_right_ne_nil _ (List.append_ne_nil_of_left_ne_nil hq _)

theorem flow_ahead {i j k : Nat} {x : ErrorOr α} {xs : List (ErrorOr α)} (hi : i ≤ k) (hj : j < i) (hx : q i = x :: xs)
    (hq : q j ≠ []) : ∃ before behind, flow q k = before ++ x :: behind ∧ behind ≠ [] := by
  obtain ⟨before, hflow⟩ := flow_suffix (q := q) hi
  obtain ⟨b, rfl⟩ : ∃ b, i = b + 1 := ⟨i - 1, by omega⟩
  refine ⟨before, xs ++ flow q b, ?_, List.append_ne_nil_of_right_ne_nil _ (flow_ne_nil (by omega) hq)⟩
  rw [← hflow, flow, hx, List.cons_append]

theorem flow_cut {r : Nat → List (ErrorOr α)} (hq : ∀ i, 0 < i → r i = q i) (h0 : r 0 = []) :
    ∀ k, flow r k ++ q 0 = flow q k
  | 0 => by
    rw [flow, h0]
    rfl
  | k + 1 => by
    rw [flow, flow, hq (k + 1) (Nat.succ_pos k), List.append_assoc, flow_cut hq h0 k]

end

end Chain

namespace World

variable {α : Type} {c : Chain α} {sunk : Bool} {w w' : World α} {v : ErrorOr α}

def account (c : Chain α) (w : World α) : List (ErrorOr α) := w.delivered ++ c.pending w.queueAt

theorem Traced.account (hc : c.Plain) {fed : List (ErrorOr α)} (h : Traced c fed w) :
    w.account c <+: fed ∧ (w.live 0 → w.account c = fed) := by
  obtain ⟨gone, rest, rfl, hgone, hsofar, hrest⟩ := h
  rw [hc.apply, List.map_id] at hsofar hrest
  have hdelivered : w.delivered = gone := by
    refine List.forall₂_eq_eq_eq ▸ hgone.imp fun x y ⟨d, hd, hx⟩ => ?_
    rw [hx, (hc.part hd).apply]
    rfl
  unfold World.account
  rw [hdelivered]
  refine ⟨(List.prefix_append_right_inj _).mpr hsofar, fun h0 => ?_⟩
  rw [hrest h0]

theorem Pulled.account {i : Nat} {x : ErrorOr α} {xs : List (ErrorOr α)} (h : Pulled c w i x xs w')
    (hq : w.queueAt i = x :: xs) : w'.account c = w.account c := by
  unfold World.account
  rcases h.moved with ⟨-, -, hdelivered, hqueue⟩ | ⟨hi, -, hdelivered, hqueue, -⟩ | ⟨rfl, hdelivered, hqueue⟩
  · rw [hdelivered, hqueue]
  · rw [hdelivered, hqueue, Chain.pending_move hi hq]
  · rw [hdelivered, hqueue, Chain.pending_pop hq, List.append_assoc]
    rfl

theorem Handed.account {i : Nat} {n : StorageNode α} (h : Handed c w i n w') (hq : w.queueAt i = n.body.queue) :
    w'.account c = w.account c := by
  rcases h with ⟨-, rfl⟩ | ⟨-, x, xs, hcons, hpulled⟩
  · rfl
  · exact hpulled.account (hq.trans hcons)

theorem Taken.account (h : Taken c w w') : w'.account c = w.account c := by
  obtain ⟨x, xs, hq, hdelivered, hqueue⟩ := h.moved
  unfold World.account
  rw [hdelivered, hqueue, Chain.pending_pop hq, List.append_assoc]
  rfl

/-- Firing loses nothing but what is behind a cut. -/
theorem Fired.account_le {i : Nat} {n : StorageNode α} (h : Fired c w i n w') (hn : w.nodes i = some n) :
    (w'.account c).length ≤ (w.account c).length := by
  obtain ⟨w₁, w₂, loop, hcut, hhanded, rfl⟩ := h
  rcases hcut with ⟨-, rfl⟩ | ⟨-, hcut⟩
  · rw [show ({ w₂ with loop := loop } : World α).account c = w₁.account c from hhanded.account (queueAt_node hn)]
  · have hq : w₁.queueAt i = n.body.queue := by rw [hcut.queueAt, if_pos (Nat.le_refl i), queueAt_node hn]
    have hqueue : w₁.queueAt = fun j => if i ≤ j then w.queueAt j else [] := funext hcut.queueAt
    rw [show ({ w₂ with loop := loop } : World α).account c = w₁.account c from hhanded.account hq]
    unfold World.account
    rw [hcut.delivered, hqueue, List.length_append, List.length_append]
    exact Nat.add_le_add_left (Chain.pending_cut c).length_le _

theorem Fired.kept {i : Nat} {n : StorageNode α} (h : Fired c w i n w') (h0 : n.body.drops → 0 < i)
    (hlive : w'.live 0) : n.body.drops = false ∧ ∃ w₂ loop, Handed c w i n w₂ ∧ w' = { w₂ with loop := loop } := by
  obtain ⟨w₁, w₂, loop, hcut, hhanded, rfl⟩ := h
  rcases hcut with ⟨hdrops, rfl⟩ | ⟨hdrops, hcut⟩
  · exact ⟨hdrops, w₂, loop, hhanded, rfl⟩
  · have hdead : w₁.live 0 = true := by
      rw [← hhanded.live]
      exact hlive
    rw [hcut.live, decide_eq_false (Nat.not_le.mpr (h0 hdrops))] at hdead
    cases hdead

/-! ## The invariant -/

/-- The source has not fired yet, and nobody else is armed. -/
structure Untouched (v : ErrorOr α) (w : World α) : Prop where
  queue : w.queueAt 0 = [v, alreadyTaken]
  head : w.loop.head = some 0
  later : w.loop.laterInsertPoint = .next 0
  armed : ∀ a, w.isArmed a → a = 0

/-- A critical value has left the source: the first buffer fires next and drops the source, unless a
taker may intervene. -/
structure Tapped (c : Chain α) (sunk : Bool) (v : ErrorOr α) (w : World α) : Prop where
  links : w.links 1 = none
  later : w.loop.laterInsertPoint ≠ .next 0
  rest : c.top = 1 ∧ sunk = false ∨ w.live 0 = false ∧ (w.account c).length ≤ 1 ∨
    w.live 0 ∧ w.queueAt 0 = [alreadyTaken] ∧ w.queueAt 1 = [v] ∧ w.loop.head = some 1

structure Instant (c : Chain α) (sunk : Bool) (v : ErrorOr α) (w : World α) : Prop where
  chained : Chained c sunk w
  traced : Traced c [v, alreadyTaken] w
  source : w.live 0 → w.instant
  linked : w.links 1 = some 0 → w.queueAt 0 ≠ [] ∧ ∀ x ∈ w.queueAt 1, x.isCritical = false
  sink : w.isArmed (c.top + 1) → ∃ x ∈ w.delivered, x.isCritical
  critical : v.isCritical → Untouched v w ∨ Tapped c sunk v w

/-- The first buffer is not fired full, with the source behind it and nobody to take from it. -/
def Drains (w : World α) : Call α → Prop
  | .turn => w.loop.head = some 1 → ∀ n ∈ w.nodes 1, n.parent = none → n.childStorage = some 0 → 0 < n.body.space
  | _ => True

theorem first_of_two {β : Type} {l r : List β} {x a b : β} (h : l ++ x :: r <+: [a, b]) (hr : r ≠ []) :
    x = a ∧ 2 ≤ (l ++ x :: r).length := by
  have hlen := h.length_le
  have hpos := List.length_pos_iff.mpr hr
  simp only [List.length_append, List.length_cons, List.length_nil] at hlen
  obtain rfl : l = [] := List.length_eq_zero_iff.mp (by omega)
  obtain ⟨rfl, -⟩ := List.cons_prefix_cons.mp h
  refine ⟨rfl, ?_⟩
  rw [List.nil_append, List.length_cons]
  omega

section
variable (hc : c.Plain) (h : Instant c sunk v w)
include hc h

theorem Instant.held {i j : Nat} {n : StorageNode α} (hhead : w.loop.head = some i) (hn : w.nodes i = some n)
    (hdrops : n.body.drops) (hj : j < i) (hlater : w.loop.laterInsertPoint = .next j) :
    v.isCritical ∧ 2 ≤ (w.account c).length := by
  have harmed : w.isArmed j := h.chained.loop.isArmed_later hlater
  have hfit := h.chained.node i n hn
  have hsize := h.chained.size
  have hbelow := hfit.below
  have hle := Bool.toNat_le sunk
  have hqj : w.queueAt j ≠ [] := by
    obtain ⟨m, hm, hq⟩ := h.chained.ready j harmed
    rw [queueAt_node hm]
    refine hq ?_
    rw [(h.chained.node j m hm).parent, if_pos (by omega)]
    exact Option.some_ne_none _
  obtain ⟨before, x, behind, haccount, hbehind, hx⟩ :
      ∃ before x behind, w.account c = before ++ x :: behind ∧ behind ≠ [] ∧ x.isCritical := by
    have hfits := hfit.fits
    unfold account
    rw [hc.pending]
    cases hbody : n.body with
    | queueBuffer child st limit =>
      rw [hbody] at hdrops hfits
      cases child with
      | none => cases hdrops
      | some child =>
        cases st with
        | nil => cases hdrops
        | cons x st =>
          have hq : w.queueAt i = x :: st := by
            rw [queueAt_node hn, hbody]
            rfl
          obtain ⟨before, behind, hflow, hne⟩ := Chain.flow_ahead hfits.2.1 hj hq hqj
          refine ⟨w.delivered ++ before, x, behind, ?_, hne, hdrops⟩
          rw [hflow, List.append_assoc]
    | sink child =>
      rw [hbody] at hfits
      obtain rfl : i = c.top + 1 := hfits
      have hfires : w.loop.turn.1 = some (c.top + 1) := by rw [EventLoop.turn_eq hhead]
      obtain ⟨x, hx, hcritical⟩ := h.sink (h.chained.loop.turn hfires).1
      obtain ⟨before, behind, hdelivered⟩ := List.append_of_mem hx
      refine ⟨before, x, behind ++ Chain.flow w.queueAt c.top, ?_, ?_, hcritical⟩
      · rw [hdelivered, List.append_assoc]
        rfl
      · exact List.append_ne_nil_of_right_ne_nil _ (Chain.flow_ne_nil (Nat.le_of_lt_succ hj) hqj)
    | _ =>
      rw [hbody] at hdrops
      cases hdrops
  have hsofar := (h.traced.account hc).1
  rw [haccount] at hsofar ⊢
  obtain ⟨rfl, hlen⟩ := first_of_two hsofar hbehind
  exact ⟨hx, hlen⟩

theorem Instant.spares : w.Spares := by
  intro i hhead n hn hdrops j hj hlater
  obtain ⟨hcritical, hlen⟩ := h.held hc hhead hn hdrops hj hlater
  rcases h.critical hcritical with huntouched | htapped
  · rw [Option.some.inj (hhead.symm.trans huntouched.head)] at hj
    exact absurd hj (Nat.not_lt_zero j)
  · have hj0 : j ≠ 0 := fun hj0 => htapped.later (hj0 ▸ hlater)
    have hbelow := (h.chained.node i n hn).below
    rcases htapped.rest with ⟨htop, rfl⟩ | ⟨-, hone⟩ | ⟨-, -, -, hone⟩
    · rw [h.chained.size, htop, Bool.toNat_false] at hbelow
      omega
    · omega
    · rw [Option.some.inj (hhead.symm.trans hone)] at hj
      omega

theorem Instant.calm (hroomy : c.Roomy) (htop : 0 < c.top) (hdrains : w.Drains .turn) {i : Nat} {n : StorageNode α}
    (hhead : w.loop.head = some i) (hn : w.nodes i = some n) : Calm c w i n := by
  intro _ hstorage hfull
  obtain ⟨rfl, -⟩ := (h.chained.node i n hn).storage 0 hstorage
  have hq : w.queueAt 1 = n.body.queue := queueAt_node hn
  obtain ⟨hq0, -⟩ := h.linked ((links_node hn).trans hstorage)
  refine ⟨fun hparent => ?_, fun hlt => ?_⟩
  · obtain ⟨k, hk, hspace⟩ := h.chained.space hroomy hn Nat.one_pos
    have hbody : k = n.body.space := by
      rw [World.space, hn] at hk
      exact (Option.some.inj hk).symm
    have hroom := hspace.mp (hbody ▸ hdrains hhead n hn hparent hstorage) htop
    rw [hq] at hroom
    exact absurd hroom (Nat.not_lt.mpr hfull)
  · -- the value is in the first buffer and the error still in the source, so there is nothing else
    have hlen := (h.traced.account hc).1.length_le
    have hflow := (Chain.flow_suffix (q := w.queueAt) (show 2 ≤ c.top from hlt)).length_le
    have hpos := List.length_pos_iff.mpr hq0
    have hlimit : 0 < c.limit 1 := (hroomy.limit_bounds Nat.one_pos htop).1
    have hlimit' : 0 < c.limit 2 := (hroomy.limit_bounds (Nat.succ_pos 1) hlt).1
    have hthree : Chain.flow w.queueAt 2 = w.queueAt 2 ++ (w.queueAt 1 ++ w.queueAt 0) := rfl
    rw [account, hc.pending, List.length_append] at hlen
    rw [hthree, List.length_append, List.length_append] at hflow
    simp only [List.length_cons, List.length_nil] at hlen
    rw [← hq] at hfull
    change c.limit 1 ≤ _ at hfull
    change (w.queueAt 2).length < c.limit 2
    omega

end

/-! ## Turns -/

theorem alreadyTaken_isCritical : (alreadyTaken : ErrorOr α).isCritical = true := rfl

theorem account_source (hc : c.Plain) : ∃ before, w.account c = before ++ w.queueAt 0 := by
  obtain ⟨before, hflow⟩ := Chain.flow_suffix (q := w.queueAt) (Nat.zero_le c.top)
  refine ⟨w.delivered ++ before, ?_⟩
  rw [account, hc.pending, ← hflow, List.append_assoc]
  rfl

theorem linked_pulled {i : Nat} {x : ErrorOr α} {xs : List (ErrorOr α)} (hc : c.Plain) (htop : 0 < c.top)
    (haccount : w.account c = [v, alreadyTaken]) (hpulled : Pulled c w i x xs w') (hq : w.queueAt i = x :: xs)
    (hlinked : w.queueAt 0 ≠ [] ∧ ∀ x ∈ w.queueAt 1, x.isCritical = false) (hlinks : w'.links 1 = some 0) :
    w'.queueAt 0 ≠ [] ∧ ∀ x ∈ w'.queueAt 1, x.isCritical = false := by
  obtain ⟨hq0, hq1⟩ := hlinked
  rcases hpulled.moved with ⟨-, -, -, hqueue⟩ | ⟨hi, -, -, hqueue, hcritical⟩ | ⟨rfl, -, hqueue⟩
  · rw [hqueue]
    exact ⟨hq0, hq1⟩
  · rw [hqueue]
    rw [(hc.upTo i).post] at hcritical
    by_cases h0 : i = 0
    · subst h0
      have hx : x.isCritical = false := hcritical (by rw [hlinks]; exact Option.some_ne_none 0)
      refine ⟨?_, fun y hy => ?_⟩
      · rw [Function.update_of_ne (Nat.succ_ne_zero 0).symm, Function.update_self]
        -- the source's last result is the error
        rintro rfl
        obtain ⟨before, hsource⟩ := account_source (w := w) hc
        rw [haccount, hq, show [v, alreadyTaken] = [v] ++ [alreadyTaken] from rfl] at hsource
        obtain rfl : alreadyTaken = x := by
          have := List.append_inj_right' hsource rfl
          exact (List.cons.inj this).1
        rw [alreadyTaken_isCritical] at hx
        cases hx
      · rw [Function.update_self, (hc.upTo 0).post] at hy
        rcases List.mem_append.mp hy with hy | hy
        · exact hq1 y hy
        · rw [List.mem_singleton.mp hy]
          exact hx
    · rw [Function.update_of_ne (by omega), Function.update_of_ne (Ne.symm h0), Function.update_of_ne (by omega)]
      refine ⟨hq0, fun y hy => hq1 y ?_⟩
      by_cases h1 : i = 1
      · subst h1
        rw [Function.update_self] at hy
        rw [hq]
        exact List.mem_cons_of_mem x hy
      · rwa [Function.update_of_ne (Ne.symm h1)] at hy
  · rw [hqueue, Function.update_of_ne (by omega)]
    refine ⟨hq0, fun y hy => hq1 y ?_⟩
    by_cases h1 : c.top = 1
    · rw [h1, Function.update_self] at hy
      rw [← h1, hq]
      exact List.mem_cons_of_mem x hy
    · rwa [Function.update_of_ne (Ne.symm h1)] at hy

theorem instant_node (h : w.instant) : ∃ n value retrieved, w.nodes 0 = some n ∧ n.body = .immediate value retrieved := by
  unfold instant at h
  cases hn : w.nodes 0 with
  | none =>
    rw [hn] at h
    cases h
  | some n =>
    rw [hn, Option.any_some] at h
    cases hbody : n.body with
    | immediate value retrieved => exact ⟨n, value, retrieved, rfl, hbody⟩
    | _ =>
      rw [hbody] at h
      cases h

theorem loop_rearm {i : Nat} (hu : w.isArmed i = false) :
    (if w.isArmed i then w else w.armLater i).loop = w.loop.armLater i := by
  rw [hu]
  rfl

theorem Untouched.head_turn (h : Chained c sunk w) (hu : Untouched v w) (hinstant : w.instant) (htop : 0 < c.top)
    (hroomy : c.Roomy) (hempty : w.queueAt 1 = []) {fired : Bool} (hturn : w.turn = some (fired, w')) :
    w'.loop.head = some 1 ∧ w'.loop.laterInsertPoint = .next 1 := by
  obtain ⟨n, value, retrieved, hn, hbody⟩ := instant_node hinstant
  have hfit := h.node 0 n hn
  have hlt : 0 + 1 < w.size := by
    rw [h.size]
    omega
  have hparent : n.parent = some 1 := hfit.parent.trans (if_pos hlt)
  obtain ⟨m, hm⟩ := node_of_live (h.above 0 (live_of_node hn) hlt)
  obtain ⟨child, st, hbuffer, -⟩ := h.buffer_node hm Nat.one_pos htop
  have hchild : m.body.child = some (c.upTo 0).node := (h.node 1 m hm).child.trans (if_pos (live_of_node hn))
  rw [hbuffer] at hchild
  obtain rfl : child = some (c.upTo 0).node := hchild
  obtain rfl : st = [] := by
    rw [← hempty, queueAt_node hm, hbuffer]
    rfl
  have hq : n.body.queue = [v, alreadyTaken] := (queueAt_node hn).symm.trans hu.queue
  obtain ⟨loop, hloop⟩ : ∃ loop, loop = w.loop.turn.2 := ⟨_, rfl⟩
  have hfires : w.loop.turn = (some 0, loop) := by rw [hloop, EventLoop.turn_eq hu.head]
  have hlater : loop.laterInsertPoint = .head := by
    rw [hloop, EventLoop.turn_eq hu.head]
    exact if_pos hu.later
  have hidle : ∀ a, loop.isArmed a = false := by
    intro a
    obtain ⟨-, -, hrest⟩ := h.loop.turn (congrArg Prod.fst hfires)
    rw [← Bool.not_eq_true, hloop, hrest]
    exact fun hne => hne.1 (hu.armed a hne.2)
  have hfired := childHasFired_room (w := { w with loop := loop }) hn hfit.fits hq (Nat.zero_le _) hm hbuffer
    (hroomy.limit_bounds Nat.one_pos htop).1
  obtain ⟨u, hu', huloop⟩ : ∃ u, World.childHasFired { w with loop := loop } 1 = some u ∧ u.loop = loop.armLater 1 := by
    refine ⟨_, hfired, ?_⟩
    exact loop_rearm (hidle 1)
  obtain ⟨hhead, hnext⟩ := EventLoop.head_armLater (hidle 1) hlater
  simp only [World.turn, hfires, World.fire, hn, hbody, Immediate.fire, hparent, hu', Option.bind_eq_bind,
    Option.bind_some, Option.pure_def] at hturn
  obtain ⟨u', hu'', hw'⟩ := Option.bind_eq_some_iff.mp hturn
  obtain ⟨k, -, hu''⟩ := Option.bind_eq_some_iff.mp hu''
  obtain ⟨s, -, hu''⟩ := Option.bind_eq_some_iff.mp hu''
  obtain ⟨-, rfl⟩ := Prod.mk.inj (Option.some.inj hw')
  rw [← Option.some.inj hu'']
  split
  · refine ⟨?_, ?_⟩
    · change (u.loop.armLast 0).head = some 1
      rw [huloop, EventLoop.head_armLast hnext, hhead]
    · change (u.loop.armLast 0).laterInsertPoint = .next 1
      rw [huloop, EventLoop.laterInsertPoint_armLast, hnext]
  · rw [huloop]
    exact ⟨hhead, hnext⟩

theorem Tapped.cut {n : StorageNode α} (hc : c.Plain) (h : Instant c sunk v w)
    (hcritical : v.isCritical) (hlive : w.live 0) (hq0 : w.queueAt 0 = [alreadyTaken]) (hq1 : w.queueAt 1 = [v])
    (hn : w.nodes 1 = some n) {loop : EventLoop Nat} (hfired : Fired c { w with loop := loop } 1 n w') :
    w'.live 0 = false ∧ (w'.account c).length ≤ 1 := by
  have hfit := h.chained.node 1 n hn
  have hqueue : n.body.queue = [v] := (queueAt_node hn).symm.trans hq1
  have hdrops : n.body.drops = true := by
    have hchild : n.body.child = some (c.upTo 0).node := hfit.child.trans (if_pos hlive)
    cases hbody : n.body with
    | queueBuffer child st limit =>
      rw [hbody] at hchild hqueue
      obtain rfl : child = some (c.upTo 0).node := hchild
      obtain rfl : st = [v] := hqueue
      exact hcritical
    | sink child => rfl
    | appendage _ _ _ => exact (hbody ▸ hfit.fits : StorageBody.Fits c 1 (.appendage _ _ _)).elim
    | _ =>
      rw [hbody] at hchild
      cases hchild
  obtain ⟨w₁, w₂, loop', hcut, hhanded, rfl⟩ := hfired
  rcases hcut with ⟨hstay, -⟩ | ⟨-, hcut⟩
  · rw [hdrops] at hstay
    cases hstay
  have hq : w₁.queueAt 1 = n.body.queue := by
    rw [hcut.queueAt, if_pos (Nat.le_refl 1)]
    exact queueAt_node hn
  refine ⟨?_, ?_⟩
  · change w₂.live 0 = false
    rw [hhanded.live, hcut.live]
    rfl
  · have hlen := (h.traced.account hc).1.length_le
    have hflow := congrArg List.length (Chain.flow_cut (q := w.queueAt) (r := w₁.queueAt)
      (fun i hi => (hcut.queueAt i).trans (if_pos hi)) (hcut.queueAt 0) c.top)
    have hdelivered : w₁.delivered = w.delivered := hcut.delivered
    change (w₂.account c).length ≤ 1
    rw [hhanded.account hq, account, hc.pending, hdelivered, List.length_append]
    rw [account, hc.pending, List.length_append] at hlen
    simp only [hq0, List.length_append, List.length_cons, List.length_nil] at hflow hlen
    omega

theorem Tapped.turn (hc : c.Plain) (h : Tapped c sunk v w) (hinst : Instant c sunk v w)
    (hcritical : v.isCritical) (hw' : Chained c sunk w') (hturned : Turned c w w')
    (hunheld : w.instant → w.links 1 = none → Unheld w w') : Tapped c sunk v w' := by
  rcases hturned with rfl | ⟨i, n, loop, hhead, hn, hfired⟩
  · exact h
  have hlive : w'.live 0 → w.live 0 := by
    intro hl
    obtain ⟨-, w₂, loop', hhanded, rfl⟩ := hfired.kept (hinst.chained.drops_pos hn) hl
    have hl' : w₂.live 0 = true := hl
    rw [hhanded.live] at hl'
    exact hl'
  refine ⟨?_, fun hlater => ?_, ?_⟩
  · cases hlinks : w'.links 1 with
    | none => rfl
    | some k =>
      have hwas : w.links 1 = some k := hfired.links hlinks
      rw [h.links] at hwas
      cases hwas
  · obtain ⟨m, hm, -⟩ := hw'.ready 0 (hw'.loop.isArmed_later hlater)
    exact h.later (hunheld (hinst.source (hlive (live_of_node hm))) h.links hlater)
  · rcases h.rest with hends | ⟨hdead, hlen⟩ | ⟨hl, hq0, hq1, hone⟩
    · exact Or.inl hends
    · refine Or.inr (Or.inl ⟨?_, (hfired.account_le hn).trans hlen⟩)
      rw [← Bool.not_eq_true]
      intro hl
      rw [hlive hl] at hdead
      cases hdead
    · obtain rfl := Option.some.inj (hhead.symm.trans hone)
      exact Or.inr (Or.inl (Tapped.cut hc hinst hcritical hl hq0 hq1 hn hfired))

section
variable (hc : c.Plain) (hroomy : c.Roomy) (htop : 0 < c.top)
include hc

theorem Untouched.empty (h : Traced c [v, alreadyTaken] w) (hu : Untouched v w) {i : Nat} (h0 : 0 < i)
    (hi : i ≤ c.top) : w.queueAt i = [] := by
  obtain ⟨b, rfl⟩ : ∃ b, i = b + 1 := ⟨i - 1, by omega⟩
  have hlen := (h.account hc).1.length_le
  have hflow := (Chain.flow_suffix (q := w.queueAt) hi).length_le
  have hsource := (Chain.flow_suffix (q := w.queueAt) (Nat.zero_le b)).length_le
  have hzero : Chain.flow w.queueAt 0 = [v, alreadyTaken] := hu.queue
  rw [account, hc.pending, List.length_append] at hlen
  rw [hzero] at hsource
  rw [Chain.flow, List.length_append] at hflow
  simp only [List.length_cons, List.length_nil] at hlen hsource
  exact List.length_eq_zero_iff.mp (by omega)

include hroomy htop

theorem Untouched.turn (h : Instant c sunk v w) (hu : Untouched v w) (hcritical : v.isCritical) {fired : Bool}
    (hturn : w.turn = some (fired, w')) (hturned : Turned c w w') : Untouched v w' ∨ Tapped c sunk v w' := by
  have hempty : w.queueAt 1 = [] := hu.empty hc h.traced Nat.one_pos htop
  rcases hturned with rfl | ⟨i, n, loop, hhead, hn, hfired⟩
  · exact Or.inl hu
  obtain rfl := Option.some.inj (hhead.symm.trans hu.head)
  have hinstant := h.source (live_of_node hn)
  obtain ⟨hnext, hlater⟩ := hu.head_turn h.chained hinstant htop hroomy hempty hturn
  have hq : w.queueAt 0 = n.body.queue := queueAt_node hn
  have hlast : 0 + 1 < w.size := by
    rw [h.chained.size]
    omega
  obtain ⟨w₁, w₂, loop', hcut, hhanded, rfl⟩ := hfired
  rcases hcut with ⟨-, rfl⟩ | ⟨hdrops, -⟩
  · have hlive : w₂.live 0 := by
      rw [hhanded.live]
      exact live_of_node hn
    rcases hhanded with ⟨hnone, -⟩ | ⟨-, x, xs, hcons, hpulled⟩
    · rw [(h.chained.node 0 n hn).parent, if_pos hlast] at hnone
      cases hnone
    · obtain ⟨rfl, rfl⟩ := List.cons.inj (hcons.symm.trans (hq.symm.trans hu.queue))
      rcases hpulled.moved with ⟨-, hfull, -⟩ | ⟨-, -, -, hqueue, hlinks⟩ | ⟨hzero, -⟩
      · have hfull' : c.limit 1 ≤ (w.queueAt 1).length := hfull
        rw [hempty] at hfull'
        exact absurd (hroomy.limit_bounds Nat.one_pos htop).1 (Nat.not_lt.mpr hfull')
      · rw [(hc.upTo 0).post] at hqueue hlinks
        refine Or.inr ⟨?_, ?_, Or.inr (Or.inr ⟨hlive, ?_, ?_, hnext⟩)⟩
        · by_contra hne
          have hx : x.isCritical = false := hlinks hne
          rw [hcritical] at hx
          cases hx
        · rw [hlater]
          exact fun h01 => absurd (Slot.next.inj h01) Nat.one_ne_zero
        · change w₂.queueAt 0 = _
          rw [hqueue, Function.update_of_ne (Nat.succ_ne_zero 0).symm, Function.update_self]
        · change w₂.queueAt 1 = _
          rw [hqueue]
          refine (Function.update_self ..).trans ?_
          change w.queueAt 1 ++ [id x] = [x]
          rw [hempty]
          rfl
      · omega
  · exact absurd (h.chained.drops_pos hn hdrops) (Nat.lt_irrefl 0)

theorem Instant.turn (h : Instant c sunk v w) (hdrains : w.Drains .turn) :
    ∃ fired w', w.turn = some (fired, w') ∧ Instant c sunk v w' := by
  obtain ⟨fired, w', hturn, hchained, hturned, hstirred, hunheld⟩ := h.chained.turn hroomy (h.spares hc)
    fun i n hhead hn => h.calm hc hroomy htop hdrains hhead hn
  refine ⟨fired, w', hturn, hchained, h.traced.turned h.chained hturned, fun hlive => ?_, fun hlinks => ?_,
    fun hsink => ?_, fun hcritical => ?_⟩
  · rcases hturned with rfl | ⟨i, n, loop, -, hn, hfired⟩
    · exact h.source hlive
    · obtain ⟨-, w₂, loop', hhanded, rfl⟩ := hfired.kept (h.chained.drops_pos hn) hlive
      have hwas : w₂.live 0 = true := hlive
      rw [hhanded.live] at hwas
      change w₂.instant = true
      rw [hhanded.instant]
      exact h.source hwas
  · rcases hturned with rfl | ⟨i, n, loop, -, hn, hfired⟩
    · exact h.linked hlinks
    · have hlinked := h.linked (hfired.links hlinks)
      have hlive : w'.live 0 := by
        unfold links at hlinks
        obtain ⟨m, hm, hstorage⟩ := Option.bind_eq_some_iff.mp hlinks
        exact ((hchained.node 1 m hm).storage 0 hstorage).2
      obtain ⟨-, w₂, loop', hhanded, rfl⟩ := hfired.kept (h.chained.drops_pos hn) hlive
      rcases hhanded with ⟨-, rfl⟩ | ⟨-, x, xs, hcons, hpulled⟩
      · exact hlinked
      · have hwas : w.live 0 = true := by
          have hl : w₂.live 0 = true := hlive
          rw [hpulled.live] at hl
          exact hl
        exact linked_pulled (w := { w with loop := loop }) hc htop ((h.traced.account hc).2 hwas)
          (hpulled.reloop loop') ((queueAt_node hn).trans hcons) hlinked hlinks
  · rcases hstirred.sink hsink with hsink | hcritical
    · obtain ⟨x, hx, hcritical⟩ := h.sink hsink
      exact ⟨x, hstirred.delivered.subset hx, hcritical⟩
    · exact hcritical
  · rcases h.critical hcritical with hu | htapped
    · exact hu.turn hc hroomy htop h hcritical hturn hturned
    · exact Or.inr (htapped.turn hc h hcritical hchained hturned hunheld)

end

/-! ## Takes, and turns that fail -/

section
variable (hc : c.Plain) (htop : 0 < c.top)
include hc htop

theorem Tapped.taken (h : Tapped c false v w) (ht : Traced c [v, alreadyTaken] w) (hw' : Taken c w w') :
    Tapped c false v w' := by
  obtain ⟨x, xs, hq, -, -⟩ := hw'.moved
  refine ⟨?_, ?_, ?_⟩
  · cases hlinks : w'.links 1 with
    | none => rfl
    | some k =>
      have hwas := hw'.links 1 k hlinks
      rw [h.links] at hwas
      cases hwas
  · rw [hw'.loop]
    exact h.later
  · rcases h.rest with hends | ⟨hdead, hlen⟩ | ⟨-, hq0, hq1, -⟩
    · exact Or.inl hends
    · refine Or.inr (Or.inl ⟨?_, ?_⟩)
      · rw [hw'.live]
        exact hdead
      · rw [hw'.account]
        exact hlen
    · by_cases hone : c.top = 1
      · exact Or.inl ⟨hone, rfl⟩
      · obtain ⟨b, hb⟩ : ∃ b, c.top = b + 1 := ⟨c.top - 1, by omega⟩
        have hlen := (ht.account hc).1.length_le
        have hflow := (Chain.flow_suffix (q := w.queueAt) (show 1 ≤ b by omega)).length_le
        have htwo : Chain.flow w.queueAt 1 = w.queueAt 1 ++ w.queueAt 0 := rfl
        rw [hb] at hq
        rw [account, hc.pending, hb, Chain.flow, List.length_append, List.length_append, hq] at hlen
        rw [htwo, hq0, hq1] at hflow
        simp only [List.length_append, List.length_cons, List.length_nil] at hlen hflow
        omega

theorem Instant.take (h : Instant c false v w) :
    ∃ x w', Conveyor.take ⟨c.node, c.top⟩ w = some (x, w') ∧ Instant c false v w' := by
  obtain ⟨x, w', htake, hchained, hw'⟩ := h.chained.take
  refine ⟨x, w', htake, ?_⟩
  rcases hw' with rfl | hw'
  · exact h
  obtain ⟨y, ys, hq, hdelivered, hqueue⟩ := hw'.moved
  refine ⟨hchained, h.traced.taken (Or.inr hw'), ?_, fun hlinks => ?_, fun hsink => ?_, fun hcritical => ?_⟩
  · rw [hw'.live, hw'.instant]
    exact h.source
  · obtain ⟨hq0, hq1⟩ := h.linked (hw'.links 1 0 hlinks)
    rw [hqueue, Function.update_of_ne (by omega)]
    refine ⟨hq0, fun z hz => hq1 z ?_⟩
    by_cases hone : c.top = 1
    · rw [hone, Function.update_self] at hz
      rw [← hone, hq]
      exact List.mem_cons_of_mem y hz
    · rwa [Function.update_of_ne (Ne.symm hone)] at hz
  · rw [isArmed, hw'.loop] at hsink
    obtain ⟨z, hz, hcritical⟩ := h.sink hsink
    rw [hdelivered]
    exact ⟨z, List.mem_append_left _ hz, hcritical⟩
  · rcases h.critical hcritical with hu | htapped
    · rw [hu.empty hc h.traced htop (Nat.le_refl _)] at hq
      cases hq
    · exact Or.inr (htapped.taken hc htop h.traced hw')

omit hc in
theorem Instant.turn_fails (h : Instant c sunk v w) (hdrains : ¬ w.Drains .turn) : w.turn = none := by
  obtain ⟨hhead, n, hn, hparent, hstorage, hfull⟩ : w.loop.head = some 1 ∧ ∃ n, w.nodes 1 = some n ∧ n.parent = none ∧
      n.childStorage = some 0 ∧ n.body.space = 0 := by
    by_contra hall
    refine hdrains fun hhead n hn hparent hstorage => Nat.pos_of_ne_zero fun hfull => ?_
    exact hall ⟨hhead, n, hn, hparent, hstorage, hfull⟩
  obtain ⟨-, hcalm⟩ := h.linked ((links_node hn).trans hstorage)
  obtain ⟨-, hlive⟩ := (h.chained.node 1 n hn).storage 0 hstorage
  obtain ⟨m, value, retrieved, hm, himm⟩ := instant_node (h.source hlive)
  obtain ⟨child, st, hbody, -⟩ := h.chained.buffer_node hn Nat.one_pos htop
  have hmparent : m.parent = some 1 := (h.chained.node 0 m hm).parent.trans (if_pos (h.chained.node 1 n hn).below)
  obtain ⟨loop, hloop⟩ : ∃ loop, loop = w.loop.turn.2 := ⟨_, rfl⟩
  have hfires : w.loop.turn = (some 1, loop) := by rw [hloop, EventLoop.turn_eq hhead]
  have hstays : QueueBuffer.dropCritical { w with loop := loop } 1 n = some { w with loop := loop } := by
    rw [queueAt_node hn, hbody] at hcalm
    cases child with
    | none => simp only [QueueBuffer.dropCritical, hbody, StorageBody.child]
    | some child =>
      cases st with
      | nil => simp only [QueueBuffer.dropCritical, hbody, StorageBody.child, StorageBody.queue]
      | cons x st =>
        have hx : x.isCritical = false := hcalm x (List.mem_cons_self ..)
        simp only [QueueBuffer.dropCritical, hbody, StorageBody.child, StorageBody.queue, hx, Bool.false_eq_true,
          if_false]
  have hspace : ({ w with loop := loop } : World α).space 1 = some 0 := by
    rw [World.space, show ({ w with loop := loop } : World α).nodes 1 = some n from hn, ← hfull]
    rfl
  simp only [World.turn, hfires, World.fire, hn, hbody, QueueBuffer.fire, hstays, hspace, QueueBuffer.fireParent,
    hparent, hstorage, World.parentHasFired, eventParentHasFired, hm, himm, hmparent, Option.bind_eq_bind,
    Option.bind_some, lt_irrefl, decide_false, Bool.false_eq_true, if_false, assert, Option.bind_none]

end

/-! ## Building -/

structure Fresh (c : Chain α) (sunk : Bool) (v : ErrorOr α) (w : World α) : Prop where
  chained : Chained c sunk w
  traced : Traced c [v, alreadyTaken] w
  instant : w.instant
  source : w.queueAt 0 = [v, alreadyTaken]
  empty : ∀ i, 0 < i → w.queueAt i = []
  loop : w.loop = if c.top = 0 then EventLoop.new else EventLoop.new.armLater 0
  links : 0 < c.top → w.links 1 = some 0

theorem isArmed_first (a : Nat) : (EventLoop.new.armLater 0 : EventLoop Nat).isArmed a ↔ a = 0 := by
  rw [EventLoop.sound_new.isArmed_armLater]
  exact or_iff_left (EventLoop.not_isArmed_new a)

theorem Fresh.unspent (h : Fresh c false v w) (harmed : w.isArmed c.top) : w.queueAt c.top ≠ [] := by
  rw [isArmed, h.loop] at harmed
  by_cases htop : c.top = 0
  · rw [if_pos htop] at harmed
    exact absurd harmed (EventLoop.not_isArmed_new _)
  · rw [if_neg htop, isArmed_first] at harmed
    exact absurd harmed htop

theorem Fresh.loop_attached {b : StorageBody α} (h : Fresh c false v w) (hw' : Attached w c.top b w') :
    w'.loop = EventLoop.new.armLater 0 := by
  rw [hw'.loop, isArmed, h.loop]
  by_cases htop : c.top = 0
  · rw [if_pos htop, htop, if_pos]
    refine ⟨EventLoop.not_isArmed_new 0, ?_⟩
    rw [h.source]
    exact List.cons_ne_nil _ _
  · rw [if_neg htop, if_neg]
    exact fun hne => hne.2 (h.empty c.top (Nat.pos_of_ne_zero htop))

theorem Fresh.links_attached {b : StorageBody α} (h : Fresh c false v w) (hw' : Attached w c.top b w') :
    w'.links 1 = some 0 := by
  rw [hw'.links]
  by_cases htop : c.top = 0
  · rw [htop]
    rfl
  · rw [if_neg (by omega)]
    exact h.links (Nat.pos_of_ne_zero htop)

theorem Fresh.queues_attached {b : StorageBody α} (h : Fresh c false v w) (hw' : Attached w c.top b w')
    (hb : b.queue = []) : w'.queueAt = w.queueAt := by
  rw [hw'.queueAt, hb, ← h.empty (c.top + 1) (Nat.succ_pos _), Function.update_eq_self]

theorem fresh_ofResult (v : ErrorOr α) : Fresh .feeder false v (Conveyor.ofResult World.new v).2 := by
  have hnode : ∀ i n, (Conveyor.ofResult World.new v).2.nodes i = some n → i = 0 ∧ n = ⟨none, none, .immediate v 0⟩ := by
    intro i n hn
    by_cases hi : i = 0
    · subst hi
      exact ⟨rfl, (Option.some.inj hn).symm⟩
    · have hnone : (Conveyor.ofResult World.new v).2.nodes i = none := Function.update_of_ne hi _ _
      rw [hnone] at hn
      cases hn
  have hempty : ∀ i, 0 < i → (Conveyor.ofResult World.new v).2.queueAt i = [] := by
    intro i hi
    have hnone : (Conveyor.ofResult World.new v).2.nodes i = none := Function.update_of_ne (Nat.ne_of_gt hi) _ _
    rw [World.queueAt, hnone]
  refine ⟨⟨EventLoop.sound_new, rfl, fun i n hn => ?_, fun i _ hlt => absurd (show i + 1 < 1 from hlt) (by omega), rfl,
    fun i hi => absurd hi (EventLoop.not_isArmed_new i), rfl⟩,
    ⟨[], [v, alreadyTaken], rfl, .nil, List.prefix_rfl, fun _ => rfl⟩, rfl, rfl, hempty, rfl,
    fun h0 => absurd h0 (Nat.lt_irrefl 0)⟩
  obtain ⟨rfl, rfl⟩ := hnode i n hn
  exact ⟨Nat.one_pos, rfl, rfl, rfl, fun j hj => absurd hj (Option.some_ne_none j).symm⟩

theorem fresh_buildOn (v : ErrorOr α) : ∀ c : Chain α, c.Plain → c.Roomy →
    ∃ w, c.buildOn v = some (⟨c.node, c.top⟩, w) ∧ Fresh c false v w
  | .feeder, _, _ => ⟨_, rfl, fresh_ofResult v⟩
  | .buffer c limit, hc, hroomy => by
    obtain ⟨w, hbuild, h⟩ := fresh_buildOn v c hc hroomy.1
    obtain ⟨w', hattach, hchained, hw'⟩ := h.chained.attach (ends_buffer hroomy.2) h.unspent
    have hsize : w.size = c.top + 1 := h.chained.size
    have hqueue := h.queues_attached hw' rfl
    refine ⟨w', ?_, hchained, h.traced.buffer limit hw'.delivered hw'.live hw'.queueAt, ?_, ?_, ?_, ?_, fun _ => ?_⟩
    · simp only [Chain.buildOn, hbuild, Conveyor.buffer, hattach, Option.bind_eq_bind, Option.bind_some,
        Option.pure_def]
      rw [alloc, hsize]
      rfl
    · rw [hw'.instant]
      exact h.instant
    · rw [hqueue]
      exact h.source
    · rw [hqueue]
      exact h.empty
    · rw [if_neg (show ¬ (c.buffer limit).top = 0 from Nat.succ_ne_zero _)]
      exact h.loop_attached hw'
    · exact h.links_attached hw'

theorem fresh_finishOn (v : ErrorOr α) (hc : c.Plain) (hroomy : c.Roomy) (htop : 0 < c.top) (sunk : Bool) :
    ∃ w, c.finishOn v sunk = some (if sunk then none else some ⟨c.node, c.top⟩, w) ∧ Fresh c sunk v w := by
  obtain ⟨w, hbuild, h⟩ := fresh_buildOn v c hc hroomy
  cases sunk with
  | false =>
    refine ⟨w, ?_, h⟩
    simp only [Chain.finishOn, hbuild, Option.bind_eq_bind, Option.bind_some, Bool.false_eq_true, if_false,
      Option.pure_def]
  | true =>
    obtain ⟨w', hattach, hchained, hw'⟩ := h.chained.attach ends_sink h.unspent
    have hqueue := h.queues_attached hw' rfl
    refine ⟨w', ?_, hchained, h.traced.same hw'.delivered hw'.live ?_, ?_, ?_, ?_, ?_, fun _ => h.links_attached hw'⟩
    · simp only [Chain.finishOn, hbuild, Conveyor.sink, hattach, Option.bind_eq_bind, Option.bind_some, if_true,
        Option.pure_def]
    · rw [hqueue]
    · rw [hw'.instant]
      exact h.instant
    · rw [hqueue]
      exact h.source
    · rw [hqueue]
      exact h.empty
    · rw [if_neg (Nat.ne_of_gt htop)]
      exact h.loop_attached hw'

theorem Fresh.started (h : Fresh c sunk v w) (htop : 0 < c.top) : Instant c sunk v w := by
  have hloop := h.loop
  rw [if_neg (Nat.ne_of_gt htop)] at hloop
  have harmed : ∀ a, w.isArmed a → a = 0 := by
    intro a ha
    rw [isArmed, hloop] at ha
    exact (isArmed_first a).mp ha
  refine ⟨h.chained, h.traced, fun _ => h.instant, fun _ => ⟨?_, ?_⟩, fun hsink => ?_, fun _ => Or.inl ⟨h.source, ?_, ?_,
    harmed⟩⟩
  · rw [h.source]
    exact List.cons_ne_nil _ _
  · rw [h.empty 1 Nat.one_pos]
    exact fun x hx => absurd hx List.not_mem_nil
  · exact absurd (harmed _ hsink) (Nat.succ_ne_zero _)
  · rw [hloop]
    rfl
  · rw [hloop]
    rfl

end World

namespace Chain

variable {α : Type}

theorem step_instant {c : Chain α} (hc : c.Plain) (hroomy : c.Roomy) (htop : 0 < c.top) {sunk : Bool} {v : ErrorOr α}
    {w : World α} (h : World.Instant c sunk v w) {call : Call α} (hcall : call.fed = []) (hdrains : w.Drains call) :
    ∃ result w', World.step (if sunk then none else some ⟨c.node, c.top⟩) w call = some (result, w') ∧
      World.Instant c sunk v w' := by
  cases call with
  | feed v => cases hcall
  | fail e => cases hcall
  | turn =>
    obtain ⟨fired, w', hturn, h'⟩ := h.turn hc hroomy htop hdrains
    refine ⟨none, w', ?_, h'⟩
    simp only [World.step, hturn, Option.bind_eq_bind, Option.bind_some, Option.pure_def]
  | take =>
    cases sunk with
    | true => exact ⟨none, w, rfl, h⟩
    | false =>
      obtain ⟨x, w', htake, h'⟩ := h.take hc htop
      refine ⟨some x, w', ?_, h'⟩
      simp only [World.step, Bool.false_eq_true, if_false, htake, Option.bind_eq_bind, Option.bind_some,
        Option.pure_def]

theorem step_fails {c : Chain α} (htop : 0 < c.top) {sunk : Bool} {v : ErrorOr α} {w : World α}
    (h : World.Instant c sunk v w) {call : Call α} (hdrains : ¬ w.Drains call) (taker : Option (Conveyor α)) :
    World.step taker w call = none := by
  cases call with
  | turn => simp only [World.step, h.turn_fails htop hdrains, Option.bind_eq_bind, Option.bind_none]
  | _ => exact absurd trivial hdrains

/-- **Immediate values pass through buffers, exactly when.** A chain of buffers on an immediate value
can be built, and a run of turns and takes goes through without a failed assertion, with the value
delivered at most once and before the error, if and only if no turn of it fires the first buffer full,
with the immediate node behind it and nobody to take from it. -/
theorem immediate_passes_iff (c : Chain α) (hc : c.Plain) (hroomy : c.Roomy) (htop : 0 < c.top) (value : ErrorOr α)
    (sunk : Bool) (calls : List { call : Call α // call.fed = [] }) :
    ∃ taker w₀, c.finishOn value sunk = some (taker, w₀) ∧
      ((∃ results w, Run.exec (fun w call => World.step taker w call.1) w₀ calls = some (results, w) ∧
          w.delivered <+: [value, alreadyTaken]) ↔
        Run.Along (fun w call => World.step taker w call.1) (fun w call => w.Drains call.1) w₀ calls) := by
  obtain ⟨w₀, hfinish, hfresh⟩ := World.fresh_finishOn value hc hroomy htop sunk
  refine ⟨_, w₀, hfinish, ?_⟩
  have hgood := fun (w : World α) (call : { call : Call α // call.fed = [] }) (h : World.Instant c sunk value w)
    (hdrains : w.Drains call.1) => step_instant hc hroomy htop h call.2 hdrains
  constructor
  · rintro ⟨results, w, hrun, -⟩
    exact (Run.exec_iff (World.Instant c sunk value) hgood (fun w call h hbad => step_fails htop h hbad _) calls w₀
      (hfresh.started htop)).mp ⟨results, w, hrun⟩
  · intro hdrains
    obtain ⟨results, w, hrun, h⟩ := Run.exec_invariant (World.Instant c sunk value) _ hgood calls w₀
      (hfresh.started htop) hdrains
    exact ⟨results, w, hrun, (List.prefix_append _ _).trans (h.traced.account hc).1⟩

def oneSlot : Chain Nat := feeder.buffer 1

theorem immediate_passes_iff_oneSlot : ∃ taker w₀, oneSlot.finishOn (.value 5) true = some (taker, w₀) ∧
    ((∃ results w, Run.exec (fun w (call : { call : Call Nat // call.fed = [] }) => World.step taker w call.1) w₀
        [⟨.turn, rfl⟩, ⟨.turn, rfl⟩, ⟨.turn, rfl⟩] = some (results, w) ∧ w.delivered <+: [.value 5, alreadyTaken]) ↔
      Run.Along (fun w (call : { call : Call Nat // call.fed = [] }) => World.step taker w call.1)
        (fun w call => w.Drains call.1) w₀ [⟨.turn, rfl⟩, ⟨.turn, rfl⟩, ⟨.turn, rfl⟩]) :=
  immediate_passes_iff oneSlot trivial ⟨trivial, by decide⟩ (by decide) (.value 5) true _

/-- Nobody takes from the full buffer, and the second turn fires it. -/
theorem immediate_fails : ∃ taker w₀, oneSlot.finishOn (.value 5) false = some (taker, w₀) ∧
    Run.exec (World.step taker) w₀ [.turn, .turn] = none := by
  have hrun : ((oneSlot.finishOn (.value 5) false).map fun r =>
      (Run.exec (World.step r.1) r.2 [.turn, .turn]).isNone) = some true := by decide
  obtain ⟨⟨taker, w₀⟩, hfinish, hnone⟩ := Option.map_eq_some_iff.mp hrun
  exact ⟨taker, w₀, hfinish, Option.isNone_iff_eq_none.mp hnone⟩

end Chain

end Forstio
