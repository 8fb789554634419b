import Forstio.ChainedFire

/-!
# Where the results of a chain come from

`Traced c fed w`: what was delivered came from the first of the fed elements, in
order, each through the functions that stood in the chain at the time, and what
is pending comes from the ones that follow. Only a chain whose source is gone may
have lost the rest.
-/

namespace Forstio

namespace Chain

variable {α : Type}

/-- `c` is what became of `d`. -/
inductive Part (d : Chain α) : Chain α → Prop where
  | refl : Part d d
  | «then» {c : Chain α} (func : α → ErrorOr α) : Part d c → Part d (c.then func)
  | buffer {c : Chain α} (limit : Nat) : Part d c → Part d (c.buffer limit)

theorem pending_cut {q : Nat → List (ErrorOr α)} {i : Nat} : ∀ c : Chain α,
    c.pending (fun j => if i ≤ j then q j else []) <+: c.pending q
  | feeder => by
    unfold pending
    split
    · exact List.prefix_rfl
    · exact List.nil_prefix
  | «then» c func => by
    unfold pending
    exact (pending_cut c).map _
  | buffer c limit => by
    unfold pending
    by_cases hi : i ≤ c.top + 1
    · rw [if_pos hi]
      exact List.prefix_append_right_inj _ |>.mpr (pending_cut c)
    · rw [if_neg hi, List.nil_append, pending_nil]
      · exact List.nil_prefix
      · intro j hj
        exact if_neg (by omega)

end Chain

namespace World

variable {α : Type} {c : Chain α} {w w' : World α} {fed : List (ErrorOr α)}

def Traced (c : Chain α) (fed : List (ErrorOr α)) (w : World α) : Prop :=
  ∃ gone rest, fed = gone ++ rest ∧
    List.Forall₂ (fun x y => ∃ d : Chain α, d.Part c ∧ x = d.apply y) w.delivered gone ∧
    c.pending w.queueAt <+: rest.map c.apply ∧ (w.live 0 → c.pending w.queueAt = rest.map c.apply)

theorem Traced.same (h : Traced c fed w) (hdelivered : w'.delivered = w.delivered) (hlive : w'.live 0 = w.live 0)
    (hpending : c.pending w'.queueAt = c.pending w.queueAt) : Traced c fed w' := by
  obtain ⟨gone, rest, hfed, hgone, hsofar, hrest⟩ := h
  refine ⟨gone, rest, hfed, ?_, ?_, ?_⟩
  · rw [hdelivered]
    exact hgone
  · rw [hpending]
    exact hsofar
  · rw [hlive, hpending]
    exact hrest

theorem Traced.pop (h : Traced c fed w) {x : ErrorOr α} {xs : List (ErrorOr α)} (hq : w.queueAt c.top = x :: xs)
    (hdelivered : w'.delivered = w.delivered ++ [c.post x]) (hlive : w'.live 0 = w.live 0)
    (hqueue : w'.queueAt = Function.update w.queueAt c.top xs) : Traced c fed w' := by
  obtain ⟨gone, rest, hfed, hgone, hsofar, hrest⟩ := h
  rw [Chain.pending_pop hq] at hsofar hrest
  obtain ⟨y, rest, rfl⟩ : ∃ y rest', rest = y :: rest' := by
    cases rest with
    | nil => exact absurd (List.prefix_nil.mp hsofar) (List.cons_ne_nil _ _)
    | cons y rest => exact ⟨y, rest, rfl⟩
  rw [List.map_cons] at hsofar hrest
  obtain ⟨hx, hsofar⟩ := List.cons_prefix_cons.mp hsofar
  refine ⟨gone ++ [y], rest, ?_, ?_, ?_, fun h0 => ?_⟩
  · rw [hfed, List.append_assoc]
    rfl
  · rw [hdelivered]
    exact List.rel_append hgone (List.Forall₂.cons ⟨c, .refl, hx⟩ .nil)
  · rw [hqueue]
    exact hsofar
  · rw [hqueue]
    exact (List.cons.inj (hrest (hlive ▸ h0))).2

theorem Traced.pulled {i : Nat} {x : ErrorOr α} {xs : List (ErrorOr α)} (h : Traced c fed w)
    (hw : Pulled c w i x xs w') (hq : w.queueAt i = x :: xs) : Traced c fed w' := by
  have hlive : w'.live 0 = w.live 0 := by rw [hw.live]
  rcases hw.moved with ⟨-, -, hdelivered, hqueue⟩ | ⟨hi, -, hdelivered, hqueue, -⟩ | ⟨rfl, hdelivered, hqueue⟩
  · refine h.same hdelivered hlive ?_
    rw [hqueue]
  · refine h.same hdelivered hlive ?_
    rw [hqueue, Chain.pending_move hi hq]
  · exact h.pop hq hdelivered hlive hqueue

theorem Traced.cut {i : Nat} (h : Traced c fed w) (hw : Cut w i w') (h0 : 0 < i) : Traced c fed w' := by
  obtain ⟨gone, rest, hfed, hgone, hsofar, -⟩ := h
  have hqueue : w'.queueAt = fun j => if i ≤ j then w.queueAt j else [] := funext hw.queueAt
  refine ⟨gone, rest, hfed, ?_, ?_, fun hlive => ?_⟩
  · rw [hw.delivered]
    exact hgone
  · rw [hqueue]
    exact (Chain.pending_cut c).trans hsofar
  · rw [hw.live, decide_eq_false (Nat.not_le.mpr h0)] at hlive
    cases hlive

theorem Traced.fired {i : Nat} {n : StorageNode α} (h : Traced c fed w) (hw : Fired c w i n w')
    (hn : w.nodes i = some n) (h0 : n.body.drops → 0 < i) : Traced c fed w' := by
  obtain ⟨w₁, w₂, loop, hcut, hhanded, rfl⟩ := hw
  have h₁ : Traced c fed w₁ ∧ w₁.queueAt i = n.body.queue := by
    rcases hcut with ⟨-, rfl⟩ | ⟨hdrops, hcut⟩
    · exact ⟨h, queueAt_node hn⟩
    · refine ⟨h.cut hcut (h0 hdrops), ?_⟩
      rw [hcut.queueAt, if_pos (Nat.le_refl i), queueAt_node hn]
  have h₂ : Traced c fed w₂ := by
    rcases hhanded with ⟨-, rfl⟩ | ⟨-, x, xs, hq, hpulled⟩
    · exact h₁.1
    · exact h₁.1.pulled hpulled (h₁.2.trans hq)
  exact h₂.same rfl rfl rfl

theorem Chained.drops_pos {sunk : Bool} {i : Nat} {n : StorageNode α} (h : Chained c sunk w)
    (hn : w.nodes i = some n) (hdrops : n.body.drops) : 0 < i := by
  have hfit := (h.node i n hn).fits
  cases hbody : n.body with
  | queueBuffer child st limit => exact (hbody ▸ hfit : StorageBody.Fits c i (.queueBuffer child st limit)).1
  | sink child =>
    have hi : i = c.top + 1 := (hbody ▸ hfit : StorageBody.Fits c i (.sink child))
    exact hi ▸ Nat.succ_pos _
  | _ =>
    rw [hbody] at hdrops
    cases hdrops

theorem Traced.turned {sunk : Bool} (h : Traced c fed w) (hw : Chained c sunk w) (hturn : Turned c w w') :
    Traced c fed w' := by
  rcases hturn with rfl | ⟨i, n, loop, -, hn, hfired⟩
  · exact h
  · have h' : Traced c fed { w with loop := loop } := h.same rfl rfl rfl
    exact h'.fired hfired hn (hw.drops_pos hn)

theorem Traced.then (h : Traced c fed w) (func : α → ErrorOr α) : Traced (c.then func) fed w := by
  obtain ⟨gone, rest, hfed, hgone, hsofar, hrest⟩ := h
  have hmap : (rest.map c.apply).map (·.bind func) = rest.map (c.then func).apply := List.map_map ..
  refine ⟨gone, rest, hfed, hgone.imp fun x y ⟨d, hd, hx⟩ => ⟨d, hd.then func, hx⟩, ?_, fun h0 => ?_⟩
  · rw [← hmap]
    exact hsofar.map _
  · rw [← hmap, ← hrest h0]
    rfl

theorem Traced.buffer (h : Traced c fed w) (limit : Nat) (hdelivered : w'.delivered = w.delivered)
    (hlive : w'.live 0 = w.live 0) (hqueue : w'.queueAt = Function.update w.queueAt (c.top + 1) []) :
    Traced (c.buffer limit) fed w' := by
  obtain ⟨gone, rest, hfed, hgone, hsofar, hrest⟩ := h
  have hpending : (c.buffer limit).pending w'.queueAt = c.pending w.queueAt := by
    rw [Chain.pending, hqueue, Function.update_self, Chain.pending_update_above (Nat.lt_succ_self _)]
    rfl
  refine ⟨gone, rest, hfed, ?_, ?_, ?_⟩
  · rw [hdelivered]
    refine hgone.imp fun x y hxy => ?_
    obtain ⟨d, hd, hx⟩ := hxy
    exact ⟨d, hd.buffer limit, hx⟩
  · rw [hpending]
    exact hsofar
  · rw [hlive, hpending]
    exact hrest

/-! ## Taking -/

/-- `w'` is `w` after the first result of the last node was taken. -/
structure Taken (c : Chain α) (w w' : World α) : Prop where
  loop : w'.loop = w.loop
  live : w'.live = w.live
  instant : w'.instant = w.instant
  links : ∀ j k, w'.links j = some k → w.links j = some k
  moved : ∃ x xs, w.queueAt c.top = x :: xs ∧ w'.delivered = w.delivered ++ [c.post x] ∧
    w'.queueAt = Function.update w.queueAt c.top xs

theorem Chained.take (h : Chained c false w) :
    ∃ x w', Conveyor.take ⟨c.node, c.top⟩ w = some (x, w') ∧ Chained c false w' ∧ (w' = w ∨ Taken c w w') := by
  obtain ⟨n, hn⟩ := node_of_live h.last
  have hfit := h.node _ n hn
  obtain ⟨k, hk, hpos⟩ := h.queued hn
  simp only [Conveyor.take, Bool.toNat_false, Nat.add_zero] at hn hk hpos ⊢
  simp only [hk, Option.bind_eq_bind, Option.bind_some]
  by_cases h0 : 0 < k
  · obtain ⟨x, xs, hq⟩ := List.exists_cons_of_ne_nil (hpos.mp h0)
    have hq' : n.body.queue = x :: xs := (queueAt_node hn).symm.trans hq
    have hparent : n.parent = none := hfit.parent.trans (if_neg (by rw [h.size]; exact Nat.lt_irrefl _))
    simp only [if_pos h0, getResult_chain c hn hfit.fits hq', Option.bind_some, Option.pure_def]
    have hput : Chained c false (w.put c.top { n with body := n.body.pop }) :=
      h.put hn rfl hfit.fits.pop (StorageBody.child_pop _) (Or.inl rfl) fun _ hp => absurd hparent hp
    refine ⟨_, _, rfl, hput.deliver _, Or.inr ⟨rfl, live_put hn, instant_put hn (StorageBody.isImmediate_pop _),
      fun j k => links_pop hn, x, xs, hq, rfl, h.queueAt_pop hn hq'⟩⟩
  · simp only [if_neg h0]
    exact ⟨_, _, rfl, h, Or.inl rfl⟩

theorem Traced.taken (h : Traced c fed w) (hw : w' = w ∨ Taken c w w') : Traced c fed w' := by
  rcases hw with rfl | hw
  · exact h
  · obtain ⟨x, xs, hq, hdelivered, hqueue⟩ := hw.moved
    exact h.pop hq hdelivered (by rw [hw.live]) hqueue

/-! ## Attaching -/

section
variable {d : Chain α} {sunk : Bool} {b : StorageBody α}

structure Ends (c d : Chain α) (sunk : Bool) (b : StorageBody α) : Prop where
  size : d.top + 1 + sunk.toNat = c.top + 2
  limit : ∀ i ≤ c.top, d.limit i = c.limit i
  parts : ∀ i ≤ c.top, d.upTo i = c.upTo i
  fits : b.Fits d (c.top + 1)
  child : b.child = some c.node
  empty : b.queue = []
  room : 0 < b.space

theorem ends_buffer {limit : Nat} (hlimit : 0 < limit ∧ limit < 2 ^ 64) :
    Ends c (c.buffer limit) false (.queueBuffer (some c.node) [] limit) := by
  refine ⟨rfl, fun i hi => if_neg (by omega), fun i hi => if_neg (by omega), ?_, rfl, rfl, ?_⟩
  · exact ⟨Nat.succ_pos _, Nat.le_refl _, (if_pos rfl).symm, Nat.zero_le limit⟩
  · rw [StorageBody.space, List.length_nil, sizeSub_eq (Nat.zero_le _) hlimit.2]
    exact hlimit.1

theorem ends_sink : Ends c c true (.sink (some c.node)) :=
  ⟨rfl, fun _ _ => rfl, fun _ _ => rfl, rfl, rfl, rfl, Nat.one_pos⟩

theorem Fits.grow {i : Nat} {b' : StorageBody α} (hend : Ends c d sunk b) (h : b'.Fits c i) (hi : i ≤ c.top) :
    b'.Fits d i := by
  cases b' with
  | queueBuffer child st limit =>
    obtain ⟨h0, -, hlimit, hlen⟩ := h
    have hsize := hend.size
    have hle := Bool.toNat_le sunk
    refine ⟨h0, by omega, ?_, hlen⟩
    rw [hend.limit i hi]
    exact hlimit
  | sink child =>
    have : i = c.top + 1 := h
    omega
  | _ => exact h

def extended (w : World α) (m : StorageNode α) (i : Nat) : World α := { w.put (i + 1) m with size := i + 2 }

def grown (w : World α) (loop : EventLoop Nat) (n m : StorageNode α) (i : Nat) : World α :=
  ({ w with loop := loop }.extended m i).put i { n with parent := some (i + 1) }

theorem nodes_grown (w : World α) (loop : EventLoop Nat) (n m : StorageNode α) (i : Nat) :
    (w.grown loop n m i).nodes (i + 1) = some m ∧ (w.grown loop n m i).nodes i = some { n with parent := some (i + 1) } ∧
      ∀ j, j ≠ i → j ≠ i + 1 → (w.grown loop n m i).nodes j = w.nodes j := by
  refine ⟨(nodes_put_ne (Nat.succ_ne_self i)).trans nodes_put_self, nodes_put_self, fun j hi hi' => ?_⟩
  exact (nodes_put_ne hi).trans (nodes_put_ne hi')

theorem live_grown {n : StorageNode α} {i : Nat} (hn : w.nodes i = some n) (loop : EventLoop Nat) (m : StorageNode α)
    (j : Nat) :
    (w.grown loop n m i).live j = (decide (j = i + 1) || w.live j) := by
  obtain ⟨hnew, hold, hkept⟩ := nodes_grown w loop n m i
  by_cases hi : j = i
  · rw [hi, live_of_node hold, live_of_node hn, Bool.or_true]
  · by_cases hi' : j = i + 1
    · rw [hi', live_of_node hnew, decide_eq_true rfl, Bool.true_or]
    · rw [live, hkept j hi hi', decide_eq_false hi', Bool.false_or, live]

section
variable {loop : EventLoop Nat} {n m : StorageNode α} {i : Nat} (hn : w.nodes i = some n)
include hn

theorem nodes_extended : ({ w with loop := loop }.extended m i).nodes i = some n :=
  (nodes_put_ne (Nat.ne_of_lt (Nat.lt_succ_self i))).trans hn

theorem queueAt_grown : (w.grown loop n m i).queueAt = Function.update w.queueAt (i + 1) m.body.queue := by
  have hsame : (w.grown loop n m i).queueAt = ({ w with loop := loop }.extended m i).queueAt :=
    queueAt_put_same (nodes_extended hn) rfl
  rw [hsame]
  exact queueAt_put

theorem instant_grown : (w.grown loop n m i).instant = w.instant := by
  have hsame : (w.grown loop n m i).instant = ({ w with loop := loop }.extended m i).instant :=
    instant_put (nodes_extended hn) rfl
  have hbottom : ({ w with loop := loop }.extended m i).nodes 0 = w.nodes 0 :=
    Function.update_of_ne (Nat.succ_ne_zero i).symm (some m) w.nodes
  rw [hsame, instant, instant, hbottom]

end

section
variable (h : Chained c false w) (hend : Ends c d sunk b) {n : StorageNode α} (hn : w.nodes c.top = some n)
  {loop : EventLoop Nat}
include h hend hn

/-- The nodes of the longer chain: the last one so far, which has a parent now, the new one, and the others. -/
theorem Chained.node_grown {i : Nat} {m : StorageNode α}
    (hm : (w.grown loop n ⟨none, some c.top, b⟩ c.top).nodes i = some m) :
    NodeFits d (w.grown loop n ⟨none, some c.top, b⟩ c.top) i m := by
  have hlive := live_grown hn loop ⟨none, some c.top, b⟩
  obtain ⟨hnew, hold, hkept⟩ := nodes_grown w loop n ⟨none, some c.top, b⟩ c.top
  have hsize : w.size = c.top + 1 := h.size
  have hchild : ∀ i ≤ c.top, childAt d (w.grown loop n ⟨none, some c.top, b⟩ c.top) i = w.childAt c i := by
    intro i hi
    cases i with
    | zero => rfl
    | succ i => rw [childAt, childAt, hlive, decide_eq_false (by omega), Bool.false_or, hend.parts i (by omega)]
  have hstorage : ∀ j, w.live j → (w.grown loop n ⟨none, some c.top, b⟩ c.top).live j := by
    intro j hj
    rw [hlive, hj, Bool.or_true]
  by_cases hi : i = c.top
  · subst hi
    obtain rfl := Option.some.inj (hold.symm.trans hm)
    have hfit := h.node _ n hn
    refine ⟨Nat.lt_succ_of_lt (Nat.lt_succ_self _), (if_pos (Nat.lt_succ_self _)).symm, ?_, ?_, fun j hj => ?_⟩
    · exact Fits.grow hend hfit.fits (Nat.le_refl _)
    · exact hfit.child.trans (hchild _ (Nat.le_refl _)).symm
    · exact ⟨(hfit.storage j hj).1, hstorage j (hfit.storage j hj).2⟩
  · by_cases hi' : i = c.top + 1
    · subst hi'
      obtain rfl := Option.some.inj (hnew.symm.trans hm)
      refine ⟨Nat.lt_succ_self _, (if_neg (Nat.lt_irrefl _)).symm, hend.fits, ?_, fun j hj => ?_⟩
      · rw [childAt, if_pos (hstorage _ (live_of_node hn)), hend.parts _ (Nat.le_refl _), c.upTo_top]
        exact hend.child
      · obtain rfl := Option.some.inj hj
        exact ⟨rfl, hstorage _ (live_of_node hn)⟩
    · rw [hkept i hi hi'] at hm
      have hfit := h.node i m hm
      have hbelow := hfit.below
      refine ⟨Nat.lt_succ_of_lt (hsize ▸ hbelow), ?_, Fits.grow hend hfit.fits (by omega),
        hfit.child.trans (hchild i (by omega)).symm, fun j hj => ?_⟩
      · rw [hfit.parent, hsize, if_pos (by omega)]
        exact (if_pos (show i + 1 < c.top + 2 by omega)).symm
      · exact ⟨(hfit.storage j hj).1, hstorage j (hfit.storage j hj).2⟩

theorem Chained.grown (hsound : loop.Sound) (harmed : ∀ a, loop.isArmed a → w.isArmed a ∨ a = c.top)
    (hqueue : loop.isArmed c.top → n.body.queue ≠ []) :
    Chained d sunk (w.grown loop n ⟨none, some c.top, b⟩ c.top) := by
  have hlive := live_grown hn loop ⟨none, some c.top, b⟩
  obtain ⟨-, hold, hkept⟩ := nodes_grown w loop n ⟨none, some c.top, b⟩ c.top
  have hsize : w.size = c.top + 1 := h.size
  have hbeyond : w.live (c.top + 1) = false := by
    cases hl : w.live (c.top + 1) with
    | false => rfl
    | true =>
      obtain ⟨m, hm⟩ := node_of_live hl
      exact absurd (h.node _ m hm).below (by omega)
  refine ⟨hsound, hend.size.symm, fun i m hm => h.node_grown hend hn hm, fun i hi hlt => ?_, ?_, fun a ha => ?_, h.fed⟩
  · rw [hlive] at hi ⊢
    by_cases hi' : i = c.top
    · rw [hi', decide_eq_true rfl, Bool.true_or]
    · have hlt' : i + 1 < c.top + 2 := hlt
      have hil : w.live i := by
        by_cases hie : i = c.top + 1
        · omega
        · rwa [decide_eq_false hie, Bool.false_or] at hi
      rw [h.above i hil (by omega), Bool.or_true]
  · have hlast := hend.size
    rw [hlive, decide_eq_true (by omega), Bool.true_or]
  · rcases harmed a ha with harmed | rfl
    · obtain ⟨m, hm, hq⟩ := h.ready a harmed
      by_cases ha' : a = c.top
      · subst ha'
        exact ⟨_, hold, fun _ => hqueue ha⟩
      · have hne : a ≠ c.top + 1 := by
          rintro rfl
          rw [live_of_node hm] at hbeyond
          cases hbeyond
        exact ⟨m, (hkept a ha' hne).trans hm, hq⟩
    · exact ⟨_, hold, fun _ => hqueue ha⟩

end

/-- `w'` is `w` after a node with body `b` was attached to node `i`. -/
structure Attached (w : World α) (i : Nat) (b : StorageBody α) (w' : World α) : Prop where
  delivered : w'.delivered = w.delivered
  live : w'.live 0 = w.live 0
  instant : w'.instant = w.instant
  queueAt : w'.queueAt = Function.update w.queueAt (i + 1) b.queue
  loop : w'.loop = if ¬ w.isArmed i ∧ w.queueAt i ≠ [] then w.loop.armLater i else w.loop
  links : ∀ j, w'.links j = if j = i + 1 then some i else w.links j

theorem attached_grown {loop : EventLoop Nat} {n : StorageNode α} {i : Nat} (hn : w.nodes i = some n)
    (hloop : loop = if ¬ w.isArmed i ∧ w.queueAt i ≠ [] then w.loop.armLater i else w.loop) :
    Attached w i b (w.grown loop n ⟨none, some i, b⟩ i) := by
  obtain ⟨hnew, hold, hkept⟩ := nodes_grown w loop n ⟨none, some i, b⟩ i
  refine ⟨rfl, ?_, instant_grown hn, queueAt_grown hn, hloop, fun j => ?_⟩
  · rw [live_grown hn, decide_eq_false (Nat.succ_ne_zero _).symm, Bool.false_or]
  · by_cases hj : j = i
    · rw [hj, links_node hold, if_neg (Nat.ne_of_lt (Nat.lt_succ_self i)), links_node hn]
    · by_cases hj' : j = i + 1
      · rw [hj', links_node hnew, if_pos rfl]
      · rw [World.links, hkept j hj hj', if_neg hj', World.links]

/-- **Attaching a node** to a chain whose last node is not armed with nothing to give. -/
theorem Chained.attach (h : Chained c false w) (hend : Ends c d sunk b)
    (hunspent : w.isArmed c.top → w.queueAt c.top ≠ []) :
    ∃ w', (w.alloc ⟨none, some c.top, b⟩).2.setParent c.top (w.alloc ⟨none, some c.top, b⟩).1 = some w' ∧
      Chained d sunk w' ∧ Attached w c.top b w' := by
  obtain ⟨n, hn⟩ := node_of_live h.last
  simp only [Bool.toNat_false, Nat.add_zero] at hn
  have hsize : w.size = c.top + 1 := h.size
  have hparent : n.parent = none := (h.node _ n hn).parent.trans (if_neg (by rw [hsize]; exact Nat.lt_irrefl _))
  have hfit := (h.node _ n hn).fits
  obtain ⟨m, hm⟩ : ∃ m : StorageNode α, m = ⟨none, some c.top, b⟩ := ⟨_, rfl⟩
  have hv : (w.alloc m).2 = w.extended m c.top := by
    rw [alloc, hsize]
    rfl
  have hvn : (w.extended m c.top).nodes c.top = some n := nodes_extended hn
  have hvs : (w.extended m c.top).space (c.top + 1) = some b.space := by
    rw [World.space, show (w.extended m c.top).nodes (c.top + 1) = some m from nodes_put_self, hm]
    rfl
  obtain ⟨loop, hloop⟩ : ∃ loop,
      loop = if ¬ w.isArmed c.top ∧ w.queueAt c.top ≠ [] then w.loop.armLater c.top else w.loop := ⟨_, rfl⟩
  have hcond : (¬ w.isArmed c.top ∧ 0 < n.body.queued ∧ 0 < b.space) ↔ ¬ w.isArmed c.top ∧ w.queueAt c.top ≠ [] := by
    rw [queueAt_node hn, hfit.queued_pos]
    simp only [hend.room, and_true]
  have hgrown : (if ¬ (w.extended m c.top).isArmed c.top ∧ 0 < n.body.queued ∧ 0 < b.space then
      (w.extended m c.top).armLater c.top else w.extended m c.top).put c.top { n with parent := some (c.top + 1) } =
      w.grown loop n m c.top := by
    rw [hloop]
    by_cases hspent : ¬ w.isArmed c.top ∧ w.queueAt c.top ≠ []
    · rw [if_pos (show ¬ (w.extended m c.top).isArmed c.top ∧ _ from hcond.mpr hspent), if_pos hspent]
      rfl
    · rw [if_neg (show ¬ (¬ (w.extended m c.top).isArmed c.top ∧ _) from fun hall => hspent (hcond.mp hall)),
        if_neg hspent]
      rfl
  rw [← hm, hv, show (w.alloc m).1 = c.top + 1 from hsize, setParent_eq hvn (queued_node hvn hfit) hvs hparent, hgrown,
    hm]
  refine ⟨_, rfl, h.grown hend hn ?_ (fun a ha => ?_) fun ha => ?_, attached_grown hn hloop⟩
  · rw [hloop]
    split
    · exact h.loop.armLater c.top
    · exact h.loop
  · rw [hloop] at ha
    split at ha
    · exact ((h.loop.isArmed_armLater c.top a).mp ha).symm
    · exact Or.inl ha
  · rw [← queueAt_node hn]
    rw [hloop] at ha
    split at ha
    next hspent => exact hspent.2
    next => exact hunspent ha

end

end World

end Forstio
