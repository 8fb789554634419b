import Forstio.Chain
import Forstio.EventQueue

/-!
# Worlds that hold one chain

`Chained c sunk w` says that the storage nodes of `w` are those of the chain `c`
from some node on: a critical error destroys the nodes behind the buffer it has
reached. Whoever is armed and has a parent to fire into has something to hand
on. The source at the bottom is a feeder's node or an immediate value.
-/

namespace Forstio

namespace StorageBody

variable {α : Type}

def pop : StorageBody α → StorageBody α
  | adapt storage => adapt storage.tail
  | queueBuffer child storage maxStore => queueBuffer child storage.tail maxStore
  | immediate value retrieved => immediate value (if retrieved > 1 then retrieved else retrieved + 1)
  | body => body

def isImmediate : StorageBody α → Bool
  | immediate _ _ => true
  | _ => false

/-- The classes of a chain, each at its place. -/
def Fits (c : Chain α) (i : Nat) : StorageBody α → Prop
  | adapt _ => i = 0
  | queueBuffer _ storage maxStore => 0 < i ∧ i ≤ c.top ∧ maxStore = c.limit i ∧ storage.length ≤ maxStore
  | sink _ => i = c.top + 1
  | immediate _ _ => i = 0
  | merge _ _ => False
  | appendage _ _ _ => False

section
variable {c : Chain α} {i : Nat} {b : StorageBody α}

theorem Fits.pop (h : b.Fits c i) : b.pop.Fits c i := by
  cases b with
  | queueBuffer child storage maxStore =>
    obtain ⟨h0, htop, hlimit, hlen⟩ := h
    refine ⟨h0, htop, hlimit, ?_⟩
    rw [List.length_tail]
    omega
  | _ => exact h

theorem Fits.queue_pop (h : b.Fits c i) : b.pop.queue = b.queue.tail := by
  cases b with
  | immediate value retrieved => rcases retrieved with _ | _ | k <;> rfl
  | appendage _ _ _ => exact h.elim
  | _ => rfl

theorem isImmediate_pop (b : StorageBody α) : b.pop.isImmediate = b.isImmediate := by
  cases b <;> rfl

theorem child_pop (b : StorageBody α) : b.pop.child = b.child := by
  cases b <;> rfl

theorem Fits.dropChild (h : b.Fits c i) : b.dropChild.Fits c i := by
  cases b with
  | _ => exact h

theorem Fits.child_dropChild (h : b.Fits c i) : b.dropChild.child = none := by
  cases b with
  | appendage _ _ _ => exact h.elim
  | _ => rfl

theorem queue_dropChild (b : StorageBody α) : b.dropChild.queue = b.queue := by
  cases b <;> rfl

theorem Fits.queued_pos (h : b.Fits c i) : 0 < b.queued ↔ b.queue ≠ [] := by
  cases b with
  | immediate value retrieved =>
    rcases retrieved with _ | _ | k
    · simp [StorageBody.queued, StorageBody.queue]
    · simp [StorageBody.queued, StorageBody.queue]
    · simp [StorageBody.queued, StorageBody.queue]
  | adapt storage => exact List.length_pos_iff
  | queueBuffer child storage maxStore => exact List.length_pos_iff
  | sink child => simp [StorageBody.queued, StorageBody.queue]
  | merge _ _ => exact h.elim
  | appendage _ _ _ => exact h.elim

end

end StorageBody

namespace World

variable {α : Type}

def live (w : World α) (i : Nat) : Bool := (w.nodes i).isSome

def instant (w : World α) : Bool := (w.nodes 0).any (·.body.isImmediate)

def put (w : World α) (i : Nat) (n : StorageNode α) : World α :=
  { w with nodes := Function.update w.nodes i (some n) }

/-- What storage node `i` of the chain owns. -/
def childAt (c : Chain α) (w : World α) : Nat → Option (ConveyorNode α)
  | 0 => none
  | i + 1 => if w.live i then some (c.upTo i).node else none

structure NodeFits (c : Chain α) (w : World α) (i : Nat) (n : StorageNode α) : Prop where
  below : i < w.size
  parent : n.parent = if i + 1 < w.size then some (i + 1) else none
  fits : n.body.Fits c i
  child : n.body.child = w.childAt c i
  storage : ∀ j, n.childStorage = some j → j + 1 = i ∧ w.live j

structure Chained (c : Chain α) (sunk : Bool) (w : World α) : Prop where
  loop : w.loop.Sound
  size : w.size = c.top + 1 + sunk.toNat
  node : ∀ i n, w.nodes i = some n → NodeFits c w i n
  above : ∀ i, w.live i → i + 1 < w.size → w.live (i + 1)
  last : w.live (c.top + sunk.toNat)
  ready : ∀ i, w.isArmed i → ∃ n, w.nodes i = some n ∧ (n.parent ≠ none → n.body.queue ≠ [])
  fed : w.starved = false

/-! ## Changing one node -/

section
variable {c : Chain α} {sunk : Bool} {w : World α} {i j : Nat} {n n' : StorageNode α}

theorem live_of_node (hn : w.nodes i = some n) : w.live i = true := by
  rw [live, hn]
  rfl

theorem node_of_live (h : w.live i) : ∃ n, w.nodes i = some n := Option.isSome_iff_exists.mp h

theorem nodes_put_self : (w.put i n').nodes i = some n' := Function.update_self ..

theorem nodes_put_ne (hj : j ≠ i) : (w.put i n').nodes j = w.nodes j := Function.update_of_ne hj ..

theorem put_put : (w.put i n).put i n' = w.put i n' := by
  simp only [put, Function.update_idem]

theorem live_put (hn : w.nodes i = some n) : (w.put i n').live = w.live := by
  funext j
  by_cases hj : j = i
  · subst hj
    rw [live_of_node hn, live_of_node nodes_put_self]
  · rw [live, nodes_put_ne hj, live]

theorem instant_put (hn : w.nodes i = some n) (himm : n'.body.isImmediate = n.body.isImmediate) :
    (w.put i n').instant = w.instant := by
  by_cases hi : 0 = i
  · subst hi
    rw [instant, nodes_put_self, instant, hn, Option.any_some, himm, Option.any_some]
  · rw [instant, nodes_put_ne hi, instant]

theorem childAt_of_live {w' : World α} (h : w'.live = w.live) : w'.childAt c i = w.childAt c i := by
  cases i with
  | zero => rfl
  | succ i => rw [childAt, childAt, h]

theorem NodeFits.of_live {w' : World α} (h : NodeFits c w i n) (hlive : w'.live = w.live) (hsize : w'.size = w.size) :
    NodeFits c w' i n := by
  refine ⟨?_, ?_, h.fits, ?_, ?_⟩
  · rw [hsize]
    exact h.below
  · rw [hsize]
    exact h.parent
  · rw [childAt_of_live hlive]
    exact h.child
  · rw [hlive]
    exact h.storage

theorem queueAt_node (hn : w.nodes i = some n) : w.queueAt i = n.body.queue := by
  simp only [queueAt, hn]

theorem queueAt_put : (w.put i n').queueAt = Function.update w.queueAt i n'.body.queue := by
  funext j
  by_cases hj : j = i
  · subst hj
    rw [Function.update_self, queueAt_node nodes_put_self]
  · rw [Function.update_of_ne hj, queueAt, nodes_put_ne hj, queueAt]

theorem queueAt_put_same (hn : w.nodes i = some n) (hq : n'.body.queue = n.body.queue) :
    (w.put i n').queueAt = w.queueAt := by
  rw [queueAt_put, hq, ← queueAt_node hn, Function.update_eq_self]

theorem modify_eq (hn : w.nodes i = some n) (f : StorageNode α → StorageNode α) :
    w.modify i f = some (w.put i (f n)) := by
  simp only [modify, hn, Option.bind_eq_bind, Option.bind_some, Option.pure_def, put]

theorem setBody_eq (hn : w.nodes i = some n) (f : StorageBody α → StorageBody α) :
    w.setBody i f = some (w.put i { n with body := f n.body }) := modify_eq hn _

theorem setParent_eq {p k s : Nat} (hn : w.nodes i = some n) (hk : w.queued i = some k)
    (hs : w.space p = some s) (hparent : n.parent = none) : w.setParent i p = some
      ((if ¬ w.isArmed i ∧ 0 < k ∧ 0 < s then w.armLater i else w).put i { n with parent := some p }) := by
  simp only [setParent, hn, hk, Option.bind_eq_bind, Option.bind_some]
  by_cases harm : ¬ w.isArmed i ∧ 0 < k
  · rw [if_pos harm]
    simp only [assert, hparent, if_true, Option.bind_some, hs, Option.pure_def]
    by_cases h0 : 0 < s
    · rw [if_pos h0, if_pos ⟨harm.1, harm.2, h0⟩]
      exact modify_eq (w := w.armLater i) hn _
    · rw [if_neg h0, if_neg fun hall => h0 hall.2.2]
      exact modify_eq hn _
  · rw [if_neg harm, if_neg fun hall => harm ⟨hall.1, hall.2.1⟩]
    exact modify_eq hn _

/-- A changed node must still stand at its place and, if armed, have something to hand on. -/
theorem Chained.put (h : Chained c sunk w) (hn : w.nodes i = some n) (hparent : n'.parent = n.parent)
    (hfits : n'.body.Fits c i) (hchild : n'.body.child = n.body.child)
    (hstorage : n'.childStorage = n.childStorage ∨ n'.childStorage = none)
    (hqueue : w.isArmed i → n.parent ≠ none → n'.body.queue ≠ []) : Chained c sunk (w.put i n') := by
  have hlive : (w.put i n').live = w.live := live_put hn
  have hfit := h.node i n hn
  refine ⟨h.loop, h.size, fun j m hm => ?_, ?_, ?_, fun j hj => ?_, h.fed⟩
  · by_cases hj : j = i
    · subst hj
      rw [nodes_put_self] at hm
      obtain rfl := Option.some.inj hm
      refine NodeFits.of_live ⟨hfit.below, hparent.trans hfit.parent, hfits, hchild.trans hfit.child, ?_⟩ hlive rfl
      intro k hk
      rcases hstorage with hs | hs
      · exact hfit.storage k (hs ▸ hk)
      · rw [hs] at hk
        cases hk
    · rw [nodes_put_ne hj] at hm
      exact (h.node j m hm).of_live hlive rfl
  · rw [hlive]
    exact h.above
  · rw [hlive]
    exact h.last
  · obtain ⟨m, hm, hq⟩ := h.ready j hj
    by_cases hji : j = i
    · subst hji
      refine ⟨n', nodes_put_self, fun hp => ?_⟩
      exact hqueue hj (hparent ▸ hp)
    · exact ⟨m, (nodes_put_ne hji).trans hm, hq⟩

theorem Chained.arm (h : Chained c sunk w) {loop : EventLoop Nat} (hsound : loop.Sound)
    (harmed : ∀ a, loop.isArmed a → a = i ∨ w.isArmed a) (hn : w.nodes i = some n)
    (hq : n.parent ≠ none → n.body.queue ≠ []) : Chained c sunk { w with loop := loop } := by
  refine ⟨hsound, h.size, fun j m hm => (h.node j m hm).of_live rfl rfl, h.above, h.last, fun j hj => ?_, h.fed⟩
  rcases harmed j hj with rfl | hj
  · exact ⟨n, hn, hq⟩
  · exact h.ready j hj

theorem Chained.armLater (h : Chained c sunk w) (hn : w.nodes i = some n)
    (hq : n.parent ≠ none → n.body.queue ≠ []) : Chained c sunk (w.armLater i) :=
  h.arm (h.loop.armLater i) (fun a => (h.loop.isArmed_armLater i a).mp) hn hq

theorem Chained.armNext (h : Chained c sunk w) (hn : w.nodes i = some n)
    (hq : n.parent ≠ none → n.body.queue ≠ []) : Chained c sunk (w.armNext i) :=
  h.arm (h.loop.armNext i) (fun a => (h.loop.isArmed_armNext i a).mp) hn hq

theorem Chained.armLast (h : Chained c sunk w) (hn : w.nodes i = some n)
    (hq : n.parent ≠ none → n.body.queue ≠ []) : Chained c sunk (w.armLast i) :=
  h.arm (h.loop.armLast i) (fun a => (h.loop.isArmed_armLast i a).mp) hn hq

theorem Chained.deliver (h : Chained c sunk w) (x : ErrorOr α) : Chained c sunk (w.deliver x) :=
  ⟨h.loop, h.size, fun j m hm => (h.node j m hm).of_live rfl rfl, h.above, h.last, h.ready, h.fed⟩

/-! ## Pulling -/

theorem getResult_storage (hn : w.nodes i = some n) (hfit : n.body.Fits c i) {x : ErrorOr α} {xs : List (ErrorOr α)}
    (hq : n.body.queue = x :: xs) : w.getResult (.storage i) = some (x, w.put i { n with body := n.body.pop }) := by
  obtain ⟨parent, childStorage, body⟩ := n
  cases body with
  | adapt storage =>
    obtain rfl : storage = x :: xs := hq
    simp only [getResult, hn, Option.bind_eq_bind, Option.bind_some, setBody_eq hn, Option.pure_def]
    rfl
  | queueBuffer child storage maxStore =>
    obtain rfl : storage = x :: xs := hq
    simp only [getResult, hn, Option.bind_eq_bind, Option.bind_some, setBody_eq hn, Option.pure_def]
    rfl
  | sink child => cases hq
  | immediate value retrieved =>
    have hx : (if retrieved > 0 then alreadyTaken else value) = x := by
      rcases retrieved with _ | _ | k
      · exact (List.cons.inj hq).1
      · exact (List.cons.inj hq).1
      · cases hq
    simp only [getResult, hn, Option.bind_eq_bind, Option.bind_some, setBody_eq hn, Option.pure_def, hx]
    rfl
  | merge _ _ => exact hfit.elim
  | appendage _ _ _ => exact hfit.elim

theorem getResult_chain : ∀ (d : Chain α), w.nodes d.top = some n → n.body.Fits c d.top →
    ∀ {x : ErrorOr α} {xs : List (ErrorOr α)}, n.body.queue = x :: xs →
      w.getResult d.node = some (d.post x, w.put d.top { n with body := n.body.pop })
  | .feeder, hn, hfit, _, _, hq => getResult_storage hn hfit hq
  | .then d func, hn, hfit, x, xs, hq => by
    have ih := getResult_chain d (show w.nodes d.top = some n from hn) hfit hq
    simp only [Chain.node, getResult, ih, Option.bind_eq_bind, Option.bind_some, Chain.post]
    cases d.post x <;> rfl
  | .buffer _ _, hn, hfit, _, _, hq => getResult_storage hn hfit hq

theorem getResult_upTo (hi : i ≤ c.top) (hn : w.nodes i = some n) (hfit : n.body.Fits c i) {x : ErrorOr α}
    {xs : List (ErrorOr α)} (hq : n.body.queue = x :: xs) :
    w.getResult (c.upTo i).node = some ((c.upTo i).post x, w.put i { n with body := n.body.pop }) := by
  have htop := c.top_upTo hi
  have hget := getResult_chain (c.upTo i) (htop.symm ▸ hn) (htop.symm ▸ hfit) hq
  rwa [htop] at hget

/-- The storage a node still wakes when it has fired. -/
def links (w : World α) (i : Nat) : Option Nat := (w.nodes i).bind (·.childStorage)

theorem links_node (hn : w.nodes i = some n) : w.links i = n.childStorage := by
  rw [links, hn]
  rfl

theorem links_put_ne (hj : j ≠ i) : (w.put i n').links j = w.links j := by
  rw [links, nodes_put_ne hj, links]

end

/-- `w'` is `w` after the parent of storage node `i` was told that `i` has fired, and pulled `x` from it
if it had room. -/
structure Pulled (c : Chain α) (w : World α) (i : Nat) (x : ErrorOr α) (xs : List (ErrorOr α)) (w' : World α) :
    Prop where
  live : w'.live = w.live
  instant : w'.instant = w.instant
  links : ∀ j k, w'.links j = some k → w.links j = some k
  moved : i < c.top ∧ c.limit (i + 1) ≤ (w.queueAt (i + 1)).length ∧ w'.delivered = w.delivered ∧
      w'.queueAt = w.queueAt ∨
    i < c.top ∧ (w.queueAt (i + 1)).length < c.limit (i + 1) ∧ w'.delivered = w.delivered ∧
      w'.queueAt = Function.update (Function.update w.queueAt i xs) (i + 1)
        (w.queueAt (i + 1) ++ [(c.upTo i).post x]) ∧
      (w'.links (i + 1) ≠ none → ((c.upTo i).post x).isCritical = false) ∨
    i = c.top ∧ w'.delivered = w.delivered ++ [c.post x] ∧ w'.queueAt = Function.update w.queueAt i xs

/-- Between `w` and `w'` a sink is armed by a critical result only. -/
structure Stirred (c : Chain α) (w w' : World α) : Prop where
  delivered : w.delivered <+: w'.delivered
  sink : w'.isArmed (c.top + 1) → w.isArmed (c.top + 1) ∨ ∃ x ∈ w'.delivered, x.isCritical

/-- Between `w` and `w'` the source does not get hold of the later insertion point. -/
def Unheld (w w' : World α) : Prop := w'.loop.laterInsertPoint = .next 0 → w.loop.laterInsertPoint = .next 0

section
variable {c : Chain α} {sunk : Bool} {w w₁ w₂ : World α} {i : Nat} {n m : StorageNode α}

theorem Stirred.refl : Stirred c w w := ⟨List.prefix_rfl, Or.inl⟩

theorem Stirred.trans (h : Stirred c w w₁) (h' : Stirred c w₁ w₂) : Stirred c w w₂ := by
  refine ⟨h.delivered.trans h'.delivered, fun harmed => ?_⟩
  rcases h'.sink harmed with harmed | hcritical
  · rcases h.sink harmed with harmed | ⟨x, hx, hcritical⟩
    · exact Or.inl harmed
    · exact Or.inr ⟨x, h'.delivered.subset hx, hcritical⟩
  · exact Or.inr hcritical

theorem Stirred.arm {loop : EventLoop Nat} (harmed : ∀ a, loop.isArmed a → a = i ∨ w.isArmed a) (hi : i ≤ c.top) :
    Stirred c w { w with loop := loop } := by
  refine ⟨List.prefix_rfl, fun hsink => Or.inl ?_⟩
  exact (harmed _ hsink).resolve_left (by omega)

theorem unheld_armLater (hi : i ≠ 0) : Unheld w (w.armLater i) := by
  intro hlater
  rcases w.loop.laterInsertPoint_armLater i with h | h
  · exact absurd (Slot.next.inj (h.symm.trans hlater)) hi
  · exact h.symm.trans hlater

theorem unheld_armLast : Unheld w (w.armLast i) := fun hlater =>
  (w.loop.laterInsertPoint_armLast i).symm.trans hlater

theorem Chained.top_of_parent (h : Chained c sunk w) (hn : w.nodes i = some n) {p : Nat} (hp : n.parent = some p) :
    p = i + 1 ∧ i + 1 < w.size ∧ i ≤ c.top := by
  have hparent := (h.node i n hn).parent
  rw [hp] at hparent
  split at hparent
  next hlt =>
    have hsize := h.size
    have : sunk.toNat ≤ 1 := Bool.toNat_le sunk
    exact ⟨Option.some.inj hparent, hlt, by omega⟩
  next => cases hparent

theorem Chained.buffer_node (h : Chained c sunk w) (hn : w.nodes i = some n) (h0 : 0 < i) (hi : i ≤ c.top) :
    ∃ child st, n.body = .queueBuffer child st (c.limit i) ∧ st.length ≤ c.limit i := by
  have hfits := (h.node i n hn).fits
  cases hbody : n.body with
  | queueBuffer child st limit =>
    rw [hbody] at hfits
    obtain ⟨-, -, rfl, hlen⟩ := hfits
    exact ⟨child, st, rfl, hlen⟩
  | sink child =>
    rw [hbody] at hfits
    have : i = c.top + 1 := hfits
    omega
  | adapt st =>
    rw [hbody] at hfits
    exact absurd hfits (Nat.ne_of_gt h0)
  | immediate value retrieved =>
    rw [hbody] at hfits
    exact absurd hfits (Nat.ne_of_gt h0)
  | merge _ _ => exact (hbody ▸ hfits : StorageBody.Fits c i (.merge _ _)).elim
  | appendage _ _ _ => exact (hbody ▸ hfits : StorageBody.Fits c i (.appendage _ _ _)).elim

def storing (c : Chain α) (i : Nat) (m : StorageNode α) (st : List (ErrorOr α)) (limit : Nat) (y : ErrorOr α) :
    StorageNode α :=
  { m with
    childStorage := if y.isCritical then none else m.childStorage
    body := .queueBuffer (some (c.upTo i).node) (st ++ [y]) limit }

theorem childHasFired_room (hn : w.nodes i = some n) (hfit : n.body.Fits c i) {x : ErrorOr α} {xs : List (ErrorOr α)}
    (hq : n.body.queue = x :: xs) (hi : i ≤ c.top) {st : List (ErrorOr α)} {limit : Nat}
    (hm : w.nodes (i + 1) = some m) (hbody : m.body = .queueBuffer (some (c.upTo i).node) st limit)
    (hroom : st.length < limit) :
    w.childHasFired (i + 1) = some (
      let w := (w.put i { n with body := n.body.pop }).put (i + 1) (storing c i m st limit ((c.upTo i).post x))
      if w.isArmed (i + 1) then w else w.armLater (i + 1)) := by
  have hm' : (w.put i { n with body := n.body.pop }).nodes (i + 1) = some m :=
    (nodes_put_ne (Nat.succ_ne_self i)).trans hm
  simp only [childHasFired, hm, Option.bind_eq_bind, Option.bind_some, hbody, if_pos hroom,
    getResult_upTo hi hn hfit hq, storing]
  by_cases hcrit : ((c.upTo i).post x).isCritical
  · simp only [hcrit, if_true, modify_eq hm', Option.bind_some, setBody_eq nodes_put_self, StorageBody.push, hbody,
      Option.pure_def, put_put]
  · simp only [hcrit, Bool.false_eq_true, if_false, Option.bind_some, setBody_eq hm', StorageBody.push, hbody,
      Option.pure_def]

section
variable (h : Chained c sunk w) (hn : w.nodes i = some n) {x : ErrorOr α} {xs : List (ErrorOr α)}
  (hq : n.body.queue = x :: xs)
include h hn

theorem Chained.pop (hu : w.isArmed i = false) : Chained c sunk (w.put i { n with body := n.body.pop }) := by
  refine h.put hn rfl (h.node i n hn).fits.pop (StorageBody.child_pop _) (Or.inl rfl) fun ha => ?_
  rw [hu] at ha
  cases ha

include hq

theorem Chained.queueAt_pop : (w.put i { n with body := n.body.pop }).queueAt = Function.update w.queueAt i xs := by
  rw [queueAt_put, (h.node i n hn).fits.queue_pop, hq]
  rfl

omit h hq in
theorem links_pop {j k : Nat} (hj : (w.put i { n with body := n.body.pop }).links j = some k) : w.links j = some k := by
  by_cases hji : j = i
  · subst hji
    rw [links_node nodes_put_self] at hj
    rw [links_node hn]
    exact hj
  · rwa [links_put_ne hji] at hj

omit hq in
theorem Chained.store (hu : w.isArmed i = false) (hm : w.nodes (i + 1) = some m) {st : List (ErrorOr α)} {limit : Nat}
    (hbody : m.body = .queueBuffer (some (c.upTo i).node) st limit) (hroom : st.length < limit) (y : ErrorOr α) :
    Chained c sunk ((w.put i { n with body := n.body.pop }).put (i + 1) (storing c i m st limit y)) := by
  have hf : (StorageBody.queueBuffer (some (c.upTo i).node) st limit).Fits c (i + 1) :=
    hbody ▸ (h.node (i + 1) m hm).fits
  obtain ⟨-, htop, hlimit, -⟩ := hf
  have hm' : (w.put i { n with body := n.body.pop }).nodes (i + 1) = some m :=
    (nodes_put_ne (Nat.succ_ne_self i)).trans hm
  refine (h.pop hn hu).put hm' rfl ⟨Nat.succ_pos i, htop, hlimit, ?_⟩ ?_ ?_ fun _ _ => ?_
  · rw [List.length_append]
    exact hroom
  · rw [hbody]
    rfl
  · unfold storing
    dsimp only
    split
    · exact Or.inr rfl
    · exact Or.inl rfl
  · simp [storing, StorageBody.queue]

omit h hq in
theorem links_store (hm : w.nodes (i + 1) = some m) {st : List (ErrorOr α)} {limit : Nat} {y : ErrorOr α} {j k : Nat}
    (hj : ((w.put i { n with body := n.body.pop }).put (i + 1) (storing c i m st limit y)).links j = some k) :
    w.links j = some k := by
  by_cases hjm : j = i + 1
  · subst hjm
    rw [links_node nodes_put_self, storing] at hj
    rw [links_node hm]
    dsimp only at hj
    split at hj
    · cases hj
    · exact hj
  · rw [links_put_ne hjm] at hj
    exact links_pop hn hj

theorem Chained.pulled_store (hm : w.nodes (i + 1) = some m) {st : List (ErrorOr α)} {limit : Nat}
    (hbody : m.body = .queueBuffer (some (c.upTo i).node) st limit) (hroom : st.length < limit) :
    Pulled c w i x xs
      ((w.put i { n with body := n.body.pop }).put (i + 1) (storing c i m st limit ((c.upTo i).post x))) := by
  have hf : (StorageBody.queueBuffer (some (c.upTo i).node) st limit).Fits c (i + 1) :=
    hbody ▸ (h.node (i + 1) m hm).fits
  obtain ⟨-, htop, hlimit, -⟩ := hf
  have hm' : (w.put i { n with body := n.body.pop }).nodes (i + 1) = some m :=
    (nodes_put_ne (Nat.succ_ne_self i)).trans hm
  have hst : w.queueAt (i + 1) = st := by
    rw [queueAt_node hm, hbody]
    rfl
  refine ⟨?_, ?_, fun j k => links_store hn hm, Or.inr (Or.inl ⟨htop, ?_, rfl, ?_, fun hne => ?_⟩)⟩
  · rw [live_put hm', live_put hn]
  · rw [instant_put hm' (by rw [hbody]; rfl), instant_put hn (StorageBody.isImmediate_pop _)]
  · rw [hst, ← hlimit]
    exact hroom
  · rw [queueAt_put, h.queueAt_pop hn hq, hst]
    rfl
  · rw [links_node nodes_put_self, storing] at hne
    cases hcrit : ((c.upTo i).post x).isCritical with
    | false => rfl
    | true => exact absurd (by simp [hcrit]) hne

theorem Chained.told_buffer (hu : w.isArmed i = false) (hi : i ≤ c.top) (hm : w.nodes (i + 1) = some m)
    {st : List (ErrorOr α)} {limit : Nat} (hbody : m.body = .queueBuffer (some (c.upTo i).node) st limit)
    (hroom : st.length < limit) :
    ∃ w', w.childHasFired (i + 1) = some w' ∧ Chained c sunk w' ∧ Pulled c w i x xs w' ∧ Stirred c w w' ∧
      Unheld w w' := by
  have htop : i + 1 ≤ c.top := by
    have hf : (StorageBody.queueBuffer (some (c.upTo i).node) st limit).Fits c (i + 1) :=
      hbody ▸ (h.node (i + 1) m hm).fits
    exact hf.2.1
  have hput := h.store hn hu hm hbody hroom ((c.upTo i).post x)
  have hpulled := h.pulled_store hn hq hm hbody hroom
  have hfired := childHasFired_room hn (h.node i n hn).fits hq hi hm hbody hroom
  obtain ⟨v, hv⟩ : ∃ v, v = (w.put i { n with body := n.body.pop }).put (i + 1)
    (storing c i m st limit ((c.upTo i).post x)) := ⟨_, rfl⟩
  have hvm : v.nodes (i + 1) = some (storing c i m st limit ((c.upTo i).post x)) := by
    rw [hv]
    exact nodes_put_self
  have hstay : Stirred c w v ∧ Unheld w v := by
    rw [hv]
    exact ⟨⟨List.prefix_rfl, Or.inl⟩, id⟩
  rw [← hv] at hput hpulled
  simp only [← hv] at hfired
  by_cases harmed : v.isArmed (i + 1)
  · rw [if_pos harmed] at hfired
    exact ⟨v, hfired, hput, hpulled, hstay⟩
  · rw [if_neg harmed] at hfired
    refine ⟨_, hfired, hput.armLater hvm fun _ => ?_, ⟨hpulled.live, hpulled.instant, hpulled.links, hpulled.moved⟩,
      hstay.1.trans (Stirred.arm (fun a => (hput.loop.isArmed_armLater (i + 1) a).mp) htop),
      fun hlater => hstay.2 (unheld_armLater (Nat.succ_ne_zero i) hlater)⟩
    exact List.append_ne_nil_of_right_ne_nil _ (List.cons_ne_nil _ _)

theorem Chained.told_sink (hu : w.isArmed i = false) (hi : i = c.top) (hm : w.nodes (i + 1) = some m)
    (hbody : m.body = .sink (some (c.upTo i).node)) :
    ∃ w', w.childHasFired (i + 1) = some w' ∧ Chained c sunk w' ∧ Pulled c w i x xs w' ∧ Stirred c w w' ∧
      Unheld w w' := by
  subst hi
  have hfit := (h.node _ n hn).fits
  obtain ⟨v, hv⟩ : ∃ v, v = (w.put c.top { n with body := n.body.pop }).deliver (c.post x) := ⟨_, rfl⟩
  have hput : Chained c sunk v := by
    rw [hv]
    exact (h.pop hn hu).deliver _
  have hvm : v.nodes (c.top + 1) = some m := by
    rw [hv]
    exact (nodes_put_ne (Nat.succ_ne_self _)).trans hm
  have hout : v.delivered = w.delivered ++ [c.post x] := by
    rw [hv]
    rfl
  have hpulled : Pulled c w c.top x xs v := by
    refine ⟨?_, ?_, fun j k hj => ?_, Or.inr (Or.inr ⟨rfl, hout, ?_⟩)⟩
    · rw [hv]
      exact live_put hn
    · rw [hv]
      exact instant_put hn (StorageBody.isImmediate_pop _)
    · rw [hv] at hj
      exact links_pop hn hj
    · rw [hv]
      exact h.queueAt_pop hn hq
  have hsofar : w.delivered <+: v.delivered := by
    rw [hout]
    exact List.prefix_append _ _
  have harmed : ∀ a, v.isArmed a = w.isArmed a := by
    rw [hv]
    exact fun a => rfl
  have hunheld : Unheld w v := by
    rw [hv]
    exact id
  have hfired : w.childHasFired (c.top + 1) =
      some (if (c.post x).isCritical ∧ ¬ v.isArmed (c.top + 1) then v.armLast (c.top + 1) else v) := by
    simp only [World.childHasFired, hm, hbody, Option.bind_eq_bind, Option.bind_some,
      getResult_chain c hn hfit hq, c.upTo_top, Option.pure_def, hv]
  by_cases harm : (c.post x).isCritical ∧ ¬ v.isArmed (c.top + 1)
  · rw [if_pos harm] at hfired
    refine ⟨_, hfired, hput.armLast hvm fun hpar => ?_,
      ⟨hpulled.live, hpulled.instant, hpulled.links, hpulled.moved⟩, ⟨hsofar, fun _ => Or.inr ?_⟩,
      fun hlater => hunheld (unheld_armLast hlater)⟩
    · -- a sink has no parent
      have hsize := h.size
      have hle := Bool.toNat_le sunk
      rw [(h.node _ m hm).parent, if_neg (by omega)] at hpar
      exact absurd rfl hpar
    · refine ⟨c.post x, ?_, harm.1⟩
      rw [show (v.armLast (c.top + 1)).delivered = w.delivered ++ [c.post x] from hout]
      exact List.mem_append_right _ (List.mem_singleton_self _)
  · rw [if_neg harm] at hfired
    exact ⟨v, hfired, hput, hpulled, ⟨hsofar, fun hsink => Or.inl (harmed _ ▸ hsink)⟩, hunheld⟩

/-- **A parent that is told pulls**, or has no room. -/
theorem Chained.childHasFired {p : Nat} (hp : n.parent = some p) (hu : w.isArmed i = false) :
    ∃ w', w.childHasFired p = some w' ∧ Chained c sunk w' ∧ Pulled c w i x xs w' ∧ Stirred c w w' ∧
      Unheld w w' := by
  obtain ⟨rfl, hlt, hi⟩ := h.top_of_parent hn hp
  have hlive : w.live i := live_of_node hn
  obtain ⟨m, hm⟩ := node_of_live (h.above i hlive hlt)
  have hmfit := h.node (i + 1) m hm
  have hchild : m.body.child = some (c.upTo i).node := hmfit.child.trans (if_pos hlive)
  have hfits := hmfit.fits
  cases hbody : m.body with
  | queueBuffer child st limit =>
    rw [hbody] at hchild hfits
    obtain rfl : child = some (c.upTo i).node := hchild
    by_cases hroom : st.length < limit
    · exact h.told_buffer hn hq hu hi hm hbody hroom
    · refine ⟨w, ?_, h, ⟨rfl, rfl, fun j k => id, Or.inl ⟨hfits.2.1, ?_, rfl, rfl⟩⟩, .refl, id⟩
      · simp only [World.childHasFired, hm, hbody, Option.bind_eq_bind, Option.bind_some, if_neg hroom,
          Option.pure_def]
      · rw [queueAt_node hm, hbody, ← hfits.2.2.1]
        exact Nat.not_lt.mp hroom
  | sink child =>
    rw [hbody] at hchild hfits
    obtain rfl : child = some (c.upTo i).node := hchild
    exact h.told_sink hn hq hu (Nat.succ.inj hfits) hm hbody
  | adapt st =>
    rw [hbody] at hchild
    cases hchild
  | immediate _ _ =>
    rw [hbody] at hchild
    cases hchild
  | merge _ _ =>
    rw [hbody] at hchild
    cases hchild
  | appendage _ _ _ =>
    rw [hbody] at hfits
    exact hfits.elim

end

end

/-! ## Destruction -/

/-- `w'` is `w` without the storage nodes up to `b`; their parent has forgotten them. -/
structure Felled (w : World α) (b : Nat) (w' : World α) : Prop where
  size : w'.size = w.size
  delivered : w'.delivered = w.delivered
  starved : w'.starved = w.starved
  loop : w'.loop.Sound
  later : w'.loop.laterInsertPoint = w.loop.laterInsertPoint
  armed : ∀ a, w'.isArmed a → w.isArmed a ∧ (a ≤ b → w.live a = false)
  gone : ∀ j ≤ b, w'.nodes j = none
  kept : ∀ j, b + 1 < j → w'.nodes j = w.nodes j
  parent : w'.nodes (b + 1) =
    if w.live b then (w.nodes (b + 1)).map fun n => { n with childStorage := none } else w.nodes (b + 1)

section
variable {c : Chain α} {w : World α}

theorem Felled.refl {b : Nat} (hloop : w.loop.Sound) (hgone : ∀ j ≤ b, w.nodes j = none) : Felled w b w := by
  have hdead : ∀ j ≤ b, w.live j = false := by
    intro j hj
    rw [live, hgone j hj]
    rfl
  refine ⟨rfl, rfl, rfl, hloop, rfl, fun a ha => ⟨ha, hdead a⟩, hgone, fun _ _ => rfl, ?_⟩
  rw [hdead b (Nat.le_refl b)]
  rfl

def remove (w : World α) (b : Nat) (parent : Option Nat) : World α :=
  let w := { w with loop := w.loop.disarm b }
  let w := match parent with
    | none => w
    | some p => w.unlinkChild p
  { w with nodes := Function.update w.nodes b none }

theorem unlinkChild_nodes (w : World α) (p : Nat) : (w.unlinkChild p).nodes =
    Function.update w.nodes p ((w.nodes p).map fun n => { n with childStorage := none }) := by
  cases hp : w.nodes p with
  | none =>
    have hstay : w.unlinkChild p = w := by
      rw [unlinkChild, modify, hp]
      rfl
    rw [hstay, Option.map_none, ← hp, Function.update_eq_self]
  | some n =>
    rw [unlinkChild, modify_eq hp]
    rfl

theorem unlinkChild_frame (w : World α) (p : Nat) : (w.unlinkChild p).size = w.size ∧
    (w.unlinkChild p).delivered = w.delivered ∧ (w.unlinkChild p).starved = w.starved ∧
    (w.unlinkChild p).loop = w.loop := by
  cases hp : w.nodes p with
  | none =>
    rw [unlinkChild, modify, hp]
    exact ⟨rfl, rfl, rfl, rfl⟩
  | some n =>
    rw [unlinkChild, modify_eq hp]
    exact ⟨rfl, rfl, rfl, rfl⟩

theorem remove_nodes (w : World α) (b p : Nat) : (w.remove b (some p)).nodes = Function.update
    (Function.update w.nodes p ((w.nodes p).map fun n => { n with childStorage := none })) b none := by
  simp only [remove, unlinkChild_nodes]

theorem remove_frame (w : World α) (b p : Nat) : (w.remove b (some p)).size = w.size ∧
    (w.remove b (some p)).delivered = w.delivered ∧ (w.remove b (some p)).starved = w.starved ∧
    (w.remove b (some p)).loop = w.loop.disarm b := unlinkChild_frame { w with loop := w.loop.disarm b } p

theorem destroy_node {fuel b : Nat} {n : StorageNode α} (hn : w.nodes b = some n) :
    destroy (fuel + 1) w b = (n.body.owned.foldl (destroy fuel) w).remove b n.parent := by
  rw [destroy]
  simp only [hn]
  rfl

theorem felled_remove {w' : World α} {b : Nat} (hsize : w'.size = w.size) (hdelivered : w'.delivered = w.delivered)
    (hstarved : w'.starved = w.starved) (hloop : w'.loop.Sound)
    (hlater : w'.loop.laterInsertPoint = w.loop.laterInsertPoint)
    (harmed : ∀ a, w'.isArmed a → w.isArmed a ∧ (a < b → w.live a = false))
    (hgone : ∀ j < b, w'.nodes j = none) (hkept : ∀ j, b < j → w'.nodes j = w.nodes j)
    (hspare : w.loop.laterInsertPoint ≠ .next b) (hlive : w.live b) : Felled w b (w'.remove b (some (b + 1))) := by
  obtain ⟨hsound, hdisarm⟩ := hloop.disarm (e := b) (by rw [hlater]; exact hspare)
  obtain ⟨hs, hd, hst, hl⟩ := remove_frame w' b (b + 1)
  refine ⟨hs.trans hsize, hd.trans hdelivered, hst.trans hstarved, ?_, ?_, fun a ha => ?_, fun j hj => ?_,
    fun j hj => ?_, ?_⟩
  · rw [hl]
    exact hsound
  · rw [hl, EventLoop.laterInsertPoint_disarm, hlater]
  · rw [isArmed, hl, hdisarm] at ha
    obtain ⟨ha', hdead⟩ := harmed a ha.2
    exact ⟨ha', fun hab => hdead (Nat.lt_of_le_of_ne hab ha.1)⟩
  · rw [remove_nodes]
    by_cases hjb : j = b
    · rw [hjb, Function.update_self]
    · rw [Function.update_of_ne hjb, Function.update_of_ne (by omega)]
      exact hgone j (by omega)
  · rw [remove_nodes, Function.update_of_ne (by omega), Function.update_of_ne (by omega)]
    exact hkept j (by omega)
  · rw [remove_nodes, Function.update_of_ne (by omega), Function.update_self, hkept (b + 1) (by omega), if_pos hlive]

theorem dead_below {b : Nat} (habove : ∀ j < b, w.live j → w.live (j + 1)) (hb : w.live b = false) :
    ∀ k j, j + k = b → w.live j = false
  | 0, j, hj => by
    rw [show j = b from hj]
    exact hb
  | k + 1, j, hj => by
    cases hlive : w.live j with
    | false => rfl
    | true =>
      have hup := habove j (by omega) hlive
      rw [dead_below habove hb k (j + 1) (by omega)] at hup
      cases hup

theorem node_of_dead {i : Nat} (h : w.live i = false) : w.nodes i = none := by
  rwa [live, Option.isSome_eq_false_iff, Option.isNone_iff_eq_none] at h

/-- **Destroying storage node `b`** destroys all nodes behind it. -/
theorem felled_destroy (hloop : w.loop.Sound) : ∀ (b fuel : Nat), b < fuel →
    (∀ j ≤ b, ∀ n, w.nodes j = some n → n.parent = some (j + 1) ∧ n.body.Fits c j ∧ n.body.child = w.childAt c j) →
    b ≤ c.top → (∀ j < b, w.live j → w.live (j + 1)) → (∀ j ≤ b, w.loop.laterInsertPoint ≠ .next j) →
    Felled w b (destroy fuel w b)
  | b, 0, hf, _, _, _, _ => absurd hf (Nat.not_lt_zero b)
  | b, fuel + 1, hf, hnode, htop, habove, hspare => by
    cases hn : w.nodes b with
    | none =>
      have hstay : destroy (fuel + 1) w b = w := by
        rw [destroy]
        simp only [hn]
      have hdead : w.live b = false := by
        rw [live, hn]
        rfl
      rw [hstay]
      exact Felled.refl hloop fun j hj => node_of_dead (dead_below habove hdead (b - j) j (by omega))
    | some n =>
      obtain ⟨hparent, hfit, hchild⟩ := hnode b (Nat.le_refl b) n hn
      have howned : n.body.owned = (n.body.child.map ConveyorNode.base).toList := by
        cases hbody : n.body with
        | merge _ _ => exact (hbody ▸ hfit : StorageBody.Fits c b (.merge _ _)).elim
        | _ => rfl
      rw [destroy_node hn, howned, hchild, hparent]
      cases b with
      | zero =>
        exact felled_remove rfl rfl rfl hloop rfl (fun a ha => ⟨ha, fun h => absurd h (Nat.not_lt_zero a)⟩)
          (fun j hj => absurd hj (Nat.not_lt_zero j)) (fun _ _ => rfl) (hspare 0 (Nat.le_refl 0)) (live_of_node hn)
      | succ b =>
        have hbelow : Felled w b (((w.childAt c (b + 1)).map ConveyorNode.base).toList.foldl (destroy fuel) w) := by
          by_cases hlive : w.live b
          · rw [childAt, if_pos hlive]
            simp only [Option.map_some, Option.toList_some, List.foldl_cons, List.foldl_nil, Chain.base_node,
              c.top_upTo (show b ≤ c.top by omega)]
            exact felled_destroy hloop b fuel (by omega) (fun j hj => hnode j (by omega)) (by omega)
              (fun j hj => habove j (by omega)) fun j hj => hspare j (by omega)
          · rw [childAt, if_neg hlive]
            refine Felled.refl hloop fun j hj => node_of_dead ?_
            exact dead_below (fun k hk => habove k (by omega)) (Bool.not_eq_true _ ▸ hlive) (b - j) j (by omega)
        have harmed : ∀ a, _ → w.isArmed a ∧ (a < b + 1 → w.live a = false) :=
          fun a ha => ⟨(hbelow.armed a ha).1, fun h => (hbelow.armed a ha).2 (by omega)⟩
        exact felled_remove hbelow.size hbelow.delivered hbelow.starved hbelow.loop hbelow.later harmed
          (fun j hj => hbelow.gone j (by omega)) (fun j hj => hbelow.kept j hj) (hspare (b + 1) (Nat.le_refl _))
          (live_of_node hn)

end

structure Cut (w : World α) (i : Nat) (w' : World α) : Prop where
  delivered : w'.delivered = w.delivered
  live : ∀ j, w'.live j = (decide (i ≤ j) && w.live j)
  queueAt : ∀ j, w'.queueAt j = if i ≤ j then w.queueAt j else []
  instant : w'.instant → w.instant
  later : w'.loop.laterInsertPoint = w.loop.laterInsertPoint
  armed : ∀ a, w'.isArmed a → w.isArmed a
  links : ∀ j k, w'.links j = some k → w.links j = some k

section
variable {c : Chain α} {sunk : Bool} {w : World α} {b : Nat} {n : StorageNode α}

theorem Felled.owner {w' : World α} (hn : w.nodes (b + 1) = some n)
    (hw : Felled (w.put (b + 1) { n with body := n.body.dropChild }) b w') :
    w'.nodes (b + 1) = some { n with
      childStorage := if w.live b then none else n.childStorage
      body := n.body.dropChild } := by
  rw [hw.parent, live_put hn, nodes_put_self]
  cases w.live b <;> rfl

theorem Felled.cut {w' : World α} (hn : w.nodes (b + 1) = some n)
    (hw : Felled (w.put (b + 1) { n with body := n.body.dropChild }) b w') : Cut w (b + 1) w' := by
  have howner := hw.owner hn
  have hkept : ∀ j, b + 1 < j → w'.nodes j = w.nodes j := fun j hj =>
    (hw.kept j hj).trans (nodes_put_ne (by omega))
  refine ⟨hw.delivered, fun j => ?_, fun j => ?_, fun h0 => ?_, hw.later, fun a ha => (hw.armed a ha).1,
    fun j k hj => ?_⟩
  · rcases Nat.lt_trichotomy j (b + 1) with hj | rfl | hj
    · rw [World.live, hw.gone j (by omega), decide_eq_false (by omega)]
      rfl
    · rw [live_of_node howner, live_of_node hn, decide_eq_true (Nat.le_refl _)]
      rfl
    · rw [World.live, hkept j hj, decide_eq_true (by omega)]
      rfl
  · rcases Nat.lt_trichotomy j (b + 1) with hj | rfl | hj
    · rw [if_neg (by omega), World.queueAt, hw.gone j (by omega)]
    · rw [if_pos (Nat.le_refl _), queueAt_node howner, queueAt_node hn, StorageBody.queue_dropChild]
    · rw [if_pos (by omega), World.queueAt, hkept j hj, World.queueAt]
  · rw [World.instant, hw.gone 0 (Nat.zero_le b)] at h0
    cases h0
  · rcases Nat.lt_trichotomy j (b + 1) with hj' | rfl | hj'
    · rw [World.links, hw.gone j (by omega)] at hj
      cases hj
    · rw [links_node howner] at hj
      rw [links_node hn]
      dsimp only at hj
      split at hj
      · cases hj
      · exact hj
    · rwa [World.links, hkept j hj', ← World.links] at hj

section
variable {w' : World α} (h : Chained c sunk w) (hn : w.nodes (b + 1) = some n)
  (hw : Felled (w.put (b + 1) { n with body := n.body.dropChild }) b w')
include h hn hw

theorem Felled.node {j : Nat} {m : StorageNode α} (hm : w'.nodes j = some m) : b + 1 ≤ j ∧ NodeFits c w' j m := by
  have hcut := hw.cut hn
  have hsize : w'.size = w.size := hw.size
  have hlive : ∀ j, b + 1 ≤ j → w'.live j = w.live j := by
    intro j hj
    rw [hcut.live, decide_eq_true hj, Bool.true_and]
  have hdead : ∀ j, j ≤ b → w'.live j = false := by
    intro j hj
    rw [hcut.live, decide_eq_false (by omega), Bool.false_and]
  have hbj : b + 1 ≤ j := by
    by_contra hlt
    have := live_of_node hm
    rw [hdead j (by omega)] at this
    cases this
  refine ⟨hbj, ?_⟩
  rcases Nat.eq_or_lt_of_le hbj with rfl | hlt
  · obtain rfl := Option.some.inj ((hw.owner hn).symm.trans hm)
    have hfit := h.node _ n hn
    refine ⟨hsize ▸ hfit.below, hsize ▸ hfit.parent, ?_, ?_, fun k hk => ?_⟩
    · exact hfit.fits.dropChild
    · rw [childAt, hdead b (Nat.le_refl b)]
      exact hfit.fits.child_dropChild
    · dsimp only at hk
      split at hk
      · cases hk
      next hb =>
        obtain ⟨hkb, hklive⟩ := hfit.storage k hk
        rw [Nat.succ.inj hkb] at hklive
        exact absurd hklive hb
  · rw [(hw.kept j hlt).trans (nodes_put_ne (by omega))] at hm
    obtain ⟨k, rfl⟩ : ∃ k, j = k + 1 := ⟨j - 1, by omega⟩
    have hfit := h.node _ m hm
    refine ⟨hsize ▸ hfit.below, hsize ▸ hfit.parent, hfit.fits, ?_, fun i hi => ?_⟩
    · rw [childAt, hlive k (by omega)]
      exact hfit.child
    · obtain ⟨hik, hil⟩ := hfit.storage i hi
      exact ⟨hik, by rw [hlive i (by omega)]; exact hil⟩

theorem Felled.ready {a : Nat} (ha : w'.isArmed a) :
    ∃ m, w'.nodes a = some m ∧ (m.parent ≠ none → m.body.queue ≠ []) := by
  obtain ⟨harmed, hab⟩ := hw.armed a ha
  obtain ⟨m, hm, hq⟩ := h.ready a harmed
  have hba : b + 1 ≤ a := by
    by_contra hlt
    have := hab (by omega)
    rw [live_put hn, live_of_node hm] at this
    cases this
  rcases Nat.eq_or_lt_of_le hba with rfl | hlt
  · obtain rfl := Option.some.inj (hn.symm.trans hm)
    refine ⟨_, hw.owner hn, fun hp => ?_⟩
    rw [StorageBody.queue_dropChild]
    exact hq hp
  · exact ⟨m, ((hw.kept a hlt).trans (nodes_put_ne (by omega))).trans hm, hq⟩

theorem Felled.chained : Chained c sunk w' := by
  have hcut := hw.cut hn
  have hsize : w'.size = w.size := hw.size
  have hlive : ∀ j, b + 1 ≤ j → w'.live j = w.live j := by
    intro j hj
    rw [hcut.live, decide_eq_true hj, Bool.true_and]
  refine ⟨hw.loop, hsize.trans h.size, fun j m hm => (hw.node h hn hm).2, fun j hj hlt => ?_, ?_,
    fun a ha => hw.ready h hn ha, hw.starved.trans h.fed⟩
  · obtain ⟨m, hm⟩ := node_of_live hj
    have hbj := (hw.node h hn hm).1
    rw [hlive j hbj] at hj
    rw [hlive (j + 1) (by omega)]
    exact h.above j hj (hsize ▸ hlt)
  · have hbelow := (h.node _ n hn).below
    have := h.size
    rw [hlive _ (by omega)]
    exact h.last

end

/-- **A node that drops what it owns** cuts the chain behind itself, if no event behind it holds the
later insertion point. -/
theorem Chained.resetChild (h : Chained c sunk w) (hn : w.nodes (b + 1) = some n)
    (hspare : ∀ j ≤ b, w.loop.laterInsertPoint ≠ .next j) :
    ∃ w', w.resetChild (b + 1) = some w' ∧ Chained c sunk w' ∧ Cut w (b + 1) w' := by
  have hfit := h.node _ n hn
  have hsize := h.size
  have hbelow := hfit.below
  have hsunk := Bool.toNat_le sunk
  have hput : (w.put (b + 1) { n with body := n.body.dropChild }).live = w.live := live_put hn
  have habove : ∀ j < b, w.live j → w.live (j + 1) := fun j hj hl => h.above j hl (by omega)
  suffices hfelled : ∃ w', w.resetChild (b + 1) = some w' ∧
      Felled (w.put (b + 1) { n with body := n.body.dropChild }) b w' by
    obtain ⟨w', hw', hf⟩ := hfelled
    exact ⟨w', hw', hf.chained h hn, hf.cut hn⟩
  have hchild : n.body.child = if w.live b then some (c.upTo b).node else none := hfit.child
  by_cases hlive : w.live b
  · rw [if_pos hlive] at hchild
    refine ⟨_, ?_, felled_destroy (c := c)
      (w := w.put (b + 1) { n with body := n.body.dropChild }) h.loop b _ (show b < w.size by omega)
      (fun j hj m hm => ?_) (by omega)
      (by rw [hput]; exact habove) hspare⟩
    · simp only [World.resetChild, hn, Option.bind_eq_bind, Option.bind_some, setBody_eq hn, hchild, Option.pure_def,
        Chain.base_node, c.top_upTo (show b ≤ c.top by omega)]
      rfl
    · rw [nodes_put_ne (by omega)] at hm
      have hf := h.node j m hm
      refine ⟨hf.parent.trans (if_pos (by omega)), hf.fits, hf.child.trans ?_⟩
      exact (childAt_of_live hput).symm
  · rw [if_neg hlive] at hchild
    refine ⟨_, ?_, Felled.refl h.loop fun j hj => node_of_dead ?_⟩
    · simp only [World.resetChild, hn, Option.bind_eq_bind, Option.bind_some, setBody_eq hn, hchild, Option.pure_def]
    · rw [hput]
      exact dead_below habove (Bool.not_eq_true _ ▸ hlive) (b - j) j (by omega)

end

end World

end Forstio
