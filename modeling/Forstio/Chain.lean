import Forstio.Conveyor

/-!
# Conveyor chains

`Chain` is the expression that builds a chain behind a feeder; `build` runs it.
The storage nodes of a chain are numbered from the feeder on, and `pending` lists
what they hold in the order in which it will come out, each element mapped
through the functions still ahead of it.
-/

namespace Forstio

inductive Chain (α : Type) where
  | feeder
  | «then» (c : Chain α) (func : α → ErrorOr α)
  | buffer (c : Chain α) (limit : Nat)

/-- Errors pass by, as with `PropagateError`. -/
def ErrorOr.bind {α : Type} (func : α → ErrorOr α) : ErrorOr α → ErrorOr α
  | .error e => .error e
  | .value v => func v

namespace Chain

variable {α : Type}

def build : Chain α → Option (Conveyor α × World α)
  | feeder => some (Conveyor.newConveyorAndFeeder World.new).2
  | «then» c func => do
    let (conveyor, w) ← c.build
    return (conveyor.then func, w)
  | buffer c limit => do
    let (conveyor, w) ← c.build
    conveyor.buffer w limit

def top : Chain α → Nat
  | feeder => 0
  | «then» c _ => c.top
  | buffer c _ => c.top + 1

def node : Chain α → ConveyorNode α
  | feeder => .storage 0
  | «then» c func => .convert c.node func propagateError
  | buffer c _ => .storage (c.top + 1)

def post : Chain α → ErrorOr α → ErrorOr α
  | feeder => id
  | «then» c func => fun x => (c.post x).bind func
  | buffer _ _ => id

def apply : Chain α → ErrorOr α → ErrorOr α
  | feeder => id
  | «then» c func => fun x => (c.apply x).bind func
  | buffer c _ => c.apply

/-- The part of the chain up to the functions behind storage node `i`. -/
def upTo : Chain α → Nat → Chain α
  | feeder, _ => feeder
  | «then» c func, i => if i = c.top then «then» c func else c.upTo i
  | buffer c limit, i => if i = c.top + 1 then buffer c limit else c.upTo i

def limit : Chain α → Nat → Nat
  | feeder, _ => 0
  | «then» c _, i => c.limit i
  | buffer c limit, i => if i = c.top + 1 then limit else c.limit i

/-- Limits are positive `size_t` values, and no function returns a critical error. -/
def Admissible : Chain α → Prop
  | feeder => True
  | «then» c func => c.Admissible ∧ ∀ v, (func v).isCritical = false
  | buffer c limit => c.Admissible ∧ 0 < limit ∧ limit < 2 ^ 64

def Roomy : Chain α → Prop
  | feeder => True
  | «then» c _ => c.Roomy
  | buffer c limit => c.Roomy ∧ 0 < limit ∧ limit < 2 ^ 64

/-- What the chain holds: the last buffer first, the feeder's queue at the end, each
element mapped through the functions ahead of it. -/
def pending (queues : Nat → List (ErrorOr α)) : Chain α → List (ErrorOr α)
  | feeder => queues 0
  | «then» c func => (c.pending queues).map (·.bind func)
  | buffer c _ => queues (c.top + 1) ++ c.pending queues

/-! ## Parts of a chain -/

theorem upTo_top : ∀ c : Chain α, c.upTo c.top = c
  | feeder => rfl
  | «then» _ _ => if_pos rfl
  | buffer _ _ => if_pos rfl

theorem top_upTo : ∀ (c : Chain α) {i : Nat}, i ≤ c.top → (c.upTo i).top = i
  | feeder, _, h => (Nat.le_zero.mp h).symm
  | «then» c func, i, h => by
    by_cases hi : i = c.top
    · rw [upTo, if_pos hi]
      exact hi.symm
    · rw [upTo, if_neg hi]
      exact c.top_upTo h
  | buffer c limit, i, h => by
    by_cases hi : i = c.top + 1
    · rw [upTo, if_pos hi]
      exact hi.symm
    · rw [upTo, if_neg hi]
      exact c.top_upTo (by have : i ≤ c.top + 1 := h; omega)

theorem base_node : ∀ c : Chain α, c.node.base = c.top
  | feeder => rfl
  | «then» c _ => base_node c
  | buffer _ _ => rfl

theorem Roomy.limit_bounds : ∀ {c : Chain α}, c.Roomy → ∀ {i : Nat}, 0 < i → i ≤ c.top →
    0 < c.limit i ∧ c.limit i < 2 ^ 64
  | feeder, _, i, h0, h => absurd h0 (Nat.not_lt.mpr h)
  | «then» c _, hc, _, h0, h => Roomy.limit_bounds (c := c) hc h0 h
  | buffer c limit, hc, i, h0, h => by
    by_cases hi : i = c.top + 1
    · rw [Chain.limit, if_pos hi]
      exact hc.2
    · rw [Chain.limit, if_neg hi]
      exact hc.1.limit_bounds h0 (by have : i ≤ c.top + 1 := h; omega)

theorem Admissible.roomy : ∀ {c : Chain α}, c.Admissible → c.Roomy
  | feeder, _ => trivial
  | «then» c _, hc => Admissible.roomy (c := c) hc.1
  | buffer _ _, hc => ⟨Admissible.roomy hc.1, hc.2⟩

theorem limit_bounds {c : Chain α} (hc : c.Admissible) {i : Nat} (h0 : 0 < i) (hi : i ≤ c.top) :
    0 < c.limit i ∧ c.limit i < 2 ^ 64 := hc.roomy.limit_bounds h0 hi

theorem bind_isCritical {func : α → ErrorOr α} (hf : ∀ v, (func v).isCritical = false) {x : ErrorOr α}
    (hx : x.isCritical = false) : (x.bind func).isCritical = false := by
  cases x with
  | error e => exact hx
  | value v => exact hf v

theorem post_isCritical : ∀ {c : Chain α}, c.Admissible → ∀ {x : ErrorOr α}, x.isCritical = false →
    (c.post x).isCritical = false
  | feeder, _, _, hx => hx
  | «then» _ _, hc, _, hx => bind_isCritical hc.2 (post_isCritical hc.1 hx)
  | buffer _ _, _, _, hx => hx

theorem Admissible.upTo : ∀ {c : Chain α}, c.Admissible → ∀ i, (c.upTo i).Admissible
  | feeder, _, _ => trivial
  | «then» c func, hc, i => by
    by_cases hi : i = c.top
    · rw [Chain.upTo, if_pos hi]
      exact hc
    · rw [Chain.upTo, if_neg hi]
      exact hc.1.upTo i
  | buffer c limit, hc, i => by
    by_cases hi : i = c.top + 1
    · rw [Chain.upTo, if_pos hi]
      exact hc
    · rw [Chain.upTo, if_neg hi]
      exact hc.1.upTo i

/-! ## What is pending -/

section
variable {q q' : Nat → List (ErrorOr α)}

theorem pending_congr : ∀ {c : Chain α}, (∀ i ≤ c.top, q' i = q i) → c.pending q' = c.pending q
  | feeder, h => h 0 (Nat.le_refl 0)
  | «then» c _, h => by rw [pending, pending, pending_congr (c := c) h]
  | buffer c _, h => by
    rw [pending, pending, h (c.top + 1) (Nat.le_refl _), pending_congr fun i hi => h i (Nat.le_succ_of_le hi)]

theorem pending_update_above {c : Chain α} {i : Nat} (h : c.top < i) (xs : List (ErrorOr α)) :
    c.pending (Function.update q i xs) = c.pending q :=
  pending_congr fun j hj => Function.update_of_ne (by omega) _ _

theorem pending_nil : ∀ {c : Chain α}, (∀ i ≤ c.top, q i = []) → c.pending q = []
  | feeder, h => h 0 (Nat.le_refl 0)
  | «then» c _, h => by rw [pending, pending_nil (c := c) h, List.map_nil]
  | buffer c _, h => by
    rw [pending, h (c.top + 1) (Nat.le_refl _), pending_nil fun i hi => h i (Nat.le_succ_of_le hi),
      List.append_nil]

theorem pending_pop : ∀ {c : Chain α} {x : ErrorOr α} {xs : List (ErrorOr α)}, q c.top = x :: xs →
    c.pending q = c.post x :: c.pending (Function.update q c.top xs)
  | feeder, x, xs, h => by
    rw [pending, pending, show q 0 = x :: xs from h]
    simp [post, top]
  | «then» c func, x, xs, h => by
    rw [pending, pending, pending_pop (c := c) h]
    rfl
  | buffer c limit, x, xs, h => by
    have htop : (buffer c limit).top = c.top + 1 := rfl
    rw [htop] at h ⊢
    rw [pending, pending, h, pending_update_above (Nat.lt_succ_self _), Function.update_self]
    rfl

theorem pending_move : ∀ {c : Chain α} {i : Nat} {x : ErrorOr α} {xs : List (ErrorOr α)}, i < c.top →
    q i = x :: xs → c.pending (Function.update (Function.update q i xs) (i + 1)
      (q (i + 1) ++ [(c.upTo i).post x])) = c.pending q
  | feeder, i, _, _, h, _ => absurd h (Nat.not_lt_zero i)
  | «then» c func, i, x, xs, h, hq => by
    have hi : i < c.top := h
    rw [upTo, if_neg (by omega), pending, pending, pending_move hi hq]
  | buffer c limit, i, x, xs, h, hq => by
    have hi : i < c.top + 1 := h
    rw [upTo, if_neg (by omega), pending, pending]
    by_cases hic : i = c.top
    · subst hic
      rw [upTo_top, Function.update_self, pending_update_above (Nat.lt_succ_self _), pending_pop hq,
        List.append_assoc]
      rfl
    · rw [pending_move (by omega) hq, Function.update_of_ne (by omega), Function.update_of_ne (by omega)]

theorem pending_feed : ∀ (c : Chain α) (x : ErrorOr α),
    c.pending (Function.update q 0 (q 0 ++ [x])) = c.pending q ++ [c.apply x]
  | feeder, x => by simp [pending, apply]
  | «then» c func, x => by
    rw [pending, pending, pending_feed c x, List.map_append]
    rfl
  | buffer c limit, x => by
    rw [pending, pending, pending_feed c x, Function.update_of_ne (Nat.succ_ne_zero _), List.append_assoc]
    rfl

end

end Chain

end Forstio
