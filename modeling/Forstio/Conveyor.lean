import Forstio.Error
import Forstio.EventLoop
import Mathlib.Algebra.Group.Nat.Defs
import Mathlib.Logic.Function.Basic

/-!
# Conveyors

The nodes of conveyor chains live in a `World` together with the event loop
they are armed in; a pointer to a storage node is its number. `getResult` is
type-erased in the source (`ErrorOrValue`), so one type `α` stands for the
values of all stages. A virtual call is a case distinction on the node's class.
-/

namespace Forstio

/-- `size_t` subtraction. -/
def sizeSub (a b : Nat) : Nat := (a + (2 ^ 64 - b % 2 ^ 64)) % 2 ^ 64

theorem sizeSub_eq {a b : Nat} (h : b ≤ a) (ha : a < 2 ^ 64) : sizeSub a b = a - b := by
  unfold sizeSub
  omega

/-- What a storage node or a conveyor owns: `then` nodes over a storage node. -/
inductive ConveyorNode (α : Type) where
  | storage (i : Nat)
  | convert (child : ConveyorNode α) (func : α → ErrorOr α) (errorFunc : Error → ErrorOr α)

namespace ConveyorNode

variable {α : Type}

def base : ConveyorNode α → Nat
  | storage i => i
  | convert child _ _ => child.base

end ConveyorNode

def propagateError {α : Type} (e : Error) : ErrorOr α := .error e

/-- The classes of storage nodes with their own fields. -/
inductive StorageBody (α : Type) where
  | adapt (storage : List (ErrorOr α))
  | queueBuffer (child : Option (ConveyorNode α)) (storage : List (ErrorOr α)) (maxStore : Nat)
  | sink (child : Option (ConveyorNode α))
  | immediate (value : ErrorOr α) (retrieved : Nat)
  -- the appendages belong to the data that the node shares with its `MergeConveyor`
  | merge (appendages : List Nat) (nextAppendage : Nat)
  | appendage (child : ConveyorNode α) (merger : Nat) (errorOrValue : Option (ErrorOr α))

structure StorageNode (α : Type) where
  parent : Option Nat
  childStorage : Option Nat
  body : StorageBody α

/-- `delivered` logs the results handed out at the end of a chain, and `starved`
records a `getResult` on an empty feeder queue; the code has neither. -/
structure World (α : Type) where
  loop : EventLoop Nat
  nodes : Nat → Option (StorageNode α)
  size : Nat
  delivered : List (ErrorOr α)
  starved : Bool

/-- What an immediate node answers once its value is gone. -/
def alreadyTaken {α : Type} : ErrorOr α := .error (makeError "Already taken value" Error.exhausted)

namespace StorageBody

variable {α : Type}

/-- The results a node will hand out; an immediate node has its value and then one error. -/
def queue : StorageBody α → List (ErrorOr α)
  | adapt storage => storage
  | queueBuffer _ storage _ => storage
  | sink _ => []
  | immediate value 0 => [value, alreadyTaken]
  | immediate _ 1 => [alreadyTaken]
  | immediate _ (_ + 2) => []
  | merge _ _ => []
  | appendage _ _ errorOrValue => errorOrValue.toList

def child : StorageBody α → Option (ConveyorNode α)
  | queueBuffer child _ _ => child
  | sink child => child
  | appendage child _ _ => some child
  | _ => none

def owned : StorageBody α → List Nat
  | merge appendages _ => appendages
  | body => (body.child.map ConveyorNode.base).toList

def push (x : ErrorOr α) : StorageBody α → StorageBody α
  | adapt storage => adapt (storage ++ [x])
  | queueBuffer child storage maxStore => queueBuffer child (storage ++ [x]) maxStore
  | body => body

def dropChild : StorageBody α → StorageBody α
  | queueBuffer _ storage maxStore => queueBuffer none storage maxStore
  | sink _ => sink none
  | body => body

def clear : StorageBody α → StorageBody α
  | appendage child merger _ => appendage child merger none
  | body => body

def space : StorageBody α → Nat
  | adapt storage => sizeSub (2 ^ 64 - 1) storage.length
  | queueBuffer _ storage maxStore => sizeSub maxStore storage.length
  | sink _ => 1
  | immediate _ _ => 0
  | merge _ _ => 0
  | appendage _ _ errorOrValue => if errorOrValue.isSome then 0 else 1

/-- Without the appendages of a merge node. -/
def queued : StorageBody α → Nat
  | adapt storage => storage.length
  | queueBuffer _ storage _ => storage.length
  | sink _ => 0
  | immediate _ retrieved => if retrieved > 1 then 0 else 1
  | merge _ _ => 0
  | appendage _ _ errorOrValue => if errorOrValue.isSome then 1 else 0

end StorageBody

namespace World

variable {α : Type}

def new : World α := ⟨EventLoop.new, fun _ => none, 0, [], false⟩

def alloc (w : World α) (n : StorageNode α) : Nat × World α :=
  (w.size, { w with nodes := Function.update w.nodes w.size (some n), size := w.size + 1 })

/-- Changes a node that is there; a dangling pointer to a node ends the run. A dangling insertion point of the loop
does not: see `World.Spares`. -/
def modify (w : World α) (i : Nat) (f : StorageNode α → StorageNode α) : Option (World α) := do
  let n ← w.nodes i
  return { w with nodes := Function.update w.nodes i (some (f n)) }

def setBody (w : World α) (i : Nat) (f : StorageBody α → StorageBody α) : Option (World α) :=
  w.modify i fun n => { n with body := f n.body }

def deliver (w : World α) (x : ErrorOr α) : World α := { w with delivered := w.delivered ++ [x] }

def isArmed (w : World α) (i : Nat) : Bool := w.loop.isArmed i

def armNext (w : World α) (i : Nat) : World α := { w with loop := w.loop.armNext i }
def armLater (w : World α) (i : Nat) : World α := { w with loop := w.loop.armLater i }
def armLast (w : World α) (i : Nat) : World α := { w with loop := w.loop.armLast i }

def space (w : World α) (i : Nat) : Option Nat := (w.nodes i).map (·.body.space)

def slotsQueued (w : World α) : List Nat → Option Nat
  | [] => some 0
  | a :: appendages => do return (← w.nodes a).body.queued + (← w.slotsQueued appendages)

def queued (w : World α) (i : Nat) : Option Nat := do
  let n ← w.nodes i
  match n.body with
  | .merge appendages _ => w.slotsQueued appendages
  | body => return body.queued

def queueAt (w : World α) (i : Nat) : List (ErrorOr α) :=
  match w.nodes i with
  | some n => n.body.queue
  | none => []

/-! ## Pulling a result -/

/-- `for (; n > 0; --n, ++i) if (appendages[i]->queued() > 0)`: the first such appendage with its value. -/
def findSlot (w : World α) (appendages : List Nat) : Nat → Nat → Option (Nat × Nat × ErrorOr α)
  | 0, _ => none
  | n + 1, i =>
    match appendages[i]?.bind fun a => (w.queueAt a).head?.map (a, ·) with
    | some (a, x) => some (i, a, x)
    | none => w.findSlot appendages n (i + 1)

def getMerged (w : World α) (m : Nat) (appendages : List Nat) (nextAppendage : Nat) :
    Option (ErrorOr α × World α) := do
  let next := min appendages.length nextAppendage
  match (w.findSlot appendages (appendages.length - next) next).or (w.findSlot appendages next 0) with
  | some (i, a, x) =>
    let w ← w.setBody a .clear
    return (x, ← w.setBody m fun _ => .merge appendages (i + 1))
  | none =>
    return (.error (criticalError "No value in Merge Appendages"), ← w.setBody m fun _ => .merge appendages next)

def getResult (w : World α) : ConveyorNode α → Option (ErrorOr α × World α)
  | .convert child func errorFunc => do
    let (dep, w) ← w.getResult child
    match dep with
    | .value v => return (func v, w)
    | .error e => return (errorFunc e, w)
  | .storage i => do
    let n ← w.nodes i
    match n.body with
    | .adapt (x :: storage) => return (x, ← w.setBody i fun _ => .adapt storage)
    | .adapt [] => return (.error (criticalError
        "Signal for retrieval of storage sent even though no data is present"), { w with starved := true })
    | .queueBuffer child (x :: storage) maxStore =>
      return (x, ← w.setBody i fun _ => .queueBuffer child storage maxStore)
    -- `front()` of an empty queue
    | .queueBuffer _ [] _ => none
    | .sink _ => return (.error (criticalError "In a sink node no result can be returned"), w)
    | .immediate value retrieved =>
      let x := if retrieved > 0 then alreadyTaken else value
      return (x, ← w.setBody i fun _ => .immediate value (if retrieved > 1 then retrieved else retrieved + 1))
    | .merge appendages nextAppendage => w.getMerged i appendages nextAppendage
    -- an appendage is a storage, but no conveyor node
    | .appendage _ _ _ => none

/-! ## Destruction -/

def unlinkChild (w : World α) (i : Nat) : World α :=
  (w.modify i fun n => { n with childStorage := none }).getD w

/-- The destructor of a storage node: what it owns goes first, then its event is
disarmed and its parent forgets it. A node owns older nodes only, so `fuel` is
the number of nodes. -/
def destroy : Nat → World α → Nat → World α
  | 0, w, _ => w
  | fuel + 1, w, i =>
    match w.nodes i with
    | none => w
    | some n =>
      let w := n.body.owned.foldl (destroy fuel) w
      let w := { w with loop := w.loop.disarm i }
      let w := match n.parent with
        | none => w
        | some p => w.unlinkChild p
      { w with nodes := Function.update w.nodes i none }

def resetChild (w : World α) (i : Nat) : Option (World α) := do
  let n ← w.nodes i
  let w ← w.setBody i .dropChild
  match n.body.child with
  | none => return w
  | some child => return destroy w.size w child.base

/-! ## Signals between storage nodes -/

def childHasFired (w : World α) (i : Nat) : Option (World α) := do
  let n ← w.nodes i
  match n.body with
  -- these have no children: `assert(false)`
  | .adapt _ => none
  | .immediate _ _ => none
  | .merge _ _ => none
  | .queueBuffer (some child) storage maxStore =>
    if storage.length < maxStore then
      let (eov, w) ← w.getResult child
      let w ← if eov.isCritical then w.modify i fun n => { n with childStorage := none } else some w
      let w ← w.setBody i (.push eov)
      return if w.isArmed i then w else w.armLater i
    else return w
  | .queueBuffer none _ _ => return w
  | .sink (some child) =>
    let (dep, w) ← w.getResult child
    let w := w.deliver dep
    return if dep.isCritical ∧ ¬ w.isArmed i then w.armLast i else w
  | .sink none => return w
  | .appendage child merger errorOrValue =>
    assert errorOrValue.isNone
    let (eov, w) ← w.getResult child
    let w ← w.setBody i fun _ => .appendage child merger (some eov)
    return if w.isArmed merger then w else w.armLater merger

/-- `parentHasFired` of the storage nodes that are events. -/
def eventParentHasFired (w : World α) (i : Nat) : Option (World α) := do
  let n ← w.nodes i
  match n.body with
  | .adapt _ =>
    let p ← n.parent
    let _ ← w.space p
    return w
  | .queueBuffer _ storage _ =>
    let p ← n.parent
    if (← w.space p) = 0 then return w
    return if 0 < storage.length then w.armLater i else w
  | .sink _ => return w
  | .immediate _ _ =>
    let p ← n.parent
    assert (0 < (← w.space p))
    return if 0 < n.body.queued then w.armNext i else w
  | .merge _ _ =>
    let p ← n.parent
    return if 0 < (← w.queued i) ∧ 0 < (← w.space p) then w.armLater i else w
  | .appendage _ _ _ => none

/-- An appendage passes the signal on to the source behind it. -/
def parentHasFired (w : World α) (i : Nat) : Option (World α) := do
  let n ← w.nodes i
  match n.body with
  | .appendage _ _ _ =>
    match n.childStorage with
    | none => return w
    | some c => w.eventParentHasFired c
  | _ => w.eventParentHasFired i

/-! ## Firing -/

namespace Adapt

def fire (w : World α) (i : Nat) (n : StorageNode α) : Option (World α) :=
  match n.parent with
  | none => return w
  | some p => do
    let w ← w.childHasFired p
    return if 0 < (← w.queued i) then w.armLater i else w

end Adapt

namespace QueueBuffer

def dropCritical (w : World α) (i : Nat) (n : StorageNode α) : Option (World α) :=
  match n.body.child, n.body.queue with
  | some _, x :: _ =>
    if x.isCritical then do
      let w ← w.resetChild i
      w.modify i fun n => { n with childStorage := none }
    else some w
  | _, _ => some w

def fireParent (w : World α) (i : Nat) (parent : Option Nat) : Option (World α) :=
  match parent with
  | none => some w
  | some p => do
    let w ← w.childHasFired p
    return if 0 < (← w.queued i) ∧ 0 < (← w.space p) then w.armLater i else w

def fire (w : World α) (i : Nat) (n : StorageNode α) : Option (World α) := do
  let w ← dropCritical w i n
  let hasSpaceBeforeFire := decide (0 < (← w.space i))
  let w ← fireParent w i n.parent
  match (← w.nodes i).childStorage with
  | none => return w
  | some c => if hasSpaceBeforeFire then return w else w.parentHasFired c

end QueueBuffer

namespace Immediate

def fire (w : World α) (i : Nat) (n : StorageNode α) : Option (World α) :=
  match n.parent with
  | none => return w
  | some p => do
    let w ← w.childHasFired p
    return if 0 < (← w.queued i) ∧ 0 < (← w.space p) then w.armLast i else w

end Immediate

namespace Merge

def fire (w : World α) (i : Nat) (n : StorageNode α) : Option (World α) := do
  assert (0 < (← w.queued i))
  match n.parent with
  | none => return w
  | some p =>
    let w ← w.childHasFired p
    return if 0 < (← w.queued i) ∧ 0 < (← w.space p) then w.armLater i else w

end Merge

def fire (w : World α) (i : Nat) : Option (World α) := do
  let n ← w.nodes i
  match n.body with
  | .adapt _ => Adapt.fire w i n
  | .queueBuffer _ _ _ => QueueBuffer.fire w i n
  | .sink _ => w.resetChild i
  | .immediate _ _ => Immediate.fire w i n
  | .merge _ _ => Merge.fire w i n
  -- an appendage is no event
  | .appendage _ _ _ => none

/-- `EventLoop::turn`, with the call of `fire`. -/
def turn (w : World α) : Option (Bool × World α) :=
  match w.loop.turn with
  | (none, _) => return (false, w)
  | (some i, loop) => do
    let w ← fire { w with loop } i
    return (true, w)

/-! ## Feeding -/

/-- `feed` and `fail` of the feeder, which does nothing once its node is gone. -/
def feedResult (w : World α) (i : Nat) (x : ErrorOr α) : World α :=
  match w.setBody i (.push x) with
  | none => w
  | some w => w.armNext i

def feed (w : World α) (i : Nat) (v : α) : World α := w.feedResult i (.value v)

def fail (w : World α) (i : Nat) (e : Error) : World α := w.feedResult i (.error e)

/-! ## Building chains -/

def setParent (w : World α) (i : Nat) (p : Nat) : Option (World α) := do
  let n ← w.nodes i
  let w ← if ¬ w.isArmed i ∧ 0 < (← w.queued i) then do
      assert (n.parent = none)
      pure (if 0 < (← w.space p) then w.armLater i else w)
    else some w
  w.modify i fun n => { n with parent := some p }

end World

structure Conveyor (α : Type) where
  node : ConveyorNode α
  storage : Nat

namespace Conveyor

variable {α : Type}

/-- The feeder is the number of its adapt node. -/
def newConveyorAndFeeder (w : World α) : Nat × Conveyor α × World α :=
  let (i, w) := w.alloc ⟨none, none, .adapt []⟩
  (i, ⟨.storage i, i⟩, w)

/-- `Conveyor<T>{value}` and `Conveyor<T>{error}`. -/
def ofResult (w : World α) (value : ErrorOr α) : Conveyor α × World α :=
  let (i, w) := w.alloc ⟨none, none, .immediate value 0⟩
  (⟨.storage i, i⟩, w)

def «then» (c : Conveyor α) (func : α → ErrorOr α) : Conveyor α :=
  ⟨.convert c.node func propagateError, c.storage⟩

def buffer (c : Conveyor α) (w : World α) (limit : Nat) : Option (Conveyor α × World α) := do
  let (i, w) := w.alloc ⟨none, some c.storage, .queueBuffer (some c.node) [] limit⟩
  let w ← w.setParent c.storage i
  return (⟨.storage i, i⟩, w)

def sink (c : Conveyor α) (w : World α) : Option (Nat × World α) := do
  let (i, w) := w.alloc ⟨none, some c.storage, .sink (some c.node)⟩
  let w ← w.setParent c.storage i
  return (i, w)

def attach (c : Conveyor α) (w : World α) (m : Nat) : Option (World α) := do
  let (a, w) := w.alloc ⟨none, some c.storage, .appendage c.node m none⟩
  let w ← w.setParent c.storage a
  w.setBody m fun
    | .merge appendages nextAppendage => .merge (appendages ++ [a]) nextAppendage
    | body => body

def merge (c : Conveyor α) (w : World α) : Option (Conveyor α × Nat × World α) := do
  let (m, w) := w.alloc ⟨none, none, .merge [] 0⟩
  let w ← c.attach w m
  return (⟨.storage m, m⟩, m, w)

def take (c : Conveyor α) (w : World α) : Option (ErrorOr α × World α) := do
  if 0 < (← w.queued c.storage) then
    let (x, w) ← w.getResult c.node
    return (x, w.deliver x)
  else return (.error (recoverableError "Conveyor buffer has no elements"), w)

end Conveyor

end Forstio
