import Forstio.Conveyor
import Forstio.Daemon
import Forstio.Lib.Heap

/-!
# Conveyors and who owns them

The nodes of conveyors own each other from the outside in, and what a chain ends in is
owned by a handle of the program or by the daemon's list. Everything else is a raw
pointer: to the parent, to the child's storage, between a feeder and its node, from an
appendage to its merge node, in the event queue and to where the loop inserts. Here an
object that was destroyed is gone, and a pointer to it that is followed is a fault.
-/

namespace Forstio

inductive Fault where
  -- an object is used that is gone
  | dangling
  | assertion
  -- `front()` of an empty queue
  | emptyQueue
  -- a handle that the program does not hold
  | notHeld
  deriving DecidableEq

/-- Every other object has a larger address than the daemon's `ConveyorSinks`, which is an event, too. -/
def conveyorSinks : Nat := 0

/-- A storage node with the `feeder` of an adapt node; `conveyorSink` is set in a sink of the daemon. -/
structure Cell (α : Type) extends StorageNode α where
  feeder : Option Nat
  conveyorSink : Bool

/-- What the program holds: a `Conveyor`, a `SinkConveyor`, or a `MergeConveyor`, which does not own its node. -/
inductive Handle (α : Type) where
  | conveyor (c : Conveyor α)
  | sink (node : Nat)
  | merger (node : Nat)

namespace Handle

variable {α : Type}

def root : Handle α → Option Nat
  | conveyor c => some c.node.base
  | sink i => some i
  | merger _ => none

end Handle

/-- A feeder is the address of its node, or null. The fields from `sinkNodes` on are those of `ConveyorSinks`. -/
structure Graph (α : Type) where
  cells : Heap Nat (Cell α)
  feeders : Heap Nat (Option Nat)
  handles : Heap Nat (Handle α)
  created : Nat
  loop : EventLoop Nat
  sinkNodes : List (Option Nat)
  deleteNodes : List Nat

namespace Graph

variable {α : Type}

def new : Graph α := ⟨∅, ∅, ∅, conveyorSinks + 1, EventLoop.new, [], []⟩

def check (p : Prop) [Decidable p] : Except Fault Unit := if p then .ok () else .error .assertion

def get (g : Graph α) (i : Nat) : Except Fault (Cell α) :=
  match g.cells.lookup i with
  | some n => .ok n
  | none => .error .dangling

def put (g : Graph α) (i : Nat) (n : Cell α) : Graph α := { g with cells := g.cells.insert i n }

def modify (g : Graph α) (i : Nat) (f : Cell α → Cell α) : Except Fault (Graph α) := do
  let n ← g.get i
  return g.put i (f n)

def setBody (g : Graph α) (i : Nat) (f : StorageBody α → StorageBody α) : Except Fault (Graph α) :=
  g.modify i fun n => { n with body := f n.body }

def clearChildStorage (g : Graph α) (i : Nat) : Except Fault (Graph α) :=
  g.modify i fun n => { n with childStorage := none }

def alloc (g : Graph α) (n : Cell α) : Nat × Graph α :=
  (g.created, { g.put g.created n with created := g.created + 1 })

/-! ## The event queue -/

/-- A call of the loop, which leaves `loop`, follows its insertion points and the links of the queue. -/
def enter (g : Graph α) (op : EventLoop.Op Nat) (loop : EventLoop Nat) : Except Fault (Graph α) :=
  if ∀ p ∈ g.loop.followed op, ∀ e ∈ g.loop.around p, e = conveyorSinks ∨ e ∈ g.cells then .ok { g with loop }
  else .error .dangling

def armNext (g : Graph α) (i : Nat) : Except Fault (Graph α) := g.enter (.armNext i) (g.loop.armNext i)

def armLater (g : Graph α) (i : Nat) : Except Fault (Graph α) := g.enter (.armLater i) (g.loop.armLater i)

def armLast (g : Graph α) (i : Nat) : Except Fault (Graph α) := g.enter (.armLast i) (g.loop.armLast i)

def disarm (g : Graph α) (i : Nat) : Except Fault (Graph α) := g.enter (.disarm i) (g.loop.disarm i)

/-! ## Counting -/

def space (g : Graph α) (i : Nat) : Except Fault Nat := do return (← g.get i).body.space

def slotsQueued (g : Graph α) : List Nat → Except Fault Nat
  | [] => .ok 0
  | a :: appendages => do return (← g.get a).body.queued + (← g.slotsQueued appendages)

def queued (g : Graph α) (i : Nat) : Except Fault Nat := do
  let n ← g.get i
  match n.body with
  | .merge appendages _ => g.slotsQueued appendages
  | body => return body.queued

/-! ## Pulling a result -/

def findSlot (g : Graph α) (appendages : List Nat) : Nat → Nat → Except Fault (Option (Nat × Nat × ErrorOr α))
  | 0, _ => .ok none
  | n + 1, i =>
    match appendages[i]? with
    | none => g.findSlot appendages n (i + 1)
    | some a => do
      let c ← g.get a
      match c.body.queue with
      | x :: _ => return some (i, a, x)
      | [] => g.findSlot appendages n (i + 1)

def nextSlot (g : Graph α) (appendages : List Nat) (next : Nat) : Except Fault (Option (Nat × Nat × ErrorOr α)) := do
  match ← g.findSlot appendages (appendages.length - next) next with
  | some slot => return some slot
  | none => g.findSlot appendages next 0

def serve (g : Graph α) (m : Nat) (appendages : List Nat) (next : Nat) :
    Option (Nat × Nat × ErrorOr α) → Except Fault (ErrorOr α × Graph α)
  | some (i, a, x) => do
    let g ← g.setBody a .clear
    return (x, ← g.setBody m fun _ => .merge appendages (i + 1))
  | none => do
    return (.error (criticalError "No value in Merge Appendages"), ← g.setBody m fun _ => .merge appendages next)

def getMerged (g : Graph α) (m : Nat) (appendages : List Nat) (nextAppendage : Nat) :
    Except Fault (ErrorOr α × Graph α) := do
  let next := min appendages.length nextAppendage
  let slot ← g.nextSlot appendages next
  g.serve m appendages next slot

def getResult (g : Graph α) : ConveyorNode α → Except Fault (ErrorOr α × Graph α)
  | .convert child func errorFunc => do
    let (dep, g) ← g.getResult child
    match dep with
    | .value v => return (func v, g)
    | .error e => return (errorFunc e, g)
  | .storage i => do
    let n ← g.get i
    match n.body with
    | .adapt (x :: storage) => return (x, ← g.setBody i fun _ => .adapt storage)
    | .adapt [] => return (.error (criticalError
        "Signal for retrieval of storage sent even though no data is present"), g)
    | .queueBuffer child (x :: storage) maxStore =>
      return (x, ← g.setBody i fun _ => .queueBuffer child storage maxStore)
    | .queueBuffer _ [] _ => .error .emptyQueue
    | .sink _ => return (.error (criticalError "In a sink node no result can be returned"), g)
    | .immediate value retrieved =>
      let x := if retrieved > 0 then alreadyTaken else value
      return (x, ← g.setBody i fun _ => .immediate value (if retrieved > 1 then retrieved else retrieved + 1))
    | .merge appendages nextAppendage => g.getMerged i appendages nextAppendage
    -- an appendage is no conveyor node
    | .appendage _ _ _ => .error .dangling

/-! ## Destruction -/

/-- `feedee->setFeeder(nullptr)` or `feeder->setFeedee(nullptr)`, as one of the two goes. -/
def leaveFeeder (g : Graph α) (i : Nat) (n : Cell α) : Except Fault (Graph α) :=
  match n.feeder with
  | none => .ok g
  | some f =>
    match g.feeders.lookup f with
    | some _ => .ok { g.put i { n with feeder := none } with feeders := g.feeders.insert f none }
    | none => .error .dangling

def unlinkChild (g : Graph α) : Option Nat → Except Fault (Graph α)
  | none => .ok g
  | some p => g.clearChildStorage p

/-- The destructor of a storage node: its members go first, then its event is disarmed, and its
parent forgets it. The nodes below bound `fuel`. -/
def destroy : Nat → Graph α → Nat → Except Fault (Graph α)
  | 0, _, _ => .error .dangling
  | fuel + 1, g, i => do
    let n ← g.get i
    let g ← g.leaveFeeder i n
    let g ← n.body.owned.foldlM (destroy fuel) g
    let g ← g.disarm i
    let g ← g.unlinkChild n.parent
    return { g with cells := g.cells.erase i }

def drop (g : Graph α) (i : Nat) : Except Fault (Graph α) := g.destroy g.cells.keys.length i

def resetChild (g : Graph α) (i : Nat) : Except Fault (Graph α) := do
  let n ← g.get i
  let g ← g.setBody i .dropChild
  match n.body.child with
  | none => return g
  | some child => g.drop child.base

/-! ## Signals between storage nodes -/

def childHasFired (g : Graph α) (i : Nat) : Except Fault (Graph α) := do
  let n ← g.get i
  match n.body with
  -- these have no children: `assert(false)`
  | .adapt _ => .error .assertion
  | .immediate _ _ => .error .assertion
  | .merge _ _ => .error .assertion
  | .queueBuffer (some child) storage maxStore =>
    if storage.length < maxStore then
      let (eov, g) ← g.getResult child
      let g ← if eov.isCritical then g.clearChildStorage i else pure g
      let g ← g.setBody i (.push eov)
      g.armLater i
    else return g
  | .queueBuffer none _ _ => return g
  | .sink (some child) =>
    let (dep, g) ← g.getResult child
    if dep.isCritical then g.armLast i else return g
  | .sink none => return g
  | .appendage child merger errorOrValue =>
    check errorOrValue.isNone
    let (eov, g) ← g.getResult child
    let g ← g.setBody i fun _ => .appendage child merger (some eov)
    let _ ← g.get merger
    g.armLater merger

/-- `SAW_ASSERT(parent)`. -/
def parentOf (n : Cell α) : Except Fault Nat :=
  match n.parent with
  | some p => .ok p
  | none => .error .assertion

/-- `parentHasFired` of the storage nodes that are events. -/
def eventParentHasFired (g : Graph α) (i : Nat) : Except Fault (Graph α) := do
  let n ← g.get i
  match n.body with
  | .adapt _ =>
    let p ← parentOf n
    let _ ← g.space p
    return g
  | .queueBuffer _ storage _ =>
    let p ← parentOf n
    if (← g.space p) = 0 then return g
    if 0 < storage.length then g.armLater i else return g
  | .sink _ => return g
  | .immediate _ _ =>
    let p ← parentOf n
    check (0 < (← g.space p))
    if 0 < n.body.queued then g.armNext i else return g
  | .merge _ _ =>
    let p ← parentOf n
    if (← g.queued i) = 0 then return g
    if 0 < (← g.space p) then g.armLater i else return g
  | .appendage _ _ _ => .error .dangling

def parentHasFired (g : Graph α) (i : Nat) : Except Fault (Graph α) := do
  let n ← g.get i
  match n.body with
  | .appendage _ _ _ =>
    match n.childStorage with
    | none => return g
    | some c => g.eventParentHasFired c
  | _ => g.eventParentHasFired i

/-! ## Firing -/

def fireParent (g : Graph α) (rearm : Graph α → Nat → Except Fault (Graph α)) (i : Nat) (parent : Option Nat) :
    Except Fault (Graph α) :=
  match parent with
  | none => .ok g
  | some p => do
    let g ← g.childHasFired p
    if (← g.queued i) = 0 then return g
    if 0 < (← g.space p) then rearm g i else return g

namespace Adapt

def fire (g : Graph α) (i : Nat) (n : Cell α) : Except Fault (Graph α) :=
  match n.parent with
  | none => .ok g
  | some p => do
    let g ← g.childHasFired p
    if 0 < (← g.queued i) then g.armLater i else return g

end Adapt

namespace QueueBuffer

def dropCritical (g : Graph α) (i : Nat) (n : Cell α) : Except Fault (Graph α) :=
  match n.body.child, n.body.queue with
  | some _, x :: _ =>
    if x.isCritical then do
      let g ← g.resetChild i
      g.clearChildStorage i
    else .ok g
  | _, _ => .ok g

def fire (g : Graph α) (i : Nat) (n : Cell α) : Except Fault (Graph α) := do
  let g ← dropCritical g i n
  let hasSpaceBeforeFire := decide (0 < (← g.space i))
  let g ← g.fireParent armLater i n.parent
  match (← g.get i).childStorage with
  | none => return g
  | some c => if hasSpaceBeforeFire then return g else g.parentHasFired c

end QueueBuffer

/-- `conveyor_sink->destroySinkConveyorNode(*this)` arms the daemon's event. -/
def destroySinkConveyorNode (g : Graph α) (i : Nat) : Except Fault (Graph α) := do
  let g ← g.armLast conveyorSinks
  return { g with deleteNodes := g.deleteNodes ++ [i] }

namespace Sink

def fire (g : Graph α) (i : Nat) (n : Cell α) : Except Fault (Graph α) := do
  let g ← g.resetChild i
  if n.conveyorSink then
    let g ← g.destroySinkConveyorNode i
    g.modify i fun n => { n with conveyorSink := false }
  else return g

end Sink

namespace Immediate

def fire (g : Graph α) (i : Nat) (n : Cell α) : Except Fault (Graph α) := g.fireParent armLast i n.parent

end Immediate

namespace Merge

def fire (g : Graph α) (i : Nat) (n : Cell α) : Except Fault (Graph α) := do
  check (0 < (← g.queued i))
  g.fireParent armLater i n.parent

end Merge

def fire (g : Graph α) (i : Nat) : Except Fault (Graph α) := do
  let n ← g.get i
  match n.body with
  | .adapt _ => Adapt.fire g i n
  | .queueBuffer _ _ _ => QueueBuffer.fire g i n
  | .sink _ => Sink.fire g i n
  | .immediate _ _ => Immediate.fire g i n
  | .merge _ _ => Merge.fire g i n
  -- an appendage is no event
  | .appendage _ _ _ => .error .dangling

/-! ## The daemon -/

/-- What `remove_if` moves another sink onto is destroyed. -/
def removeNode (g : Graph α) (node : Nat) : Except Fault (Graph α) :=
  let sinkNodes := Daemon.removeNode g.sinkNodes node
  let moved := (g.sinkNodes.filterMap id).filter fun i => some i ∉ sinkNodes
  moved.foldlM drop { g with sinkNodes }

/-- `ConveyorSinks::fire`. -/
def fireSinks (g : Graph α) : Except Fault (Graph α) := do
  let g ← g.deleteNodes.foldlM removeNode g
  return { g with deleteNodes := [] }

def turn (g : Graph α) : Except Fault (Graph α) :=
  match g.loop.turn with
  | (none, _) => .ok g
  | (some e, loop) => do
    let g ← g.enter .turn loop
    if e = conveyorSinks then g.fireSinks else g.fire e

/-! ## Building -/

/-- `ConveyorEventStorage::setParent`; the storage of a conveyor is never an appendage. -/
def setParent (g : Graph α) (i p : Nat) : Except Fault (Graph α) := do
  let n ← g.get i
  let g ← if ¬ g.loop.isArmed i ∧ 0 < (← g.queued i) then do
      check (n.parent = none)
      if 0 < (← g.space p) then g.armLater i else pure g
    else pure g
  g.modify i fun n => { n with parent := some p }

def hang (g : Graph α) (c : Conveyor α) (body : StorageBody α) (conveyorSink : Bool) : Except Fault (Nat × Graph α) := do
  let (i, g) := g.alloc ⟨⟨none, some c.storage, body⟩, none, conveyorSink⟩
  return (i, ← g.setParent c.storage i)

def attach (g : Graph α) (c : Conveyor α) (m : Nat) : Except Fault (Graph α) := do
  let (a, g) ← g.hang c (.appendage c.node m none) false
  g.setBody m fun
    | .merge appendages nextAppendage => .merge (appendages ++ [a]) nextAppendage
    | body => body

def hold (g : Graph α) (h : Handle α) : Nat × Graph α :=
  (g.created, { g with handles := g.handles.insert g.created h, created := g.created + 1 })

def rehold (g : Graph α) (k : Nat) (h : Handle α) : Graph α := { g with handles := g.handles.insert k h }

def release (g : Graph α) (k : Nat) : Graph α := { g with handles := g.handles.erase k }

def conveyorAt (g : Graph α) (k : Nat) : Except Fault (Conveyor α) :=
  match g.handles.lookup k with
  | some (.conveyor c) => .ok c
  | _ => .error .notHeld

inductive Reply (α : Type) where
  | done
  | handle (k : Nat)
  | fed (k feeder : Nat)
  | result (x : ErrorOr α)

def newConveyorAndFeeder (g : Graph α) : Reply α × Graph α :=
  let f := g.created
  let (i, g) := { g with created := f + 1 }.alloc ⟨⟨none, none, .adapt []⟩, some f, false⟩
  let (k, g) := { g with feeders := g.feeders.insert f (some i) }.hold (.conveyor ⟨.storage i, i⟩)
  (.fed k f, g)

def ofResult (g : Graph α) (value : ErrorOr α) : Reply α × Graph α :=
  let (i, g) := g.alloc ⟨⟨none, none, .immediate value 0⟩, none, false⟩
  let (k, g) := g.hold (.conveyor ⟨.storage i, i⟩)
  (.handle k, g)

def buffer (g : Graph α) (k : Nat) (limit : Nat) : Except Fault (Graph α) := do
  let c ← g.conveyorAt k
  let (i, g) ← (g.release k).hang c (.queueBuffer (some c.node) [] limit) false
  return g.rehold k (.conveyor ⟨.storage i, i⟩)

def sink (g : Graph α) (k : Nat) : Except Fault (Graph α) := do
  let c ← g.conveyorAt k
  let (i, g) ← (g.release k).hang c (.sink (some c.node)) false
  return g.rehold k (.sink i)

/-- `ConveyorSinks::add`, to which `detach` hands over. -/
def detach (g : Graph α) (k : Nat) : Except Fault (Graph α) := do
  let c ← g.conveyorAt k
  let (i, g) ← (g.release k).hang c (.sink (some c.node)) true
  return { g with sinkNodes := g.sinkNodes ++ [some i] }

def merge (g : Graph α) (k : Nat) : Except Fault (Reply α × Graph α) := do
  let c ← g.conveyorAt k
  let (m, g) := (g.release k).alloc ⟨⟨none, none, .merge [] 0⟩, none, false⟩
  let g ← g.attach c m
  let (j, g) := (g.rehold k (.conveyor ⟨.storage m, m⟩)).hold (.merger m)
  return (.handle j, g)

/-- `MergeConveyor::attach`: its data is gone once the merge node is. -/
def mergeAttach (g : Graph α) (j k : Nat) : Except Fault (Graph α) := do
  let c ← g.conveyorAt k
  match g.handles.lookup j with
  | some (.merger m) =>
    check (m ∈ g.cells)
    (g.release k).attach c m
  | _ => .error .notHeld

def take (g : Graph α) (k : Nat) : Except Fault (Reply α × Graph α) := do
  let c ← g.conveyorAt k
  if 0 < (← g.queued c.storage) then
    let (x, g) ← g.getResult c.node
    return (.result x, g)
  else return (.result (.error (recoverableError "Conveyor buffer has no elements")), g)

/-! ## Feeders -/

/-- `feed` and `fail`, which do nothing once the node is gone. -/
def feed (g : Graph α) (f : Nat) (x : ErrorOr α) : Except Fault (Graph α) :=
  match g.feeders.lookup f with
  | some (some i) => do
    let g ← g.setBody i (.push x)
    g.armNext i
  | some none => .ok g
  | none => .error .notHeld

def dropFeeder (g : Graph α) (f : Nat) : Except Fault (Graph α) :=
  match g.feeders.lookup f with
  | some (some i) => do
    let g ← g.modify i fun n => { n with feeder := none }
    return { g with feeders := g.feeders.erase f }
  | some none => .ok { g with feeders := g.feeders.erase f }
  | none => .error .notHeld

def dropHandle (g : Graph α) (k : Nat) : Except Fault (Graph α) :=
  match g.handles.lookup k with
  | some (.conveyor c) => (g.release k).drop c.node.base
  | some (.sink i) => (g.release k).drop i
  | some (.merger _) => .ok (g.release k)
  | none => .error .notHeld

/-! ## Steps -/

inductive Op (α : Type) where
  | newConveyorAndFeeder
  | ofResult (value : ErrorOr α)
  | then (k : Nat) (func : α → ErrorOr α) (errorFunc : Error → ErrorOr α)
  | buffer (k limit : Nat)
  | sink (k : Nat)
  | detach (k : Nat)
  | merge (k : Nat)
  | mergeAttach (j k : Nat)
  | take (k : Nat)
  | feed (f : Nat) (x : ErrorOr α)
  | dropFeeder (f : Nat)
  | dropHandle (k : Nat)
  | turn

def perform (g : Graph α) : Op α → Except Fault (Reply α × Graph α)
  | .newConveyorAndFeeder => .ok g.newConveyorAndFeeder
  | .ofResult value => .ok (g.ofResult value)
  | .then k func errorFunc => do
    let c ← g.conveyorAt k
    return (.done, g.rehold k (.conveyor ⟨.convert c.node func errorFunc, c.storage⟩))
  | .buffer k limit => do return (.done, ← g.buffer k limit)
  | .sink k => do return (.done, ← g.sink k)
  | .detach k => do return (.done, ← g.detach k)
  | .merge k => g.merge k
  | .mergeAttach j k => do return (.done, ← g.mergeAttach j k)
  | .take k => g.take k
  | .feed f x => do return (.done, ← g.feed f x)
  | .dropFeeder f => do return (.done, ← g.dropFeeder f)
  | .dropHandle k => do return (.done, ← g.dropHandle k)
  | .turn => do return (.done, ← g.turn)

def droppedSinks (g : Graph α) : List Nat :=
  (g.sinkNodes.filterMap id).filter fun i => some i ∉ g.deleteNodes.foldl Daemon.removeNode g.sinkNodes

/-- The nodes that an operation starts to destroy. -/
def victims (g : Graph α) : Op α → List Nat
  | .dropHandle k => ((g.handles.lookup k).bind Handle.root).toList
  | .turn =>
    match g.loop.head with
    | none => []
    | some e =>
      if e = conveyorSinks then g.droppedSinks
      else match g.cells.lookup e with
        | some n => if n.body.drops then n.body.owned else []
        | none => []
  | _ => []

/-- A fault ends the run, but a call on what the program does not hold is none and has no effect. -/
def step (g : Graph α) (op : Op α) : Option (Except Fault (Reply α) × Graph α) :=
  match g.perform op with
  | .ok (reply, g') => some (.ok reply, g')
  | .error .notHeld => some (.error .notHeld, g)
  | .error _ => none

end Graph

end Forstio
