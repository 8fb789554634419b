import Forstio.Error
import Forstio.UnixServer
import Forstio.Lib.Heap

/-!
# The Unix driver

`UnixEventPort`, the owners of descriptors that subscribe to it, and `UnixNetwork`,
as a machine whose steps are the calls of the program, the system calls of
`pollImpl` one by one, and what the kernel does in between. What a system call
answers comes with the step; a call on a destroyed owner or a closed descriptor
ends the run.
-/

namespace Forstio.Unix

inductive Signal where
  | terminate
  | user1
  deriving DecidableEq

inductive UnixSignal where
  | sigint
  | sigquit
  | sigusr1
  | sigterm
  deriving DecidableEq

def toUnixSignal : Signal → List UnixSignal
  | .user1 => [.sigusr1]
  | .terminate => [.sigterm, .sigquit, .sigint]

def fromUnixSignal : UnixSignal → Signal
  | .sigusr1 => .user1
  | _ => .terminate

structure Mask where
  epollin : Bool
  epollout : Bool
  epollrdhup : Bool
  deriving DecidableEq

def Mask.union (a b : Mask) : Mask :=
  ⟨a.epollin || b.epollin, a.epollout || b.epollout, a.epollrdhup || b.epollrdhup⟩

def Mask.inter (a b : Mask) : Mask :=
  ⟨a.epollin && b.epollin, a.epollout && b.epollout, a.epollrdhup && b.epollrdhup⟩

def Mask.isEmpty (a : Mask) : Bool := !a.epollin && !a.epollout && !a.epollrdhup

/-- `epoll_event.data`: 0, 1, or the address of an owner. -/
inductive EventData where
  | signals
  | wake
  | owner (address : Nat)
  deriving DecidableEq

/-- The feeders of the classes of owners, by the number of the conveyor they feed. -/
inductive Feeders where
  | stream (readReady onReadDisconnect writeReady : Option Nat)
  | server (acceptFeeder : Option Nat)
  | datagram (readReady writeReady : Option Nat)
  deriving DecidableEq

structure IFdOwner where
  fileDescriptor : Nat
  eventMask : Mask
  feeders : Feeders
  deriving DecidableEq

/-- What a conveyor holds; it owns a stream that was fed. -/
inductive Item where
  | void
  | stream (address : Nat)
  deriving DecidableEq

def Item.address : Item → Option Nat
  | void => none
  | stream address => some address

/-- The storage of an adapt node; `taken` counts what has left it. -/
structure Inbox where
  storage : List Item
  taken : Nat
  deriving DecidableEq

def Inbox.streams (inbox : Inbox) : List Nat := inbox.storage.filterMap Item.address

/-- The time `epoll_wait` is given: 0, a duration or -1. -/
inductive Time where
  | now
  | duration
  | forever
  deriving DecidableEq

/-- Where `pollImpl` is: before `epoll_wait`, at an event of the `nfds` reported, or at a `read` of the
signal descriptor. -/
inductive Phase where
  | idle
  | waiting (time : Time)
  | dispatching (time : Time) (nfds : Nat) (events : List (EventData × Mask))
  | draining (time : Time) (nfds : Nat) (events : List (EventData × Mask))
  deriving DecidableEq

def Phase.events : Phase → List (EventData × Mask)
  | idle => []
  | waiting _ => []
  | dispatching _ _ events => events
  | draining _ _ events => events

def Phase.isWaiting : Phase → Bool
  | waiting _ => true
  | _ => false

structure PortDescriptors where
  epollFd : Nat
  signalFd : Nat
  pipefds : Nat × Nat
  distinct : [epollFd, signalFd, pipefds.1, pipefds.2].Nodup

def PortDescriptors.toList (own : PortDescriptors) : List Nat :=
  [own.epollFd, own.signalFd, own.pipefds.1, own.pipefds.2]

/-- The kernel comes first, then the port, then the objects of the program. `held` lists the owners that
the program has an `Own` of, `foreign` the descriptors it opened without the driver; `notified` and
`consumed` log the events handled and the signals read. -/
structure Driver (own : PortDescriptors) where
  descriptors : List Nat
  interest : Heap Nat (EventData × Mask)
  ready : List (Nat × Mask)
  pending : List UnixSignal
  signalFdSet : List UnixSignal
  signalConveyors : List (Signal × Nat)
  phase : Phase
  owners : Heap Nat IFdOwner
  conveyors : Heap Nat Inbox
  created : Nat
  held : List Nat
  foreign : List Nat
  notified : List (EventData × Mask)
  consumed : List UnixSignal

structure Alloc where
  address : Nat
  subscribed : Bool

inductive ConnectResult where
  | connected
  | inProgress
  | interrupted
  | refused
  deriving DecidableEq

inductive Slot where
  | readReady
  | onReadDisconnected
  | writeReady
  | accept

namespace Driver

variable {own : PortDescriptors}

def signalMask : Mask := ⟨true, false, false⟩

def new (own : PortDescriptors) : Driver own where
  descriptors := own.toList
  interest := AList.insert own.pipefds.1 (.wake, signalMask) (AList.singleton own.signalFd (.signals, signalMask))
  ready := []
  pending := []
  signalFdSet := []
  signalConveyors := []
  phase := .idle
  owners := ∅
  conveyors := ∅
  created := 0
  held := []
  foreign := []
  notified := []
  consumed := []

/-! ## Descriptors and owners -/

def opened (s : Driver own) (fd : Nat) : Driver own := { s with descriptors := fd :: s.descriptors }

def close (s : Driver own) (fd : Nat) : Option (Driver own) := do
  assert (fd ∈ s.descriptors)
  return { s with descriptors := s.descriptors.erase fd }

def subscribe (s : Driver own) (alloc : Alloc) (fd : Nat) (mask : Mask) : Driver own :=
  if alloc.subscribed then { s with interest := s.interest.insert fd (.owner alloc.address, mask) } else s

def unsubscribe (s : Driver own) (fd : Nat) : Driver own :=
  { s with interest := s.interest.erase fd, ready := s.ready.filter (·.1 ≠ fd) }

def newOwner (s : Driver own) (alloc : Alloc) (fd : Nat) (mask : Mask) (feeders : Feeders) : Driver own :=
  { s with owners := s.owners.insert alloc.address ⟨fd, mask, feeders⟩ }.subscribe alloc fd mask

def destroyOwner (s : Driver own) (p : Nat) : Option (Driver own) := do
  let owner ← s.owners.lookup p
  let s ← (s.unsubscribe owner.fileDescriptor).close owner.fileDescriptor
  return { s with owners := s.owners.erase p }

def hold (s : Driver own) (p : Nat) : Driver own := { s with held := s.held ++ [p] }

/-! ## Conveyors -/

def newConveyor (s : Driver own) : Nat × Driver own :=
  (s.created, { s with conveyors := s.conveyors.insert s.created ⟨[], 0⟩, created := s.created + 1 })

/-- `feed` of a feeder that may be null or have lost its node. -/
def feed (s : Driver own) (feeder : Option Nat) : Driver own :=
  match feeder with
  | none => s
  | some c =>
    match s.conveyors.lookup c with
    | none => s
    | some inbox => { s with conveyors := s.conveyors.insert c { inbox with storage := inbox.storage ++ [.void] } }

/-- `feed` of a new stream, which goes with the call if the node is gone. -/
def feedStream (s : Driver own) (c p : Nat) : Option (Driver own) :=
  match s.conveyors.lookup c with
  | none => s.destroyOwner p
  | some inbox =>
    some { s with conveyors := s.conveyors.insert c { inbox with storage := inbox.storage ++ [.stream p] } }

/-! ## Notifications -/

def feedIf (s : Driver own) (bit : Bool) (feeder : Option Nat) : Driver own := if bit then s.feed feeder else s

def ioMask : Mask := ⟨true, true, false⟩

def streamMask (mask : Mask) : Mask := { mask with epollrdhup := true }

namespace UnixServer

/-- `accepted` is what `::accept4` answers. -/
def notify (s : Driver own) (acceptFeeder : Option Nat) (mask : Mask) (accepted : Option (Nat × Alloc)) :
    Option (Driver own) :=
  if mask.epollin then
    match acceptFeeder, accepted with
    | some c, some (fd, alloc) =>
      ((s.opened fd).newOwner alloc fd (streamMask ioMask) (.stream none none none)).feedStream c alloc.address
    | _, _ => some s
  else some s

end UnixServer

def notify (s : Driver own) (p : Nat) (mask : Mask) (accepted : Option (Nat × Alloc)) : Option (Driver own) := do
  let owner ← s.owners.lookup p
  match owner.feeders with
  | .stream readReady onReadDisconnect writeReady =>
    return ((s.feedIf mask.epollout writeReady).feedIf mask.epollin readReady).feedIf mask.epollrdhup onReadDisconnect
  | .server acceptFeeder => UnixServer.notify s acceptFeeder mask accepted
  | .datagram readReady writeReady => return (s.feedIf mask.epollout writeReady).feedIf mask.epollin readReady

def space (s : Driver own) (c : Nat) : Nat :=
  match s.conveyors.lookup c with
  | none => 0
  | some inbox => 2 ^ 64 - 1 - inbox.storage.length

def tell (sig : UnixSignal) (s : Driver own) (listener : Signal × Nat) : Driver own :=
  if listener.1 = fromUnixSignal sig ∧ 0 < s.space listener.2 then s.feed (some listener.2) else s

def notifySignalListener (s : Driver own) (sig : UnixSignal) : Driver own :=
  s.signalConveyors.foldl (tell sig) s

/-! ## Polling -/

/-- What `epoll_wait` may report: the edges, and the signal descriptor while there is something to read.
Nothing is ever written to the pipe, as `wake` calls `::send` on it. -/
def reportable (s : Driver own) : List (Nat × Mask) :=
  s.ready ++ if s.pending = [] then [] else [(own.signalFd, signalMask)]

/-- An event as `epoll_wait` stores it. -/
def resolve (s : Driver own) (e : Nat × Mask) : Option (EventData × Mask) :=
  (s.interest.lookup e.1).map fun registered => (registered.1, e.2)

def reported (s : Driver own) (time : Time) (events : List (Nat × Mask)) (data : List (EventData × Mask)) : Driver own :=
  { s with ready := s.ready.filter (· ∉ events), phase := .dispatching time events.length data }

def handle (s : Driver own) (time : Time) (nfds : Nat) (e : EventData × Mask) (events : List (EventData × Mask))
    (accepted : Option (Nat × Alloc)) : Option (Driver own) :=
  let s := { s with notified := s.notified ++ [e], phase := .dispatching time nfds events }
  match e.1 with
  | .signals => some { s with phase := .draining time nfds events }
  -- `::recv` fails on a pipe
  | .wake => some s
  | .owner p => s.notify p e.2 accepted

def consume (s : Driver own) (sig : UnixSignal) (pending : List UnixSignal) : Driver own :=
  { s with pending, consumed := s.consumed ++ [sig] }

def readSignal (s : Driver own) (time : Time) (nfds : Nat) (events : List (EventData × Mask)) : Option (Driver own) :=
  match s.pending with
  | [] => some { s with phase := .dispatching time nfds events }
  | sig :: pending => some ((s.consume sig pending).notifySignalListener sig)

/-- `pollImpl` up to its next system call; `epoll_wait` answers with `events`. -/
def advance (s : Driver own) (events : List (Nat × Mask)) (accepted : Option (Nat × Alloc)) : Option (Driver own) :=
  match s.phase with
  | .idle => some s
  | .waiting time =>
    if s.reportable = [] then
      if time = .forever then some s else some { s with phase := .idle }
    else do return s.reported time events (← events.mapM s.resolve)
  | .dispatching time nfds [] =>
    if nfds = maxEpollEvents then some { s with phase := .waiting time } else some { s with phase := .idle }
  | .dispatching time nfds (e :: events) => s.handle time nfds e events accepted
  | .draining time nfds events => s.readSignal time nfds events

/-- An edge: bits that are registered for join those that were not reported yet. Only owners are subscribed
with `EPOLLET`. -/
def raise (s : Driver own) (fd : Nat) (mask : Mask) : Driver own :=
  match s.interest.lookup fd with
  | some (.owner _, registered) =>
    if (mask.inter registered).isEmpty then s
    else
      let before := ((s.ready.find? (·.1 = fd)).map Prod.snd).getD ⟨false, false, false⟩
      { s with ready := s.ready.filter (·.1 ≠ fd) ++ [(fd, before.union (mask.inter registered))] }
  | _ => s

/-- A blocked signal becomes pending, once. -/
def raiseSignal (s : Driver own) (sig : UnixSignal) : Driver own :=
  if sig ∈ s.pending then s else { s with pending := s.pending ++ [sig] }

/-! ## The network -/

namespace UnixNetwork

/-- `listen` and `datagram` up to the new owner. -/
def bound (s : Driver own) (fd : Nat) (setsockopt bind : Bool) (mask : Mask) (feeders : Feeders) (alloc : Alloc) :
    Option (Option Nat × Driver own) := do
  let s := s.opened fd
  if ¬ setsockopt then return (none, ← s.close fd)
  if ¬ bind then return (none, ← s.close fd)
  return (some alloc.address, (s.newOwner alloc fd mask feeders).hold alloc.address)

def listen (s : Driver own) (addresses : Nat) (socket : Option Nat) (setsockopt bind : Bool) (alloc : Alloc) :
    Option (Option Nat × Driver own) := do
  assert (0 < addresses)
  match socket with
  | none => return (none, s)
  | some fd => bound s fd setsockopt bind signalMask (.server none) alloc

/-- Without a socket `::setsockopt` fails, and `::close` has nothing to close. -/
def datagram (s : Driver own) (addresses : Nat) (socket : Option Nat) (setsockopt bind : Bool) (alloc : Alloc) :
    Option (Option Nat × Driver own) := do
  assert (0 < addresses)
  match socket with
  | none => return (none, s)
  | some fd => bound s fd setsockopt bind ioMask (.datagram none none) alloc

/-- The loop over the addresses: whether one of them is connected or in progress. -/
def connectLoop : List ConnectResult → Bool
  | [] => false
  | .connected :: _ => true
  | .inProgress :: _ => true
  | .interrupted :: results => connectLoop results
  | .refused :: _ => false

/-- `results` holds one answer of `::connect` for each address. -/
def connect (s : Driver own) (results : List ConnectResult) (socket : Option Nat) (alloc : Alloc) :
    Option (ErrorOr Nat × Driver own) := do
  assert (0 < results.length)
  match socket with
  | none => return (.error (criticalError "Couldn't open socket"), s)
  | some fd =>
    let s := (s.opened fd).newOwner alloc fd (streamMask ioMask) (.stream none none none)
    if connectLoop results then return (.value alloc.address, s.hold alloc.address)
    else return (.error (criticalError "Couldn't connect"), ← s.destroyOwner alloc.address)

end UnixNetwork

namespace UnixIoProvider

def wrapInputFd (s : Driver own) (fd : Nat) (alloc : Alloc) : Driver own :=
  ({ s with foreign := s.foreign.erase fd }.newOwner alloc fd (streamMask signalMask) (.stream none none none)).hold
    alloc.address

end UnixIoProvider

/-! ## Calls of the program -/

def install : Slot → Feeders → Nat → Option Feeders
  | .readReady, .stream _ d w, c => some (.stream (some c) d w)
  | .onReadDisconnected, .stream r _ w, c => some (.stream r (some c) w)
  | .writeReady, .stream r d _, c => some (.stream r d (some c))
  | .accept, .server _, c => some (.server (some c))
  | .readReady, .datagram _ w, c => some (.datagram (some c) w)
  | .writeReady, .datagram r _, c => some (.datagram r (some c))
  | _, _, _ => none

/-- `readReady()` and the like: the owner forgets the feeder that it had. -/
def conveyor (s : Driver own) (slot : Slot) (p : Nat) : Option (Nat × Driver own) := do
  let owner ← s.owners.lookup p
  let (c, s) := s.newConveyor
  let feeders ← install slot owner.feeders c
  return (c, { s with owners := s.owners.insert p { owner with feeders } })

def onSignal (s : Driver own) (signal : Signal) : Nat × Driver own :=
  let (c, s) := s.newConveyor
  (c, { s with
    signalConveyors := s.signalConveyors ++ [(signal, c)]
    signalFdSet := s.signalFdSet ++ toUnixSignal signal })

def take (s : Driver own) (c : Nat) : Option (Option Item × Driver own) := do
  let inbox ← s.conveyors.lookup c
  match inbox.storage with
  | [] => return (none, s)
  | x :: storage => return (some x, { s with
      conveyors := s.conveyors.insert c ⟨storage, inbox.taken + 1⟩
      held := s.held ++ x.address.toList })

def destroyAll : Driver own → List Nat → Option (Driver own)
  | s, [] => some s
  | s, p :: ps => do destroyAll (← s.destroyOwner p) ps

def dropConveyor (s : Driver own) (c : Nat) : Option (Driver own) := do
  let inbox ← s.conveyors.lookup c
  destroyAll { s with conveyors := s.conveyors.erase c } inbox.streams

def dropOwner (s : Driver own) (p : Nat) : Option (Driver own) :=
  { s with held := s.held.erase p }.destroyOwner p

end Driver

/-! ## Steps -/

inductive DriverOp where
  | listen (addresses : Nat) (socket : Option Nat) (setsockopt bind : Bool) (alloc : Alloc)
  | datagram (addresses : Nat) (socket : Option Nat) (setsockopt bind : Bool) (alloc : Alloc)
  | connect (results : List ConnectResult) (socket : Option Nat) (alloc : Alloc)
  | openForeign (fd : Nat)
  | wrapInputFd (fd : Nat) (alloc : Alloc)
  | conveyor (slot : Slot) (p : Nat)
  | onSignal (signal : Signal)
  | take (c : Nat)
  | dropConveyor (c : Nat)
  | dropOwner (p : Nat)
  | poll (time : Time)
  | advance (events : List (Nat × Mask)) (accepted : Option (Nat × Alloc))
  | interrupt
  | raise (fd : Nat) (mask : Mask)
  | raiseSignal (sig : UnixSignal)

inductive DriverAnswer where
  | unit
  | owner (p : Option Nat)
  | stream (result : ErrorOr Nat)
  | conveyor (c : Nat)
  | item (x : Option Item)

namespace Driver

variable {own : PortDescriptors}

def step (s : Driver own) : DriverOp → Option (DriverAnswer × Driver own)
  | .listen addresses socket setsockopt bind alloc => do
    let (p, s) ← UnixNetwork.listen s addresses socket setsockopt bind alloc
    return (.owner p, s)
  | .datagram addresses socket setsockopt bind alloc => do
    let (p, s) ← UnixNetwork.datagram s addresses socket setsockopt bind alloc
    return (.owner p, s)
  | .connect results socket alloc => do
    let (result, s) ← UnixNetwork.connect s results socket alloc
    return (.stream result, s)
  | .openForeign fd => some (.unit, { s.opened fd with foreign := fd :: s.foreign })
  | .wrapInputFd fd alloc => some (.owner (some alloc.address), UnixIoProvider.wrapInputFd s fd alloc)
  | .conveyor slot p => do
    let (c, s) ← s.conveyor slot p
    return (.conveyor c, s)
  | .onSignal signal => let (c, s) := s.onSignal signal; some (.conveyor c, s)
  | .take c => do
    let (x, s) ← s.take c
    return (.item x, s)
  | .dropConveyor c => do return (.unit, ← s.dropConveyor c)
  | .dropOwner p => do return (.unit, ← s.dropOwner p)
  | .poll time => some (.unit, { s with phase := .waiting time })
  | .advance events accepted => do return (.unit, ← s.advance events accepted)
  | .interrupt => some (.unit, match s.phase with | .waiting _ => { s with phase := .idle } | _ => s)
  | .raise fd mask => some (.unit, s.raise fd mask)
  | .raiseSignal sig => some (.unit, s.raiseSignal sig)

end Driver

end Forstio.Unix
