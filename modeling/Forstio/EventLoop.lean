import Forstio.Lib.Linked

/-!
# The event loop's queue

`EventLoop` is one intrusive list of armed events, with three slots of it kept
at hand: where `armNext` inserts, where `armLater` and `armLast` insert, and the
last one. The fields `prev` and `next` of the events are part of the state. All
calls are made inside the loop's wait scope, which the arming functions assert.
-/

namespace Forstio

structure EventLoop (ε : Type) extends Links ε where
  tail : Slot ε
  nextInsertPoint : Slot ε
  laterInsertPoint : Slot ε
  isRunnable : Bool

namespace EventLoop

variable {ε : Type}

def new : EventLoop ε where
  head := none
  next := fun _ => none
  prev := fun _ => none
  tail := .head
  nextInsertPoint := .head
  laterInsertPoint := .head
  isRunnable := false

def setRunnable (s : EventLoop ε) (runnable : Bool) : EventLoop ε := { s with isRunnable := runnable }

def isArmed (s : EventLoop ε) (e : ε) : Bool := (s.prev e).isSome

variable [DecidableEq ε]

def armNext (s : EventLoop ε) (e : ε) : EventLoop ε :=
  match s.prev e with
  | some _ => s
  | none =>
    let p := s.nextInsertPoint
    let s := { s with toLinks := s.link e p }
    let s := { s with nextInsertPoint := .next e }
    let s := if s.laterInsertPoint = p then { s with laterInsertPoint := .next e } else s
    let s := if s.tail = p then { s with tail := .next e } else s
    s.setRunnable true

def armLater (s : EventLoop ε) (e : ε) : EventLoop ε :=
  match s.prev e with
  | some _ => s
  | none =>
    let p := s.laterInsertPoint
    let s := { s with toLinks := s.link e p }
    let s := { s with laterInsertPoint := .next e }
    let s := if s.tail = p then { s with tail := .next e } else s
    s.setRunnable true

def armLast (s : EventLoop ε) (e : ε) : EventLoop ε :=
  match s.prev e with
  | some _ => s
  | none =>
    let p := s.laterInsertPoint
    let s := { s with toLinks := s.link e p }
    let s := if s.tail = p then { s with tail := .next e } else s
    s.setRunnable true

/-- Also what the destructor of an event does. -/
def disarm (s : EventLoop ε) (e : ε) : EventLoop ε :=
  match s.prev e with
  | none => s
  | some p =>
    let s := if s.tail = .next e then { s with tail := p } else s
    let s := if s.nextInsertPoint = .next e then { s with nextInsertPoint := p } else s
    { s with toLinks := s.unlink e p }

/-- `turn` up to the call of `fire`, with the event to be fired. Nothing follows
that call, so what `fire` itself does are the next steps of the run. -/
def turn (s : EventLoop ε) : Option ε × EventLoop ε :=
  match s.head with
  | none => (none, s)
  | some e =>
    let s := { s with head := s.next e }
    let s := { s with toLinks := s.pointBack s.head .head }
    let s := { s with nextInsertPoint := .head }
    let s := if s.laterInsertPoint = .next e then { s with laterInsertPoint := .head } else s
    let s := if s.tail = .next e then { s with tail := .head } else s
    let s := { s with toLinks := s.store (.next e) none }
    let s := { s with toLinks := s.setPrev e none }
    (some e, { s with nextInsertPoint := .head })

/-! ## Runs -/

inductive Op (ε : Type) where
  | armNext (e : ε)
  | armLater (e : ε)
  | armLast (e : ε)
  | disarm (e : ε)
  | turn
  deriving DecidableEq, Repr

/-- What a call did: nothing, or it armed, disarmed or fired an event. -/
inductive Effect (ε : Type) where
  | nothing
  | armed (e : ε)
  | disarmed (e : ε)
  | fired (e : ε)
  deriving DecidableEq, Repr

def Effect.ofTurn : Option ε → Effect ε
  | none => .nothing
  | some e => .fired e

def step (s : EventLoop ε) : Op ε → Option (Effect ε × EventLoop ε)
  | .armNext e => some (if s.isArmed e then .nothing else .armed e, s.armNext e)
  | .armLater e => some (if s.isArmed e then .nothing else .armed e, s.armLater e)
  | .armLast e => some (if s.isArmed e then .nothing else .armed e, s.armLast e)
  | .disarm e => some (if s.isArmed e then .disarmed e else .nothing, s.disarm e)
  | .turn => some (Effect.ofTurn s.turn.1, s.turn.2)

/-- The slots a call writes through. -/
def written (s : EventLoop ε) : Op ε → List (Slot ε)
  | .armNext e => if s.isArmed e then [] else [s.nextInsertPoint]
  | .armLater e => if s.isArmed e then [] else [s.laterInsertPoint]
  | .armLast e => if s.isArmed e then [] else [s.laterInsertPoint]
  | .disarm e => (s.prev e).toList
  | .turn => [.head]

/-- The slots that a call reads or writes through; the event that one of them holds is told where it hangs. -/
def followed (s : EventLoop ε) : Op ε → List (Slot ε)
  | .disarm e => match s.prev e with
    | none => []
    | some p => [p, .next e]
  | .turn => .head :: s.head.toList.map .next
  | op => s.written op

/-! ## What each call leaves -/

section
variable {s : EventLoop ε} {e : ε}

theorem armNext_armed {p : Slot ε} (h : s.prev e = some p) : s.armNext e = s := by
  simp only [armNext, h]

theorem armLater_armed {p : Slot ε} (h : s.prev e = some p) : s.armLater e = s := by
  simp only [armLater, h]

theorem armLast_armed {p : Slot ε} (h : s.prev e = some p) : s.armLast e = s := by
  simp only [armLast, h]

theorem disarm_unarmed (h : s.prev e = none) : s.disarm e = s := by
  simp only [disarm, h]

theorem armNext_eq (h : s.prev e = none) : s.armNext e =
    { s with
      toLinks := s.link e s.nextInsertPoint
      nextInsertPoint := .next e
      laterInsertPoint := if s.laterInsertPoint = s.nextInsertPoint then .next e else s.laterInsertPoint
      tail := if s.tail = s.nextInsertPoint then .next e else s.tail
      isRunnable := true } := by
  simp only [armNext, h, setRunnable]
  split <;> split <;> rfl

theorem armLater_eq (h : s.prev e = none) : s.armLater e =
    { s with
      toLinks := s.link e s.laterInsertPoint
      laterInsertPoint := .next e
      tail := if s.tail = s.laterInsertPoint then .next e else s.tail
      isRunnable := true } := by
  simp only [armLater, h, setRunnable]
  split <;> rfl

theorem armLast_eq (h : s.prev e = none) : s.armLast e =
    { s with
      toLinks := s.link e s.laterInsertPoint
      tail := if s.tail = s.laterInsertPoint then .next e else s.tail
      isRunnable := true } := by
  simp only [armLast, h, setRunnable]
  split <;> rfl

theorem disarm_eq {p : Slot ε} (h : s.prev e = some p) : s.disarm e =
    { s with
      toLinks := s.unlink e p
      tail := if s.tail = .next e then p else s.tail
      nextInsertPoint := if s.nextInsertPoint = .next e then p else s.nextInsertPoint } := by
  simp only [disarm, h]
  split <;> split <;> rfl

theorem turn_none (h : s.head = none) : s.turn = (none, s) := by
  simp only [turn, h]

theorem turn_eq (h : s.head = some e) : s.turn = (some e,
    { s with
      toLinks := s.unlink e .head
      nextInsertPoint := .head
      laterInsertPoint := if s.laterInsertPoint = .next e then .head else s.laterInsertPoint
      tail := if s.tail = .next e then .head else s.tail }) := by
  simp only [turn, h]
  cases hn : s.next e <;> split <;> split <;> simp_all [Links.unlink, Links.store, Links.pointBack, Links.setPrev]

theorem head_of_turn {event : Option ε} {s' : EventLoop ε} (h : s.turn = (event, s')) : s.head = event := by
  cases hhead : s.head with
  | none =>
    rw [turn_none hhead] at h
    exact congrArg Prod.fst h
  | some a =>
    rw [turn_eq hhead] at h
    exact congrArg Prod.fst h

end

end EventLoop

end Forstio
