import Forstio.IoHelpers
import Forstio.Lib.Run
import Forstio.Readiness

/-!
# An asynchronous stream over a socket

The socket is subscribed with `EPOLLET`: the kernel reports an arrival once, at
the next `epoll_wait`. `notify` turns the report into signals, whose callbacks
run in later turns of the event loop and go on with the outstanding tasks. A new
request asks the socket at once.

No readiness gets lost: as long as a read task waits while the socket holds
data, there is a report or a signal that will go on with it.
-/

namespace Forstio

/-- What the kernel decides, by the number of the call: how many bytes `recv` gives and `send` takes
at most, and whether a `send` that takes nothing is to be tried again. -/
structure Kernel where
  received : Nat → Nat
  sent : Nat → Nat
  again : Nat → Bool

structure EventMask where
  epollIn : Bool
  epollOut : Bool
  epollRdHup : Bool

def EventMask.none : EventMask := ⟨false, false, false⟩

/-- A socket with the memory it is read into; `edges` are the events since the last `epoll_wait`. -/
structure Socket where
  unread : List UInt8
  closed : Bool
  edges : EventMask
  memory : Nat → UInt8
  calls : Nat

/-- `::recv`: zero at the end of the stream, `-1` if there is nothing yet. -/
def unixRead (k : Kernel) (s : Socket) (buffer length : Nat) : Int × Socket :=
  if s.unread = [] then (if s.closed then 0 else -1, s)
  else
    let n := min length (min s.unread.length (max 1 (k.received s.calls)))
    (n, { s with
      unread := s.unread.drop n
      memory := storeAt s.memory buffer (s.unread.take n)
      calls := s.calls + 1 })

def unixWrite (k : Kernel) (s : Socket) (length : Nat) : Int × Socket :=
  (if k.sent s.calls = 0 then -1 else min length (k.sent s.calls), { s with calls := s.calls + 1 })

structure UnixIoStream where
  readReady : Option Nat
  onReadDisconnect : Option Nat
  writeReady : Option Nat

namespace UnixIoStream

def read (k : Kernel) (s : Socket) (buffer length : Nat) : Option (ErrorOr Nat × Socket) :=
  let (readBytes, s) := unixRead k s buffer length
  if readBytes > 0 then some (.value readBytes.toNat, s)
  else if readBytes = 0 then some (.error (makeError "Disconnected" Error.disconnected), s)
  else some (.error (recoverableError "Currently busy"), s)

def write (k : Kernel) (s : Socket) (_buffer length : Nat) : Option (ErrorOr Nat × Socket) :=
  let again := k.again s.calls
  let (writeBytes, s) := unixWrite k s length
  if writeBytes > 0 then some (.value writeBytes.toNat, s)
  else if again then some (.error (recoverableError "Currently busy"), s)
  else some (.error (makeError "Disconnected" Error.disconnected), s)

def notifyOne (raised : Bool) (feeder : Option Nat) (signal : Signal) (w : World Signal) : World Signal :=
  match feeder with
  | some i => if raised then w.feed i signal else w
  | none => w

def notify (stream : UnixIoStream) (mask : EventMask) (w : World Signal) : World Signal :=
  let w := notifyOne mask.epollOut stream.writeReady .writeReady w
  let w := notifyOne mask.epollIn stream.readReady .readReady w
  notifyOne mask.epollRdHup stream.onReadDisconnect .readDisconnected w

end UnixIoStream

structure Connection where
  stream : UnixIoStream
  socket : Socket
  world : World Signal
  readStepper : ReadTaskAndStepHelper
  writeStepper : WriteTaskAndStepHelper

inductive IoOp where
  | arrive (byte : UInt8) (bytes : List UInt8)
  | makeRoom
  | hangUp
  | poll
  | turn
  | read (buffer minLength maxLength : Nat)
  | write (buffer length : Nat)
  | readDone
  | onReadDisconnected
  | writeDone

namespace Connection

def new (memory : Nat → UInt8) : Option Connection := do
  let (readReady, w) ← listen World.new
  let (writeReady, w) ← listen w
  let (onReadDisconnect, w) ← listen w
  return ⟨⟨some readReady, some onReadDisconnect, some writeReady⟩, ⟨[], false, .none, memory, 0⟩, w,
    ⟨none, none, none⟩, ⟨none, none⟩⟩

def callback (k : Kernel) (c : Connection) : ErrorOr Signal → Option Connection
  | .value .readReady => do
    let (readStepper, socket) ← c.readStepper.readStep ⟨UnixIoStream.read k⟩ c.socket
    return { c with readStepper, socket }
  | .value .writeReady => do
    let (writeStepper, socket) ← c.writeStepper.writeStep ⟨UnixIoStream.write k⟩ c.socket
    return { c with writeStepper, socket }
  | .value .readDisconnected =>
    return { c with readStepper.onReadDisconnect := c.readStepper.onReadDisconnect.map (· ++ [.value ()]) }
  | .error _ => return c

def turn (k : Kernel) (c : Connection) : Option (List (ErrorOr Signal) × Connection) := do
  let (_, world) ← c.world.turn
  let signals := world.delivered.drop c.world.delivered.length
  let c ← signals.foldlM (callback k) { c with world }
  return (signals, c)

def step (k : Kernel) (c : Connection) : IoOp → Option (List (ErrorOr Signal) × Connection)
  | .arrive byte bytes =>
    return ([], { c with socket.unread := c.socket.unread ++ byte :: bytes, socket.edges.epollIn := true })
  | .makeRoom => return ([], { c with socket.edges.epollOut := true })
  | .hangUp =>
    return ([], { c with socket.closed := true, socket.edges.epollIn := true, socket.edges.epollRdHup := true })
  | .poll =>
    return ([], { c with socket.edges := .none, world := c.stream.notify c.socket.edges c.world })
  | .turn => c.turn k
  | .read buffer minLength maxLength => do
    let (readStepper, socket) ←
      AsyncIoStream.read ⟨UnixIoStream.read k⟩ c.readStepper c.socket buffer minLength maxLength
    return ([], { c with readStepper, socket })
  | .write buffer length => do
    let (writeStepper, socket) ← AsyncIoStream.write ⟨UnixIoStream.write k⟩ c.writeStepper c.socket buffer length
    return ([], { c with writeStepper, socket })
  | .readDone => return ([], { c with readStepper.readDone := some [] })
  | .onReadDisconnected => return ([], { c with readStepper.onReadDisconnect := some [] })
  | .writeDone => return ([], { c with writeStepper.writeDone := some [] })

/-- A request is for a positive number of bytes, and made while none of its kind is outstanding. -/
def permitted (c : Connection) : IoOp → Prop
  | .read _ minLength maxLength =>
    c.readStepper.readTask = none ∧ 0 < minLength ∧ minLength ≤ maxLength ∧ maxLength < 2 ^ 64
  | .write _ length => c.writeStepper.writeTask = none ∧ 0 < length ∧ length < 2 ^ 64
  | _ => True

/-- After `ops`, some turn of the event loop runs `readStep`. -/
def RunsReadStep (k : Kernel) (c : Connection) (ops : List IoOp) : Prop :=
  ∃ n outs c', Run.exec (step k) c (ops ++ List.replicate n .turn) = some (outs, c') ∧ [.value .readReady] ∈ outs

/-! ## The socket -/

theorem read_cases (k : Kernel) (s : Socket) (buffer : Nat) {length : Nat} (hlength : 0 < length) :
    (∃ n s', UnixIoStream.read k s buffer length = some (.value n, s') ∧ 0 < n ∧ n ≤ length ∧ s'.edges = s.edges) ∨
    ∃ e, UnixIoStream.read k s buffer length = some (.error e, s) ∧ s.unread = [] := by
  by_cases hempty : s.unread = []
  · right
    cases hclosed : s.closed with
    | false =>
      refine ⟨recoverableError "Currently busy", ?_, hempty⟩
      simp [UnixIoStream.read, unixRead, hempty, hclosed]
    | true =>
      refine ⟨makeError "Disconnected" Error.disconnected, ?_, hempty⟩
      simp [UnixIoStream.read, unixRead, hempty, hclosed]
  · left
    have havail : 0 < s.unread.length := List.length_pos_iff.mpr hempty
    obtain ⟨n, hn⟩ : ∃ n, n = min length (min s.unread.length (max 1 (k.received s.calls))) := ⟨_, rfl⟩
    have hpos : 0 < n := by omega
    refine ⟨n, { s with
      unread := s.unread.drop n
      memory := storeAt s.memory buffer (s.unread.take n)
      calls := s.calls + 1 }, ?_, hpos, by omega, rfl⟩
    have hint : (n : Int) > 0 := by omega
    simp only [UnixIoStream.read, unixRead, if_neg hempty, ← hn, if_pos hint, Int.toNat_natCast]

theorem read_rule (k : Kernel) (edges : EventMask) : ReadRule ⟨UnixIoStream.read k⟩ (fun _ s => s.edges = edges)
    (fun _ s => s.edges = edges ∧ s.unread = []) (fun _ s => s.edges = edges) := by
  intro task s htask hedges
  have hpos : 0 < task.maxLength := Nat.lt_of_lt_of_le htask.pos htask.le
  rcases read_cases k s task.buffer hpos with ⟨n, s', hread, hn, hle, hs⟩ | ⟨e, hread, hempty⟩
  · exact Or.inl ⟨n, s', hread, hn, hle, fun _ => hs.trans hedges, fun _ => hs.trans hedges⟩
  · exact Or.inr ⟨e, s, hread, fun _ => hedges, fun _ => ⟨hedges, hempty⟩⟩

theorem write_cases (k : Kernel) (s : Socket) (buffer : Nat) {length : Nat} (hlength : 0 < length) :
    (∃ n s', UnixIoStream.write k s buffer length = some (.value n, s') ∧ 0 < n ∧ n ≤ length ∧ s'.edges = s.edges ∧
      s'.unread = s.unread) ∨
    ∃ e s', UnixIoStream.write k s buffer length = some (.error e, s') ∧ s'.edges = s.edges ∧ s'.unread = s.unread := by
  by_cases hfull : k.sent s.calls = 0
  · right
    cases hagain : k.again s.calls with
    | false =>
      refine ⟨makeError "Disconnected" Error.disconnected, { s with calls := s.calls + 1 }, ?_, rfl, rfl⟩
      simp [UnixIoStream.write, unixWrite, hfull, hagain]
    | true =>
      refine ⟨recoverableError "Currently busy", { s with calls := s.calls + 1 }, ?_, rfl, rfl⟩
      simp [UnixIoStream.write, unixWrite, hfull, hagain]
  · left
    obtain ⟨n, hn⟩ : ∃ n, n = min length (k.sent s.calls) := ⟨_, rfl⟩
    have hpos : 0 < n := by omega
    refine ⟨n, { s with calls := s.calls + 1 }, ?_, hpos, by omega, rfl, rfl⟩
    have hcast : min (length : Int) (k.sent s.calls : Int) = (n : Int) := by omega
    have hint : (n : Int) > 0 := by omega
    simp only [UnixIoStream.write, unixWrite, if_neg hfull, hcast, if_pos hint, Int.toNat_natCast]

theorem write_rule (k : Kernel) (edges : EventMask) (unread : List UInt8) : WriteRule ⟨UnixIoStream.write k⟩
    (fun _ s => s.edges = edges ∧ s.unread = unread) (fun _ s => s.edges = edges ∧ s.unread = unread)
    (fun _ s => s.edges = edges ∧ s.unread = unread) := by
  intro task s htask hI
  rcases write_cases k s task.buffer htask.pos with ⟨n, s', hwrite, hn, hle, hs⟩ | ⟨e, s', hwrite, hs⟩
  · have hs' := And.intro (hs.1.trans hI.1) (hs.2.trans hI.2)
    exact Or.inl ⟨n, s', hwrite, hn, hle, fun _ => hs', fun _ => hs'⟩
  · have hs' := And.intro (hs.1.trans hI.1) (hs.2.trans hI.2)
    exact Or.inr ⟨e, s', hwrite, fun _ => hs', fun _ => hs'⟩

/-! ## The invariant -/

/-- The tasks are sound, and a read task waits for data unless a report or a signal is under way. -/
structure Inv (c : Connection) (counts : Signal → Nat) : Prop where
  stream : c.stream = ⟨some (Signal.feeder .readReady), some (Signal.feeder .readDisconnected),
    some (Signal.feeder .writeReady)⟩
  wired : Wired c.world counts
  reading : ∀ task, c.readStepper.readTask = some task → task.Sound ∧
    (c.socket.unread = [] ∨ c.socket.edges.epollIn = true ∨ 0 < counts .readReady)
  writing : ∀ task, c.writeStepper.writeTask = some task → task.Sound

theorem new_inv (memory : Nat → UInt8) : ∃ c, new memory = some c ∧ Inv c fun _ => 0 := by
  obtain ⟨c, hc⟩ : ∃ c, new memory = some c := by
    simp only [new, listen_eq, Option.bind_eq_bind, Option.bind_some, Option.pure_def, Option.some.injEq,
      exists_eq']
  refine ⟨c, hc, ?_⟩
  simp only [new, listen_eq, Option.bind_eq_bind, Option.bind_some, Option.pure_def, Option.some.injEq] at hc
  subst hc
  refine ⟨rfl, ⟨EventLoop.sound_new, fun s => ?_, fun s => ?_, fun i => ?_⟩, fun _ h => ?_, fun _ h => ?_⟩
  · cases s <;> rfl
  · cases s <;> rfl
  · refine ⟨fun h => absurd h (EventLoop.not_isArmed_new i), ?_⟩
    rintro ⟨s, -, h⟩
    cases h
  · cases h
  · cases h

section
variable {k : Kernel} {c : Connection} {counts : Signal → Nat}

theorem settled_read {edges : EventMask} {h h' : ReadTaskAndStepHelper} {s : Socket}
    (hsettled : h.Settled (fun _ s => s.edges = edges ∧ s.unread = []) (fun _ s => s.edges = edges) h' s) :
    s.edges = edges ∧ ∀ task, h'.readTask = some task → task.Sound ∧ s.unread = [] := by
  rcases hsettled with ⟨task, htask, rfl, hedges, hempty⟩ | ⟨result, rfl, hedges⟩
  · refine ⟨hedges, fun task' h => ?_⟩
    obtain rfl := Option.some.inj h
    exact ⟨htask, hempty⟩
  · exact ⟨hedges, fun _ h => nomatch h⟩

theorem settled_write {edges : EventMask} {unread : List UInt8} {h h' : WriteTaskAndStepHelper} {s : Socket}
    (hsettled : h.Settled (fun _ s => s.edges = edges ∧ s.unread = unread)
      (fun _ s => s.edges = edges ∧ s.unread = unread) h' s) :
    (s.edges = edges ∧ s.unread = unread) ∧ ∀ task, h'.writeTask = some task → task.Sound := by
  rcases hsettled with ⟨task, htask, rfl, hs⟩ | ⟨result, rfl, hs⟩
  · refine ⟨hs, fun task' h => ?_⟩
    obtain rfl := Option.some.inj h
    exact htask
  · exact ⟨hs, fun _ h => nomatch h⟩

theorem readStep_drains (k : Kernel) (hsound : ∀ task, c.readStepper.readTask = some task → task.Sound) :
    ∃ h s, c.readStepper.readStep ⟨UnixIoStream.read k⟩ c.socket = some (h, s) ∧
      (∀ task, h.readTask = some task → task.Sound ∧ s.unread = []) := by
  cases htask : c.readStepper.readTask with
  | none =>
    refine ⟨c.readStepper, c.socket, ReadTaskAndStepHelper.readStep_idle htask _, fun task h => ?_⟩
    rw [htask] at h
    cases h
  | some task =>
    obtain ⟨h, s, hstep, hsettled⟩ := ReadTaskAndStepHelper.readStep_rule (read_rule k c.socket.edges)
      (h := c.readStepper) (hsound task htask) rfl
    rw [← htask] at hstep
    exact ⟨h, s, hstep, (settled_read hsettled).2⟩

theorem writeStep_keeps (k : Kernel) (hsound : ∀ task, c.writeStepper.writeTask = some task → task.Sound) :
    ∃ h s, c.writeStepper.writeStep ⟨UnixIoStream.write k⟩ c.socket = some (h, s) ∧
      (s.edges = c.socket.edges ∧ s.unread = c.socket.unread) ∧ ∀ task, h.writeTask = some task → task.Sound := by
  cases htask : c.writeStepper.writeTask with
  | none =>
    refine ⟨c.writeStepper, c.socket, WriteTaskAndStepHelper.writeStep_idle htask _, ⟨rfl, rfl⟩, fun task h => ?_⟩
    rw [htask] at h
    cases h
  | some task =>
    obtain ⟨h, s, hstep, hsettled⟩ := WriteTaskAndStepHelper.writeStep_rule
      (write_rule k c.socket.edges c.socket.unread) (h := c.writeStepper) (hsound task htask) ⟨rfl, rfl⟩
    rw [← htask] at hstep
    exact ⟨h, s, hstep, settled_write hsettled⟩

/-! ## Turns -/

theorem callback_inv (k : Kernel) (h : Inv c counts) {s : Signal} {n : Nat} {w : World Signal}
    (hw : Wired w (Function.update counts s n)) :
    ∃ c', callback k { c with world := w } (.value s) = some c' ∧ Inv c' (Function.update counts s n) := by
  cases s with
  | readReady =>
    obtain ⟨stepper, socket, hstep, hdrained⟩ := readStep_drains k fun task htask => (h.reading task htask).1
    refine ⟨{ c with world := w, readStepper := stepper, socket }, ?_, h.stream, hw, fun task htask => ?_, h.writing⟩
    · simp only [callback, hstep, Option.bind_eq_bind, Option.bind_some, Option.pure_def]
    · exact ⟨(hdrained task htask).1, Or.inl (hdrained task htask).2⟩
  | writeReady =>
    obtain ⟨stepper, socket, hstep, ⟨hedges, hunread⟩, hsound⟩ := writeStep_keeps k h.writing
    refine ⟨{ c with world := w, writeStepper := stepper, socket }, ?_, h.stream, hw, fun task htask => ?_, hsound⟩
    · simp only [callback, hstep, Option.bind_eq_bind, Option.bind_some, Option.pure_def]
    · rw [hedges, hunread, Function.update_of_ne (by decide)]
      exact h.reading task htask
  | readDisconnected =>
    refine ⟨_, rfl, h.stream, hw, fun task htask => ?_, h.writing⟩
    rw [Function.update_of_ne (by decide)]
    exact h.reading task htask

theorem turn_cases (k : Kernel) (h : Inv c counts) : (c.turn k = some ([], c) ∧ ∀ s, counts s = 0) ∨
    ∃ s n c', counts s = n + 1 ∧ c.turn k = some ([.value s], c') ∧ Inv c' (Function.update counts s n) := by
  rcases h.wired.turn with ⟨hturn, hzero⟩ | ⟨s, n, w, hn, hturn, hdelivered, hw⟩
  · refine Or.inl ⟨?_, hzero⟩
    simp only [turn, hturn, Option.bind_eq_bind, Option.bind_some, List.drop_length, List.foldlM_nil, Option.pure_def]
  · obtain ⟨c', hcallback, hinv⟩ := callback_inv k h hw
    refine Or.inr ⟨s, n, c', hn, ?_, hinv⟩
    simp only [turn, hturn, hdelivered, Option.bind_eq_bind, Option.bind_some, List.drop_left, List.foldlM_cons,
      List.foldlM_nil, hcallback, Option.pure_def]

theorem turns_deliver (k : Kernel) (h : Inv c counts) (hready : 0 < counts .readReady) :
    ∃ n outs c', Run.exec (step k) c (List.replicate n .turn) = some (outs, c') ∧ [.value .readReady] ∈ outs := by
  induction hm : counts .writeReady + counts .readDisconnected using Nat.strong_induction_on generalizing c counts with
  | _ m ih =>
    subst hm
    rcases turn_cases k h with ⟨-, hzero⟩ | ⟨s, n, c', hn, hturn, hinv⟩
    · rw [hzero] at hready
      cases hready
    by_cases hs : s = .readReady
    · subst hs
      refine ⟨1, [[.value .readReady]], c', ?_, List.mem_singleton_self _⟩
      rw [List.replicate_one, Run.exec_cons (show step k c .turn = _ from hturn)]
      rfl
    · have hless : Function.update counts s n .writeReady + Function.update counts s n .readDisconnected <
          counts .writeReady + counts .readDisconnected := by
        cases s with
        | readReady => exact absurd rfl hs
        | writeReady => rw [Function.update_self, Function.update_of_ne (by decide)]; omega
        | readDisconnected => rw [Function.update_self, Function.update_of_ne (by decide)]; omega
      obtain ⟨j, outs, c'', hrun, hmem⟩ := ih _ hless hinv
        (by rw [Function.update_of_ne (Ne.symm hs)]; exact hready) rfl
      refine ⟨j + 1, [.value s] :: outs, c'', ?_, List.mem_cons_of_mem _ hmem⟩
      rw [List.replicate_succ, Run.exec_cons (show step k c .turn = _ from hturn), hrun]
      rfl

/-! ## Reports -/

theorem notifyOne_wired {w : World Signal} (h : Wired w counts) (raised : Bool) (s : Signal) :
    ∃ counts', Wired (UnixIoStream.notifyOne raised (some s.feeder) s w) counts' ∧ (∀ t, counts t ≤ counts' t) ∧
      (raised = true → 0 < counts' s) := by
  cases raised with
  | false => exact ⟨counts, h, fun t => Nat.le_refl _, nofun⟩
  | true =>
    refine ⟨Function.update counts s (counts s + 1), h.feed s, fun t => ?_, fun _ => ?_⟩
    · by_cases ht : t = s
      · subst ht
        rw [Function.update_self]
        exact Nat.le_succ _
      · rw [Function.update_of_ne ht]
    · rw [Function.update_self]
      exact Nat.succ_pos _

theorem notify_wired (h : Inv c counts) (mask : EventMask) :
    ∃ counts', Wired (c.stream.notify mask c.world) counts' ∧ (∀ t, counts t ≤ counts' t) ∧
      (mask.epollIn = true → 0 < counts' .readReady) := by
  obtain ⟨counts₁, h₁, hle₁, -⟩ := notifyOne_wired h.wired mask.epollOut .writeReady
  obtain ⟨counts₂, h₂, hle₂, hraised⟩ := notifyOne_wired h₁ mask.epollIn .readReady
  obtain ⟨counts₃, h₃, hle₃, -⟩ := notifyOne_wired h₂ mask.epollRdHup .readDisconnected
  refine ⟨counts₃, ?_, fun t => ((hle₁ t).trans (hle₂ t)).trans (hle₃ t), fun hin => ?_⟩
  · rw [h.stream]
    exact h₃
  · exact Nat.lt_of_lt_of_le (hraised hin) (hle₃ _)

theorem poll_inv (k : Kernel) (h : Inv c counts) : ∃ c' counts', step k c .poll = some ([], c') ∧ Inv c' counts' ∧
    (c.socket.edges.epollIn = true → 0 < counts' .readReady) := by
  obtain ⟨counts', hwired, hle, hraised⟩ := notify_wired h c.socket.edges
  refine ⟨_, counts', rfl, ⟨h.stream, hwired, fun task htask => ?_, h.writing⟩, hraised⟩
  obtain ⟨hsound, hwaits⟩ := h.reading task htask
  refine ⟨hsound, hwaits.imp_right fun hready => Or.inr ?_⟩
  exact hready.elim hraised fun hready => Nat.lt_of_lt_of_le hready (hle _)

/-! ## Runs -/

theorem step_inv (k : Kernel) (h : Inv c counts) (op : IoOp) (hop : c.permitted op) :
    ∃ out c' counts', step k c op = some (out, c') ∧ Inv c' counts' := by
  cases op with
  | arrive byte bytes =>
    refine ⟨_, _, counts, rfl, h.stream, h.wired, fun task htask => ?_, h.writing⟩
    exact ⟨(h.reading task htask).1, Or.inr (Or.inl rfl)⟩
  | makeRoom => exact ⟨_, _, counts, rfl, h.stream, h.wired, h.reading, h.writing⟩
  | hangUp =>
    refine ⟨_, _, counts, rfl, h.stream, h.wired, fun task htask => ?_, h.writing⟩
    exact ⟨(h.reading task htask).1, Or.inr (Or.inl rfl)⟩
  | poll =>
    obtain ⟨c', counts', hstep, hinv, -⟩ := poll_inv k h
    exact ⟨[], c', counts', hstep, hinv⟩
  | turn =>
    rcases turn_cases k h with ⟨hturn, -⟩ | ⟨s, n, c', -, hturn, hinv⟩
    · exact ⟨[], c, counts, hturn, h⟩
    · exact ⟨[.value s], c', _, hturn, hinv⟩
  | read buffer minLength maxLength =>
    obtain ⟨hidle, hpos, hle, hsmall⟩ := hop
    obtain ⟨stepper, socket, hread, hsettled⟩ := AsyncIoStream.read_rule (read_rule k c.socket.edges) hidle
      buffer minLength maxLength ⟨hpos, hle, by dsimp only; omega⟩ rfl
    obtain ⟨-, hdrained⟩ := settled_read hsettled
    refine ⟨[], { c with readStepper := stepper, socket }, counts, ?_, h.stream, h.wired, fun task htask => ?_, h.writing⟩
    · simp only [step, hread, Option.bind_eq_bind, Option.bind_some, Option.pure_def]
    · exact ⟨(hdrained task htask).1, Or.inl (hdrained task htask).2⟩
  | write buffer length =>
    obtain ⟨hidle, hpos, hsmall⟩ := hop
    obtain ⟨stepper, socket, hwrite, hsettled⟩ := AsyncIoStream.write_rule
      (write_rule k c.socket.edges c.socket.unread) hidle buffer length ⟨hpos, by dsimp only; omega⟩ ⟨rfl, rfl⟩
    obtain ⟨⟨hedges, hunread⟩, hsound⟩ := settled_write hsettled
    refine ⟨[], { c with writeStepper := stepper, socket }, counts, ?_, h.stream, h.wired, fun task htask => ?_, hsound⟩
    · simp only [step, hwrite, Option.bind_eq_bind, Option.bind_some, Option.pure_def]
    · rw [hedges, hunread]
      exact h.reading task htask
  | readDone => exact ⟨_, _, counts, rfl, h.stream, h.wired, h.reading, h.writing⟩
  | onReadDisconnected => exact ⟨_, _, counts, rfl, h.stream, h.wired, h.reading, h.writing⟩
  | writeDone => exact ⟨_, _, counts, rfl, h.stream, h.wired, h.reading, h.writing⟩

theorem Inv.queued (h : Inv c counts) (hready : 0 < counts .readReady) :
    .value .readReady ∈ c.world.queueAt Signal.readReady.feeder := by
  rw [World.queueAt, h.wired.feeder .readReady]
  exact List.mem_replicate.mpr ⟨Nat.ne_of_gt hready, rfl⟩

theorem poll_delivers (k : Kernel) (h : Inv c counts) (hedge : c.socket.edges.epollIn = true) :
    RunsReadStep k c [.poll] := by
  obtain ⟨c', counts', hpoll, hinv, hraised⟩ := poll_inv k h
  obtain ⟨n, outs, c'', hrun, hmem⟩ := turns_deliver k hinv (hraised hedge)
  refine ⟨n, [] :: outs, c'', ?_, List.mem_cons_of_mem _ hmem⟩
  rw [List.singleton_append, Run.exec_cons hpoll, hrun]
  rfl

end

/-- **No readiness is missed.** In every state a run reaches, if a read task is outstanding and the socket holds
data, then there is an edge that is not yet reported or a signal that is not yet delivered, and `readStep` runs
once it is. -/
theorem readiness_is_never_missed (k : Kernel) (memory : Nat → UInt8) (ops : List IoOp) :
    ∃ c₀, new memory = some c₀ ∧ (Run.Along (step k) permitted c₀ ops →
      ∃ outs c, Run.exec (step k) c₀ ops = some (outs, c) ∧
        (c.readStepper.readTask ≠ none → c.socket.unread ≠ [] →
          (c.socket.edges.epollIn = true ∧ RunsReadStep k c [.poll]) ∨
          (.value .readReady ∈ c.world.queueAt Signal.readReady.feeder ∧ RunsReadStep k c []))) := by
  obtain ⟨c₀, hnew, hinv₀⟩ := new_inv memory
  refine ⟨c₀, hnew, fun hops => ?_⟩
  have hstep : ∀ c op, (∃ counts, Inv c counts) → permitted c op →
      ∃ out c', step k c op = some (out, c') ∧ ∃ counts, Inv c' counts := by
    intro c op hc hop
    obtain ⟨counts, hinv⟩ := hc
    obtain ⟨out, c', counts', hstep, hinv'⟩ := step_inv k hinv op hop
    exact ⟨out, c', hstep, counts', hinv'⟩
  obtain ⟨outs, c, hrun, counts, hinv⟩ := Run.exec_invariant _ permitted hstep ops c₀ ⟨_, hinv₀⟩ hops
  refine ⟨outs, c, hrun, fun htask hunread => ?_⟩
  obtain ⟨task, htask⟩ := Option.ne_none_iff_exists'.mp htask
  rcases (hinv.reading task htask).2 with hempty | hedge | hready
  · exact absurd hempty hunread
  · exact Or.inl ⟨hedge, poll_delivers k hinv hedge⟩
  · exact Or.inr ⟨hinv.queued hready, turns_deliver k hinv hready⟩

def bytewise : Kernel := ⟨fun _ => 1, fun _ => 1, fun _ => true⟩

theorem readiness_is_never_missed_arrival : ∃ c₀ outs c, new (fun _ => 0) = some c₀ ∧
    Run.exec (step bytewise) c₀ [.read 0 2 4, .arrive 7 []] = some (outs, c) ∧
    c.readStepper.readTask = some ⟨0, 2, 4, 0⟩ ∧ c.socket.unread = [7] ∧
      ((c.socket.edges.epollIn = true ∧ RunsReadStep bytewise c [.poll]) ∨
        (.value .readReady ∈ c.world.queueAt Signal.readReady.feeder ∧ RunsReadStep bytewise c [])) := by
  obtain ⟨c₀, hnew, h⟩ := readiness_is_never_missed bytewise (fun _ => 0) [.read 0 2 4, .arrive 7 []]
  have hidle : (new fun _ => 0).map (·.readStepper.readTask) = some none := rfl
  rw [hnew] at hidle
  obtain ⟨outs, c, hrun, hready⟩ := h ⟨⟨Option.some.inj hidle, by decide, by decide, by decide⟩,
    fun _ _ _ => ⟨trivial, fun _ _ _ => trivial⟩⟩
  have hstate : ((new fun _ => 0).bind fun c => Run.exec (step bytewise) c [.read 0 2 4, .arrive 7 []]).map (fun r =>
      (r.2.readStepper.readTask, r.2.socket.unread)) = some (some ⟨0, 2, 4, 0⟩, [7]) := rfl
  rw [hnew, Option.bind_some, hrun] at hstate
  obtain ⟨htask, hunread⟩ := Prod.mk.inj (Option.some.inj hstate)
  have htask : c.readStepper.readTask = some ⟨0, 2, 4, 0⟩ := htask
  have hunread : c.socket.unread = [7] := hunread
  refine ⟨c₀, outs, c, hnew, hrun, htask, hunread, hready ?_ ?_⟩
  · rw [htask]
    exact Option.some_ne_none _
  · rw [hunread]
    exact List.cons_ne_nil _ _

end Connection

end Forstio
