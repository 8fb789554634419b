import Forstio.AsyncIo
import Forstio.IoMoves

/-!
# Two peers and the socket between them

One direction of a connection: a peer that sends, the kernel's bounded buffer,
and a peer that receives. The kernel raises `EPOLLIN` when bytes arrive, and
`EPOLLOUT` when there is room again after a `send` that took nothing. What a
peer does with a report is one step here (`Connection` has the signals in
between); sends, reports and the delivery of completions come in any order.

No byte is lost on the way, so what was fed is the beginning of what was sent.
The peers never wait for each other: every delivery uses up some of the work
that is left, and when there is none left to make, everything has arrived.
-/

namespace Forstio

open Buffer

/-- The kernel's side. A `send` was refused for want of space only while the buffer is full. -/
structure SocketPair (capacity : Nat) where
  inFlight : List UInt8
  noSpace : Bool
  epollOut : Bool
  epollIn : Bool
  calls : Nat
  fits : inFlight.length ≤ capacity
  full : noSpace = true → inFlight.length = capacity

namespace SocketPair

variable {c : Nat}

def new (c : Nat) : SocketPair c where
  inFlight := []
  noSpace := false
  epollOut := false
  epollIn := false
  calls := 0
  fits := Nat.zero_le _
  full h := nomatch h

def accepted (k : Kernel) (t : SocketPair c) (length : Nat) : Nat :=
  min length (min (c - t.inFlight.length) (max 1 (k.sent t.calls)))

def write (k : Kernel) (t : SocketPair c) (bytes : List UInt8) : ErrorOr Nat × SocketPair c :=
  if h : t.inFlight.length = c then
    (.error (recoverableError "Currently busy"), { t with noSpace := true, calls := t.calls + 1, full := fun _ => h })
  else
    (.value (t.accepted k bytes.length), { t with
      inFlight := t.inFlight ++ bytes.take (t.accepted k bytes.length)
      epollIn := true
      calls := t.calls + 1
      fits := by
        have := t.fits
        simp only [List.length_append, List.length_take, accepted]
        omega
      full := fun hno => absurd (t.full hno) h })

def given (k : Kernel) (t : SocketPair c) (length : Nat) : Nat :=
  min length (min t.inFlight.length (max 1 (k.received t.calls)))

def read (k : Kernel) (t : SocketPair c) (length : Nat) : ErrorOr (List UInt8) × SocketPair c :=
  if t.inFlight = [] then (.error (recoverableError "Currently busy"), t)
  else
    (.value (t.inFlight.take (t.given k length)), { t with
      inFlight := t.inFlight.drop (t.given k length)
      noSpace := false
      epollOut := t.epollOut || t.noSpace
      calls := t.calls + 1
      fits := by
        have := t.fits
        rw [List.length_drop]
        omega
      full := fun h => nomatch h })

def sink (k : Kernel) : PartialStream (SocketPair c) where
  write := write k
  bounded t bytes n hne h := by
    have hpos := List.length_pos_iff.mpr hne
    have hfits := t.fits
    unfold write at h
    split at h
    · cases h
    · obtain rfl := ErrorOr.value.inj h
      unfold accepted
      omega
  recoverable t bytes e h := by
    unfold write at h
    split at h
    · obtain rfl := ErrorOr.error.inj h
      rfl
    · cases h

def source (k : Kernel) : PartialSource (SocketPair c) where
  read := read k
  most := c
  bounded t length bytes hpos h := by
    unfold read at h
    split at h
    · cases h
    next hne =>
      have hlen := List.length_pos_iff.mpr hne
      have hfits := t.fits
      obtain rfl := ErrorOr.value.inj h
      rw [List.length_take]
      unfold given
      omega
  recoverable t length e h := by
    unfold read at h
    split at h
    · obtain rfl := ErrorOr.error.inj h
      rfl
    · cases h

/-- What was written since `t₀` lies behind what was in flight then. -/
def Filled (t₀ : SocketPair c) (log₀ : List UInt8) (t : SocketPair c) (log : List UInt8) : Prop :=
  ∃ more, log = log₀ ++ more ∧ t.inFlight = t₀.inFlight ++ more ∧ t.epollOut = t₀.epollOut ∧
    ((more = [] ∧ t.epollIn = t₀.epollIn) ∨ (0 < more.length ∧ t.epollIn = true))

/-- What was read since `t₀` was in front of what is in flight. -/
def Emptied (t₀ : SocketPair c) (log₀ : List UInt8) (t : SocketPair c) (log : List UInt8) : Prop :=
  ∃ more, log = log₀ ++ more ∧ t₀.inFlight = more ++ t.inFlight ∧ t.epollIn = t₀.epollIn ∧
    ((more = [] ∧ t.noSpace = t₀.noSpace ∧ t.epollOut = t₀.epollOut) ∨
      (0 < more.length ∧ t.noSpace = false ∧ t.epollOut = (t₀.epollOut || t₀.noSpace)))

section
variable (k : Kernel) (t₀ : SocketPair c) (log₀ : List UInt8)

theorem sink_keeps : (sink k).Keeps (Filled t₀ log₀) (fun t _ => t.noSpace = true)
    (fun _ log => log₀.length < log.length) where
  value := by
    intro t log bytes n t' hne hK h
    obtain ⟨more, rfl, hflight, hout, -⟩ := hK
    have hbound := (sink k).bounded t bytes n hne (by rw [h])
    simp only [sink, write] at h
    split at h
    · cases h
    · obtain ⟨hn, rfl⟩ := Prod.mk.inj h
      obtain rfl := ErrorOr.value.inj hn
      refine ⟨⟨more ++ bytes.take _, (List.append_assoc ..), ?_, hout, Or.inr ⟨?_, rfl⟩⟩, ?_⟩
      · dsimp only
        rw [hflight, List.append_assoc]
      · simp only [List.length_append, List.length_take]
        omega
      · simp only [List.length_append, List.length_take]
        omega
  error := by
    intro t log bytes e t' hne hK h
    obtain ⟨more, rfl, hflight, hout, hin⟩ := hK
    simp only [sink, write] at h
    split at h
    · obtain ⟨-, rfl⟩ := Prod.mk.inj h
      exact ⟨⟨more, rfl, hflight, hout, hin⟩, rfl⟩
    · cases (Prod.mk.inj h).1

theorem source_keeps : (source k).Keeps (Emptied t₀ log₀) (fun t _ => t.inFlight = [])
    (fun _ log => log₀.length < log.length) where
  value := by
    intro t log length bytes t' hpos hK h
    obtain ⟨more, rfl, hflight, hin, hout⟩ := hK
    have hbound := (source k).bounded t length bytes hpos (by rw [h])
    simp only [source, read] at h
    split at h
    · cases h
    · obtain ⟨hn, rfl⟩ := Prod.mk.inj h
      obtain rfl := ErrorOr.value.inj hn
      refine ⟨⟨more ++ t.inFlight.take _, (List.append_assoc ..), ?_, hin, Or.inr ⟨?_, rfl, ?_⟩⟩, ?_⟩
      · dsimp only
        rw [hflight, List.append_assoc, List.take_append_drop]
      · simp only [List.length_append] at hbound ⊢
        omega
      · rcases hout with ⟨-, hno, hout⟩ | ⟨-, hno, hout⟩
        · rw [hno, hout]
        · rw [hno, hout, Bool.or_false]
      · simp only [List.length_append] at hbound ⊢
        omega
  error := by
    intro t log length e t' hpos hK h
    obtain ⟨more, rfl, hflight, hin, hout⟩ := hK
    simp only [source, read] at h
    split at h
    next hempty =>
      obtain ⟨-, rfl⟩ := Prod.mk.inj h
      exact ⟨⟨more, rfl, hflight, hin, hout⟩, hempty⟩
    next => cases (Prod.mk.inj h).1

theorem filled_refl : Filled t₀ log₀ t₀ log₀ :=
  ⟨[], (List.append_nil _).symm, (List.append_nil _).symm, rfl, Or.inl ⟨rfl, rfl⟩⟩

theorem emptied_refl : Emptied t₀ log₀ t₀ log₀ :=
  ⟨[], (List.append_nil _).symm, rfl, rfl, Or.inl ⟨rfl, rfl, rfl⟩⟩

end

end SocketPair

/-- The stream of both peers is the same socket. -/
structure Link (S : Schema) (c : Nat) where
  sender : SendingPeer (SocketPair c)
  receiver : ReceivingPeer S (SocketPair c)

inductive LinkOp (S : Schema) where
  | send (m : Message S) (small : (Wire.packetOf S m).length < 2 ^ 64)
  | writeReady
  | writeDone
  | readReady
  | readDone
  | dropChain

namespace Link

variable {S : Schema} {c : Nat}

def socket (l : Link S c) : SocketPair c := l.sender.out.stream

def afterWrite (l : Link S c) (s : SendingPeer (SocketPair c)) : Link S c :=
  ⟨s, { l.receiver with incoming := { l.receiver.incoming with stream := s.out.stream } }⟩

def afterRead (l : Link S c) (r : ReceivingPeer S (SocketPair c)) : Link S c :=
  ⟨{ l.sender with out := { l.sender.out with stream := r.incoming.stream } }, r⟩

/-- The event loop takes the report. -/
def takeOut (s : SendingPeer (SocketPair c)) : SendingPeer (SocketPair c) :=
  { s with out := { s.out with stream := { s.out.stream with epollOut := false } } }

def takeIn (r : ReceivingPeer S (SocketPair c)) : ReceivingPeer S (SocketPair c) :=
  { r with incoming := { r.incoming with stream := { r.incoming.stream with epollIn := false } } }

/-- A socket of capacity `c` between rings of `n` and `n'` bytes. -/
def new (k : Kernel) (c : Nat) (n : Nat) (h : n < 2 ^ 63) (n' : Nat) (h' : n' < 2 ^ 63) :
    Option (Link S c) := do
  let receiver ← ReceivingPeer.new (SocketPair.source k) n' h' (SocketPair.new c)
  return ⟨SendingPeer.new n h receiver.incoming.stream, receiver⟩

def step (hS : S.wellFormed) (k : Kernel) (l : Link S c) : LinkOp S → Option (Error × Link S c)
  | .send m small => do
    let (error, s) ← l.sender.send (SocketPair.sink k) ⟨S, m, hS, small⟩
    return (error, l.afterWrite s)
  | .writeReady => do return (noError, l.afterWrite (← (takeOut l.sender).writeReady (SocketPair.sink k)))
  | .writeDone => do return (noError, l.afterWrite (← l.sender.deliver (SocketPair.sink k)))
  | .readReady => do return (noError, l.afterRead (← (takeIn l.receiver).readReady (SocketPair.source k)))
  | .readDone => do return (noError, l.afterRead (← l.receiver.deliver (SocketPair.source k)))
  | .dropChain => return (noError, ⟨l.sender, l.receiver.dropChain⟩)

/-- There is something to deliver, by any step but a `send`. -/
def enabled (l : Link S c) : LinkOp S → Prop
  | .send _ _ => False
  | .writeReady => l.socket.epollOut = true
  | .writeDone => 0 < l.sender.completions
  | .readReady => l.socket.epollIn = true
  | .readDone => 0 < l.receiver.completions
  | .dropChain => True

def delivers : LinkOp S → Bool
  | .dropChain => false
  | _ => true

def quiet (l : Link S c) : Prop := ∀ op, delivers op = true → ¬ l.enabled op

/-- The work that is left: six units for a byte the socket has not taken, three for one it holds. -/
def rank (l : Link S c) : Nat :=
  6 * (l.sender.bytes.length - l.sender.out.handed.length) + 3 * l.socket.inFlight.length + l.socket.epollOut.toNat +
    l.socket.epollIn.toNat + l.sender.completions + l.receiver.completions

/-! ## The invariant -/

structure Inv (k : Kernel) (l : Link S c) : Prop where
  sender : SendingPeer.Inv l.sender
  receiver : ReceivingPeer.Inv (SocketPair.source k) l.receiver
  same : l.receiver.incoming.stream = l.socket
  handed : l.sender.out.handed = l.receiver.incoming.taken ++ l.socket.inFlight
  schema : ∀ p ∈ l.sender.sent, p.schema = S
  writer : l.sender.busy = true → l.socket.noSpace = true ∨ l.socket.epollOut = true
  reader : l.receiver.busy = true → l.socket.inFlight = [] ∨ l.socket.epollIn = true

theorem sending_withStream {τ : Type} {s : SendingPeer τ} (hs : SendingPeer.Inv s) (t : τ) :
    SendingPeer.Inv { s with out := { s.out with stream := t } } := by
  cases hs with
  | idle hempty hstepper hhanded => exact .idle hempty hstepper hhanded
  | writing task hsound hstepper hw =>
    exact .writing task hsound hstepper ⟨rfl, hw.buffer, hw.fits, hw.handed⟩
  | written result hstepper hw => exact .written result hstepper ⟨rfl, hw.2⟩

theorem receiving_withStream {τ : Type} {p : PartialSource τ} {r : ReceivingPeer S τ} (hr : ReceivingPeer.Inv p r)
    (t : τ) : ReceivingPeer.Inv p { r with incoming := { r.incoming with stream := t } } := by
  cases hr with
  | reading a max hR hmax hstepper hd => exact .reading a max hR hmax hstepper ⟨hd.packets, hd.stuck⟩
  | completed a max used data hR hstepper htaken hpos hle hmost hstored hd =>
    exact .completed a max used data hR hstepper htaken hpos hle hmost hstored ⟨hd.packets, hd.stuck⟩
  | failed used rest hfailure hsofar hu htask hstepper => exact .failed used rest hfailure hsofar hu htask hstepper

section
variable {k : Kernel} {l : Link S c} {t₀ : SocketPair c} {done : Nat}

theorem Inv.of_write (hl : Inv k l) (hflight : t₀.inFlight = l.socket.inFlight) (hin : t₀.epollIn = l.socket.epollIn)
    {s : SendingPeer (SocketPair c)} (hs : SendingPeer.Inv s) (hschema : ∀ p ∈ s.sent, p.schema = S)
    (hmoved : Moved (SocketPair.Filled t₀ l.sender.out.handed) (fun t _ => t.noSpace = true)
      (fun _ log => l.sender.out.handed.length < log.length) t₀ l.sender.out.handed done s.out.stream s.out.handed
      s.busy s.completions) : Inv k (l.afterWrite s) := by
  have hfilled : SocketPair.Filled t₀ l.sender.out.handed s.out.stream s.out.handed := by
    cases hmoved with
    | still hstream hlog _ _ => rw [hstream, hlog]; exact SocketPair.filled_refl _ _
    | waits hK _ _ _ => exact hK
    | done hK _ _ _ => exact hK
  obtain ⟨more, hlog, hmore, -, hraised⟩ := hfilled
  refine ⟨hs, receiving_withStream hl.receiver _, rfl, ?_, hschema, fun hbusy => ?_, fun hbusy => ?_⟩
  · show s.out.handed = l.receiver.incoming.taken ++ s.out.stream.inFlight
    rw [hlog, hl.handed, hmore, hflight, List.append_assoc]
  · cases hmoved with
    | still _ _ hb _ => exact absurd (hb.symm.trans hbusy) Bool.false_ne_true
    | waits _ hU _ _ => exact Or.inl hU
    | done _ _ hb _ => exact absurd (hb.symm.trans hbusy) Bool.false_ne_true
  · rcases hraised with ⟨rfl, hsame⟩ | ⟨-, hraised⟩
    · rw [List.append_nil] at hmore
      show s.out.stream.inFlight = [] ∨ s.out.stream.epollIn = true
      rw [hmore, hflight, hsame, hin]
      exact hl.reader hbusy
    · exact Or.inr hraised

theorem Inv.of_read (hl : Inv k l) (hflight : t₀.inFlight = l.socket.inFlight) (hno : t₀.noSpace = l.socket.noSpace)
    (hout : t₀.epollOut = l.socket.epollOut) {r : ReceivingPeer S (SocketPair c)}
    (hr : ReceivingPeer.Inv (SocketPair.source k) r)
    (hmoved : Moved (SocketPair.Emptied t₀ l.receiver.incoming.taken) (fun t _ => t.inFlight = [])
      (fun _ log => l.receiver.incoming.taken.length < log.length) t₀ l.receiver.incoming.taken done
      r.incoming.stream r.incoming.taken r.busy r.completions) : Inv k (l.afterRead r) := by
  have hemptied : SocketPair.Emptied t₀ l.receiver.incoming.taken r.incoming.stream r.incoming.taken := by
    cases hmoved with
    | still hstream hlog _ _ => rw [hstream, hlog]; exact SocketPair.emptied_refl _ _
    | waits hK _ _ _ => exact hK
    | done hK _ _ _ => exact hK
  obtain ⟨more, hlog, hmore, -, hroom⟩ := hemptied
  refine ⟨sending_withStream hl.sender _, hr, rfl, ?_, hl.schema, fun hbusy => ?_, fun hbusy => ?_⟩
  · show l.sender.out.handed = r.incoming.taken ++ r.incoming.stream.inFlight
    rw [hl.handed, hlog, List.append_assoc, ← hmore, hflight]
  · show r.incoming.stream.noSpace = true ∨ r.incoming.stream.epollOut = true
    have hwriter := hl.writer hbusy
    rw [← hno, ← hout] at hwriter
    rcases hroom with ⟨-, hno', hout'⟩ | ⟨-, -, hout'⟩
    · rw [hno', hout']
      exact hwriter
    · rw [hout', Bool.or_eq_true]
      exact Or.inr hwriter.symm
  · cases hmoved with
    | still _ _ hb _ => exact absurd (hb.symm.trans hbusy) Bool.false_ne_true
    | waits _ hU _ _ => exact Or.inl hU
    | done _ _ hb _ => exact absurd (hb.symm.trans hbusy) Bool.false_ne_true

/-! ## The work that is left -/

theorem rank_write (hflight : t₀.inFlight = l.socket.inFlight) (hin : t₀.epollIn = l.socket.epollIn)
    {s : SendingPeer (SocketPair c)} (hbytes : s.bytes = l.sender.bytes) (hsofar : s.out.handed <+: s.bytes)
    (hmoved : Moved (SocketPair.Filled t₀ l.sender.out.handed) (fun t _ => t.noSpace = true)
      (fun _ log => l.sender.out.handed.length < log.length) t₀ l.sender.out.handed done s.out.stream s.out.handed
      s.busy s.completions) :
    (l.afterWrite s).rank + l.socket.epollOut.toNat + l.sender.completions ≤ l.rank + t₀.epollOut.toNat + done := by
  have hle := hsofar.length_le
  have hsum : ∃ more : List UInt8, s.out.handed.length = l.sender.out.handed.length + more.length ∧
      s.out.stream.inFlight.length = l.socket.inFlight.length + more.length ∧
      s.out.stream.epollOut = t₀.epollOut ∧
      (s.out.stream.epollIn = l.socket.epollIn ∨ 0 < more.length) ∧
      (s.completions ≤ done ∨ s.completions ≤ done + 1 ∧ 0 < more.length) := by
    cases hmoved with
    | still hstream hlog _ hdone =>
      exact ⟨[], by rw [hlog]; rfl, by rw [hstream, hflight]; rfl, by rw [hstream], Or.inl (by rw [hstream, hin]),
        Or.inl hdone⟩
    | waits hK _ _ hdone =>
      obtain ⟨more, hlog, hmore, hout, hraised⟩ := hK
      refine ⟨more, by rw [hlog, List.length_append], by rw [hmore, hflight, List.length_append], hout, ?_, Or.inl hdone⟩
      exact hraised.imp (fun h => h.2.trans hin) fun h => h.1
    | done hK hV _ hdone =>
      obtain ⟨more, hlog, hmore, hout, hraised⟩ := hK
      refine ⟨more, by rw [hlog, List.length_append], by rw [hmore, hflight, List.length_append], hout, ?_,
        Or.inr ⟨hdone, ?_⟩⟩
      · exact hraised.imp (fun h => h.2.trans hin) fun h => h.1
      · rw [hlog, List.length_append] at hV
        omega
  obtain ⟨more, hhanded, hflying, hout, hraised, hdone⟩ := hsum
  have hbit := Bool.toNat_le s.out.stream.epollIn
  have hraised : s.out.stream.epollIn.toNat ≤ l.socket.epollIn.toNat ∨ 0 < more.length :=
    hraised.imp_left fun h => Nat.le_of_eq (by rw [h])
  show 6 * (s.bytes.length - s.out.handed.length) + 3 * s.out.stream.inFlight.length + s.out.stream.epollOut.toNat +
    s.out.stream.epollIn.toNat + s.completions + l.receiver.completions + _ + _ ≤ _
  unfold rank
  rw [hout, hflying, hhanded, hbytes]
  rw [hhanded, hbytes] at hle
  omega

theorem rank_read (hflight : t₀.inFlight = l.socket.inFlight) (hout : t₀.epollOut = l.socket.epollOut)
    {r : ReceivingPeer S (SocketPair c)}
    (hmoved : Moved (SocketPair.Emptied t₀ l.receiver.incoming.taken) (fun t _ => t.inFlight = [])
      (fun _ log => l.receiver.incoming.taken.length < log.length) t₀ l.receiver.incoming.taken done
      r.incoming.stream r.incoming.taken r.busy r.completions) :
    (l.afterRead r).rank + l.socket.epollIn.toNat + l.receiver.completions ≤ l.rank + t₀.epollIn.toNat + done := by
  have hsum : ∃ more : List UInt8, l.socket.inFlight.length = more.length + r.incoming.stream.inFlight.length ∧
      r.incoming.stream.epollIn = t₀.epollIn ∧
      (r.incoming.stream.epollOut = l.socket.epollOut ∨ 0 < more.length) ∧
      (r.completions ≤ done ∨ r.completions ≤ done + 1 ∧ 0 < more.length) := by
    cases hmoved with
    | still hstream _ _ hdone =>
      exact ⟨[], by rw [hstream, hflight, List.length_nil, Nat.zero_add], by rw [hstream],
        Or.inl (by rw [hstream, hout]), Or.inl hdone⟩
    | waits hK _ _ hdone =>
      obtain ⟨more, -, hmore, hin, hroom⟩ := hK
      refine ⟨more, by rw [← hflight, hmore, List.length_append], hin, ?_, Or.inl hdone⟩
      exact hroom.imp (fun h => h.2.2.trans hout) fun h => h.1
    | done hK hV _ hdone =>
      obtain ⟨more, hlog, hmore, hin, hroom⟩ := hK
      refine ⟨more, by rw [← hflight, hmore, List.length_append], hin, ?_, Or.inr ⟨hdone, ?_⟩⟩
      · exact hroom.imp (fun h => h.2.2.trans hout) fun h => h.1
      · rw [hlog, List.length_append] at hV
        omega
  obtain ⟨more, hflying, hin, hraised, hdone⟩ := hsum
  have hbit := Bool.toNat_le r.incoming.stream.epollOut
  have hraised : r.incoming.stream.epollOut.toNat ≤ l.socket.epollOut.toNat ∨ 0 < more.length :=
    hraised.imp_left fun h => Nat.le_of_eq (by rw [h])
  show 6 * (l.sender.bytes.length - l.sender.out.handed.length) + 3 * r.incoming.stream.inFlight.length +
    r.incoming.stream.epollOut.toNat + r.incoming.stream.epollIn.toNat + l.sender.completions + r.completions + _ + _ ≤ _
  unfold rank
  rw [hin, hflying]
  omega

end

/-! ## Steps -/

section
variable {l : Link S c} (hS : S.wellFormed) (k : Kernel)

theorem send_step (hl : Inv k l) (m : Message S) (small : (Wire.packetOf S m).length < 2 ^ 64) :
    ∃ e l', step hS k l (.send m small) = some (e, l') ∧ Inv k l' := by
  obtain ⟨e, s, hsend, hs⟩ := SendingPeer.send_inv (SocketPair.sink k) hl.sender ⟨S, m, hS, small⟩
  refine ⟨e, l.afterWrite s, by simp only [step, hsend, Option.bind_eq_bind, Option.bind_some, Option.pure_def], ?_⟩
  have hschema : ∀ p ∈ s.sent, p.schema = S := by
    rcases SendingPeer.send_sent hsend with ⟨hsent, -⟩ | ⟨hsent, -⟩
    · rw [hsent]
      exact hl.schema
    · rw [hsent]
      intro p hp
      rcases List.mem_append.mp hp with hp | hp
      · exact hl.schema p hp
      · rw [List.mem_singleton.mp hp]
  rcases SendingPeer.send_moved (SocketPair.sink_keeps k l.socket l.sender.out.handed)
      (SocketPair.filled_refl _ _) hsend with ⟨hstream, hlog, hstepper⟩ | hmoved
  · have hbusy : s.busy = l.sender.busy := by rw [SendingPeer.busy, SendingPeer.busy, hstepper]
    have hsocket : (l.afterWrite s).socket = l.socket := hstream
    refine ⟨hs, receiving_withStream hl.receiver _, rfl, ?_, hschema, fun hb => ?_, fun hb => ?_⟩
    · rw [hsocket]
      exact hlog.trans hl.handed
    · rw [hsocket]
      exact hl.writer (hbusy ▸ hb)
    · rw [hsocket]
      exact hl.reader hb
  · exact hl.of_write rfl rfl hs hschema hmoved

theorem writeReady_step (hl : Inv k l) : ∃ l', step hS k l .writeReady = some (noError, l') ∧ Inv k l' ∧
    l'.rank + l.socket.epollOut.toNat ≤ l.rank := by
  have hs₀ : SendingPeer.Inv (takeOut l.sender) := sending_withStream hl.sender _
  obtain ⟨s, hstep, hs⟩ := SendingPeer.writeReady_inv (SocketPair.sink k) hs₀
  have hmoved := SendingPeer.writeReady_moved (SocketPair.sink_keeps k (takeOut l.sender).out.stream
    l.sender.out.handed) hs₀ (SocketPair.filled_refl _ _) hstep
  have hsent := SendingPeer.writeReady_sent hstep
  have hsent : s.sent = l.sender.sent := hsent
  have hbytes : s.bytes = l.sender.bytes := by rw [SendingPeer.bytes, SendingPeer.bytes, hsent]
  have hflight : (takeOut l.sender).out.stream.inFlight = l.socket.inFlight := rfl
  have hin : (takeOut l.sender).out.stream.epollIn = l.socket.epollIn := rfl
  refine ⟨l.afterWrite s, by simp only [step, hstep, Option.bind_eq_bind, Option.bind_some, Option.pure_def],
    hl.of_write hflight hin hs (hsent ▸ hl.schema) hmoved, ?_⟩
  have hrank := rank_write (l := l) hflight hin hbytes hs.handed_sofar hmoved
  have hdone : (takeOut l.sender).completions = l.sender.completions := rfl
  have hout : (takeOut l.sender).out.stream.epollOut = false := rfl
  rw [hdone, hout, Bool.toNat_false] at hrank
  omega

theorem writeDone_step (hl : Inv k l) : ∃ l', step hS k l .writeDone = some (noError, l') ∧ Inv k l' ∧
    l'.rank + l.sender.completions ≤ l.rank := by
  obtain ⟨s, hstep, hs⟩ := SendingPeer.deliver_inv (SocketPair.sink k) hl.sender
  have hmoved := SendingPeer.deliver_moved (SocketPair.sink_keeps k l.socket l.sender.out.handed) hl.sender
    (SocketPair.filled_refl _ _) hstep
  have hsent : s.sent = l.sender.sent := SendingPeer.deliver_sent hstep
  have hbytes : s.bytes = l.sender.bytes := by rw [SendingPeer.bytes, SendingPeer.bytes, hsent]
  refine ⟨l.afterWrite s, by simp only [step, hstep, Option.bind_eq_bind, Option.bind_some, Option.pure_def], ?_⟩
  rcases hmoved with ⟨hnone, rfl⟩ | ⟨hone, hmoved⟩
  · have hself : l.afterWrite l.sender = l := by
      have hsame := hl.same
      unfold socket at hsame
      rw [afterWrite, ← hsame]
    rw [hself, hnone]
    exact ⟨hl, Nat.le_refl _⟩
  · refine ⟨hl.of_write rfl rfl hs (hsent ▸ hl.schema) hmoved, ?_⟩
    have hrank := rank_write (l := l) rfl rfl hbytes hs.handed_sofar hmoved
    unfold socket at hrank
    omega

theorem readReady_step (hl : Inv k l) : ∃ l', step hS k l .readReady = some (noError, l') ∧ Inv k l' ∧
    l'.rank + l.socket.epollIn.toNat ≤ l.rank := by
  have hr₀ : ReceivingPeer.Inv (SocketPair.source k) (takeIn l.receiver) := receiving_withStream hl.receiver _
  obtain ⟨r, hstep, hr, -⟩ := ReceivingPeer.readReady_inv (SocketPair.source k) hr₀
  have hmoved := ReceivingPeer.readReady_moved (SocketPair.source_keeps k (takeIn l.receiver).incoming.stream
    l.receiver.incoming.taken) hr₀ (SocketPair.emptied_refl _ _) hstep
  have hflight : (takeIn l.receiver).incoming.stream.inFlight = l.socket.inFlight := congrArg (·.inFlight) hl.same
  have hno : (takeIn l.receiver).incoming.stream.noSpace = l.socket.noSpace := congrArg (·.noSpace) hl.same
  have hout : (takeIn l.receiver).incoming.stream.epollOut = l.socket.epollOut := congrArg (·.epollOut) hl.same
  refine ⟨l.afterRead r, by simp only [step, hstep, Option.bind_eq_bind, Option.bind_some, Option.pure_def],
    hl.of_read hflight hno hout hr hmoved, ?_⟩
  have hrank := rank_read (l := l) hflight hout hmoved
  have hdone : (takeIn l.receiver).completions = l.receiver.completions := rfl
  have hin : (takeIn l.receiver).incoming.stream.epollIn = false := rfl
  rw [hdone, hin, Bool.toNat_false] at hrank
  omega

theorem readDone_step (hl : Inv k l) : ∃ l', step hS k l .readDone = some (noError, l') ∧ Inv k l' ∧
    l'.rank + l.receiver.completions ≤ l.rank := by
  obtain ⟨r, hstep, hr, -⟩ := ReceivingPeer.deliver_inv hS (SocketPair.source k) hl.receiver
  have hmoved := ReceivingPeer.deliver_moved (SocketPair.source_keeps k l.receiver.incoming.stream
    l.receiver.incoming.taken) hl.receiver (SocketPair.emptied_refl _ _) hstep
  refine ⟨l.afterRead r, by simp only [step, hstep, Option.bind_eq_bind, Option.bind_some, Option.pure_def], ?_⟩
  rcases hmoved with ⟨hnone, rfl⟩ | ⟨hone, hmoved⟩
  · have hself : l.afterRead l.receiver = l := by
      rw [afterRead, hl.same]
      rfl
    rw [hself, hnone]
    exact ⟨hl, Nat.le_refl _⟩
  · rw [hl.same] at hmoved
    refine ⟨hl.of_read rfl rfl rfl hr hmoved, ?_⟩
    have hrank := rank_read (l := l) rfl rfl hmoved
    unfold socket at hrank
    omega

theorem dropChain_step (hl : Inv k l) : ∃ l', step hS k l .dropChain = some (noError, l') ∧ Inv k l' ∧
    l'.rank ≤ l.rank := by
  have hstream : l.receiver.dropChain.incoming = l.receiver.incoming := by
    unfold ReceivingPeer.dropChain
    split <;> rfl
  have hbusy : l.receiver.dropChain.busy = l.receiver.busy := by
    unfold ReceivingPeer.dropChain
    split <;> rfl
  have hdone : l.receiver.dropChain.completions ≤ l.receiver.completions := by
    unfold ReceivingPeer.dropChain
    split
    · exact Nat.zero_le _
    · exact Nat.le_refl _
  refine ⟨_, rfl, ⟨hl.sender, ReceivingPeer.dropChain_inv hl.receiver, ?_, ?_, hl.schema, hl.writer, ?_⟩, ?_⟩
  · show l.receiver.dropChain.incoming.stream = l.socket
    rw [hstream]
    exact hl.same
  · show l.sender.out.handed = l.receiver.dropChain.incoming.taken ++ l.socket.inFlight
    rw [hstream]
    exact hl.handed
  · show l.receiver.dropChain.busy = true → l.socket.inFlight = [] ∨ l.socket.epollIn = true
    rw [hbusy]
    exact hl.reader
  · exact Nat.add_le_add_left hdone _

/-- **One step.** It goes through and keeps the invariant; a delivery uses up work. -/
theorem step_spec (hl : Inv k l) (op : LinkOp S) : ∃ e l', step hS k l op = some (e, l') ∧ Inv k l' ∧
    (l.enabled op → l'.rank + (delivers op).toNat ≤ l.rank) := by
  cases op with
  | send m small =>
    obtain ⟨e, l', hstep, hl'⟩ := send_step hS k hl m small
    exact ⟨e, l', hstep, hl', False.elim⟩
  | writeReady =>
    obtain ⟨l', hstep, hl', hrank⟩ := writeReady_step hS k hl
    refine ⟨noError, l', hstep, hl', fun henabled => ?_⟩
    have henabled : l.socket.epollOut = true := henabled
    rw [henabled] at hrank
    exact hrank
  | writeDone =>
    obtain ⟨l', hstep, hl', hrank⟩ := writeDone_step hS k hl
    refine ⟨noError, l', hstep, hl', fun henabled => Nat.le_trans (Nat.add_le_add_left henabled _) hrank⟩
  | readReady =>
    obtain ⟨l', hstep, hl', hrank⟩ := readReady_step hS k hl
    refine ⟨noError, l', hstep, hl', fun henabled => ?_⟩
    have henabled : l.socket.epollIn = true := henabled
    rw [henabled] at hrank
    exact hrank
  | readDone =>
    obtain ⟨l', hstep, hl', hrank⟩ := readDone_step hS k hl
    refine ⟨noError, l', hstep, hl', fun henabled => Nat.le_trans (Nat.add_le_add_left henabled _) hrank⟩
  | dropChain =>
    obtain ⟨l', hstep, hl', hrank⟩ := dropChain_step hS k hl
    exact ⟨noError, l', hstep, hl', fun _ => hrank⟩

end

/-! ## What arrives -/

theorem exists_messages : ∀ ps : List Packet, (∀ p ∈ ps, p.schema = S) → ∃ messages : List (Message S),
    ps.map Packet.value = messages.map (Sigma.mk S) ∧ ps.flatMap Packet.bytes = messages.flatMap (Wire.packetOf S) ∧
      ∀ m ∈ messages, (Wire.packetOf S m).length < 2 ^ 64
  | [], _ => ⟨[], rfl, rfl, fun _ hm => nomatch hm⟩
  | ⟨S', m, _, small⟩ :: ps, hps => by
    obtain ⟨messages, hvalues, hbytes, hsmall⟩ := exists_messages ps fun p hp => hps p (List.mem_cons_of_mem _ hp)
    obtain rfl : S' = S := hps _ (List.mem_cons_self ..)
    refine ⟨m :: messages, ?_, ?_, fun m' hm' => ?_⟩
    · rw [List.map_cons, List.map_cons, hvalues]
      rfl
    · rw [List.flatMap_cons, List.flatMap_cons, hbytes]
      rfl
    · rcases List.mem_cons.mp hm' with rfl | hm'
      · exact small
      · exact hsmall m' hm'

theorem body_small {m : Message S} (small : (Wire.packetOf S m).length < 2 ^ 64) : (Wire.body S m).length < 2 ^ 64 := by
  rw [Wire.length_packetOf] at small
  omega

theorem fed_first (hS : S.wellFormed) : ∀ (fed messages : List (Message S)) (rest : List UInt8),
    (∀ m ∈ fed, (Wire.body S m).length < 2 ^ 64) → (∀ m ∈ messages, (Wire.packetOf S m).length < 2 ^ 64) →
    fed.flatMap (Wire.packetOf S) ++ rest = messages.flatMap (Wire.packetOf S) →
    ∃ todo, messages = fed ++ todo ∧ rest = todo.flatMap (Wire.packetOf S)
  | [], messages, rest, _, _, h => ⟨messages, rfl, h⟩
  | m :: fed, [], rest, _, _, h => by
    have hlen := congrArg List.length h
    simp only [List.flatMap_cons, List.length_append, Wire.length_packetOf, List.flatMap_nil, List.length_nil] at hlen
    omega
  | m :: fed, m' :: messages, rest, hfed, hmessages, h => by
    rw [List.flatMap_cons, List.flatMap_cons, List.append_assoc] at h
    obtain ⟨rfl, hrest⟩ := Wire.packetOf_inj hS (hfed m (List.mem_cons_self ..))
      (body_small (hmessages m' (List.mem_cons_self ..))) h
    obtain ⟨todo, rfl, htodo⟩ := fed_first hS fed messages rest (fun m hm => hfed m (List.mem_cons_of_mem _ hm))
      (fun m hm => hmessages m (List.mem_cons_of_mem _ hm)) hrest
    exact ⟨todo, rfl, htodo⟩

theorem packet_whole (hS : S.wellFormed) {limit : Nat} {m : Message S} {rest : List UInt8}
    (hm : (Wire.body S m).length < 2 ^ 64) :
    (Wire.packet S limit).run (Wire.packetOf S m ++ rest) ≠ .error Wire.tooSmall := by
  intro herror
  by_cases hle : (Wire.body S m).length ≤ limit
  · cases herror.symm.trans ((Wire.packet_exact hS hm).mpr ⟨rfl, hle⟩)
  · have hk : (BitVec.ofNat 64 (Wire.body S m).length).toNat = (Wire.body S m).length := by
      rw [BitVec.toNat_ofNat, Nat.mod_eq_of_lt hm]
    have hnumber : (Wire.number 8).run (Wire.packetOf S m ++ rest) =
        .ok (BitVec.ofNat 64 (Wire.body S m).length, Wire.body S m ++ rest) := by
      refine (Wire.number_exact 8 _ _ _).mpr ?_
      rw [Wire.packetOf, leBits, hk, List.append_assoc]
    rcases Format.run_bind_error.mp herror with h | ⟨n, r, hn, h⟩
    · cases h.symm.trans hnumber
    · obtain ⟨rfl, rfl⟩ := Prod.mk.inj (Except.ok.inj (hn.symm.trans hnumber))
      rw [hk, if_pos (Nat.not_le.mp hle)] at h
      have hcode : (-1 : Int) = 1 := congrArg Error.code (Except.error.inj h)
      exact absurd hcode (by decide)

section
variable {l : Link S c} {k : Kernel} (hS : S.wellFormed)
include hS

theorem Inv.fed_sofar (hl : Inv k l) : l.receiver.fed.map (Sigma.mk S) <+: l.sender.sent.map Packet.value := by
  obtain ⟨messages, hvalues, hbytes, hsmall⟩ := exists_messages l.sender.sent hl.schema
  obtain ⟨used, rest, hsofar, hused, hfed⟩ := hl.receiver.sofar
  obtain ⟨more, hmore⟩ : used <+: l.sender.bytes := by
    refine (hsofar.trans ?_).trans hl.sender.handed_sofar
    rw [hl.handed]
    exact List.prefix_append _ _
  have hstream : l.sender.bytes = messages.flatMap (Wire.packetOf S) := hbytes
  rw [hused, List.append_assoc, hstream] at hmore
  obtain ⟨todo, rfl, -⟩ := fed_first hS _ _ _ hfed hsmall hmore
  rw [hvalues, List.map_append]
  exact List.prefix_append _ _

theorem Inv.fed_all (hc : 0 < c) (hl : Inv k l) (hquiet : l.quiet) (hfailure : l.receiver.failure = none) :
    l.receiver.fed.map (Sigma.mk S) = l.sender.sent.map Packet.value := by
  have hout : l.socket.epollOut ≠ true := hquiet .writeReady rfl
  have hin : l.socket.epollIn ≠ true := hquiet .readReady rfl
  have hsent : ¬ 0 < l.sender.completions := hquiet .writeDone rfl
  have hread : ¬ 0 < l.receiver.completions := hquiet .readDone rfl
  obtain ⟨messages, hvalues, hbytes, hsmall⟩ := exists_messages l.sender.sent hl.schema
  cases hl.receiver with
  | completed a max used data hR hstepper =>
    refine absurd ?_ hread
    rw [ReceivingPeer.completions, hstepper]
    exact Nat.one_pos
  | failed used rest hfailed => exact absurd hfailure hfailed
  | reading a max hR hmax hstepper hd =>
    have hbusy : l.receiver.busy = true := by rw [ReceivingPeer.busy, hstepper]; rfl
    have hempty : l.socket.inFlight = [] := (hl.reader hbusy).resolve_right hin
    have hidle : l.sender.busy ≠ true := fun hb => by
      have hfull := l.socket.full ((hl.writer hb).resolve_right hout)
      rw [hempty, List.length_nil] at hfull
      omega
    have hall : l.sender.out.handed = l.sender.bytes := by
      cases hl.sender with
      | idle _ _ hhanded => exact hhanded
      | writing task _ hstepper _ =>
        refine absurd ?_ hidle
        rw [SendingPeer.busy, hstepper]
        rfl
      | written result hstepper _ =>
        refine absurd ?_ hsent
        rw [SendingPeer.completions, hstepper]
        exact Nat.one_pos
    have htaken := hl.handed
    rw [hempty, List.append_nil, hall, hd.packets.1] at htaken
    have hstream : l.sender.bytes = messages.flatMap (Wire.packetOf S) := hbytes
    rw [hstream] at htaken
    obtain ⟨todo, rfl, hrest⟩ := fed_first hS _ _ _ hd.packets.2 hsmall htaken.symm
    cases todo with
    | nil => rw [hvalues, List.append_nil]
    | cons m todo =>
      obtain ⟨e, hstuck, he⟩ := hd.stuck
      obtain rfl := he hfailure
      rw [hrest, List.flatMap_cons] at hstuck
      refine absurd hstuck (packet_whole hS (body_small (hsmall m ?_)))
      exact List.mem_append_right _ (List.mem_cons_self ..)

omit hS in
theorem new_inv (k : Kernel) (c n : Nat) (h : n < 2 ^ 63) (n' : Nat) (h' : n' < 2 ^ 63) (hn : 0 < n') :
    ∃ l₀ : Link S c, new k c n h n' h' = some l₀ ∧ Inv k l₀ ∧ l₀.receiver.failure = none ∧
      l₀.receiver.incoming.inBuffer.size = n' ∧ l₀.sender.sent = [] := by
  obtain ⟨r, hr, hinv, hfailure, hsize⟩ := ReceivingPeer.new_inv (S := S) (SocketPair.source k) n' h' hn
    (SocketPair.new c)
  have hmoved := ReceivingPeer.read_moved (SocketPair.source_keeps k (SocketPair.new c) [])
    (SocketPair.emptied_refl _ _) hr
  have hnothing : r.incoming.taken = [] ∧ r.incoming.stream.inFlight = [] := by
    cases hmoved with
    | still hstream hlog _ _ => exact ⟨hlog, congrArg (·.inFlight) hstream⟩
    | waits hK _ _ _ =>
      obtain ⟨more, hlog, hmore, -⟩ := hK
      obtain ⟨rfl, hempty⟩ := List.append_eq_nil_iff.mp hmore.symm
      exact ⟨hlog, hempty⟩
    | done hK _ _ _ =>
      obtain ⟨more, hlog, hmore, -⟩ := hK
      obtain ⟨rfl, hempty⟩ := List.append_eq_nil_iff.mp hmore.symm
      exact ⟨hlog, hempty⟩
  have hl₀ : Inv k ⟨SendingPeer.new n h r.incoming.stream, r⟩ := by
    refine ⟨SendingPeer.new_inv n h _, hinv, rfl, ?_, ?_, ?_, fun _ => Or.inl hnothing.2⟩
    · show [] = r.incoming.taken ++ r.incoming.stream.inFlight
      rw [hnothing.1, hnothing.2]
      rfl
    · intro p hp
      cases hp
    · intro hbusy
      cases hbusy
  exact ⟨_, by simp only [new, hr, Option.bind_eq_bind, Option.bind_some, Option.pure_def], hl₀, hfailure, hsize, rfl⟩

theorem delivers_bounded (k : Kernel) : ∀ (ops : List (LinkOp S)) (l : Link S c), Inv k l →
    Run.Along (step hS k) enabled l ops → ops.countP delivers ≤ l.rank
  | [], _, _, _ => Nat.zero_le _
  | op :: ops, l, hl, hops => by
    obtain ⟨e, l', hstep, hl', hrank⟩ := step_spec hS k hl op
    have hrest := delivers_bounded k ops l' hl' (hops.2 e l' hstep)
    have hrank := hrank hops.1
    have hcount : (op :: ops).countP delivers = ops.countP delivers + (delivers op).toNat := by
      cases hd : delivers op with
      | true => rw [List.countP_cons_of_pos hd, Bool.toNat_true]
      | false => rw [List.countP_cons_of_neg (by rw [hd]; exact Bool.false_ne_true), Bool.toNat_false, Nat.add_zero]
    omega

/-- **Messages arrive.** Whatever the capacities are and however sends, reports and completions are interleaved, no
assert fails and what was fed is the beginning of what was sent. From there on only so many deliveries can be made, in
any order; and when there is none left to make, everything sent has been fed, or the receiver has reported an error. -/
theorem messages_arrive (k : Kernel) (c : Nat) (hc : 0 < c) (n : Nat) (h : n < 2 ^ 63) (n' : Nat) (h' : n' < 2 ^ 63)
    (hn : 0 < n') (ops : List (LinkOp S)) :
    ∃ (l₀ : Link S c) (errors : List Error) (l : Link S c), new k c n h n' h' = some l₀ ∧
      Run.exec (step hS k) l₀ ops = some (errors, l) ∧
      l.receiver.fed.map (Sigma.mk S) <+: l.sender.sent.map Packet.value ∧
      (∀ more, Run.Along (step hS k) enabled l more → more.countP delivers ≤ l.rank) ∧
      (l.quiet → l.receiver.failure = none →
        l.receiver.fed.map (Sigma.mk S) = l.sender.sent.map Packet.value) := by
  obtain ⟨l₀, hnew, hl₀, -⟩ := new_inv k c n h n' h' hn
  have hstep : ∀ (l : Link S c) (op : LinkOp S), Inv k l → True →
      ∃ e l', step hS k l op = some (e, l') ∧ Inv k l' := by
    intro l op hl _
    obtain ⟨e, l', hstep, hl', -⟩ := step_spec hS k hl op
    exact ⟨e, l', hstep, hl'⟩
  obtain ⟨errors, l, hrun, hl⟩ := Run.exec_invariant (Inv k) (fun _ _ => True) hstep ops l₀ hl₀ (Run.along_true ops _)
  exact ⟨l₀, errors, l, hnew, hrun, hl.fed_sofar hS, fun more hmore => delivers_bounded hS k more l hl hmore,
    fun hquiet hfailure => hl.fed_all hS hc hquiet hfailure⟩

omit hS in
theorem quiet_iff : l.quiet ↔ l.socket.epollOut = false ∧ l.sender.completions = 0 ∧ l.socket.epollIn = false ∧
    l.receiver.completions = 0 := by
  constructor
  · intro h
    refine ⟨Bool.eq_false_iff.mpr (h .writeReady rfl), Nat.eq_zero_of_not_pos (h .writeDone rfl),
      Bool.eq_false_iff.mpr (h .readReady rfl), Nat.eq_zero_of_not_pos (h .readDone rfl)⟩
  · intro h op _ hop
    obtain ⟨hout, hwritten, hin, hread⟩ := h
    cases op with
    | send m small => exact hop
    | writeReady => exact Bool.eq_false_iff.mp hout hop
    | writeDone => exact Nat.ne_of_gt hop hwritten
    | readReady => exact Bool.eq_false_iff.mp hin hop
    | readDone => exact Nat.ne_of_gt hop hread
    | dropChain => contradiction

instance (l : Link S c) : Decidable l.quiet := decidable_of_iff _ quiet_iff.symm

def uneven : Kernel := ⟨fun calls => 3 + calls % 4, fun calls => 5 - calls % 3, fun _ => true⟩

def round : List (LinkOp (.primitive .uint8)) := [.readReady, .readDone, .writeReady, .writeDone]

omit hS in
theorem byte_small (v : BitVec 8) : (Wire.packetOf (.primitive .uint8) v).length < 2 ^ 64 := by
  have hlen := Wire.length_packetOf (.primitive .uint8) v
  rw [hlen, show (Wire.body (.primitive .uint8) v).length = 1 from rfl]
  decide

def sendByte (v : BitVec 8) : LinkOp (.primitive .uint8) := .send v (byte_small v)

/-- Three packets of nine bytes go through a socket that holds six. -/
def threeBytes : List (LinkOp (.primitive .uint8)) :=
  sendByte 7 :: sendByte 8 :: round ++ sendByte 9 :: (List.replicate 6 round).flatten

omit hS in
theorem messages_arrive_threeBytes : ∃ (l₀ : Link (.primitive .uint8) 6) (errors : List Error)
    (l : Link (.primitive .uint8) 6), new uneven 6 24 (by decide) 15 (by decide) = some l₀ ∧
      Run.exec (step rfl uneven) l₀ threeBytes = some (errors, l) ∧ l.quiet ∧
      l.receiver.fed = [(7 : BitVec 8), (8 : BitVec 8), (9 : BitVec 8)] ∧
      l.receiver.fed.map (Sigma.mk (.primitive .uint8)) = l.sender.sent.map Packet.value := by
  obtain ⟨l₀, errors, l, hnew, hrun, -, -, hall⟩ := messages_arrive (S := .primitive .uint8) rfl uneven 6
    (by decide) 24 (by decide) 15 (by decide) (by decide) threeBytes
  have hend : ((new uneven 6 24 (by decide) 15 (by decide)).bind fun l => (Run.exec (step rfl uneven) l threeBytes).map
      fun r => (decide r.2.quiet, r.2.receiver.failure.isNone, (r.2.receiver.fed : List (BitVec 8)))) =
      some (true, true, [7, 8, 9]) := by decide +kernel
  rw [hnew, Option.bind_some, hrun] at hend
  obtain ⟨hquiet, hend⟩ := Prod.mk.inj (Option.some.inj hend)
  obtain ⟨hfailure, hfed⟩ := Prod.mk.inj hend
  have hquiet := of_decide_eq_true hquiet
  exact ⟨l₀, errors, l, hnew, hrun, hquiet, hfed, hall hquiet (Option.isNone_iff_eq_none.mp hfailure)⟩

/-! ## Rings with room to spare -/

omit hS in
/-- The packets are of `M` bytes at most. -/
def fits (M : Nat) : LinkOp S → Prop
  | .send m _ => (Wire.packetOf S m).length ≤ M
  | _ => True

/-- The receiver has not failed, and what was sent cannot make it fail. -/
structure Roomy (k : Kernel) (n' M : Nat) (l : Link S c) : Prop where
  inv : Inv k l
  failure : l.receiver.failure = none
  size : l.receiver.incoming.inBuffer.size = n'
  short : ∀ p ∈ l.sender.sent, p.bytes.length ≤ M

theorem Roomy.not_fails {n' M : Nat} (hM : M ≤ 8 + ProtoKelCodec.defaultPacketSize) (hroom : M + c ≤ n')
    (hl : Roomy k n' M l) : ¬ ReceivingPeer.Fails (SocketPair.source k) l.receiver := by
  rintro ⟨used, data, htaken, hpos, hmost, hd, hfails⟩
  have hmost : data.length ≤ c := hmost
  obtain ⟨messages, hvalues, hbytes, hsmall⟩ := exists_messages l.sender.sent hl.inv.schema
  have hshort : ∀ m ∈ messages, (Wire.packetOf S m).length ≤ M := by
    intro m hm
    have hvalue : (⟨S, m⟩ : (S : Schema) × Message S) ∈ l.sender.sent.map Packet.value :=
      hvalues ▸ List.mem_map_of_mem hm
    obtain ⟨⟨S', m', wf, small⟩, hp, hv⟩ := List.mem_map.mp hvalue
    cases hv
    exact hl.short _ hp
  have hlimit : ∀ m ∈ messages, (Wire.body S m).length < 2 ^ 64 ∧
      (Wire.body S m).length ≤ ProtoKelCodec.defaultPacketSize := by
    intro m hm
    have hle := hshort m hm
    rw [Wire.length_packetOf] at hle
    exact ⟨body_small (hsmall m hm), by omega⟩
  obtain ⟨future, hfuture⟩ : ∃ future, used ++ data ++ future = messages.flatMap (Wire.packetOf S) := by
    obtain ⟨more, hmore⟩ := hl.inv.sender.handed_sofar
    refine ⟨l.socket.inFlight ++ more, ?_⟩
    rw [← htaken, ← List.append_assoc, ← hl.inv.handed, hmore]
    exact hbytes
  obtain ⟨e, hstuck, he⟩ := hd.stuck
  obtain rfl := he hl.failure
  rcases hfails with hfull | ⟨fed, rest, e, hpackets, hrun, hcritical⟩
  · have hstream := hfuture
    rw [hd.packets.1, List.append_assoc, List.append_assoc] at hstream
    obtain ⟨todo, rfl, htodo⟩ := fed_first hS _ _ _ hd.packets.2 hsmall hstream
    cases todo with
    | nil =>
      have hnil := congrArg List.length htodo
      simp only [List.length_append, List.flatMap_nil, List.length_nil] at hnil
      omega
    | cons m todo =>
      have hm : m ∈ l.receiver.fed ++ m :: todo := List.mem_append_right _ (List.mem_cons_self ..)
      -- the next packet is not there as a whole
      have hpart : (readable l.receiver.incoming.inBuffer).length < (Wire.packetOf S m).length := by
        by_contra hge
        have hprefix : Wire.packetOf S m <+: readable l.receiver.incoming.inBuffer := by
          have hfirst : Wire.packetOf S m <+: (m :: todo).flatMap (Wire.packetOf S) := by
            rw [List.flatMap_cons]
            exact List.prefix_append _ _
          exact List.prefix_of_prefix_length_le hfirst ⟨_, htodo⟩ (Nat.not_lt.mp hge)
        obtain ⟨rest, hrest⟩ := hprefix
        rw [← hrest] at hstuck
        exact packet_whole hS (hlimit m hm).1 hstuck
      have hle := hshort m hm
      have hsize := hl.size
      omega
  · have hstream := hfuture
    rw [hpackets.1, List.append_assoc] at hstream
    obtain ⟨todo, rfl, htodo⟩ := fed_first hS _ _ _ hpackets.2 hsmall hstream
    obtain rfl := Peer.stream_short hS hrun (fun m hm => hlimit m (List.mem_append_right _ hm)) htodo
    cases hcritical

theorem Roomy.step {n' M : Nat} (hM : M ≤ 8 + ProtoKelCodec.defaultPacketSize) (hroom : M + c ≤ n')
    (hl : Roomy k n' M l) (op : LinkOp S) (hop : fits M op) :
    ∃ e l', step hS k l op = some (e, l') ∧ Roomy k n' M l' := by
  obtain ⟨e, l', hstep, hl', -⟩ := step_spec hS k hl.inv op
  refine ⟨e, l', hstep, ?_⟩
  cases op with
  | send m small =>
    obtain ⟨⟨e', s⟩, hsend, hrest⟩ := Option.bind_eq_some_iff.mp hstep
    obtain ⟨-, rfl⟩ := Prod.mk.inj (Option.some.inj hrest)
    refine ⟨hl', hl.failure, hl.size, fun p hp => ?_⟩
    have hp : p ∈ s.sent := hp
    rcases SendingPeer.send_sent hsend with ⟨hsent, -⟩ | ⟨hsent, -⟩
    · exact hl.short p (hsent ▸ hp)
    · rw [hsent] at hp
      rcases List.mem_append.mp hp with hp | hp
      · exact hl.short p hp
      · rw [List.mem_singleton.mp hp]
        exact hop
  | writeReady =>
    obtain ⟨s, hwrite, hrest⟩ := Option.bind_eq_some_iff.mp hstep
    obtain ⟨-, rfl⟩ := Prod.mk.inj (Option.some.inj hrest)
    have hsent := SendingPeer.writeReady_sent hwrite
    exact ⟨hl', hl.failure, hl.size, fun p hp => hl.short p (hsent ▸ hp)⟩
  | writeDone =>
    obtain ⟨s, hwrite, hrest⟩ := Option.bind_eq_some_iff.mp hstep
    obtain ⟨-, rfl⟩ := Prod.mk.inj (Option.some.inj hrest)
    have hsent := SendingPeer.deliver_sent hwrite
    exact ⟨hl', hl.failure, hl.size, fun p hp => hl.short p (hsent ▸ hp)⟩
  | readReady =>
    obtain ⟨r, hread, hrest⟩ := Option.bind_eq_some_iff.mp hstep
    obtain ⟨-, rfl⟩ := Prod.mk.inj (Option.some.inj hrest)
    obtain ⟨r', hread', -, hfailure, hsize⟩ := ReceivingPeer.readReady_inv (SocketPair.source k) (r := takeIn l.receiver)
      (receiving_withStream hl.inv.receiver _)
    obtain rfl := Option.some.inj (hread.symm.trans hread')
    exact ⟨hl', hfailure.trans hl.failure, hsize.trans hl.size, hl.short⟩
  | readDone =>
    obtain ⟨r, hread, hrest⟩ := Option.bind_eq_some_iff.mp hstep
    obtain ⟨-, rfl⟩ := Prod.mk.inj (Option.some.inj hrest)
    obtain ⟨r', hread', -, hsize, hfailure⟩ := ReceivingPeer.deliver_inv hS (SocketPair.source k) hl.inv.receiver
    obtain rfl := Option.some.inj (hread.symm.trans hread')
    exact ⟨hl', (hfailure.resolve_right (hl.not_fails hS hM hroom)).trans hl.failure, hsize.trans hl.size, hl.short⟩
  | dropChain =>
    obtain ⟨-, rfl⟩ := Prod.mk.inj (Option.some.inj hstep)
    have hsame : l.receiver.dropChain = l.receiver := by
      rw [ReceivingPeer.dropChain, hl.failure]
      rfl
    refine ⟨hl', ?_, ?_, hl.short⟩
    · rw [hsame]
      exact hl.failure
    · rw [hsame]
      exact hl.size

/-- **A roomy ring never fails.** If the receiving ring has room for what the socket holds and one more packet, and
packets are within the codec's limit, then the receiver reports no error and everything arrives. -/
theorem roomy_arrives (k : Kernel) (c : Nat) (hc : 0 < c) (n : Nat) (h : n < 2 ^ 63) (n' : Nat) (h' : n' < 2 ^ 63)
    (M : Nat) (hM : M ≤ 8 + ProtoKelCodec.defaultPacketSize) (hroom : M + c ≤ n') (ops : List (LinkOp S))
    (hops : ∀ op ∈ ops, fits M op) :
    ∃ (l₀ : Link S c) (errors : List Error) (l : Link S c), new k c n h n' h' = some l₀ ∧
      Run.exec (Link.step hS k) l₀ ops = some (errors, l) ∧ l.receiver.failure = none ∧
      (l.quiet → l.receiver.fed.map (Sigma.mk S) = l.sender.sent.map Packet.value) := by
  obtain ⟨l₀, hnew, hl₀, hfailure, hsize, hsent⟩ := new_inv k c n h n' h' (S := S) (by omega)
  have hroomy : Roomy k n' M l₀ := ⟨hl₀, hfailure, hsize, fun p hp => by rw [hsent] at hp; cases hp⟩
  obtain ⟨errors, l, hrun, hl⟩ := Run.exec_invariant (Roomy k n' M) (fun _ op => fits M op)
    (fun l op hl hop => hl.step hS hM hroom op hop) ops l₀ hroomy (Run.along_of_forall ops l₀ hops)
  exact ⟨l₀, errors, l, hnew, hrun, hl.failure, fun hquiet => hl.inv.fed_all hS hc hquiet hl.failure⟩

omit hS in
instance (M : Nat) : ∀ op : LinkOp S, Decidable (fits M op)
  | .send m _ => inferInstanceAs (Decidable ((Wire.packetOf S m).length ≤ M))
  | .writeReady => isTrue trivial
  | .writeDone => isTrue trivial
  | .readReady => isTrue trivial
  | .readDone => isTrue trivial
  | .dropChain => isTrue trivial

omit hS in
/-- The receiving ring is as small as it may be. -/
theorem roomy_arrives_threeBytes : ∃ (l₀ : Link (.primitive .uint8) 6) (errors : List Error)
    (l : Link (.primitive .uint8) 6), new uneven 6 24 (by decide) 15 (by decide) = some l₀ ∧
      Run.exec (Link.step rfl uneven) l₀ threeBytes = some (errors, l) ∧ l.receiver.failure = none ∧ l.quiet ∧
      l.sender.sent.length = 3 ∧
      l.receiver.fed.map (Sigma.mk (.primitive .uint8)) = l.sender.sent.map Packet.value := by
  obtain ⟨l₀, errors, l, hnew, hrun, hfailure, hall⟩ := roomy_arrives (S := .primitive .uint8) rfl uneven 6
    (by decide) 24 (by decide) 15 (by decide) 9 (by decide) (by decide) threeBytes (by decide)
  have hend : ((new uneven 6 24 (by decide) 15 (by decide)).bind fun l => (Run.exec (Link.step rfl uneven) l
      threeBytes).map fun r => (decide r.2.quiet, r.2.sender.sent.length)) = some (true, 3) := by decide +kernel
  rw [hnew, Option.bind_some, hrun] at hend
  obtain ⟨hquiet, hsent⟩ := Prod.mk.inj (Option.some.inj hend)
  have hquiet := of_decide_eq_true hquiet
  exact ⟨l₀, errors, l, hnew, hrun, hfailure, hquiet, hsent, hall hquiet⟩

end

end Link

end Forstio
