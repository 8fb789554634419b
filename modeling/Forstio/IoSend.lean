import Forstio.IoHelpers
import Forstio.PacketFifo

/-!
# The sending side of a streaming peer

`send` encodes a packet into the outgoing ring and starts writing if nothing
was there before. A write is for the first segment of the ring; when its
completion is delivered, the callback takes these bytes out of the ring and
writes the next segment. Sending may come in between at any time.

While there is anything in the ring, one write is under way: a task, or a
completion that is not yet delivered. What the stream has taken and what is
still to be written make up the packets.
-/

namespace Forstio

open Buffer

/-- A stream that takes a part of what it is given, or nothing for now. -/
structure PartialStream (τ : Type) where
  write : τ → List UInt8 → ErrorOr Nat × τ
  bounded : ∀ t bytes n, bytes ≠ [] → (write t bytes).1 = .value n → 1 ≤ n ∧ n ≤ bytes.length
  recoverable : ∀ t bytes e, (write t bytes).1 = .error e → e.isRecoverable = true

/-- The ring that is written from and the stream; `handed` logs what the stream has taken. -/
structure Outgoing (τ : Type) where
  outBuffer : RingBuffer
  stream : τ
  handed : List UInt8

namespace PartialStream

variable {τ : Type}

def toOutputStream (p : PartialStream τ) : OutputStream (Outgoing τ) where
  write s buffer length := do
    let bytes ← s.outBuffer.load buffer length
    match p.write s.stream bytes with
    | (.value n, stream) => return (.value n, { s with stream, handed := s.handed ++ bytes.take n })
    | (.error e, stream) => return (.error e, { s with stream })

end PartialStream

/-- `StreamingIoPeer` with what it needs to send; `sent` logs the packets of successful calls. -/
structure SendingPeer (τ : Type) where
  writeStepper : WriteTaskAndStepHelper
  out : Outgoing τ
  sent : List Packet

inductive SendOp where
  | send (p : Packet)
  | writeReady
  | deliver

namespace SendingPeer

variable {τ : Type}

def new (n : Nat) (h : n < 2 ^ 63) (stream : τ) : SendingPeer τ :=
  ⟨⟨none, some []⟩, ⟨RingBuffer.new n h, stream, []⟩, []⟩

/-- `io_stream->write(&out_buffer.read(), out_buffer.readSegmentLength())`. -/
def write (p : PartialStream τ) (s : SendingPeer τ) : Option (SendingPeer τ) := do
  let buffer ← s.out.outBuffer.read 0
  let length ← s.out.outBuffer.readSegmentLength 0
  let (writeStepper, out) ← AsyncIoStream.write p.toOutputStream s.writeStepper s.out buffer length
  return { s with writeStepper, out }

def send (p : PartialStream τ) (s : SendingPeer τ) (msg : Packet) : Option (Error × SendingPeer τ) := do
  let restartWrite := decide ((← s.out.outBuffer.readSegmentLength 0) = 0)
  let (error, _, outBuffer) ← ProtoKelCodec.encode msg.schema msg.message s.out.outBuffer
  if error.failed then return (error, { s with out := { s.out with outBuffer } })
  else
    let s := { s with out := { s.out with outBuffer }, sent := s.sent ++ [msg] }
    if restartWrite then return (noError, ← s.write p) else return (noError, s)

def writeReady (p : PartialStream τ) (s : SendingPeer τ) : Option (SendingPeer τ) := do
  let (writeStepper, out) ← s.writeStepper.writeStep p.toOutputStream s.out
  return { s with writeStepper, out }

def writeDone (p : PartialStream τ) (s : SendingPeer τ) (bytes : Nat) : Option (SendingPeer τ) := do
  let outBuffer ← s.out.outBuffer.readAdvance bytes
  let s := { s with out := { s.out with outBuffer } }
  if outBuffer.readCompositeLength > 0 then s.write p else return s

def deliver (p : PartialStream τ) (s : SendingPeer τ) : Option (SendingPeer τ) :=
  match s.writeStepper.writeDone with
  | some (.value bytes :: rest) =>
    writeDone p { s with writeStepper := { s.writeStepper with writeDone := some rest } } bytes
  | some (.error _ :: rest) => some { s with writeStepper := { s.writeStepper with writeDone := some rest } }
  | _ => some s

def step (p : PartialStream τ) (s : SendingPeer τ) : SendOp → Option (Error × SendingPeer τ)
  | .send msg => s.send p msg
  | .writeReady => do return (noError, ← s.writeReady p)
  | .deliver => do return (noError, ← s.deliver p)

def bytes (s : SendingPeer τ) : List UInt8 := s.sent.flatMap Packet.bytes

def inProgress (s : SendingPeer τ) : Nat :=
  s.writeStepper.writeTask.toList.length + (s.writeStepper.writeDone.getD []).length

/-! ## The first segment of the ring -/

section
variable {b b' : RingBuffer}

def segment (b : RingBuffer) : Nat := min b.readCompositeLength (b.size - b.readPosition)

theorem readSegmentLength_zero (b : RingBuffer) : b.readSegmentLength 0 = some (segment b) := by
  have hr := b.read_lt_size
  have hw := b.wrap_cases b.readPosition
  rw [b.readSegmentLength_eq (Nat.zero_le _), segment, Nat.sub_zero, Nat.add_zero]
  congr 2
  omega

theorem segment_pos (h : 0 < b.readCompositeLength) : 0 < segment b := by
  have hr := b.read_lt_size
  have hle := b.readCompositeLength_le
  unfold segment
  omega

theorem read_zero (h : 0 < b.readCompositeLength) : b.read 0 = some b.readPosition := by
  have hr := b.read_lt_size
  have hle := b.readCompositeLength_le
  have hw := b.wrap_of_lt (p := b.readPosition) (by omega)
  simp only [RingBuffer.read, assert_pos h, Nat.add_zero, hw, Option.bind_eq_bind, Option.bind_some, Option.pure_def]

theorem load_segment {j k : Nat} (hk : 0 < k) (h : j + k ≤ segment b) :
    b.load (b.readPosition + j) k = some (Memory.slice (readable b) j k) := by
  have hr := b.read_lt_size
  unfold segment at h
  have hw := b.wrap_of_lt (p := b.readPosition + j) (by omega)
  have hj : j < b.readCompositeLength := by omega
  obtain ⟨s, a, hs, -, -, ha, hload⟩ := ReadLaws.readSegment (b := b) trivial (i := j)
    (by rw [RingBuffer.length_readable]; exact hj)
  have hs : b.readSegmentLength j = some s := hs
  have ha : b.read j = some a := ha
  rw [b.readSegmentLength_eq hj.le, hw] at hs
  simp only [RingBuffer.read, assert_pos hj, hw, Option.bind_eq_bind, Option.bind_some, Option.pure_def] at ha
  obtain rfl := Option.some.inj ha
  have hs := Option.some.inj hs
  exact hload k (by omega)

theorem encode_cases (b : RingBuffer) (msg : Packet) :
    (∃ b', ProtoKelCodec.encode msg.schema msg.message b = some (noError, msg.message, b') ∧ b'.size = b.size ∧
      b'.readPosition = b.readPosition ∧ readable b' = readable b ++ msg.bytes) ∨
    ProtoKelCodec.encode msg.schema msg.message b = some (recoverableError "Buffer too small", msg.message, b) := by
  by_cases hfit : msg.bytes.length ≤ (writable b).length
  · obtain ⟨b', h, -, hw, ho, hframe⟩ := ProtoKelCodec.encode_fits msg.wellFormed (b := b) trivial hfit
    have hr : readable b' = readable b ++ msg.bytes := ho
    have hw : writable b' = (writable b).drop msg.bytes.length := hw
    refine Or.inl ⟨b', h, ?_, hframe, hr⟩
    rw [RingBuffer.size_eq, RingBuffer.size_eq b, hr, hw, List.length_append, List.length_drop]
    omega
  · exact Or.inr (ProtoKelCodec.encode_full trivial msg.small (Nat.not_le.mp hfit))

theorem segment_mono (hsize : b'.size = b.size) (hpos : b'.readPosition = b.readPosition)
    {bytes : List UInt8} (hr : readable b' = readable b ++ bytes) : segment b ≤ segment b' := by
  have hlen := congrArg List.length hr
  rw [List.length_append, RingBuffer.length_readable, RingBuffer.length_readable] at hlen
  unfold segment
  omega

end

/-! ## One write -/

/-- The task is for bytes of the first segment, and what it has written so far was handed over:
the stream still has to take the rest of the ring. -/
structure Writing (b : RingBuffer) (bytes : List UInt8) (task : WriteIoTask) (out : Outgoing τ) : Prop where
  outBuffer : out.outBuffer = b
  buffer : task.buffer = b.readPosition + task.alreadyWritten
  fits : task.alreadyWritten + task.length ≤ segment b
  handed : out.handed ++ (readable b).drop task.alreadyWritten = bytes

def Written (b : RingBuffer) (bytes : List UInt8) (result : ErrorOr Nat) (out : Outgoing τ) : Prop :=
  out.outBuffer = b ∧ ∃ n, result = .value n ∧ 0 < n ∧ n ≤ b.readCompositeLength ∧
    out.handed ++ (readable b).drop n = bytes

section
variable {b : RingBuffer} {bytes : List UInt8}

theorem writing_rule (p : PartialStream τ) (b : RingBuffer) (bytes : List UInt8) :
    WriteRule p.toOutputStream (Writing b bytes) (Writing b bytes) (Written b bytes) := by
  intro task out htask hI
  obtain ⟨rfl, hbuffer, hfits, hhanded⟩ := hI
  have hpos := htask.pos
  have hseg : segment out.outBuffer ≤ out.outBuffer.readCompositeLength := Nat.min_le_left _ _
  have hload := load_segment htask.pos hfits
  rw [← hbuffer] at hload
  obtain ⟨chunk, hchunk⟩ : ∃ chunk, chunk = Memory.slice (readable out.outBuffer) task.alreadyWritten task.length :=
    ⟨_, rfl⟩
  rw [← hchunk] at hload
  have hlen : chunk.length = task.length := by
    rw [hchunk, Memory.length_slice]
    rw [RingBuffer.length_readable]
    omega
  have hne : chunk ≠ [] := List.length_pos_iff.mp (by omega)
  rcases hanswer : p.write out.stream chunk with ⟨e | n, stream⟩
  · have hrec := p.recoverable out.stream chunk e (by rw [hanswer])
    refine Or.inr ⟨e, { out with stream }, ?_, fun hc => ?_, fun _ => ⟨rfl, hbuffer, hfits, hhanded⟩⟩
    · simp only [PartialStream.toOutputStream, hload, hanswer, Option.bind_eq_bind, Option.bind_some, Option.pure_def]
    · simp only [Error.isRecoverable, Error.isCritical, decide_eq_true_eq] at hrec hc
      omega
  · obtain ⟨hn, hle⟩ := p.bounded out.stream chunk n hne (by rw [hanswer])
    rw [hlen] at hle
    -- the taken bytes are the next ones of the ring
    have htaken : out.handed ++ chunk.take n ++ (readable out.outBuffer).drop (task.alreadyWritten + n) = bytes := by
      have hslice : chunk.take n = ((readable out.outBuffer).drop task.alreadyWritten).take n := by
        rw [hchunk, Memory.slice, List.take_take, Nat.min_eq_left hle]
      rw [hslice, ← List.drop_drop, List.append_assoc, List.take_append_drop, hhanded]
    refine Or.inl ⟨n, { out with stream, handed := out.handed ++ chunk.take n }, ?_, hn, hle, fun hall => ?_,
      fun hlt => ?_⟩
    · simp only [PartialStream.toOutputStream, hload, hanswer, Option.bind_eq_bind, Option.bind_some, Option.pure_def]
    · refine ⟨rfl, n + task.alreadyWritten, rfl, by omega, by omega, ?_⟩
      rw [Nat.add_comm]
      exact htaken
    · rw [WriteIoTask.advance_eq htask hlt]
      refine ⟨rfl, ?_, ?_, htaken⟩
      · dsimp only
        omega
      · dsimp only
        omega

end

/-! ## The invariant -/

inductive Inv (s : SendingPeer τ) : Prop
  | idle (empty : s.out.outBuffer.readCompositeLength = 0) (stepper : s.writeStepper = ⟨none, some []⟩)
      (handed : s.out.handed = s.bytes)
  | writing (task : WriteIoTask) (sound : task.Sound) (stepper : s.writeStepper = ⟨some task, some []⟩)
      (write : Writing s.out.outBuffer s.bytes task s.out)
  | written (result : ErrorOr Nat) (stepper : s.writeStepper = ⟨none, some [result]⟩)
      (write : Written s.out.outBuffer s.bytes result s.out)

theorem new_inv (n : Nat) (h : n < 2 ^ 63) (stream : τ) : Inv (new n h stream) :=
  .idle (RingBuffer.new_represents n h).readCompositeLength rfl rfl

section
variable {p : PartialStream τ} {s : SendingPeer τ}

theorem Inv.of_settled {h : WriteTaskAndStepHelper} {out : Outgoing τ}
    (hsettled : WriteTaskAndStepHelper.Settled (Writing s.out.outBuffer s.bytes) (Written s.out.outBuffer s.bytes)
      ⟨none, some []⟩ h out) : Inv { s with writeStepper := h, out } := by
  rcases hsettled with ⟨task, htask, rfl, hwriting⟩ | ⟨result, rfl, hwritten⟩
  · refine .writing task htask rfl ?_
    rw [hwriting.outBuffer]
    exact hwriting
  · refine .written result rfl ?_
    rw [hwritten.1]
    exact hwritten

theorem write_inv (p : PartialStream τ) (hidle : s.writeStepper = ⟨none, some []⟩)
    (hpos : 0 < s.out.outBuffer.readCompositeLength) (hhanded : s.out.handed ++ readable s.out.outBuffer = s.bytes) :
    ∃ s', s.write p = some s' ∧ Inv s' := by
  have hseg := segment_pos hpos
  have hsmall := s.out.outBuffer.small
  have hle : segment s.out.outBuffer ≤ s.out.outBuffer.buffer.length :=
    Nat.le_trans (Nat.min_le_left _ _) s.out.outBuffer.readCompositeLength_le
  obtain ⟨h, out, hwrite, hsettled⟩ := AsyncIoStream.write_rule (writing_rule p s.out.outBuffer s.bytes)
    (h := s.writeStepper) (by rw [hidle]) (s := s.out) s.out.outBuffer.readPosition
    (segment s.out.outBuffer) ⟨hseg, by dsimp only; omega⟩ ⟨rfl, rfl, by dsimp only; omega, hhanded⟩
  rw [hidle] at hsettled
  refine ⟨{ s with writeStepper := h, out }, ?_, .of_settled hsettled⟩
  simp only [write, read_zero hpos, readSegmentLength_zero, hwrite, Option.bind_eq_bind, Option.bind_some,
    Option.pure_def]

theorem writeReady_inv (p : PartialStream τ) (hs : Inv s) : ∃ s', s.writeReady p = some s' ∧ Inv s' := by
  cases hs with
  | idle hempty hstepper hhanded =>
    have hstep : s.writeStepper.writeStep p.toOutputStream s.out = some (s.writeStepper, s.out) :=
      WriteTaskAndStepHelper.writeStep_idle (by rw [hstepper]) _
    refine ⟨s, ?_, .idle hempty hstepper hhanded⟩
    simp only [writeReady, hstep, Option.bind_eq_bind, Option.bind_some, Option.pure_def]
  | writing task htask hstepper hwriting =>
    obtain ⟨h, out, hstep, hsettled⟩ := WriteTaskAndStepHelper.writeStep_rule
      (writing_rule p s.out.outBuffer s.bytes) (h := ⟨none, some []⟩) htask hwriting
    refine ⟨{ s with writeStepper := h, out }, ?_, .of_settled hsettled⟩
    simp only [writeReady, hstepper, hstep, Option.bind_eq_bind, Option.bind_some, Option.pure_def]
  | written result hstepper hwritten =>
    have hstep : s.writeStepper.writeStep p.toOutputStream s.out = some (s.writeStepper, s.out) :=
      WriteTaskAndStepHelper.writeStep_idle (by rw [hstepper]) _
    refine ⟨s, ?_, .written result hstepper hwritten⟩
    simp only [writeReady, hstep, Option.bind_eq_bind, Option.bind_some, Option.pure_def]

theorem deliver_inv (p : PartialStream τ) (hs : Inv s) : ∃ s', s.deliver p = some s' ∧ Inv s' := by
  cases hs with
  | idle hempty hstepper hhanded =>
    exact ⟨s, by simp only [deliver, hstepper], .idle hempty hstepper hhanded⟩
  | writing task htask hstepper hwriting =>
    exact ⟨s, by simp only [deliver, hstepper], .writing task htask hstepper hwriting⟩
  | written result hstepper hwritten =>
    obtain ⟨-, n, rfl, hn, hle, hhanded⟩ := hwritten
    obtain ⟨b, hadvance, -, hr, -⟩ := ReadLaws.readAdvance_eq (b := s.out.outBuffer) trivial (k := n)
      (by rw [RingBuffer.length_readable]; exact hle)
    have hadvance : s.out.outBuffer.readAdvance n = some b := hadvance
    rw [← hr] at hhanded
    obtain ⟨s₁, hs₁⟩ : ∃ s₁ : SendingPeer τ, s₁ = ⟨⟨none, some []⟩, { s.out with outBuffer := b }, s.sent⟩ := ⟨_, rfl⟩
    have hdeliver : s.deliver p = if b.readCompositeLength > 0 then s₁.write p else some s₁ := by
      simp only [deliver, writeDone, hstepper, hadvance, Option.bind_eq_bind, Option.bind_some, Option.pure_def, hs₁]
    by_cases hpos : b.readCompositeLength > 0
    · rw [hdeliver, if_pos hpos]
      exact write_inv p (s := s₁) (by rw [hs₁]) (by rw [hs₁]; exact hpos) (by rw [hs₁]; exact hhanded)
    · rw [hdeliver, if_neg hpos]
      have hempty : b.readCompositeLength = 0 := Nat.eq_zero_of_not_pos hpos
      have hnil : readable b = [] := List.eq_nil_of_length_eq_zero (by rw [RingBuffer.length_readable]; exact hempty)
      rw [hnil, List.append_nil] at hhanded
      exact ⟨s₁, rfl, .idle (by rw [hs₁]; exact hempty) (by rw [hs₁]) (by rw [hs₁]; exact hhanded)⟩

theorem Writing.encode {b b' : RingBuffer} {bytes more : List UInt8} {task : WriteIoTask} {out : Outgoing τ}
    (hw : Writing b bytes task out) (hsize : b'.size = b.size) (hpos : b'.readPosition = b.readPosition)
    (hr : readable b' = readable b ++ more) : Writing b' (bytes ++ more) task { out with outBuffer := b' } := by
  have hle : segment b ≤ b.readCompositeLength := Nat.min_le_left _ _
  have hfits := hw.fits
  refine ⟨rfl, hpos ▸ hw.buffer, Nat.le_trans hw.fits (segment_mono hsize hpos hr), ?_⟩
  rw [hr, List.drop_append_of_le_length (by rw [RingBuffer.length_readable]; omega), ← List.append_assoc, hw.handed]

theorem Written.encode {b b' : RingBuffer} {bytes more : List UInt8} {result : ErrorOr Nat} {out : Outgoing τ}
    (hw : Written b bytes result out) (hr : readable b' = readable b ++ more) :
    Written b' (bytes ++ more) result { out with outBuffer := b' } := by
  obtain ⟨-, n, rfl, hn, hle, hhanded⟩ := hw
  have hlen := congrArg List.length hr
  rw [List.length_append, RingBuffer.length_readable, RingBuffer.length_readable] at hlen
  refine ⟨rfl, n, rfl, hn, by omega, ?_⟩
  rw [hr, List.drop_append_of_le_length (by rw [RingBuffer.length_readable]; exact hle), ← List.append_assoc, hhanded]

theorem send_inv (p : PartialStream τ) (hs : Inv s) (msg : Packet) :
    ∃ error s', s.send p msg = some (error, s') ∧ Inv s' := by
  rcases encode_cases s.out.outBuffer msg with ⟨b, hencode, hsize, hpos, hr⟩ | hencode
  · obtain ⟨s₁, hs₁⟩ : ∃ s₁ : SendingPeer τ,
        s₁ = { s with out := { s.out with outBuffer := b }, sent := s.sent ++ [msg] } := ⟨_, rfl⟩
    have hsend : s.send p msg = if segment s.out.outBuffer = 0 then
        (s₁.write p).bind fun s' => some (noError, s') else some (noError, s₁) := by
      simp only [send, readSegmentLength_zero, hencode, Option.bind_eq_bind, Option.bind_some, noError_failed,
        Bool.false_eq_true, if_false, decide_eq_true_eq, Option.pure_def, hs₁]
    have hbytes : s₁.bytes = s.bytes ++ msg.bytes := by
      simp only [hs₁, bytes, List.flatMap_append, List.flatMap_singleton]
    cases hs with
    | idle hempty hstepper hhanded =>
      have hnil : readable s.out.outBuffer = [] :=
        List.eq_nil_of_length_eq_zero (by rw [RingBuffer.length_readable]; exact hempty)
      have hpacket : 0 < b.readCompositeLength := by
        have hlen : msg.bytes.length = 8 + (Wire.body msg.schema msg.message).length := Wire.length_packetOf _ _
        rw [← RingBuffer.length_readable, hr, List.length_append]
        omega
      have hsegment : segment s.out.outBuffer = 0 := by rw [segment, hempty, Nat.zero_min]
      obtain ⟨s', hwrite, hinv⟩ := write_inv p (s := s₁) (by rw [hs₁]; exact hstepper) (by rw [hs₁]; exact hpacket)
        (by rw [hbytes, hs₁, ← hhanded]; exact congrArg (s.out.handed ++ ·) (by rw [hr, hnil, List.nil_append]))
      exact ⟨noError, s', by rw [hsend, if_pos hsegment, hwrite]; rfl, hinv⟩
    | writing task htask hstepper hwriting =>
      have hfits := hwriting.fits
      have htaskpos := htask.pos
      refine ⟨noError, s₁, by rw [hsend, if_neg (by omega)], .writing task htask (by rw [hs₁]; exact hstepper) ?_⟩
      rw [hbytes, hs₁]
      exact hwriting.encode hsize hpos hr
    | written result hstepper hwritten =>
      obtain ⟨-, n, -, hn, hle, -⟩ := id hwritten
      have hseg := segment_pos (b := s.out.outBuffer) (by omega)
      refine ⟨noError, s₁, by rw [hsend, if_neg (by omega)], .written result (by rw [hs₁]; exact hstepper) ?_⟩
      rw [hbytes, hs₁]
      exact hwritten.encode hr
  · refine ⟨recoverableError "Buffer too small", s, ?_, hs⟩
    simp only [send, readSegmentLength_zero, hencode, Option.bind_eq_bind, Option.bind_some, recoverableError_failed,
      if_true, Option.pure_def]

theorem step_inv (p : PartialStream τ) (hs : Inv s) (op : SendOp) :
    ∃ error s', s.step p op = some (error, s') ∧ Inv s' := by
  cases op with
  | send msg => exact send_inv p hs msg
  | writeReady =>
    obtain ⟨s', h, hinv⟩ := writeReady_inv p hs
    exact ⟨noError, s', by simp only [step, h, Option.bind_eq_bind, Option.bind_some, Option.pure_def], hinv⟩
  | deliver =>
    obtain ⟨s', h, hinv⟩ := deliver_inv p hs
    exact ⟨noError, s', by simp only [step, h, Option.bind_eq_bind, Option.bind_some, Option.pure_def], hinv⟩

/-! ## What the invariant says -/

theorem Inv.inProgress_eq (hs : Inv s) : s.inProgress = if s.out.outBuffer.readCompositeLength = 0 then 0 else 1 := by
  cases hs with
  | idle hempty hstepper _ => rw [inProgress, hstepper, if_pos hempty]; rfl
  | writing task htask hstepper hwriting =>
    have hpos := htask.pos
    have hfits := hwriting.fits
    have hle : segment s.out.outBuffer ≤ s.out.outBuffer.readCompositeLength := Nat.min_le_left _ _
    rw [inProgress, hstepper, if_neg (by omega)]
    rfl
  | written result hstepper hwritten =>
    obtain ⟨-, n, -, hn, hle, -⟩ := hwritten
    rw [inProgress, hstepper, if_neg (by omega)]
    rfl

theorem Inv.handed_sofar (hs : Inv s) : s.out.handed <+: s.bytes := by
  cases hs with
  | idle _ _ hhanded => exact hhanded ▸ List.prefix_refl _
  | writing _ _ _ hwriting => exact ⟨_, hwriting.handed⟩
  | written _ _ hwritten =>
    obtain ⟨-, n, -, -, -, hhanded⟩ := hwritten
    exact ⟨_, hhanded⟩

theorem Inv.handed_all (hs : Inv s) (hempty : s.out.outBuffer.readCompositeLength = 0) : s.out.handed = s.bytes := by
  have hprogress := hs.inProgress_eq
  rw [if_pos hempty] at hprogress
  cases hs with
  | idle _ _ hhanded => exact hhanded
  | writing _ _ hstepper _ => rw [inProgress, hstepper] at hprogress; cases hprogress
  | written _ hstepper _ => rw [inProgress, hstepper] at hprogress; cases hprogress

end

/-- **Sending is first in, first out.** Whatever the stream takes at a time and however sending, writing and the
delivery of completions are interleaved, no assert fails; what the stream has taken is the beginning of the packets
sent, and all of it once the ring is empty; one write is under way exactly as long as it is not. -/
theorem send_is_fifo (p : PartialStream τ) (stream : τ) (n : Nat) (h : n < 2 ^ 63) (ops : List SendOp) :
    ∃ errors s, Run.exec (step p) (new n h stream) ops = some (errors, s) ∧ s.out.handed <+: s.bytes ∧
      (s.inProgress = 1 ↔ 0 < s.out.outBuffer.readCompositeLength) ∧ s.inProgress ≤ 1 ∧
      (s.out.outBuffer.readCompositeLength = 0 → s.out.handed = s.bytes) := by
  obtain ⟨errors, s, hrun, hs⟩ := Run.exec_invariant Inv (fun _ _ => True) (fun _ op hs _ => step_inv p hs op) ops
    (new n h stream) (new_inv n h stream) (Run.along_true ops _)
  have hprogress := hs.inProgress_eq
  refine ⟨errors, s, hrun, hs.handed_sofar, ?_, ?_, hs.handed_all⟩
  · split at hprogress <;> omega
  · split at hprogress <;> omega

def oneByte : PartialStream Unit where
  write _ _ := (.value 1, ())
  bounded _ bytes n hne h := by
    obtain rfl : 1 = n := ErrorOr.value.inj h
    exact ⟨Nat.le_refl 1, List.length_pos_iff.mpr hne⟩
  recoverable _ _ _ h := nomatch h

theorem send_is_fifo_oneByte : ∃ errors s, Run.exec (step oneByte) (new 16 (by decide) ())
    [.send Channel.samplePacket, .send Channel.samplePacket, .deliver] = some (errors, s) ∧
      s.out.handed <+: s.bytes := by
  obtain ⟨errors, s, hrun, hfifo, -⟩ := send_is_fifo oneByte () 16 (by decide)
    [.send Channel.samplePacket, .send Channel.samplePacket, .deliver]
  exact ⟨errors, s, hrun, hfifo⟩

end SendingPeer

end Forstio
