import Forstio.IoHelpers
import Forstio.IoPeer

/-!
# The receiving side over a stream

The callback of `readDone()` issues the next read before it decodes, so the
stream may put bytes behind the ring's contents while packets are still taken
off its front; their completion waits in `read_done` until the event loop runs
the callback again. A critical error is the end: the sink drops the chain with
the callback in a later turn.

Whatever the stream gave was used for the messages fed, is left in the ring, or
lies behind it for a completion that is still to be delivered.
-/

namespace Forstio

open Buffer

/-- A stream that gives some of the bytes it is asked for, at most `most` at a time, or nothing for now. -/
structure PartialSource (τ : Type) where
  read : τ → Nat → ErrorOr (List UInt8) × τ
  most : Nat
  bounded : ∀ t length bytes, 0 < length → (read t length).1 = .value bytes →
    1 ≤ bytes.length ∧ bytes.length ≤ length ∧ bytes.length ≤ most
  recoverable : ∀ t length e, (read t length).1 = .error e → e.isRecoverable = true

/-- The ring that is read into and the stream; `taken` logs what the stream has given. -/
structure Incoming (τ : Type) where
  inBuffer : RingBuffer
  stream : τ
  taken : List UInt8

namespace PartialSource

variable {τ : Type}

def toInputStream (p : PartialSource τ) : InputStream (Incoming τ) where
  read s buffer length :=
    match p.read s.stream length with
    | (.value bytes, stream) => do
      let inBuffer ← s.inBuffer.store buffer bytes
      return (.value bytes.length, { inBuffer, stream, taken := s.taken ++ bytes })
    | (.error e, stream) => return (.error e, { s with stream })

end PartialSource

/-- `StreamingIoPeer` with what it needs to receive; `failure` is the first error of the callback. -/
structure ReceivingPeer (S : Schema) (τ : Type) where
  readStepper : ReadTaskAndStepHelper
  incoming : Incoming τ
  fed : List (Message S)
  failure : Option Error

namespace ReceivingPeer

variable {S : Schema} {τ : Type}

/-- `io_stream->read(&in_buffer.write(), 1, in_buffer.writeSegmentLength())`. -/
def read (p : PartialSource τ) (r : ReceivingPeer S τ) : Option (ReceivingPeer S τ) := do
  let buffer ← r.incoming.inBuffer.write 0
  let maxLength ← r.incoming.inBuffer.writeSegmentLength 0
  let (readStepper, incoming) ← AsyncIoStream.read p.toInputStream r.readStepper r.incoming buffer 1 maxLength
  return { r with readStepper, incoming }

/-- The constructor has asked for `readDone()` and issues the first read. -/
def new (p : PartialSource τ) (n : Nat) (h : n < 2 ^ 63) (stream : τ) : Option (ReceivingPeer S τ) :=
  read p ⟨⟨none, some [], none⟩, ⟨RingBuffer.new n h, stream, []⟩, [], none⟩

def fail (r : ReceivingPeer S τ) (e : Error) : ReceivingPeer S τ := { r with failure := r.failure.or (some e) }

/-- The callback of `readDone()`. -/
def readDone (p : PartialSource τ) (r : ReceivingPeer S τ) (bytes : Nat) : Option (ReceivingPeer S τ) := do
  let inBuffer ← r.incoming.inBuffer.writeAdvance bytes
  let r := { r with incoming := { r.incoming with inBuffer } }
  if (← inBuffer.writeSegmentLength 0) = 0 then return r.fail (criticalError "Message too long")
  else
    let r ← r.read p
    let (ms, error, inBuffer) ← ProtoKelCodec.drain S ProtoKelCodec.defaultPacketSize
      (r.incoming.inBuffer.readCompositeLength + 1) r.incoming.inBuffer
    let r := { r with incoming := { r.incoming with inBuffer }, fed := r.fed ++ ms }
    return if error.isCritical then r.fail error else r

def readReady (p : PartialSource τ) (r : ReceivingPeer S τ) : Option (ReceivingPeer S τ) := do
  let (readStepper, incoming) ← r.readStepper.readStep p.toInputStream r.incoming
  return { r with readStepper, incoming }

def deliver (p : PartialSource τ) (r : ReceivingPeer S τ) : Option (ReceivingPeer S τ) :=
  match r.readStepper.readDone with
  | some (.value bytes :: rest) =>
    readDone p { r with readStepper := { r.readStepper with readDone := some rest } } bytes
  | some (.error _ :: rest) => some { r with readStepper := { r.readStepper with readDone := some rest } }
  | _ => some r

/-- `SinkConveyorNode::fire`, once a critical error has armed the sink: the chain is gone with the node
that `read_done` feeds. -/
def dropChain (r : ReceivingPeer S τ) : ReceivingPeer S τ :=
  if r.failure.isSome then { r with readStepper := { r.readStepper with readDone := none } } else r

/-! ## One read -/

section
variable {b b' : RingBuffer} {a max : Nat} {data : List UInt8}

theorem store_self :
    b.store a data = some b ↔ a + data.length ≤ b.size ∧ Memory.overwrite b.buffer a data = b.buffer := by
  constructor
  · intro h
    have hfits : a + data.length ≤ b.size := by
      by_contra hno
      rw [RingBuffer.store, dif_neg hno] at h
      cases h
    obtain ⟨b₁, h₁, hbuf, -⟩ := RingBuffer.store_fields data hfits
    obtain rfl := Option.some.inj (h₁.symm.trans h)
    exact ⟨hfits, hbuf.symm⟩
  · intro hself
    obtain ⟨hfits, hsame⟩ := hself
    obtain ⟨b₁, h₁, hbuf, hr, -, -⟩ := RingBuffer.store_fields data hfits
    have hlen := (RingBuffer.store_length hfits h₁).2
    rw [h₁, RingBuffer.eq_of_buffer (hbuf.trans hsame) hlen (Or.inl hr)]

theorem store_frame (h : b.store a data = some b) (hf : ReadFrame b b') : b'.store a data = some b' := by
  obtain ⟨hfits, hsame⟩ := store_self.mp h
  refine store_self.mpr ⟨?_, ?_⟩
  · rw [RingBuffer.size, hf.1]
    exact hfits
  · rw [hf.1]
    exact hsame

theorem store_requested (hR : Peer.Requested b (a, max)) (h1 : 1 ≤ data.length) (hmax : data.length ≤ max) :
    ∃ b', b.store a data = some b' ∧ b'.store a data = some b' ∧ readable b' = readable b ∧ b'.size = b.size ∧
      Peer.Requested b' (a, max) := by
  obtain ⟨b', b₂, h, -, -, -⟩ := Peer.store_advance hR h1 hmax
  have hfits : a + data.length ≤ b.size := by
    by_contra hno
    rw [RingBuffer.store, dif_neg hno] at h
    cases h
  obtain ⟨b₁, h₁, hbuf, hr, hw, hf⟩ := RingBuffer.store_fields data hfits
  obtain rfl : b₁ = b' := Option.some.inj (h₁.symm.trans h)
  obtain ⟨hsize, hread⟩ := RingBuffer.store_length hfits h
  have hwrite : b₁.writeCompositeLength = b.writeCompositeLength := by
    rw [RingBuffer.writeCompositeLength_eq_sub, RingBuffer.writeCompositeLength_eq_sub, hsize, hread]
  have hwrap (i : Nat) : b₁.wrap i = b.wrap i := by rw [RingBuffer.wrap, RingBuffer.wrap, hsize]
  obtain ⟨ha, hpos, s, hs, hle⟩ := hR
  refine ⟨b₁, h, store_self.mpr ⟨by omega, ?_⟩, ?_, hsize, ?_, by omega, s, ?_, hle⟩
  · rw [hbuf, Memory.overwrite_twice hfits]
  · obtain ⟨s', a', hs', -, hfit, ha', hst⟩ :=
      WriteLaws.writeSegment (b := b) trivial (i := 0) (by rw [Peer.length_free]; exact hpos)
    obtain rfl : s = s' := Option.some.inj (hs.symm.trans hs')
    obtain rfl : a = a' := Option.some.inj (ha.symm.trans ha')
    obtain ⟨b₃, h₃, -, -, ho, -⟩ := hst data (by omega)
    obtain rfl : b₁ = b₃ := Option.some.inj (h.symm.trans h₃)
    exact ho
  · simp only [RingBuffer.write, hwrite, hwrap, hw]
    exact ha
  · simp only [RingBuffer.writeSegmentLength, hwrite, hwrap, hw, hr, hf, hsize]
    exact hs

end

/-! ## The invariant -/

def Asked (b : RingBuffer) (taken : List UInt8) (a max : Nat) (task : ReadIoTask) (i : Incoming τ) : Prop :=
  task = ⟨a, 1, max, 0⟩ ∧ i.inBuffer = b ∧ i.taken = taken

def Got (p : PartialSource τ) (b : RingBuffer) (taken : List UInt8) (a max : Nat) (result : ErrorOr Nat)
    (i : Incoming τ) : Prop :=
  ∃ data, result = .value data.length ∧ 1 ≤ data.length ∧ data.length ≤ max ∧ data.length ≤ p.most ∧
    i.taken = taken ++ data ∧
    i.inBuffer.store a data = some i.inBuffer ∧ readable i.inBuffer = readable b ∧ i.inBuffer.size = b.size ∧
    Peer.Requested i.inBuffer (a, max)

theorem reading_rule (p : PartialSource τ) {b : RingBuffer} {taken : List UInt8} {a max : Nat}
    (hR : Peer.Requested b (a, max)) :
    ReadRule p.toInputStream (Asked b taken a max) (Asked b taken a max) (Got p b taken a max) := by
  intro task i htask hI
  obtain ⟨rfl, rfl, rfl⟩ := hI
  have hpos : 0 < max := Nat.lt_of_lt_of_le htask.pos htask.le
  rcases hanswer : p.read i.stream max with ⟨e | bytes, stream⟩
  · have hrec := p.recoverable i.stream max e (by rw [hanswer])
    refine Or.inr ⟨e, { i with stream }, ?_, fun hc => ?_, fun _ => ⟨rfl, rfl, rfl⟩⟩
    · simp only [PartialSource.toInputStream, hanswer, Option.pure_def]
    · simp only [Error.isRecoverable, Error.isCritical, decide_eq_true_eq] at hrec hc
      omega
  · obtain ⟨h1, hle, hmost⟩ := p.bounded i.stream max bytes hpos (by rw [hanswer])
    obtain ⟨b', hstore, hself, hr, hsize, hR'⟩ := store_requested hR h1 hle
    refine Or.inl ⟨bytes.length, ⟨b', stream, i.taken ++ bytes⟩, ?_, h1, hle, fun _ => ?_, fun hlt => ?_⟩
    · simp only [PartialSource.toInputStream, hanswer, hstore, Option.bind_eq_bind, Option.bind_some, Option.pure_def]
    · exact ⟨bytes, rfl, h1, hle, hmost, rfl, hself, hr, hsize, hR'⟩
    · exact absurd h1 (Nat.not_le.mpr hlt)

/-- The bytes are the packets of the messages fed and a rest. -/
def Packets (S : Schema) (used : List UInt8) (fed : List (Message S)) (rest : List UInt8) : Prop :=
  used = fed.flatMap (Wire.packetOf S) ++ rest ∧ ∀ m ∈ fed, (Wire.body S m).length < 2 ^ 64

structure Decoded (r : ReceivingPeer S τ) (used : List UInt8) : Prop where
  packets : Packets S used r.fed (readable r.incoming.inBuffer)
  stuck : ∃ e, (Wire.packet S ProtoKelCodec.defaultPacketSize).run (readable r.incoming.inBuffer) = .error e ∧
    (r.failure = none → e = Wire.tooSmall)

/-- A read is out, or its completion is to be delivered, or there is nothing left to do after a failure. -/
inductive Inv (p : PartialSource τ) (r : ReceivingPeer S τ) : Prop
  | reading (a max : Nat) (requested : Peer.Requested r.incoming.inBuffer (a, max)) (pos : 1 ≤ max)
      (stepper : r.readStepper = ⟨some ⟨a, 1, max, 0⟩, some [], none⟩) (decoded : Decoded r r.incoming.taken)
  | completed (a max : Nat) (used data : List UInt8) (requested : Peer.Requested r.incoming.inBuffer (a, max))
      (stepper : r.readStepper = ⟨none, some [.value data.length], none⟩) (taken : r.incoming.taken = used ++ data)
      (pos : 1 ≤ data.length) (le : data.length ≤ max) (most : data.length ≤ p.most)
      (stored : r.incoming.inBuffer.store a data = some r.incoming.inBuffer) (decoded : Decoded r used)
  | failed (used rest : List UInt8) (failure : r.failure ≠ none) (sofar : used <+: r.incoming.taken)
      (packets : Packets S used r.fed rest)
      (task : r.readStepper.readTask = none ∨ ∃ a max, r.readStepper.readTask = some ⟨a, 1, max, 0⟩ ∧
        1 ≤ max ∧ Peer.Requested r.incoming.inBuffer (a, max))
      (stepper : r.readStepper.readDone = none ∨ r.readStepper = ⟨none, some [], none⟩)

section
variable {p : PartialSource τ} {r : ReceivingPeer S τ}

theorem sound_task {b : RingBuffer} {a max : Nat} (hR : Peer.Requested b (a, max)) (hmax : 1 ≤ max) :
    ReadIoTask.Sound ⟨a, 1, max, 0⟩ := by
  obtain ⟨-, hpos, s, hs, hle⟩ := hR
  have hsmall := b.small
  have hw := b.writeCompositeLength_le
  rw [RingBuffer.writeSegmentLength_eq b hpos] at hs
  have hs := Option.some.inj hs
  refine ⟨Nat.one_pos, hmax, ?_⟩
  unfold RingBuffer.size at hw
  dsimp only at hle ⊢
  omega

theorem Inv.of_settled {a max : Nat} {h : ReadTaskAndStepHelper} {i : Incoming τ}
    (hR : Peer.Requested r.incoming.inBuffer (a, max)) (hd : Decoded r r.incoming.taken)
    (hsettled : ReadTaskAndStepHelper.Settled (Asked r.incoming.inBuffer r.incoming.taken a max)
      (Got p r.incoming.inBuffer r.incoming.taken a max) ⟨none, some [], none⟩ h i) :
    Inv p { r with readStepper := h, incoming := i } := by
  rcases hsettled with ⟨task, hsound, rfl, rfl, hb, ht⟩ | ⟨result, rfl, data, rfl, h1, hle, hmost, ht, hself, hr, -, hR'⟩
  · exact .reading a max (hb ▸ hR) hsound.le rfl ⟨by rw [ht, hb]; exact hd.packets, by rw [hb]; exact hd.stuck⟩
  · exact .completed a max r.incoming.taken data hR' rfl ht h1 hle hmost hself
      ⟨by rw [hr]; exact hd.packets, by rw [hr]; exact hd.stuck⟩

theorem settled_readable {b : RingBuffer} {taken : List UInt8} {a max : Nat} {before h : ReadTaskAndStepHelper}
    {i : Incoming τ}
    (hsettled : ReadTaskAndStepHelper.Settled (Asked b taken a max) (Got p b taken a max) before h i) :
    readable i.inBuffer = readable b ∧ i.inBuffer.size = b.size := by
  rcases hsettled with ⟨_, -, -, -, hb, -⟩ | ⟨_, -, _, -, -, -, -, -, -, hr, hs, -⟩
  · rw [hb]
    exact ⟨rfl, rfl⟩
  · exact ⟨hr, hs⟩

theorem read_settles (p : PartialSource τ) (hidle : r.readStepper = ⟨none, some [], none⟩)
    (hpos : 0 < r.incoming.inBuffer.writeCompositeLength) : ∃ a max h i,
      r.read p = some { r with readStepper := h, incoming := i } ∧ Peer.Requested r.incoming.inBuffer (a, max) ∧
      ReadTaskAndStepHelper.Settled (Asked r.incoming.inBuffer r.incoming.taken a max)
        (Got p r.incoming.inBuffer r.incoming.taken a max) ⟨none, some [], none⟩ h i := by
  obtain ⟨⟨a, max⟩, hread, hR⟩ := Peer.read_spec hpos
  simp only [Peer.read, Option.bind_eq_bind, Option.bind_eq_some_iff, Option.pure_def, Option.some.injEq,
    Prod.mk.injEq] at hread
  obtain ⟨a', ha, max', hmax, _, hassert, rfl, rfl⟩ := hread
  obtain ⟨h, i, hasync, hsettled⟩ := AsyncIoStream.read_rule (reading_rule p hR) (h := r.readStepper) (by rw [hidle])
    a' 1 max' (sound_task hR (of_assert hassert)) ⟨rfl, rfl, rfl⟩
  rw [hidle] at hsettled
  refine ⟨a', max', h, i, ?_, hR, hsettled⟩
  simp only [read, ha, hmax, hasync, Option.bind_eq_bind, Option.bind_some, Option.pure_def]

theorem packets_unpacked (hS : S.wellFormed) {limit : Nat} {bs rest : List UInt8} {ms : List (Message S)}
    (h : Wire.Unpacks S limit bs ms rest) (hbs : bs.length < 2 ^ 64) : Packets S bs ms rest := by
  induction h with
  | stop => exact ⟨rfl, fun _ hm => nomatch hm⟩
  | more hm _ ih =>
    have hlt := Wire.body_lt hS hbs hm
    have hshort := Wire.packet_shorter hm
    obtain ⟨rfl, -⟩ := (Wire.packet_exact hS hlt).mp hm
    obtain ⟨hrest, hsmall⟩ := ih (by omega)
    refine ⟨?_, fun m' hm' => ?_⟩
    · rw [List.flatMap_cons, List.append_assoc, ← hrest]
    · rcases List.mem_cons.mp hm' with rfl | hm'
      · exact hlt
      · exact hsmall m' hm'

theorem drain_decodes (hS : S.wellFormed) {b : RingBuffer} {used rest data : List UInt8} {fed : List (Message S)}
    (hu : Packets S used fed rest) (hr : readable b = rest ++ data) :
    ∃ ms e b', ProtoKelCodec.drain S ProtoKelCodec.defaultPacketSize (b.readCompositeLength + 1) b = some (ms, e, b') ∧
      ReadFrame b b' ∧ (readable b').length ≤ (readable b).length ∧
      Packets S (used ++ data) (fed ++ ms) (readable b') ∧
      (Wire.packet S ProtoKelCodec.defaultPacketSize).run (readable b') = .error e := by
  obtain ⟨ms, e, b', hdrain, -, hf, hu', he⟩ := ProtoKelCodec.drain_spec S ProtoKelCodec.defaultPacketSize
    (b.readCompositeLength + 1) b trivial (by rw [RingBuffer.length_readable]; omega)
  have hlt : (readable b).length < 2 ^ 63 := ReadLaws.readable_lt (b := b) trivial
  obtain ⟨hbytes, hsmall⟩ := packets_unpacked hS hu' (by omega)
  refine ⟨ms, e, b', hdrain, hf, hu'.le, ⟨?_, fun m hm => ?_⟩, he⟩
  · rw [hu.1, List.append_assoc, ← hr, hbytes, List.flatMap_append, List.append_assoc]
  · exact (List.mem_append.mp hm).elim (hu.2 m) (hsmall m)

def verdict (e : Error) (r : ReceivingPeer S τ) : ReceivingPeer S τ := if e.isCritical then r.fail e else r

theorem Decoded.verdict {used : List UInt8} {e : Error}
    (hu : Packets S used r.fed (readable r.incoming.inBuffer))
    (he : (Wire.packet S ProtoKelCodec.defaultPacketSize).run (readable r.incoming.inBuffer) = .error e) :
    Decoded (r.verdict e) used := by
  unfold ReceivingPeer.verdict
  split
  next hc =>
    refine ⟨hu, e, he, fun hnone => ?_⟩
    simp only [fail] at hnone
    cases hf : r.failure with
    | none => simp [hf] at hnone
    | some e' => simp [hf] at hnone
  next hc =>
    refine ⟨hu, e, he, fun _ => ?_⟩
    exact ((Wire.packet_steady S _).error he).resolve_right fun h => hc h.1

theorem verdict_readStepper (e : Error) : (r.verdict e).readStepper = r.readStepper := by
  unfold verdict
  split <;> rfl

theorem verdict_incoming (e : Error) : (r.verdict e).incoming = r.incoming := by
  unfold verdict
  split <;> rfl

theorem Inv.drained {b b' : RingBuffer} {taken : List UInt8} {a max : Nat} {h : ReadTaskAndStepHelper} {i : Incoming τ}
    (hR : Peer.Requested b (a, max))
    (hsettled : ReadTaskAndStepHelper.Settled (Asked b taken a max) (Got p b taken a max) ⟨none, some [], none⟩ h i)
    (hf : ReadFrame i.inBuffer b') (hle : (readable b').length ≤ (readable i.inBuffer).length)
    (hincoming : r.incoming = { i with inBuffer := b' }) (hstepper : r.readStepper = h) (hd : Decoded r taken) :
    Inv p r := by
  have hb' : r.incoming.inBuffer = b' := by rw [hincoming]
  have htaken : r.incoming.taken = i.taken := by rw [hincoming]
  rcases hsettled with ⟨task, hsound, rfl, rfl, hb, ht⟩ | ⟨result, rfl, data, rfl, h1, hmax, hmost, ht, hself, -, -, hR'⟩
  · refine .reading a max ?_ hsound.le hstepper ?_
    · rw [hb']
      exact Peer.Requested.of_frame (hb ▸ hR) hf hle
    · rw [htaken, ht]
      exact hd
  · refine .completed a max taken data ?_ hstepper (htaken.trans ht) h1 hmax hmost ?_ hd
    · rw [hb']
      exact hR'.of_frame hf hle
    · rw [hb']
      exact store_frame hself hf

theorem readDone_room {b b' : RingBuffer} {k : Nat} {r₁ : ReceivingPeer S τ} {ms : List (Message S)} {e : Error}
    (hadvance : r.incoming.inBuffer.writeAdvance k = some b) (hpos : 0 < b.writeCompositeLength)
    (hread : read p { r with incoming := { r.incoming with inBuffer := b } } = some r₁)
    (hdrain : ProtoKelCodec.drain S ProtoKelCodec.defaultPacketSize (r₁.incoming.inBuffer.readCompositeLength + 1)
      r₁.incoming.inBuffer = some (ms, e, b')) :
    r.readDone p k = some (verdict e
      { r₁ with incoming := { r₁.incoming with inBuffer := b' }, fed := r₁.fed ++ ms }) := by
  obtain ⟨s, a, hs, hspos, -⟩ := WriteLaws.writeSegment (b := b) trivial (i := 0) (by rw [Peer.length_free]; exact hpos)
  have hs : b.writeSegmentLength 0 = some s := hs
  simp only [readDone, hadvance, hs, if_neg (Nat.ne_of_gt hspos), hread, hdrain, Option.bind_eq_bind, Option.bind_some,
    Option.pure_def, verdict]

theorem readDone_full {b : RingBuffer} {k : Nat} (hadvance : r.incoming.inBuffer.writeAdvance k = some b)
    (hzero : b.writeCompositeLength = 0) : r.readDone p k =
      some ({ r with incoming := { r.incoming with inBuffer := b } }.fail (criticalError "Message too long")) := by
  simp only [readDone, hadvance, b.writeSegmentLength_full hzero, if_true, Option.bind_eq_bind, Option.bind_some,
    Option.pure_def]

theorem Inv.full {b : RingBuffer} {used data : List UInt8} (hidle : r.readStepper = ⟨none, some [], none⟩)
    (htaken : r.incoming.taken = used ++ data) (hd : Decoded r used) (e : Error) :
    Inv p ({ r with incoming := { r.incoming with inBuffer := b } }.fail e) := by
  refine .failed used (readable r.incoming.inBuffer) ?_ ⟨data, htaken.symm⟩ hd.packets (Or.inl ?_) (Or.inr hidle)
  · simp only [fail]
    cases r.failure <;> simp
  · rw [fail, hidle]

theorem readDone_inv (hS : S.wellFormed) (p : PartialSource τ) {a max : Nat} {used data : List UInt8}
    (hR : Peer.Requested r.incoming.inBuffer (a, max)) (hidle : r.readStepper = ⟨none, some [], none⟩)
    (htaken : r.incoming.taken = used ++ data) (h1 : 1 ≤ data.length) (hmax : data.length ≤ max)
    (hstored : r.incoming.inBuffer.store a data = some r.incoming.inBuffer) (hd : Decoded r used) :
    ∃ r', r.readDone p data.length = some r' ∧ Inv p r' ∧
      r'.incoming.inBuffer.size = r.incoming.inBuffer.size ∧ (r'.failure = r.failure ∨
      r.incoming.inBuffer.size ≤ (readable r.incoming.inBuffer).length + data.length ∨ ∃ fed rest e,
        Packets S (used ++ data) fed rest ∧
        (Wire.packet S ProtoKelCodec.defaultPacketSize).run rest = .error e ∧ e.isCritical = true) := by
  obtain ⟨b₁, b₂, h₁, hadvance, hr₂, hsize⟩ := Peer.store_advance hR h1 hmax
  obtain rfl : r.incoming.inBuffer = b₁ := Option.some.inj (hstored.symm.trans h₁)
  by_cases hpos : 0 < b₂.writeCompositeLength
  · obtain ⟨a', max', h, i, hread, hR', hsettled⟩ :=
      read_settles p (r := { r with incoming := { r.incoming with inBuffer := b₂ } }) hidle hpos
    dsimp only at hread hR' hsettled
    rw [htaken] at hsettled
    obtain ⟨hreadable, hsize'⟩ := settled_readable hsettled
    obtain ⟨ms, e, b₄, hdrain, hf, hle, hu, he⟩ := drain_decodes hS hd.packets (hreadable.trans hr₂)
    refine ⟨_, readDone_room hadvance hpos hread hdrain, ?_, ?_, ?_⟩
    · refine .drained hR' hsettled hf hle ?_ ?_ (.verdict hu he)
      · rw [verdict_incoming]
      · rw [verdict_readStepper]
    · rw [verdict_incoming, ← hsize, ← hsize']
      exact congrArg List.length hf.1
    · by_cases hc : e.isCritical = true
      · exact Or.inr (Or.inr ⟨_, _, e, hu, he, hc⟩)
      · exact Or.inl (by rw [verdict, if_neg hc])
  · have hzero : b₂.writeCompositeLength = 0 := Nat.eq_zero_of_not_pos hpos
    refine ⟨_, readDone_full hadvance hzero, .full hidle htaken hd _, hsize, Or.inr (Or.inl ?_)⟩
    rw [RingBuffer.writeCompositeLength_eq_sub, hsize, ← RingBuffer.length_readable, hr₂, List.length_append] at hzero
    omega

theorem readReady_inv (p : PartialSource τ) (hr : Inv p r) : ∃ r', r.readReady p = some r' ∧ Inv p r' ∧
    r'.failure = r.failure ∧ r'.incoming.inBuffer.size = r.incoming.inBuffer.size := by
  have hskip (htask : r.readStepper.readTask = none) : r.readReady p = some r := by
    have hstep : r.readStepper.readStep p.toInputStream r.incoming = some (r.readStepper, r.incoming) :=
      ReadTaskAndStepHelper.readStep_idle htask _
    simp only [readReady, hstep, Option.bind_eq_bind, Option.bind_some, Option.pure_def]
  cases hr with
  | reading a max hR hmax hstepper hd =>
    obtain ⟨h, i, hstep, hsettled⟩ := ReadTaskAndStepHelper.readStep_rule (reading_rule p hR)
      (h := ⟨none, some [], none⟩) (sound_task hR hmax) ⟨rfl, rfl, rfl⟩
    refine ⟨{ r with readStepper := h, incoming := i }, ?_, .of_settled hR hd hsettled, rfl, ?_⟩
    · simp only [readReady, hstepper, hstep, Option.bind_eq_bind, Option.bind_some, Option.pure_def]
    · exact (settled_readable hsettled).2
  | completed a max used data hR hstepper htaken hpos hle hmost hstored hd =>
    exact ⟨r, hskip (by rw [hstepper]), .completed a max used data hR hstepper htaken hpos hle hmost hstored hd, rfl, rfl⟩
  | failed used rest hfailure hsofar hu htask hstepper =>
    rcases htask with hnone | ⟨a, max, htask, hmax, hR⟩
    · exact ⟨r, hskip hnone, .failed used rest hfailure hsofar hu (Or.inl hnone) hstepper, rfl, rfl⟩
    · have hdone : r.readStepper.readDone = none := by
        refine hstepper.resolve_right fun heq => ?_
        rw [heq] at htask
        cases htask
      obtain ⟨h, i, hstep, hsettled⟩ := ReadTaskAndStepHelper.readStep_rule (reading_rule p hR)
        (h := r.readStepper) (sound_task hR hmax) ⟨rfl, rfl, rfl⟩
      have hself : ({ r.readStepper with readTask := some ⟨a, 1, max, 0⟩ } : ReadTaskAndStepHelper) = r.readStepper := by
        rw [← htask]
      rw [hself] at hstep
      refine ⟨{ r with readStepper := h, incoming := i }, ?_, ?_, rfl, ?_⟩
      · simp only [readReady, hstep, Option.bind_eq_bind, Option.bind_some, Option.pure_def]
      · rcases hsettled with ⟨task, -, rfl, rfl, hb, ht⟩ | ⟨result, rfl, data, rfl, -, -, -, ht, -⟩
        · refine .failed used rest hfailure ?_ hu (Or.inr ⟨a, max, rfl, hmax, hb ▸ hR⟩) (Or.inl hdone)
          rw [ht]
          exact hsofar
        · refine .failed used rest hfailure ?_ hu (Or.inl rfl) (Or.inl ?_)
          · rw [ht]
            exact hsofar.trans (List.prefix_append _ _)
          · simp only [ReadTaskAndStepHelper.finish, hdone, Option.map_none]
      · exact (settled_readable hsettled).2

/-- What goes wrong when the callback fails: the completion fills the ring, or what follows is no packet. -/
def Fails (p : PartialSource τ) (r : ReceivingPeer S τ) : Prop :=
  ∃ used data, r.incoming.taken = used ++ data ∧ 1 ≤ data.length ∧ data.length ≤ p.most ∧ Decoded r used ∧
    (r.incoming.inBuffer.size ≤ (readable r.incoming.inBuffer).length + data.length ∨ ∃ fed rest e,
      Packets S (used ++ data) fed rest ∧
      (Wire.packet S ProtoKelCodec.defaultPacketSize).run rest = .error e ∧ e.isCritical = true)

theorem deliver_inv (hS : S.wellFormed) (p : PartialSource τ) (hr : Inv p r) : ∃ r', r.deliver p = some r' ∧ Inv p r' ∧
    r'.incoming.inBuffer.size = r.incoming.inBuffer.size ∧ (r'.failure = r.failure ∨ Fails p r) := by
  cases hr with
  | reading a max hR hmax hstepper hd =>
    exact ⟨r, by simp only [deliver, hstepper], .reading a max hR hmax hstepper hd, rfl, Or.inl rfl⟩
  | completed a max used data hR hstepper htaken hpos hle hmost hstored hd =>
    obtain ⟨r₁, hr₁⟩ : ∃ r₁ : ReceivingPeer S τ, r₁ = { r with readStepper := ⟨none, some [], none⟩ } := ⟨_, rfl⟩
    have hR₁ : Peer.Requested r₁.incoming.inBuffer (a, max) := by
      rw [hr₁]
      exact hR
    have ht₁ : r₁.incoming.taken = used ++ data := by
      rw [hr₁]
      exact htaken
    obtain ⟨r', hdone, hinv, hsize, hfails⟩ := readDone_inv hS p (r := r₁) hR₁ (by rw [hr₁]) ht₁ hpos hle
      (by rw [hr₁]; exact hstored) (by rw [hr₁]; exact ⟨hd.packets, hd.stuck⟩)
    rw [hr₁] at hsize hfails
    exact ⟨r', by simp only [deliver, hstepper, ← hr₁, hdone], hinv, hsize,
      hfails.imp_right fun h => ⟨used, data, htaken, hpos, hmost, hd, h⟩⟩
  | failed used rest hfailure hsofar hu htask hstepper =>
    refine ⟨r, ?_, .failed used rest hfailure hsofar hu htask hstepper, rfl, Or.inl rfl⟩
    rcases hstepper with hnone | heq
    · simp only [deliver, hnone]
    · simp only [deliver, heq]

theorem dropChain_inv (hr : Inv p r) : Inv p r.dropChain := by
  unfold dropChain
  split
  next hfailed =>
    have hfailure : r.failure ≠ none := Option.isSome_iff_ne_none.mp hfailed
    cases hr with
    | reading a max hR hmax hstepper hd =>
      exact .failed r.incoming.taken _ hfailure (List.prefix_refl _) hd.packets
        (Or.inr ⟨a, max, by rw [hstepper], hmax, hR⟩) (Or.inl rfl)
    | completed a max used data hR hstepper htaken hpos hle hmost hstored hd =>
      exact .failed used _ hfailure ⟨data, htaken.symm⟩ hd.packets (Or.inl (by rw [hstepper])) (Or.inl rfl)
    | failed used rest _ hsofar hu htask _ => exact .failed used rest hfailure hsofar hu htask (Or.inl rfl)
  next => exact hr

theorem Inv.sofar (hr : Inv p r) : ∃ used rest, used <+: r.incoming.taken ∧ Packets S used r.fed rest := by
  cases hr with
  | reading _ _ _ _ _ hd => exact ⟨_, _, List.prefix_refl _, hd.packets⟩
  | completed _ _ used data _ _ htaken _ _ _ _ hd => exact ⟨used, _, ⟨data, htaken.symm⟩, hd.packets⟩
  | failed used rest _ hsofar hu _ _ => exact ⟨used, rest, hsofar, hu⟩

theorem new_inv (p : PartialSource τ) (n : Nat) (h : n < 2 ^ 63) (hn : 0 < n) (stream : τ) :
    ∃ r : ReceivingPeer S τ, new p n h stream = some r ∧ Inv p r ∧ r.failure = none ∧ r.incoming.inBuffer.size = n := by
  obtain ⟨r₀, hr₀⟩ : ∃ r₀ : ReceivingPeer S τ,
      r₀ = ⟨⟨none, some [], none⟩, ⟨RingBuffer.new n h, stream, []⟩, [], none⟩ := ⟨_, rfl⟩
  have hnil : readable (RingBuffer.new n h) = [] := (RingBuffer.new_represents n h).readable
  have hpos : 0 < (RingBuffer.new n h).writeCompositeLength := by
    rw [(RingBuffer.new_represents n h).writeCompositeLength]
    exact hn
  obtain ⟨a, max, stepper, i, hread, hR, hsettled⟩ := read_settles p (r := r₀) (by rw [hr₀]) (by rw [hr₀]; exact hpos)
  have hsize : r₀.incoming.inBuffer.size = n := by
    rw [hr₀]
    exact (RingBuffer.new_represents n h).size
  refine ⟨{ r₀ with readStepper := stepper, incoming := i }, by rw [new, ← hr₀, hread], ?_, by rw [hr₀], ?_⟩
  · refine .of_settled hR ⟨?_, Wire.tooSmall, ?_, fun _ => rfl⟩ hsettled
    · rw [hr₀]
      dsimp only
      rw [hnil]
      exact ⟨rfl, fun _ hm => nomatch hm⟩
    · rw [hr₀]
      dsimp only
      rw [hnil]
      rfl
  · rcases hsettled with ⟨_, -, -, -, hb, -⟩ | ⟨_, -, _, -, -, -, -, -, -, -, hs, -⟩
    · rw [← hsize]
      exact congrArg RingBuffer.size hb
    · rw [← hsize]
      exact hs

end

end ReceivingPeer

end Forstio
