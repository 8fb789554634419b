import Forstio.DecodeExact
import Forstio.RingFifo

/-!
# A ring of packets is a queue of messages

Encoding and decoding take turns on one ring. `Channel` keeps beside the ring
the messages of all successful calls so far; what was decoded is always the
beginning of what was encoded, and the ring holds the packets in between.
-/

namespace Forstio

open Buffer

/-- A message whose packet has a length at all. -/
structure Packet where
  schema : Schema
  message : Message schema
  wellFormed : schema.wellFormed
  small : (Wire.packetOf schema message).length < 2 ^ 64

namespace Packet

def bytes (p : Packet) : List UInt8 := Wire.packetOf p.schema p.message

def value (p : Packet) : (S : Schema) × Message S := ⟨p.schema, p.message⟩

end Packet

inductive PacketOp where
  | encode (p : Packet)
  | decode (S : Schema) (wellFormed : S.wellFormed) (old : Message S) (limit : Nat)

structure Channel where
  ring : RingBuffer
  sent : List Packet
  received : List ((S : Schema) × Message S)

namespace Channel

def new (n : Nat) (h : n < 2 ^ 63) : Channel := ⟨RingBuffer.new n h, [], []⟩

def step (c : Channel) : PacketOp → Option (Error × Channel)
  | .encode p => do
    let (error, _, ring) ← ProtoKelCodec.encode p.schema p.message c.ring
    if error.failed then return (error, { c with ring })
    else return (error, { c with ring, sent := c.sent ++ [p] })
  | .decode S _ old limit => do
    let (error, m, d) ← ProtoKelCodec.decode S old c.ring limit
    if error.failed then return (error, { c with ring := d.buffer })
    else return (error, { c with ring := d.buffer, received := c.received ++ [⟨S, m⟩] })

def pending (c : Channel) : List Packet := c.sent.drop c.received.length

/-- A decode call that succeeds is made with the schema of the packet whose
turn it is, and with a limit that admits it. -/
def matching (c : Channel) : PacketOp → Prop
  | .encode _ => True
  | .decode S _ old limit => ∀ m d, ProtoKelCodec.decode S old c.ring limit = some (noError, m, d) →
    ∀ p ∈ c.sent[c.received.length]?, p.schema = S ∧ (Wire.body p.schema p.message).length ≤ limit

structure Carries (n : Nat) (c : Channel) : Prop where
  size : c.ring.size = n
  readable : readable c.ring = c.pending.flatMap Packet.bytes
  received : c.received = (c.sent.take c.received.length).map Packet.value

/-! ## Single calls -/

section
variable {n : Nat} {c : Channel} (hc : Carries n c)
include hc

theorem Carries.room : (writable c.ring).length = n - (c.pending.flatMap Packet.bytes).length := by
  rw [RingBuffer.length_writable, ← RingBuffer.length_readable, hc.size, hc.readable]

theorem Carries.encode (p : Packet) :
    (p.bytes.length ≤ (writable c.ring).length → ∃ ring, ProtoKelCodec.encode p.schema p.message c.ring =
      some (noError, p.message, ring) ∧ ring.size = n ∧ Forstio.readable ring = Forstio.readable c.ring ++ p.bytes) ∧
    ((writable c.ring).length < p.bytes.length → ProtoKelCodec.encode p.schema p.message c.ring =
      some (recoverableError "Buffer too small", p.message, c.ring)) := by
  refine ⟨fun hfit => ?_, fun hfull => ProtoKelCodec.encode_full trivial p.small hfull⟩
  obtain ⟨ring, h, -, hw, ho, -⟩ := ProtoKelCodec.encode_fits p.wellFormed (b := c.ring) trivial hfit
  have hr : Forstio.readable ring = Forstio.readable c.ring ++ p.bytes := ho
  refine ⟨ring, h, ?_, hr⟩
  rw [← hc.size, RingBuffer.size_eq, RingBuffer.size_eq c.ring, hr, hw, List.length_append, List.length_drop]
  have : (Wire.packetOf p.schema p.message).length = p.bytes.length := rfl
  omega

theorem Carries.decode {p : Packet} {rest : List Packet} (hp : c.pending = p :: rest) {limit : Nat} :
    (Wire.packet p.schema limit).run (Forstio.readable c.ring) = .ok (p.message, rest.flatMap Packet.bytes) ↔
      (Wire.body p.schema p.message).length ≤ limit := by
  have hlt := p.small
  rw [Wire.length_packetOf] at hlt
  rw [Wire.packet_exact p.wellFormed (by omega), hc.readable, hp, List.flatMap_cons]
  exact ⟨fun h => h.2, fun h => ⟨rfl, h⟩⟩

theorem Carries.decode_unique {p : Packet} {rest : List Packet} (hp : c.pending = p :: rest) {limit : Nat}
    (hlimit : (Wire.body p.schema p.message).length ≤ limit) {m : Message p.schema} {bs : List UInt8}
    (h : (Wire.packet p.schema limit).run (Forstio.readable c.ring) = .ok (m, bs)) :
    m = p.message ∧ bs = rest.flatMap Packet.bytes :=
  Prod.mk.inj (Except.ok.inj (h.symm.trans ((hc.decode hp).mpr hlimit)))

theorem Carries.decode_nil (hp : c.pending = []) (S : Schema) (limit : Nat) :
    (Wire.packet S limit).run (Forstio.readable c.ring) = .error Wire.tooSmall := by
  rw [hc.readable, hp]
  rfl

end

/-! ## Runs -/

theorem new_carries (n : Nat) (h : n < 2 ^ 63) : Carries n (new n h) :=
  ⟨(RingBuffer.new_represents n h).size, (RingBuffer.new_represents n h).readable, rfl⟩

theorem step_carries {n : Nat} {c : Channel} (hc : Carries n c) (op : PacketOp) (hop : c.matching op) :
    ∃ e c', c.step op = some (e, c') ∧ Carries n c' := by
  have hle : c.received.length ≤ c.sent.length := by
    have := congrArg List.length hc.received
    rw [List.length_map, List.length_take] at this
    omega
  cases op with
  | encode p =>
    rcases Nat.lt_or_ge (writable c.ring).length p.bytes.length with hlt | hge
    · exact ⟨recoverableError "Buffer too small", c, by simp [step, (hc.encode p).2 hlt], hc⟩
    · obtain ⟨ring, h, hs, hr⟩ := (hc.encode p).1 hge
      refine ⟨noError, { c with ring, sent := c.sent ++ [p] }, by simp [step, h], hs, ?_, ?_⟩
      · rw [hr, hc.readable]
        simp only [pending, List.drop_append_of_le_length hle, List.flatMap_append, List.flatMap_singleton]
      · show c.received = ((c.sent ++ [p]).take c.received.length).map Packet.value
        rw [List.take_append_of_le_length hle]
        exact hc.received
  | decode S hS old limit =>
    cases hp : (Wire.packet S limit).run (readable c.ring) with
    | error e =>
      obtain ⟨hfail, m, h⟩ := ProtoKelCodec.decode_error old trivial hp
      exact ⟨e, c, by simp [step, h, hfail], hc⟩
    | ok r =>
      obtain ⟨m, bs⟩ := r
      obtain ⟨ring, h, -, hf, hr⟩ := ProtoKelCodec.decode_ok old trivial hp
      cases hq : c.pending with
      | nil => cases hp.symm.trans (hc.decode_nil hq S limit)
      | cons p rest =>
        have hnext : c.sent[c.received.length]? = some p := by
          rw [← List.head?_drop]
          exact congrArg List.head? hq
        have hrest : c.sent.drop (c.received.length + 1) = rest := by
          rw [← List.tail_drop]
          exact congrArg List.tail hq
        obtain ⟨rfl, hlimit⟩ := hop m _ h p hnext
        obtain ⟨rfl, rfl⟩ := hc.decode_unique hq hlimit hp
        refine ⟨noError, { c with ring, received := c.received ++ [p.value] }, by simp [step, h, Packet.value], ?_, ?_, ?_⟩
        · rw [← hc.size]
          exact congrArg List.length hf.1
        · rw [hr]
          simp only [pending, List.length_append, List.length_singleton, hrest]
        · simp only [List.length_append, List.length_singleton]
          rw [List.take_add_one, hnext, List.map_append, ← hc.received]
          rfl

/-- **A ring of packets is a queue of messages.** In every state a run reaches,
what was decoded is the beginning of what was encoded, a packet is accepted
exactly when it fits behind the pending ones, and a failing call changes
nothing. -/
theorem run_is_fifo (n : Nat) (h : n < 2 ^ 63) (ops : List PacketOp) (hops : Run.Along step matching (new n h) ops) :
    ∃ errors c, Run.exec step (new n h) ops = some (errors, c) ∧
      c.received = (c.sent.take c.received.length).map Packet.value ∧
      (∀ p : Packet, ∃ e ring, ProtoKelCodec.encode p.schema p.message c.ring = some (e, p.message, ring) ∧
        (e.failed = false ↔
          8 + (Wire.body p.schema p.message).length ≤ n - (c.pending.flatMap Packet.bytes).length) ∧
        (e.failed = true → e.isRecoverable = true ∧ ring = c.ring)) ∧
      (∀ p rest, c.pending = p :: rest → ∀ old limit, (Wire.body p.schema p.message).length ≤ limit →
        ∃ d, ProtoKelCodec.decode p.schema old c.ring limit = some (noError, p.message, d)) ∧
      (c.pending = [] → ∀ S old limit, ∃ e m d, ProtoKelCodec.decode S old c.ring limit = some (e, m, d) ∧
        e.isRecoverable = true) ∧
      (∀ S old limit, ∃ e m d, ProtoKelCodec.decode S old c.ring limit = some (e, m, d) ∧
        (e.failed = true → d.buffer = c.ring)) := by
  obtain ⟨errors, c, hrun, hc⟩ := Run.exec_invariant (Carries n) matching
    (fun _ op hc hop => step_carries hc op hop) ops (new n h) (new_carries n h) hops
  refine ⟨errors, c, hrun, hc.received, fun p => ?_, fun p rest hp old limit hl => ?_, fun hp S old limit => ?_,
    fun S old limit => ?_⟩
  · rw [← hc.room, ← Wire.length_packetOf]
    rcases Nat.lt_or_ge (writable c.ring).length p.bytes.length with hlt | hge
    · exact ⟨_, _, (hc.encode p).2 hlt, ⟨fun h => (by cases h), fun h => absurd h (Nat.not_le.mpr hlt)⟩,
        fun _ => ⟨rfl, rfl⟩⟩
    · obtain ⟨ring, h, -, -⟩ := (hc.encode p).1 hge
      exact ⟨_, _, h, ⟨fun _ => hge, fun _ => rfl⟩, fun h => (by cases h)⟩
  · obtain ⟨ring, h, -⟩ := ProtoKelCodec.decode_ok old trivial ((hc.decode hp).mpr hl)
    exact ⟨_, h⟩
  · obtain ⟨-, m, h⟩ := ProtoKelCodec.decode_error old trivial (hc.decode_nil hp S limit)
    exact ⟨_, _, _, h, rfl⟩
  · cases hp : (Wire.packet S limit).run (readable c.ring) with
    | error e =>
      obtain ⟨-, m, h⟩ := ProtoKelCodec.decode_error old trivial hp
      exact ⟨_, _, _, h, fun _ => rfl⟩
    | ok r =>
      obtain ⟨ring, h, -⟩ := ProtoKelCodec.decode_ok old trivial hp
      exact ⟨_, _, _, h, fun h => (by cases h)⟩

/-- A decode call is made for the packet whose turn it is, whether it succeeds or not. -/
def expecting (c : Channel) : PacketOp → Prop
  | .encode _ => True
  | .decode S _ _ limit =>
    ∀ p ∈ c.sent[c.received.length]?, p.schema = S ∧ (Wire.body p.schema p.message).length ≤ limit

instance (c : Channel) : ∀ op, Decidable (c.expecting op)
  | .encode _ => isTrue trivial
  | .decode S _ _ limit => inferInstanceAs
    (Decidable (∀ p ∈ c.sent[c.received.length]?, p.schema = S ∧ (Wire.body p.schema p.message).length ≤ limit))

theorem matching_of_expecting (c : Channel) (op : PacketOp) (h : c.expecting op) : c.matching op := by
  cases op with
  | encode p => trivial
  | decode S hS old limit => exact fun _ _ _ => h

def samplePacket : Packet where
  schema := .primitive .uint8
  message := (7 : BitVec 8)
  wellFormed := rfl
  small := by decide

def word : Packet := ⟨.primitive .uint32, (0x01020304 : BitVec 32), rfl, by decide⟩

def pair : Packet where
  schema := .tuple (.cons (.primitive .uint16) (.cons (.primitive .uint8) .nil))
  message := ((0x1234 : BitVec 16), ((5 : BitVec 8), ()))
  wellFormed := by decide
  small := by decide

/-- The word finds the ring full at first, and then goes around its end; the last call finds the ring empty. -/
def mixed : List PacketOp :=
  [.encode samplePacket, .encode pair, .encode word, .decode samplePacket.schema rfl (0 : BitVec 8) 1, .encode word,
    .decode pair.schema pair.wellFormed pair.message 64, .decode word.schema rfl (0 : BitVec 32) 4,
    .decode word.schema rfl (0 : BitVec 32) 4]

theorem run_is_fifo_mixed : ∃ errors c, Run.exec step (new 24 (by decide)) mixed = some (errors, c) ∧
    errors.map Error.failed = [false, false, true, false, false, false, false, true] ∧
    c.received = c.sent.map Packet.value ∧ c.sent.map Packet.bytes = [samplePacket, pair, word].map Packet.bytes := by
  have hops : Run.Along step expecting (new 24 (by decide)) mixed := by decide +kernel
  obtain ⟨errors, c, hrun, hreceived, -⟩ := run_is_fifo 24 (by decide) mixed (hops.mono matching_of_expecting)
  have hend : (Run.exec step (new 24 (by decide)) mixed).map (fun r =>
      (r.1.map Error.failed, r.2.received.length, r.2.sent.map Packet.bytes)) =
      some ([false, false, true, false, false, false, false, true], 3,
        [samplePacket, pair, word].map Packet.bytes) := by decide +kernel
  rw [hrun] at hend
  obtain ⟨herrors, hend⟩ := Prod.mk.inj (Option.some.inj hend)
  obtain ⟨hlength, hsent⟩ := Prod.mk.inj hend
  refine ⟨errors, c, hrun, herrors, ?_, hsent⟩
  have hall : c.sent.length = 3 := by rw [← List.length_map Packet.bytes, hsent, List.length_map]; rfl
  rw [hreceived, hlength, ← hall, List.take_length]

end Channel

end Forstio
