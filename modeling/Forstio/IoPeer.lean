import Forstio.Chunks
import Forstio.RingFifo

/-!
# The receiving side of a streaming peer

The peer always has one read request out: an address in its ring and the
greatest number of bytes to put there. A completion puts bytes at that address
and runs the callback, which advances the ring, checks that it is not full,
issues the next request and decodes until there is no whole packet left.

The check comes before the decoding. A completion that fills the ring is
therefore refused as a message that is too long, whatever it completes; as long
as none does, every message arrives.
-/

namespace Forstio

open Buffer Format

/-- `StreamingIoPeer`: the ring, the pending request, and what was fed. -/
structure Peer (S : Schema) where
  inBuffer : RingBuffer
  request : Option (Nat × Nat)
  fed : List (Message S)

namespace Peer

variable {S : Schema}

/-- `io_stream->read(&in_buffer.write(), 1, in_buffer.writeSegmentLength())`
without a read task outstanding. -/
def read (b : RingBuffer) : Option (Nat × Nat) := do
  let address ← b.write 0
  let maxLength ← b.writeSegmentLength 0
  assert (maxLength ≥ 1)
  return (address, maxLength)

def new (n : Nat) (h : n < 2 ^ 63) : Option (Peer S) := do
  let request ← read (RingBuffer.new n h)
  return ⟨RingBuffer.new n h, some request, []⟩

/-- The callback of `readDone()`. -/
def readDone (p : Peer S) (bytes : Nat) : Option (Error × Peer S) := do
  let b ← p.inBuffer.writeAdvance bytes
  if (← b.writeSegmentLength 0) = 0 then
    return (criticalError "Message too long", { p with inBuffer := b })
  else
    let request ← read b
    let (ms, error, b) ← ProtoKelCodec.drain S ProtoKelCodec.defaultPacketSize (b.readCompositeLength + 1) b
    let p := { inBuffer := b, request := some request, fed := p.fed ++ ms }
    if error.isCritical then return (error, p) else return (noError, p)

def complete (p : Peer S) (data : List UInt8) : Option (Error × Peer S) := do
  let (address, _) ← p.request
  let b ← p.inBuffer.store address data
  readDone { p with inBuffer := b, request := none } data.length

def answers (p : Peer S) (data : List UInt8) : Prop :=
  ∃ r ∈ p.request, 1 ≤ data.length ∧ data.length ≤ r.2

/-- The data leaves free space in the ring. -/
def leavesRoom (p : Peer S) (data : List UInt8) : Prop := data.length < p.inBuffer.writeCompositeLength

/-! ## One completion -/

def Requested (b : RingBuffer) (r : Nat × Nat) : Prop :=
  b.write 0 = some r.1 ∧ 0 < b.writeCompositeLength ∧ ∃ s, b.writeSegmentLength 0 = some s ∧ r.2 ≤ s

theorem length_free (b : RingBuffer) : (writable b).length = b.writeCompositeLength := by
  rw [RingBuffer.length_writable, RingBuffer.writeCompositeLength_eq_sub]

theorem read_spec {b : RingBuffer} (h : 0 < b.writeCompositeLength) :
    ∃ r, read b = some r ∧ Requested b r := by
  obtain ⟨s, a, hs, hpos, -, ha, -⟩ := WriteLaws.writeSegment (b := b) trivial (i := 0) (by rw [length_free]; exact h)
  have hs : b.writeSegmentLength 0 = some s := hs
  have ha : b.write 0 = some a := ha
  exact ⟨(a, s), by simp [read, hs, ha, assert_pos (show s ≥ 1 from hpos)], ha, h, s, hs, Nat.le_refl s⟩

theorem Requested.of_frame {b b' : RingBuffer} {r : Nat × Nat} (hr : Requested b r) (hf : ReadFrame b b')
    (hle : (readable b').length ≤ (readable b).length) : Requested b' r := by
  obtain ⟨ha, hpos, s, hs, hmax⟩ := hr
  have hsize : b'.size = b.size := congrArg List.length hf.1
  have hwrap : b'.wrap (b'.writePosition + 0) = b.wrap (b.writePosition + 0) := by
    rw [RingBuffer.wrap, RingBuffer.wrap, hsize, hf.2]
  have hfree : b.writeCompositeLength ≤ b'.writeCompositeLength := by
    rw [RingBuffer.length_readable, RingBuffer.length_readable] at hle
    rw [RingBuffer.writeCompositeLength_eq_sub, RingBuffer.writeCompositeLength_eq_sub, hsize]
    omega
  rw [RingBuffer.writeSegmentLength_eq b hpos] at hs
  refine ⟨?_, by omega, _, RingBuffer.writeSegmentLength_eq b' (by omega), ?_⟩
  · simp only [RingBuffer.write, assert_pos hpos, assert_pos (Nat.lt_of_lt_of_le hpos hfree)] at ha ⊢
    rw [hwrap]
    exact ha
  · rw [hsize, hwrap]
    have := Option.some.inj hs
    omega

theorem store_advance {b : RingBuffer} {r : Nat × Nat} (hr : Requested b r) {data : List UInt8}
    (h1 : 1 ≤ data.length) (hmax : data.length ≤ r.2) : ∃ b₁ b₂, b.store r.1 data = some b₁ ∧
      b₁.writeAdvance data.length = some b₂ ∧ readable b₂ = readable b ++ data ∧ b₂.size = b.size := by
  obtain ⟨ha, hpos, s, hs, hle⟩ := hr
  obtain ⟨s', a, hs', -, hfit, ha', hst⟩ :=
    WriteLaws.writeSegment (b := b) trivial (i := 0) (by rw [length_free]; exact hpos)
  obtain rfl : s = s' := Option.some.inj (hs.symm.trans hs')
  obtain rfl : r.1 = a := Option.some.inj (ha.symm.trans ha')
  obtain ⟨b₁, h₁, -, hw₁, ho₁, -⟩ := hst data (by omega)
  have hlen : (writable b₁).length = (writable b).length := by
    rw [hw₁, Memory.length_overwrite (by omega)]
  obtain ⟨b₂, h₂, -, hw₂, ho₂, -⟩ := WriteLaws.writeAdvance_eq (b := b₁) trivial h1 (by omega)
  have hr₂ : readable b₂ = readable b ++ data := by
    rw [RingBuffer.readable_eq_written, ho₂, ho₁, hw₁, take_overwrite_zero]
    rfl
  refine ⟨b₁, b₂, h₁, h₂, hr₂, ?_⟩
  rw [RingBuffer.size_eq, RingBuffer.size_eq b, hr₂, hw₂, List.length_append, List.length_drop]
  omega

/-! ## What is left of a stream -/

section
variable {limit : Nat} {bs rest future : List UInt8} {ms todo : List (Message S)}

theorem unpacks_stream (hS : S.wellFormed) (h : Wire.Unpacks S limit bs ms rest) (hbs : bs.length < 2 ^ 64)
    (htodo : ∀ m ∈ todo, (Wire.body S m).length < 2 ^ 64) (hw : bs ++ future = todo.flatMap (Wire.packetOf S)) :
    ∃ todo', todo = ms ++ todo' ∧ rest ++ future = todo'.flatMap (Wire.packetOf S) := by
  induction h generalizing todo with
  | stop => exact ⟨todo, rfl, hw⟩
  | more hm _ ih =>
    have hlt := Wire.body_lt hS hbs hm
    have hshort := Wire.packet_shorter hm
    obtain ⟨rfl, -⟩ := (Wire.packet_exact hS hlt).mp hm
    cases todo with
    | nil =>
      have := congrArg List.length hw
      simp only [List.length_append, List.flatMap_nil, List.length_nil] at this hshort
      omega
    | cons m todo =>
      rw [List.flatMap_cons, List.append_assoc] at hw
      obtain ⟨rfl, htail⟩ := Wire.packetOf_inj hS hlt (htodo m (List.mem_cons_self ..)) hw
      obtain ⟨todo', rfl, hrest⟩ := ih (by omega) (fun m hm => htodo m (List.mem_cons_of_mem _ hm)) htail
      exact ⟨todo', rfl, hrest⟩

theorem stream_short (hS : S.wellFormed) {e : Error} (he : (Wire.packet S limit).run rest = .error e)
    (htodo : ∀ m ∈ todo, (Wire.body S m).length < 2 ^ 64 ∧ (Wire.body S m).length ≤ limit)
    (hw : rest ++ future = todo.flatMap (Wire.packetOf S)) : e = Wire.tooSmall := by
  rcases (Wire.packet_steady S limit).error he with rfl | ⟨-, hfinal⟩
  · rfl
  · cases todo with
    | nil =>
      obtain ⟨rfl, rfl⟩ := List.append_eq_nil_iff.mp hw
      exact Except.error.inj (he.symm.trans rfl)
    | cons m todo =>
      obtain ⟨hlt, hle⟩ := htodo m (List.mem_cons_self ..)
      rw [List.flatMap_cons] at hw
      cases (hfinal future).symm.trans ((Wire.packet_exact hS hlt).mpr ⟨hw, hle⟩)

end

/-! ## Runs -/

/-- The peer waits for `future`, which completes the messages `todo`. -/
structure Receives (p : Peer S) (todo : List (Message S)) (future : List UInt8) : Prop where
  request : ∃ r, p.request = some r ∧ Requested p.inBuffer r
  stream : readable p.inBuffer ++ future = todo.flatMap (Wire.packetOf S)
  stuck : (Wire.packet S ProtoKelCodec.defaultPacketSize).run (readable p.inBuffer) = .error Wire.tooSmall

section
variable {p : Peer S} {todo : List (Message S)} {data future : List UInt8}

theorem complete_receives (hS : S.wellFormed)
    (htodo : ∀ m ∈ todo, (Wire.body S m).length ≤ ProtoKelCodec.defaultPacketSize)
    (hp : Receives p todo (data ++ future)) (hans : p.answers data) (hroom : p.leavesRoom data) :
    ∃ p' ms todo', p.complete data = some (noError, p') ∧ p'.fed = p.fed ++ ms ∧ todo = ms ++ todo' ∧
      Receives p' todo' future := by
  obtain ⟨r, hreq, hR⟩ := hp.request
  obtain ⟨r', hr', h1, hmax⟩ := hans
  obtain rfl : r = r' := Option.some.inj (hreq.symm.trans hr')
  obtain ⟨b₁, b₂, h₁, h₂, hr₂, hs₂⟩ := store_advance hR h1 hmax
  have hpos : 0 < b₂.writeCompositeLength := by
    unfold leavesRoom at hroom
    rw [RingBuffer.writeCompositeLength_eq_sub, ← RingBuffer.length_readable] at hroom ⊢
    rw [hr₂, hs₂, List.length_append]
    omega
  obtain ⟨r₂, hread, hR₂⟩ := read_spec hpos
  have hlt : (readable b₂).length < 2 ^ 63 := ReadLaws.readable_lt (b := b₂) trivial
  obtain ⟨ms, e, b₃, h₃, -, hf, hu, he⟩ := ProtoKelCodec.drain_spec S ProtoKelCodec.defaultPacketSize
    (b₂.readCompositeLength + 1) b₂ trivial (by rw [RingBuffer.length_readable]; omega)
  have hsmall : ∀ m ∈ todo, (Wire.body S m).length < 2 ^ 64 := fun m hm =>
    Nat.lt_of_le_of_lt (htodo m hm) (by decide)
  obtain ⟨todo', rfl, hrest⟩ := unpacks_stream hS hu (by omega) hsmall
    (by rw [hr₂, List.append_assoc]; exact hp.stream)
  obtain rfl := stream_short hS he
    (fun m hm => ⟨hsmall m (List.mem_append_right _ hm), htodo m (List.mem_append_right _ hm)⟩) hrest
  refine ⟨{ inBuffer := b₃, request := some r₂, fed := p.fed ++ ms }, ms, todo', ?_, rfl, rfl,
    ⟨⟨r₂, rfl, hR₂.of_frame hf hu.le⟩, hrest, he⟩⟩
  obtain ⟨-, -, s, hs, -⟩ := hR₂
  have hs0 : s ≠ 0 := by
    rw [RingBuffer.writeSegmentLength_eq b₂ hpos] at hs
    have := Option.some.inj hs
    have := b₂.write_lt_size
    have := b₂.wrap_cases (b₂.writePosition + 0)
    have := b₂.writeCompositeLength_le
    omega
  simp [complete, hreq, h₁, readDone, h₂, hs, hs0, hread, h₃, Wire.tooSmall]

theorem complete_full (hp : Receives p todo (data ++ future)) (hans : p.answers data) (hfull : ¬ p.leavesRoom data) :
    ∃ p', p.complete data = some (criticalError "Message too long", p') := by
  obtain ⟨r, hreq, hR⟩ := hp.request
  obtain ⟨r', hr', h1, hmax⟩ := hans
  obtain rfl : r = r' := Option.some.inj (hreq.symm.trans hr')
  obtain ⟨b₁, b₂, h₁, h₂, hr₂, hs₂⟩ := store_advance hR h1 hmax
  have hzero : b₂.writeCompositeLength = 0 := by
    unfold leavesRoom at hfull
    rw [RingBuffer.writeCompositeLength_eq_sub, ← RingBuffer.length_readable] at hfull ⊢
    rw [hr₂, hs₂, List.length_append]
    omega
  refine ⟨{ inBuffer := b₂, request := none, fed := p.fed }, ?_⟩
  simp [complete, hreq, h₁, readDone, h₂, b₂.writeSegmentLength_full hzero]

end

theorem Receives.done (hS : S.wellFormed) {p : Peer S} {todo : List (Message S)}
    (htodo : ∀ m ∈ todo, (Wire.body S m).length ≤ ProtoKelCodec.defaultPacketSize) (hp : Receives p todo []) :
    todo = [] := by
  cases todo with
  | nil => rfl
  | cons m todo =>
    have hle := htodo m (List.mem_cons_self ..)
    have hlt : (Wire.body S m).length < 2 ^ 64 := Nat.lt_of_le_of_lt hle (by decide)
    have hw := hp.stream
    rw [List.append_nil, List.flatMap_cons] at hw
    cases hp.stuck.symm.trans ((Wire.packet_exact hS hlt).mpr ⟨hw, hle⟩)

theorem new_receives {n : Nat} {h : n < 2 ^ 63} {p : Peer S} (hp : new n h = some p) (todo : List (Message S)) :
    Receives p todo (todo.flatMap (Wire.packetOf S)) ∧ p.fed = [] := by
  have hnil := (RingBuffer.new_represents n h).readable
  rcases Nat.eq_zero_or_pos (RingBuffer.new n h).writeCompositeLength with h0 | hpos
  · simp [new, read, RingBuffer.write, h0, assert] at hp
  · obtain ⟨r, hr, hR⟩ := read_spec hpos
    simp only [new, hr, Option.bind_eq_bind, Option.bind_some, Option.pure_def, Option.some.injEq] at hp
    subst hp
    refine ⟨⟨⟨r, rfl, hR⟩, ?_, ?_⟩, rfl⟩
    · rw [hnil]
      rfl
    · rw [hnil]
      rfl

section
variable (hS : S.wellFormed) (future : List UInt8)
include hS

theorem run_receives : ∀ (chunks : List (List UInt8)) (p : Peer S) (todo : List (Message S)),
    (∀ m ∈ todo, (Wire.body S m).length ≤ ProtoKelCodec.defaultPacketSize) →
    Receives p todo (chunks.flatten ++ future) → Run.Along complete answers p chunks →
    Run.Along complete leavesRoom p chunks →
    ∃ errors p' ms, Run.exec complete p chunks = some (errors, p') ∧ (∀ e ∈ errors, e.failed = false) ∧
      p'.fed = p.fed ++ ms ∧ ms <+: todo ∧ (future = [] → ms = todo)
  | [], p, todo, htodo, hp, _, _ => by
    refine ⟨[], p, [], rfl, by simp, (List.append_nil _).symm, List.nil_prefix, ?_⟩
    rintro rfl
    exact (hp.done hS htodo).symm
  | data :: chunks, p, todo, htodo, hp, hans, hroom => by
    rw [List.flatten_cons, List.append_assoc] at hp
    obtain ⟨p₁, ms₁, todo', h₁, hfed₁, rfl, hp₁⟩ := complete_receives hS htodo hp hans.1 hroom.1
    obtain ⟨errors, p', ms, hrun, hok, hfed, hsofar, hend⟩ := run_receives chunks p₁ todo'
      (fun m hm => htodo m (List.mem_append_right _ hm)) hp₁ (hans.2 _ _ h₁) (hroom.2 _ _ h₁)
    refine ⟨noError :: errors, p', ms₁ ++ ms, by rw [Run.exec_cons h₁, hrun]; rfl, ?_, ?_, ?_, ?_⟩
    · intro e he
      rcases List.mem_cons.mp he with rfl | he
      · rfl
      · exact hok e he
    · rw [hfed, hfed₁, List.append_assoc]
    · exact (List.prefix_append_right_inj ms₁).mpr hsofar
    · intro hf
      rw [hend hf]

theorem run_leavesRoom : ∀ (chunks : List (List UInt8)) (p p' : Peer S) (todo : List (Message S))
    (errors : List Error), (∀ m ∈ todo, (Wire.body S m).length ≤ ProtoKelCodec.defaultPacketSize) →
    Receives p todo (chunks.flatten ++ future) → Run.Along complete answers p chunks →
    Run.exec complete p chunks = some (errors, p') → (∀ e ∈ errors, e.failed = false) →
    Run.Along complete leavesRoom p chunks
  | [], _, _, _, _, _, _, _, _, _ => trivial
  | data :: chunks, p, p', todo, errors, htodo, hp, hans, hrun, hok => by
    rw [List.flatten_cons, List.append_assoc] at hp
    have hroom : p.leavesRoom data := by
      refine Classical.byContradiction fun hfull => ?_
      obtain ⟨p₁, h₁⟩ := complete_full hp hans.1 hfull
      rw [Run.exec_cons h₁] at hrun
      obtain ⟨⟨os, p₂⟩, -, heq⟩ := Option.map_eq_some_iff.mp hrun
      obtain ⟨rfl, -⟩ := Prod.mk.inj heq
      cases hok _ (List.mem_cons_self ..)
    refine ⟨hroom, fun e p₁ h₁ => ?_⟩
    obtain ⟨p₂, ms, todo', h₂, -, rfl, hp₂⟩ := complete_receives hS htodo hp hans.1 hroom
    obtain ⟨rfl, rfl⟩ := Prod.mk.inj (Option.some.inj (h₂.symm.trans h₁))
    rw [Run.exec_cons h₁] at hrun
    obtain ⟨⟨os, p₃⟩, hrest, heq⟩ := Option.map_eq_some_iff.mp hrun
    obtain ⟨rfl, rfl⟩ := Prod.mk.inj heq
    exact run_leavesRoom chunks p₂ p₃ todo' os (fun m hm => htodo m (List.mem_append_right _ hm)) hp₂
      (hans.2 _ _ h₁) hrest fun e he => hok e (List.mem_cons_of_mem _ he)

end

theorem new_some {n : Nat} (h : n < 2 ^ 63) (hn : 0 < n) : ∃ p : Peer S, new n h = some p := by
  have hpos : 0 < (RingBuffer.new n h).writeCompositeLength := by
    rw [(RingBuffer.new_represents n h).writeCompositeLength]
    exact hn
  obtain ⟨r, hr, -⟩ := read_spec hpos
  exact ⟨⟨RingBuffer.new n h, some r, []⟩,
    by simp only [new, hr, Option.bind_eq_bind, Option.bind_some, Option.pure_def]⟩

/-- **Every message arrives exactly when no completion fills the ring.** The
stream has delivered `chunks` so far and `future` is still to come. -/
theorem peer_receives_iff (S : Schema) (hS : S.wellFormed) (n : Nat) (h : n < 2 ^ 63) (hn : 0 < n)
    (messages : List (Message S)) (hmessages : ∀ m ∈ messages, 8 + (Wire.body S m).length < n ∧
      (Wire.body S m).length ≤ ProtoKelCodec.defaultPacketSize) :
    ∃ p : Peer S, new n h = some p ∧ ∀ (chunks : List (List UInt8)) (future : List UInt8),
      chunks.flatten ++ future = messages.flatMap (Wire.packetOf S) → Run.Along complete answers p chunks →
      ((∃ errors p', Run.exec complete p chunks = some (errors, p') ∧ (∀ e ∈ errors, e.failed = false) ∧
        p'.fed <+: messages ∧ (future = [] → p'.fed = messages)) ↔ Run.Along complete leavesRoom p chunks) := by
  obtain ⟨p, hp⟩ := new_some (S := S) h hn
  refine ⟨p, hp, fun chunks future hstream hanswers => ?_⟩
  obtain ⟨hrec, hfed⟩ := new_receives hp messages
  rw [← hstream] at hrec
  have hsize := fun m hm => (hmessages m hm).2
  constructor
  · rintro ⟨errors, p', hrun, hok, -⟩
    exact run_leavesRoom hS future chunks p p' messages errors hsize hrec hanswers hrun hok
  · intro hroom
    obtain ⟨errors, p', ms, hrun, hok, hfed', hsofar, hend⟩ :=
      run_receives hS future chunks p messages hsize hrec hanswers hroom
    rw [hfed, List.nil_append] at hfed'
    exact ⟨errors, p', hrun, hok, by rwa [hfed'], by rwa [hfed']⟩

def twoBytes : List UInt8 := [1, 0, 0, 0, 0, 0, 0, 0, 7, 1, 0, 0, 0, 0, 0, 0, 0, 8]

def twoMessages : List (Message (.primitive .uint8)) := [(7 : BitVec 8), (8 : BitVec 8)]

theorem twoMessages_small {n : Nat} (hn : 9 < n) : ∀ m ∈ twoMessages, 8 + (Wire.body (.primitive .uint8) m).length < n ∧
    (Wire.body (.primitive .uint8) m).length ≤ ProtoKelCodec.defaultPacketSize := by
  intro m _
  have hlen : (Wire.body (.primitive .uint8) m).length = 1 := length_leBits (w := 1) m
  rw [hlen]
  exact ⟨hn, by decide⟩

/-- A ring of eighteen bytes has room for both, but not all at once. -/
theorem peer_receives_fails : ¬ ∀ (S : Schema) (n : Nat) (h : n < 2 ^ 63) (p : Peer S) (messages : List (Message S))
    (chunks : List (List UInt8)), S.wellFormed → new n h = some p →
    (∀ m ∈ messages, 8 + (Wire.body S m).length < n ∧
      (Wire.body S m).length ≤ ProtoKelCodec.defaultPacketSize) →
    chunks.flatten = messages.flatMap (Wire.packetOf S) → Run.Along complete answers p chunks →
    ∃ errors p', Run.exec complete p chunks = some (errors, p') ∧ (∀ e ∈ errors, e.failed = false) ∧
      p'.fed = messages := by
  intro h
  let p : Peer (.primitive .uint8) := ⟨RingBuffer.new 18 (by decide), some (0, 18), []⟩
  have hp : new 18 (by decide) = some p := rfl
  have hans : Run.Along complete answers p [twoBytes] :=
    ⟨⟨(0, 18), rfl, by decide, by decide⟩, fun _ _ _ => trivial⟩
  have hsmall := twoMessages_small (n := 18) (by decide)
  have hw : twoMessages.flatMap (Wire.packetOf (.primitive .uint8)) = [twoBytes].flatten := by decide
  obtain ⟨errors, p', hrun, hok, -⟩ := h (.primitive .uint8) 18 (by decide) p twoMessages [twoBytes] rfl hp hsmall
    hw.symm hans
  have hrec := (new_receives hp twoMessages).1
  rw [hw, ← List.append_nil [twoBytes].flatten] at hrec
  have hroom := run_leavesRoom (S := .primitive .uint8) rfl [] [twoBytes] p p' twoMessages errors
    (fun m hm => (hsmall m hm).2) hrec hans hrun hok
  exact absurd (show 18 < p.inBuffer.writeCompositeLength from hroom.1) (by decide)

theorem peer_receives_iff_roomy : ∃ (p : Peer (.primitive .uint8)) (errors : List Error)
    (p' : Peer (.primitive .uint8)), new 32 (by decide) = some p ∧
      Run.exec complete p [twoBytes] = some (errors, p') ∧ p'.fed = twoMessages := by
  obtain ⟨p, hp, h⟩ := peer_receives_iff (.primitive .uint8) rfl 32 (by decide) (by decide) twoMessages
    (twoMessages_small (by decide))
  obtain rfl : (⟨RingBuffer.new 32 (by decide), some (0, 32), []⟩ : Peer (.primitive .uint8)) = p :=
    Option.some.inj hp
  obtain ⟨errors, p', hrun, -, -, hend⟩ := (h [twoBytes] [] (by decide)
    ⟨⟨(0, 32), rfl, by decide, by decide⟩, fun _ _ _ => trivial⟩).mpr
    ⟨show 18 < (RingBuffer.new 32 (by decide)).writeCompositeLength by decide, fun _ _ _ => trivial⟩
  exact ⟨_, errors, p', hp, hrun, hend rfl⟩

end Peer

end Forstio
