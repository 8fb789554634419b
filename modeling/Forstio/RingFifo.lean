import Forstio.RingBuffer
import Forstio.Lib.Fifo
import Forstio.Lib.Run

/-!
# The ring buffer is a bounded byte queue

Every sequence of single and bulk pushes and pops on a fresh ring of capacity
`n` answers as a `Fifo` of `n` bytes does: no assert fails, no copy leaves the
backing vector and no copy loop runs on. The bulk operations leave the very
ring that the single-byte ones leave.
-/

namespace Forstio

open Buffer Memory

inductive BufferOp where
  | pushByte (value : UInt8)
  | push (data : List UInt8)
  | popByte (value : UInt8)
  | pop (size : Nat)

namespace Buffer

variable {β : Type} [Buffer β]

/-- One call, with its error and the caller's bytes after it. -/
def step (b : β) : BufferOp → Option ((Error × List UInt8) × β)
  | .pushByte value => do
    let (error, b) ← pushByte b value
    return ((error, []), b)
  | .push data => do
    let (error, b) ← push b data
    return ((error, []), b)
  | .popByte value => do
    let (error, value, b) ← popByte b value
    return ((error, [value]), b)
  | .pop size => do
    let (error, bytes, b) ← pop b size
    return ((error, bytes), b)

def pushEach : β → List UInt8 → Option (Error × β)
  | b, [] => some (noError, b)
  | b, value :: data => do
    let (error, b) ← pushByte b value
    if error.failed then return (error, b) else pushEach b data

def popEach : β → Nat → Option (Error × List UInt8 × β)
  | b, 0 => some (noError, [], b)
  | b, size + 1 => do
    let (error, value, b) ← popByte b 0
    if error.failed then return (error, [], b)
    else
      let (error, bytes, b) ← popEach b size
      return (error, value :: bytes, b)

theorem pushEach_spec [WriteLaws β] : ∀ (data : List UInt8) (b : β), WriteValid b →
    data.length ≤ (writable b).length → ∃ b', pushEach b data = some (noError, b') ∧
      writable b' = (writable b).drop data.length ∧ written b' = written b ++ data ∧
      WriteFrame b b'
  | [], b, _, _ => ⟨b, rfl, rfl, (List.append_nil _).symm, WriteLaws.frame_refl b⟩
  | value :: data, b, hb, h => by
    have hne : writable b ≠ [] := by intro he; simp [he] at h
    obtain ⟨b₁, h₁, hb₁, hw₁, ho₁, hp₁⟩ := (pushByte_spec hb value).1 hne
    have hlen : data.length ≤ (writable b₁).length := by
      rw [hw₁, List.length_drop]
      simp only [List.length_cons] at h
      omega
    obtain ⟨b₂, h₂, hw₂, ho₂, hp₂⟩ := pushEach_spec data b₁ hb₁ hlen
    refine ⟨b₂, by simp [pushEach, h₁, h₂], ?_, ?_, WriteLaws.frame_trans hp₁ hp₂⟩
    · rw [hw₂, hw₁, List.drop_drop, List.length_cons, Nat.add_comm]
    · rw [ho₂, ho₁, List.append_assoc, List.singleton_append]

theorem popEach_spec [ReadLaws β] : ∀ (size : Nat) (b : β), ReadValid b → size ≤ (readable b).length →
    ∃ b', popEach b size = some (noError, (readable b).take size, b') ∧
      readable b' = (readable b).drop size ∧ ReadFrame b b'
  | 0, b, _, _ => ⟨b, rfl, rfl, ReadLaws.frame_refl b⟩
  | size + 1, b, hb, h => by
    cases hr : readable b with
    | nil => simp [hr] at h
    | cons x rest =>
      obtain ⟨b₁, h₁, hb₁, hr₁, hf₁⟩ := (popByte_spec hb 0).1 x rest hr
      obtain ⟨b₂, h₂, hr₂, hf₂⟩ := popEach_spec size b₁ hb₁ (by rw [hr₁]; simpa [hr] using h)
      refine ⟨b₂, by simp [popEach, h₁, h₂, hr₁], ?_, ReadLaws.frame_trans hf₁ hf₂⟩
      rw [hr₂, hr₁]
      rfl

end Buffer

/-! ## A ring is determined by what it shows -/

namespace RingBuffer

theorem size_eq (b : RingBuffer) : b.size = (readable b).length + (writable b).length := by
  have := b.readCompositeLength_le
  rw [length_readable, length_writable]
  omega

theorem full_iff (b : RingBuffer) : b.writeReachedRead = true ↔ b.readCompositeLength = b.size ∧ 0 < b.size := by
  have hr := b.read_lt_size
  have hw := b.write_lt_size
  rcases b.shape with ⟨h, hf, hl, -⟩ | ⟨-, hf, hpos, hl, -⟩ | ⟨h, hf, hl, -⟩
  · simp only [hf, Bool.false_eq_true, false_iff]
    omega
  · exact ⟨fun _ => ⟨hl, hpos⟩, fun _ => hf⟩
  · simp only [hf, Bool.false_eq_true, false_iff]
    omega

/-- Both positions and the flag follow from the capacity, one position and the
number of readable bytes. -/
theorem positions_eq {b b' : RingBuffer} (hsz : b.size = b'.size)
    (hlen : b.readCompositeLength = b'.readCompositeLength)
    (hpos : b.readPosition = b'.readPosition ∨ b.writePosition = b'.writePosition) :
    b.readPosition = b'.readPosition ∧ b.writePosition = b'.writePosition ∧
      b.writeReachedRead = b'.writeReachedRead := by
  have hflag : b.writeReachedRead = b'.writeReachedRead := by
    rw [Bool.eq_iff_iff, full_iff, full_iff, hlen, hsz]
  have hle := b.readCompositeLength_le
  have hr := b.read_lt_size
  have hr' := b'.read_lt_size
  have hw := b.write_lt_size
  have hw' := b'.write_lt_size
  have hboth : b.readPosition = b'.readPosition ∧ b.writePosition = b'.writePosition := by
    rcases Nat.eq_zero_or_pos b.size with hz | hn
    · omega
    · have h := b.writePosition_eq hn
      have h' := b'.writePosition_eq (by omega)
      have hp := b.wrap_cases (b.readPosition + b.readCompositeLength)
      have hp' := b'.wrap_cases (b'.readPosition + b'.readCompositeLength)
      omega
  exact ⟨hboth.1, hboth.2, hflag⟩

theorem eq_of_buffer {b b' : RingBuffer} (hbuf : b.buffer = b'.buffer)
    (hlen : b.readCompositeLength = b'.readCompositeLength)
    (hpos : b.readPosition = b'.readPosition ∨ b.writePosition = b'.writePosition) : b = b' := by
  obtain ⟨hread, hwrite, hflag⟩ := positions_eq (congrArg List.length hbuf) hlen hpos
  cases b
  cases b'
  simp_all

theorem eq_of_frame {b b₁ b₂ : RingBuffer} (h₁ : ReadFrame b b₁) (h₂ : ReadFrame b b₂)
    (hr : readable b₁ = readable b₂) : b₁ = b₂ := by
  refine eq_of_buffer (h₁.1.trans h₂.1.symm) ?_ (Or.inr (h₁.2.trans h₂.2.symm))
  rw [← length_readable, ← length_readable, hr]

theorem eq_of_lists {b₁ b₂ : RingBuffer} (hp : b₁.readPosition = b₂.readPosition)
    (hr : readable b₁ = readable b₂) (hw : writable b₁ = writable b₂) : b₁ = b₂ := by
  have hcells : b₁.cells = b₂.cells := by
    have h₁ : b₁.cells = readable b₁ ++ writable b₁ := (List.take_append_drop ..).symm
    have h₂ : b₂.cells = readable b₂ ++ writable b₂ := (List.take_append_drop ..).symm
    rw [h₁, h₂, hr, hw]
  have hbuf : b₁.buffer = b₂.buffer := by
    unfold cells at hcells
    rw [hp] at hcells
    exact List.rotate_injective _ hcells
  refine eq_of_buffer hbuf ?_ (Or.inl hp)
  rw [← length_readable, ← length_readable, hr]

theorem push_eq_pushEach {b : RingBuffer} {data : List UInt8} (h : data.length ≤ b.writeCompositeLength) :
    push b data = pushEach b data := by
  have hfit : data.length ≤ (writable b).length := by
    rwa [length_writable, ← writeCompositeLength_eq_sub]
  obtain ⟨b₁, h₁, -, hw₁, ho₁, hp₁⟩ := pushLoop_spec data.length b data trivial (Nat.le_refl _) hfit
  obtain ⟨b₂, h₂, hw₂, ho₂, hp₂⟩ := pushEach_spec data b trivial hfit
  have : b₁ = b₂ := eq_of_lists (hp₁.trans hp₂.symm) (ho₁.trans ho₂.symm) (hw₁.trans hw₂.symm)
  rw [h₂, ← this]
  simp [push, writeRequireLength_fits trivial hfit, h₁]

theorem pop_eq_popEach {b : RingBuffer} {size : Nat} (h : size ≤ b.readCompositeLength) :
    pop b size = popEach b size := by
  rw [← length_readable] at h
  obtain ⟨b₁, h₁, -, hr₁, hf₁⟩ := (pop_spec trivial size).1 h
  obtain ⟨b₂, h₂, hr₂, hf₂⟩ := popEach_spec size b trivial h
  rw [h₁, h₂, eq_of_frame hf₁ hf₂ (hr₁.trans hr₂.symm)]

/-! ## Runs -/

def fifoStep {n : Nat} (q : Fifo UInt8 n) : BufferOp → (Error × List UInt8) × Fifo UInt8 n
  | .pushByte value =>
    match q.push [value] with
    | some q => ((noError, []), q)
    | none => ((recoverableError "Buffer too small", []), q)
  | .push data =>
    match q.push data with
    | some q => ((noError, []), q)
    | none => ((recoverableError "Buffer too small", []), q)
  | .popByte value =>
    match q.pop 1 with
    | some (bytes, q) => ((noError, bytes), q)
    | none => ((recoverableError "Buffer too small", [value]), q)
  | .pop size =>
    match q.pop size with
    | some (bytes, q) => ((noError, bytes), q)
    | none => ((recoverableError "Buffer too small", []), q)

/-- The ring holds the bytes of the queue and shows nothing else. -/
structure Represents {n : Nat} (b : RingBuffer) (q : Fifo UInt8 n) : Prop where
  size : b.size = n
  readable : readable b = q.items

section
variable {n : Nat} {b : RingBuffer} {q : Fifo UInt8 n} (hR : Represents b q)
include hR

theorem Represents.free : (writable b).length = n - q.items.length := by
  rw [length_writable, ← length_readable, hR.size, hR.readable]

theorem Represents.push {b' : RingBuffer} {q' : Fifo UInt8 n} (data : List UInt8)
    (hw : writable b' = (writable b).drop data.length) (ho : written b' = written b ++ data)
    (hfit : data.length ≤ (writable b).length) (hq : q'.items = q.items ++ data) : Represents b' q' := by
  have hread : Forstio.readable b' = q.items ++ data := by
    rw [readable_eq_written, ho, ← readable_eq_written, hR.readable]
  refine ⟨?_, hread.trans hq.symm⟩
  have hsz := size_eq b
  have hn := hR.size
  rw [hR.readable] at hsz
  rw [size_eq, hw, hread, List.length_append, List.length_drop]
  omega

theorem Represents.pop {b' : RingBuffer} {q' : Fifo UInt8 n} {k : Nat}
    (hr : Forstio.readable b' = (Forstio.readable b).drop k) (hf : ReadFrame b b')
    (hq : q'.items = q.items.drop k) : Represents b' q' := by
  refine ⟨?_, by rw [hr, hR.readable, hq]⟩
  rw [RingBuffer.size, hf.1]
  exact hR.size

theorem step_refines (op : BufferOp) : ∃ b', step b op = some ((fifoStep q op).1, b') ∧
    Represents b' (fifoStep q op).2 ∧ ((fifoStep q op).1.1.failed → b' = b) := by
  have hfree := hR.free
  cases op with
  | pushByte value =>
    rcases Nat.lt_or_ge (n - q.items.length) 1 with hlt | hge
    · have hnil : writable b = [] := List.eq_nil_of_length_eq_zero (by omega)
      refine ⟨b, ?_, ?_, fun _ => rfl⟩
      · simp [step, fifoStep, Fifo.push_full [value] hlt, (pushByte_spec trivial value).2 hnil]
      · simpa [fifoStep, Fifo.push_full [value] hlt] using hR
    · have hne : writable b ≠ [] := by
        intro hnil
        rw [hnil] at hfree
        simp at hfree
        omega
      obtain ⟨b', h, -, hw, ho, -⟩ := (pushByte_spec trivial value).1 hne
      obtain ⟨q', hq, hitems⟩ := Fifo.push_fits [value] hge
      refine ⟨b', by simp [step, fifoStep, hq, h], ?_, by simp [fifoStep, hq]⟩
      simp only [fifoStep, hq]
      exact hR.push [value] hw ho (by simp; omega) hitems
  | push data =>
    rcases Nat.lt_or_ge (n - q.items.length) data.length with hlt | hge
    · have herr : push b data = some (recoverableError "Buffer too small", b) := by
        have : Buffer.writeRequireLength b data.length = some (recoverableError "Buffer too small") := by
          show some (b.writeRequireLength data.length) = _
          rw [writeRequireLength, writeCompositeLength_eq_sub, ← length_writable, if_pos (by omega)]
        simp [Buffer.push, this]
      refine ⟨b, ?_, ?_, fun _ => rfl⟩
      · simp [step, fifoStep, Fifo.push_full data hlt, herr]
      · simpa [fifoStep, Fifo.push_full data hlt] using hR
    · obtain ⟨b', h, -, hw, ho, -⟩ := pushLoop_spec data.length b data trivial (Nat.le_refl _) (by omega)
      obtain ⟨q', hq, hitems⟩ := Fifo.push_fits data hge
      have hpush : push b data = some (noError, b') := by
        simp [Buffer.push, writeRequireLength_fits (b := b) trivial (by omega : data.length ≤ _), h]
      refine ⟨b', by simp [step, fifoStep, hq, hpush], ?_, by simp [fifoStep, hq]⟩
      simp only [fifoStep, hq]
      exact hR.push data hw ho (by omega) hitems
  | popByte value =>
    cases hitems : q.items with
    | nil =>
      have hlt : q.items.length < 1 := by simp [hitems]
      refine ⟨b, ?_, by simpa [fifoStep, Fifo.pop_empty hlt] using hR, fun _ => rfl⟩
      simp [step, fifoStep, Fifo.pop_empty hlt, (popByte_spec trivial value).2 (hR.readable.trans hitems)]
    | cons x rest =>
      obtain ⟨b', h, -, hr, hf⟩ := (popByte_spec (b := b) trivial value).1 x rest (hR.readable.trans hitems)
      obtain ⟨q', hq, hq'⟩ := Fifo.pop_fits (q := q) (k := 1) (by simp [hitems])
      refine ⟨b', by simp [step, fifoStep, hq, h, hitems], ?_, by simp [fifoStep, hq]⟩
      simp only [fifoStep, hq]
      exact hR.pop (k := 1) (by rw [hr, hR.readable, hitems]; rfl) hf hq'
  | pop size =>
    rcases Nat.lt_or_ge q.items.length size with hlt | hge
    · refine ⟨b, ?_, by simpa [fifoStep, Fifo.pop_empty hlt] using hR, fun _ => rfl⟩
      simp [step, fifoStep, Fifo.pop_empty hlt, (pop_spec trivial size).2 (by rw [hR.readable]; exact hlt)]
    · obtain ⟨b', h, -, hr, hf⟩ := (pop_spec (b := b) trivial size).1 (by rw [hR.readable]; exact hge)
      obtain ⟨q', hq, hq'⟩ := Fifo.pop_fits hge
      refine ⟨b', by simp [step, fifoStep, hq, h, hR.readable], ?_, by simp [fifoStep, hq]⟩
      simp only [fifoStep, hq]
      exact hR.pop hr hf hq'

theorem Represents.readCompositeLength : b.readCompositeLength = q.items.length := by
  rw [← length_readable, hR.readable]

theorem Represents.writeCompositeLength : b.writeCompositeLength = n - q.items.length := by
  rw [writeCompositeLength_eq_sub, hR.size, hR.readCompositeLength]

end

theorem new_represents (n : Nat) (h : n < 2 ^ 63) : Represents (new n h) (Fifo.empty : Fifo UInt8 n) := by
  refine ⟨List.length_replicate, ?_⟩
  apply List.eq_nil_of_length_eq_zero
  rw [length_readable]
  simp [RingBuffer.readCompositeLength, new]

theorem represents_run (n : Nat) (h : n < 2 ^ 63) (ops : List BufferOp) :
    ∃ b, Run.exec step (new n h) ops = some ((Run.total fifoStep (Fifo.empty : Fifo UInt8 n) ops).1, b) ∧
      Represents b (Run.total fifoStep (Fifo.empty : Fifo UInt8 n) ops).2 := by
  have hstep : ∀ (b : RingBuffer) (q : Fifo UInt8 n) op, Represents b q →
      ∃ b', step b op = some ((fifoStep q op).1, b') ∧ Represents b' (fifoStep q op).2 := by
    intro b q op hR
    obtain ⟨b', h, hR', -⟩ := step_refines hR op
    exact ⟨b', h, hR'⟩
  exact Run.exec_refines_all Represents hstep ops (new n h) Fifo.empty (new_represents n h)

/-- **The ring refines a bounded byte queue.** Every run of calls on a fresh
ring completes with the answers of the queue and ends in a ring that shows
exactly the queue's bytes, that a failing call leaves as it is, and on which
bulk and single-byte calls agree. -/
theorem run_refines_fifo (n : Nat) (h : n < 2 ^ 63) (ops : List BufferOp) :
    ∃ b, Run.exec step (new n h) ops = some ((Run.total fifoStep (Fifo.empty : Fifo UInt8 n) ops).1, b) ∧
      readable b = (Run.total fifoStep (Fifo.empty : Fifo UInt8 n) ops).2.items ∧
      b.readCompositeLength = (readable b).length ∧
      b.writeCompositeLength = n - (readable b).length ∧
      (∀ i (hi : i < (readable b).length), ∃ a, b.read i = some a ∧ b.load a 1 = some [(readable b)[i]]) ∧
      (∀ op answer b', step b op = some (answer, b') → answer.1.failed → b' = b) ∧
      (∀ data, data.length ≤ b.writeCompositeLength → push b data = pushEach b data) ∧
      (∀ size, size ≤ b.readCompositeLength → pop b size = popEach b size) := by
  obtain ⟨b, hrun, hR⟩ := represents_run n h ops
  refine ⟨b, hrun, hR.readable, (length_readable b).symm, ?_, fun i hi => ?_, fun op answer b' hb hfailed => ?_,
    fun _ => push_eq_pushEach, fun _ => pop_eq_popEach⟩
  · rw [hR.writeCompositeLength, hR.readable]
  · exact read_load trivial hi
  · obtain ⟨b₁, h₁, -, hsame⟩ := step_refines hR op
    obtain ⟨rfl, rfl⟩ := Prod.mk.inj (Option.some.inj (h₁.symm.trans hb))
    exact hsame hfailed

theorem run_refines_fifo_wraps : ∃ b,
    Run.exec step (new 4 (by decide)) [.push [1, 2, 3], .pop 2, .push [4, 5, 6], .pushByte 7, .popByte 0] =
      some ([(noError, []), (noError, [1, 2]), (noError, []), (recoverableError "Buffer too small", []),
        (noError, [3])], b) ∧ readable b = [4, 5, 6] := by
  obtain ⟨b, hrun, hr, -⟩ := run_refines_fifo 4 (by decide)
    [.push [1, 2, 3], .pop 2, .push [4, 5, 6], .pushByte 7, .popByte 0]
  exact ⟨b, hrun, hr⟩

end RingBuffer

end Forstio
