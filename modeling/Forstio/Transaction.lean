import Forstio.AnyBuffer
import Forstio.RingFifo

/-!
# A view is a transaction

The same calls are made on a buffer and on a fresh view of it. The calls on
the buffer move its positions each time; those on the view only add up an
offset. Handing the offset over in the end leads to where the direct calls
lead, and dropping the view leads back.
-/

namespace Forstio

open Buffer

/-- A bulk push takes its bytes from one object, which is shorter than `2 ^ 63`. -/
inductive PushCall where
  | byte (value : UInt8)
  | bytes (data : List UInt8) (small : data.length < 2 ^ 63)

def PushCall.data : PushCall → List UInt8
  | .byte value => [value]
  | .bytes data _ => data

inductive PopCall where
  | byte (value : UInt8)
  | bytes (size : Nat)

/-- What a call answers over the readable bytes, and how many of them it takes. -/
def PopCall.outcome : PopCall → List UInt8 → (Error × List UInt8) × Nat
  | .byte value, [] => ((recoverableError "Buffer too small", [value]), 0)
  | .byte _, x :: _ => ((noError, [x]), 1)
  | .bytes size, bs =>
    if size ≤ bs.length then ((noError, bs.take size), size) else ((recoverableError "Buffer too small", []), 0)

namespace Buffer

variable {β : Type} [Buffer β]

def pushCall (b : β) : PushCall → Option (Error × β)
  | .byte value => pushByte b value
  | .bytes data _ => push b data

/-- The answer is the error with the caller's bytes after the call. -/
def popCall (b : β) : PopCall → Option ((Error × List UInt8) × β)
  | .byte value => do
    let (error, value, b) ← popByte b value
    return ((error, [value]), b)
  | .bytes size => do
    let (error, bytes, b) ← pop b size
    return ((error, bytes), b)

end Buffer

/-! ## Pushing -/

/-- `b'` is `b` with the bytes `w` pushed. -/
structure Pushed {β : Type} [Buffer β] [WriteLaws β] (b b' : β) (w : List UInt8) : Prop where
  valid : WriteValid b'
  writable : writable b' = (writable b).drop w.length
  written : written b' = written b ++ w
  fits : w.length ≤ (Forstio.writable b).length
  frame : WriteFrame b b'

section
variable {β : Type} [Buffer β] [WriteLaws β]

theorem Pushed.refl {b : β} (h : WriteValid b) : Pushed b b [] :=
  ⟨h, rfl, (List.append_nil _).symm, Nat.zero_le _, WriteLaws.frame_refl b⟩

theorem Pushed.trans {b₁ b₂ b₃ : β} {w w' : List UInt8} (h : Pushed b₁ b₂ w) (h' : Pushed b₂ b₃ w') :
    Pushed b₁ b₃ (w ++ w') := by
  refine ⟨h'.valid, ?_, ?_, ?_, WriteLaws.frame_trans h.frame h'.frame⟩
  · rw [h'.writable, h.writable, List.drop_drop, List.length_append]
  · rw [h'.written, h.written, List.append_assoc]
  · have h₁ := h.fits
    have h₂ := h'.fits
    rw [h.writable, List.length_drop] at h₂
    rw [List.length_append]
    omega

theorem pushCall_spec {b : β} (hb : WriteValid b) (c : PushCall) :
    (c.data.length ≤ (writable b).length → ∃ b', pushCall b c = some (noError, b') ∧ Pushed b b' c.data) ∧
      ((writable b).length < c.data.length → pushCall b c = some (recoverableError "Buffer too small", b)) := by
  cases c with
  | byte value =>
    refine ⟨fun h => ?_, fun h => ?_⟩
    · obtain ⟨b', hb', hv, hw, ho, hf⟩ := (pushByte_spec hb value).1 (List.length_pos_iff.mp h)
      exact ⟨b', hb', hv, hw, ho, h, hf⟩
    · exact (pushByte_spec hb value).2 (List.length_eq_zero_iff.mp (Nat.lt_one_iff.mp h))
  | bytes data small =>
    have hroom := WriteLaws.room hb
    have hspec := push_spec hb data (by omega)
    refine ⟨fun h => ?_, hspec.2⟩
    obtain ⟨b', hb', hv, hw, ho, hf⟩ := hspec.1 h
    exact ⟨b', hb', hv, hw, ho, h, hf⟩

end

section
variable {β γ : Type} [Buffer β] [WriteLaws β] [Buffer γ] [WriteLaws γ]

def BothPushed (b : β) (c : γ) (b' : β) (c' : γ) : Prop := ∃ w, Pushed b b' w ∧ Pushed c c' w

theorem pushCall_agrees {b b' : β} {c c' : γ} (hroom : (writable b).length = (writable c).length)
    (h : BothPushed b c b' c') (call : PushCall) :
    ∃ e b'' c'', pushCall b' call = some (e, b'') ∧ pushCall c' call = some (e, c'') ∧ BothPushed b c b'' c'' := by
  obtain ⟨w, hb, hc⟩ := h
  obtain ⟨hfit, hfull⟩ := pushCall_spec hb.valid call
  obtain ⟨hfit', hfull'⟩ := pushCall_spec hc.valid call
  have hleft : (writable b').length = (writable c').length := by
    rw [hb.writable, hc.writable, List.length_drop, List.length_drop, hroom]
  by_cases h : call.data.length ≤ (writable b').length
  · obtain ⟨b'', h₁, hp₁⟩ := hfit h
    obtain ⟨c'', h₂, hp₂⟩ := hfit' (by omega)
    exact ⟨noError, b'', c'', h₁, h₂, w ++ call.data, hb.trans hp₁, hc.trans hp₂⟩
  · exact ⟨_, b', c', hfull (by omega), hfull' (by omega), w, hb, hc⟩

theorem pushes_agree {b : β} {c : γ} (hb : WriteValid b) (hc : WriteValid c)
    (hroom : (writable b).length = (writable c).length) (calls : List PushCall) :
    ∃ errors b' c', Run.exec pushCall b calls = some (errors, b') ∧ Run.exec pushCall c calls = some (errors, c') ∧
      BothPushed b c b' c' :=
  Run.exec_agrees (BothPushed b c) (fun _ _ call h => pushCall_agrees hroom h call) calls b c
    ⟨[], Pushed.refl hb, Pushed.refl hc⟩

end

section
variable {β : Type} [Buffer β] [WriteLaws β] {b : β} {v : BufferView β} {w : List UInt8}

/-- What a fresh view has claimed stands at the front of the free memory. -/
theorem Pushed.claimed (h : Pushed (BufferView.new b) v w) :
    v.writeOffset = w.length ∧ Forstio.writable v.buffer = w ++ (Forstio.writable b).drop w.length ∧
      Forstio.written v.buffer = Forstio.written b ∧ WriteFrame b v.buffer ∧ WriteValid v.buffer := by
  obtain ⟨hb, hle⟩ : WriteValid v.buffer ∧ v.writeOffset ≤ (Forstio.writable v.buffer).length := h.valid
  obtain ⟨-, hw, hf⟩ : _ ∧ Forstio.written v.buffer = Forstio.written b ∧ WriteFrame b v.buffer := h.frame
  have hout : Forstio.written v.buffer ++ (Forstio.writable v.buffer).take v.writeOffset =
      Forstio.written b ++ (Forstio.writable b).take 0 ++ w := h.written
  rw [hw, List.take_zero, List.append_nil, List.append_cancel_left_eq] at hout
  have hoff : v.writeOffset = w.length := by
    rw [← hout, List.length_take, Nat.min_eq_left hle]
  have hrest : (Forstio.writable v.buffer).drop v.writeOffset = (Forstio.writable b).drop w.length := h.writable
  refine ⟨hoff, ?_, hw, hf, hb⟩
  conv_lhs => rw [← List.take_append_drop v.writeOffset (Forstio.writable v.buffer)]
  rw [hout, hrest]

end

/-! ## Popping -/

section
variable {β γ : Type} [Buffer β] [ReadLaws β] [Buffer γ] [ReadLaws γ]

/-- Both were read up to the same byte. -/
structure BothPopped (b : β) (c : γ) (b' : β) (c' : γ) : Prop where
  left : ReadValid b'
  right : ReadValid c'
  readable : readable b' = readable c'
  frame_left : ReadFrame b b'
  frame_right : ReadFrame c c'

theorem popCall_spec {b : β} (hb : ReadValid b) (call : PopCall) :
    ∃ b', popCall b call = some ((call.outcome (readable b)).1, b') ∧ ReadValid b' ∧
      readable b' = (readable b).drop (call.outcome (readable b)).2 ∧ ReadFrame b b' := by
  cases call with
  | byte value =>
    cases hr : readable b with
    | nil =>
      have h := (popByte_spec hb value).2 hr
      exact ⟨b, by simp [popCall, h, PopCall.outcome], hb, hr, ReadLaws.frame_refl b⟩
    | cons x rest =>
      obtain ⟨b', h, hb', hr', hf⟩ := (popByte_spec hb value).1 x rest hr
      exact ⟨b', by simp [popCall, h, PopCall.outcome], hb', hr', hf⟩
  | bytes size =>
    have hout : (PopCall.bytes size).outcome (readable b) = if size ≤ (readable b).length
        then ((noError, (readable b).take size), size) else ((recoverableError "Buffer too small", []), 0) := rfl
    by_cases hs : size ≤ (readable b).length
    · rw [hout, if_pos hs]
      obtain ⟨b', h, hb', hr', hf⟩ := (pop_spec hb size).1 hs
      exact ⟨b', by simp [popCall, h], hb', hr', hf⟩
    · rw [hout, if_neg hs]
      have h := (pop_spec hb size).2 (Nat.not_le.mp hs)
      exact ⟨b, by simp [popCall, h], hb, rfl, ReadLaws.frame_refl b⟩

theorem popCall_agrees {b b' : β} {c c' : γ} (h : BothPopped b c b' c') (call : PopCall) :
    ∃ answer b'' c'', popCall b' call = some (answer, b'') ∧ popCall c' call = some (answer, c'') ∧
      BothPopped b c b'' c'' := by
  obtain ⟨b'', hb, hv, hr, hf⟩ := popCall_spec h.left call
  obtain ⟨c'', hc, hv', hr', hf'⟩ := popCall_spec h.right call
  rw [← h.readable] at hc hr'
  exact ⟨_, b'', c'', hb, hc, hv, hv', hr.trans hr'.symm, ReadLaws.frame_trans h.frame_left hf,
    ReadLaws.frame_trans h.frame_right hf'⟩

theorem pops_agree {b : β} {c : γ} (hb : ReadValid b) (hc : ReadValid c) (h : readable b = readable c)
    (calls : List PopCall) :
    ∃ answers b' c', Run.exec popCall b calls = some (answers, b') ∧ Run.exec popCall c calls = some (answers, c') ∧
      BothPopped b c b' c' :=
  Run.exec_agrees (BothPopped b c) (fun _ _ call h => popCall_agrees h call) calls b c
    ⟨hb, hc, h, ReadLaws.frame_refl b, ReadLaws.frame_refl c⟩

end

/-! ## Commit and rollback -/

namespace AnyBuffer

/-- Same kind, capacity, positions, flag and readable bytes; free memory may differ. -/
def SameState : AnyBuffer → AnyBuffer → Prop
  | ring b, ring b' => b.size = b'.size ∧ b.readPosition = b'.readPosition ∧ b.writePosition = b'.writePosition ∧
    b.writeReachedRead = b'.writeReachedRead ∧ readable b = readable b'
  | array b, array b' => b.size = b'.size ∧ b.readPosition = b'.readPosition ∧ b.writePosition = b'.writePosition ∧
    readable b = readable b'
  | _, _ => False

theorem sameState_of_frames : ∀ {a b b' : AnyBuffer}, WriteFrame a b → WriteFrame a b' →
    written b = written b' → (writable b).length = (writable b').length → SameState b b'
  | ring a, ring b, ring b', h, h', hr, hw => by
    have hr : readable b = readable b' := hr
    have hw : (writable b).length = (writable b').length := hw
    have hsz : b.size = b'.size := by rw [b.size_eq, b'.size_eq, hr, hw]
    have hlen : b.readCompositeLength = b'.readCompositeLength := by
      rw [← RingBuffer.length_readable, ← RingBuffer.length_readable, hr]
    obtain ⟨hp, hq, hflag⟩ := RingBuffer.positions_eq hsz hlen (Or.inl (h.trans h'.symm))
    exact ⟨hsz, hp, hq, hflag, hr⟩
  | array a, array b, array b', h, h', hr, hw => by
    have hr : readable b = readable b' := hr
    have hw : (b.buffer.drop b.writePosition).length = (b'.buffer.drop b'.writePosition).length := hw
    have hp : b.readPosition = b'.readPosition := h.trans h'.symm
    have hlen := congrArg List.length hr
    have h₁ := b.length_slice_read
    have h₂ := b'.length_slice_read
    have hlen : b.readCompositeLength = b'.readCompositeLength := h₁.symm.trans (hlen.trans h₂)
    have := b.read_le
    have := b'.read_le
    have := b.write_le
    have := b'.write_le
    rw [List.length_drop, List.length_drop] at hw
    unfold ArrayBuffer.readCompositeLength at hlen
    refine ⟨?_, hp, by omega, hr⟩
    show b.buffer.length = b'.buffer.length
    omega

theorem eq_of_frames : ∀ {a b b' : AnyBuffer}, ReadFrame a b → ReadFrame a b' → readable b = readable b' → b = b'
  | ring _, ring _, ring _, h, h', hr => congrArg ring (RingBuffer.eq_of_frame h h' hr)
  | array _, array b, array b', h, h', hr => by
    have hbuf : b.buffer = b'.buffer := h.1.trans h'.1.symm
    have hw : b.writePosition = b'.writePosition := h.2.trans h'.2.symm
    have hlen : b.readCompositeLength = b'.readCompositeLength :=
      b.length_slice_read.symm.trans ((congrArg List.length hr).trans b'.length_slice_read)
    have := b.read_le
    have := b'.read_le
    unfold ArrayBuffer.readCompositeLength at hlen
    have hp : b.readPosition = b'.readPosition := by omega
    cases b
    cases b'
    simp_all

end AnyBuffer

/-- **A view is a transaction.** -/
theorem view_is_transaction (b : AnyBuffer) :
    (∀ calls : List PushCall, ∃ errors copy v, Run.exec pushCall b calls = some (errors, copy) ∧
      Run.exec pushCall (BufferView.new b) calls = some (errors, v) ∧
      (0 < v.writeOffset → ∃ b', writeAdvance v.buffer v.writeOffset = some b' ∧ b'.SameState copy) ∧
      (v.writeOffset = 0 → v.buffer.SameState copy) ∧ v.buffer.SameState b) ∧
    (∀ calls : List PopCall, ∃ answers copy v, Run.exec popCall b calls = some (answers, copy) ∧
      Run.exec popCall (BufferView.new b) calls = some (answers, v) ∧
      readAdvance v.buffer v.readOffset = some copy ∧ v.buffer = b) := by
  refine ⟨fun calls => ?_, fun calls => ?_⟩
  · have hnew : WriteValid (BufferView.new b) := ⟨trivial, Nat.zero_le _⟩
    obtain ⟨errors, copy, v, h, h', w, hb, hv⟩ := pushes_agree (b := b) trivial hnew rfl calls
    obtain ⟨hoff, hfree, hwritten, hframe, -⟩ := hv.claimed
    have hlen : (writable v.buffer).length = (writable b).length := by
      have := hb.fits
      rw [hfree, List.length_append, List.length_drop]
      omega
    refine ⟨errors, copy, v, h, h', fun hpos => ?_, fun hzero => ?_, ?_⟩
    · obtain ⟨b', hadv, -, hw, ho, hf⟩ := WriteLaws.writeAdvance_eq (b := v.buffer) (k := v.writeOffset) trivial hpos
        (by rw [hfree, hoff, List.length_append]; exact Nat.le_add_right _ _)
      refine ⟨b', hadv, AnyBuffer.sameState_of_frames (WriteLaws.frame_trans hframe hf) hb.frame ?_ ?_⟩
      · rw [ho, hwritten, hfree, hoff, List.take_left, hb.written]
      · rw [hw, hfree, hoff, List.drop_left, hb.writable]
    · obtain rfl : w = [] := List.length_eq_zero_iff.mp (hoff.symm.trans hzero)
      refine AnyBuffer.sameState_of_frames hframe hb.frame ?_ ?_
      · rw [hwritten, hb.written, List.append_nil]
      · rw [hlen, hb.writable]
        rfl
    · exact AnyBuffer.sameState_of_frames hframe (WriteLaws.frame_refl b) hwritten hlen
  · have hnew : ReadValid (BufferView.new b) := ⟨trivial, Nat.zero_le _⟩
    obtain ⟨answers, copy, v, h, h', hboth⟩ := pops_agree (b := b) trivial hnew rfl calls
    have hbuf : v.buffer = b := hboth.frame_right.1
    obtain ⟨-, hle⟩ : _ ∧ v.readOffset ≤ (readable v.buffer).length := hboth.right
    obtain ⟨b', hadv, -, hr, hf⟩ := ReadLaws.readAdvance_eq (b := v.buffer) trivial hle
    have hsame : b' = copy :=
      AnyBuffer.eq_of_frames (hbuf ▸ hf) hboth.frame_left (hr.trans hboth.readable.symm)
    exact ⟨answers, copy, v, h, h', by rw [hadv, hsame], hbuf⟩

end Forstio
