import Forstio.RingBuffer
import Forstio.ArrayBuffer

/-!
# The buffers behind `Buffer &`

The codec takes its buffer by reference to the interface. What stands behind
the reference is a ring or a one-time buffer, and each call is dispatched.
-/

namespace Forstio

inductive AnyBuffer where
  | ring (b : RingBuffer)
  | array (b : ArrayBuffer)

namespace AnyBuffer

instance : Buffer AnyBuffer where
  readPosition
    | ring b => Buffer.readPosition b
    | array b => Buffer.readPosition b
  readCompositeLength
    | ring b => Buffer.readCompositeLength b
    | array b => Buffer.readCompositeLength b
  readSegmentLength
    | ring b => Buffer.readSegmentLength b
    | array b => Buffer.readSegmentLength b
  readAdvance
    | ring b => fun k => (Buffer.readAdvance b k).map ring
    | array b => fun k => (Buffer.readAdvance b k).map array
  read
    | ring b => Buffer.read b
    | array b => Buffer.read b
  writePosition
    | ring b => Buffer.writePosition b
    | array b => Buffer.writePosition b
  writeCompositeLength
    | ring b => Buffer.writeCompositeLength b
    | array b => Buffer.writeCompositeLength b
  writeSegmentLength
    | ring b => Buffer.writeSegmentLength b
    | array b => Buffer.writeSegmentLength b
  writeAdvance
    | ring b => fun k => (Buffer.writeAdvance b k).map ring
    | array b => fun k => (Buffer.writeAdvance b k).map array
  write
    | ring b => Buffer.write b
    | array b => Buffer.write b
  writeRequireLength
    | ring b => Buffer.writeRequireLength b
    | array b => Buffer.writeRequireLength b
  load
    | ring b => Buffer.load b
    | array b => Buffer.load b
  store
    | ring b => fun a xs => (Buffer.store b a xs).map ring
    | array b => fun a xs => (Buffer.store b a xs).map array

/-- `b'` is `b` after calls that keep `R`; a buffer keeps its kind. -/
def Same (R : RingBuffer → RingBuffer → Prop) (A : ArrayBuffer → ArrayBuffer → Prop) : AnyBuffer → AnyBuffer → Prop
  | ring b, ring b' => R b b'
  | array b, array b' => A b b'
  | _, _ => False

theorem same_refl {R : RingBuffer → RingBuffer → Prop} {A : ArrayBuffer → ArrayBuffer → Prop}
    (hR : ∀ b, R b b) (hA : ∀ b, A b b) : ∀ b, Same R A b b
  | ring b => hR b
  | array b => hA b

theorem same_trans {R : RingBuffer → RingBuffer → Prop} {A : ArrayBuffer → ArrayBuffer → Prop}
    (hR : ∀ {a b c}, R a b → R b c → R a c) (hA : ∀ {a b c}, A a b → A b c → A a c) :
    ∀ {a b c}, Same R A a b → Same R A b c → Same R A a c
  | ring _, ring _, ring _, h, h' => hR h h'
  | array _, array _, array _, h, h' => hA h h'

instance : ReadLaws AnyBuffer where
  ReadValid _ := True
  readable
    | ring b => readable b
    | array b => readable b
  ReadFrame := Same ReadFrame ReadFrame
  frame_refl := same_refl ReadLaws.frame_refl ReadLaws.frame_refl
  frame_trans h h' :=
    same_trans (R := ReadFrame) (A := ReadFrame) (fun h h' => ReadLaws.frame_trans h h')
      (fun h h' => ReadLaws.frame_trans h h') h h'
  readable_lt := by
    rintro (b | b) -
    · exact ReadLaws.readable_lt (b := b) trivial
    · exact ReadLaws.readable_lt (b := b) trivial
  readCompositeLength_eq := by
    rintro (b | b) -
    · exact ReadLaws.readCompositeLength_eq (b := b) trivial
    · exact ReadLaws.readCompositeLength_eq (b := b) trivial
  readSegment := by
    rintro (b | b) i - hi
    · exact ReadLaws.readSegment (b := b) trivial hi
    · exact ReadLaws.readSegment (b := b) trivial hi
  readAdvance_eq := by
    rintro (b | b) k - hk
    · obtain ⟨b', h, -, hr, hf⟩ := ReadLaws.readAdvance_eq (b := b) trivial hk
      exact ⟨ring b', congrArg (Option.map ring) h, trivial, hr, hf⟩
    · obtain ⟨b', h, -, hr, hf⟩ := ReadLaws.readAdvance_eq (b := b) trivial hk
      exact ⟨array b', congrArg (Option.map array) h, trivial, hr, hf⟩

instance : WriteLaws AnyBuffer where
  WriteValid _ := True
  writable
    | ring b => writable b
    | array b => writable b
  written
    | ring b => written b
    | array b => written b
  viewed _ := 0
  WriteFrame := Same WriteFrame WriteFrame
  frame_refl := same_refl WriteLaws.frame_refl WriteLaws.frame_refl
  frame_trans h h' :=
    same_trans (R := WriteFrame) (A := WriteFrame) (fun h h' => WriteLaws.frame_trans h h')
      (fun h h' => WriteLaws.frame_trans h h') h h'
  room := by
    rintro (b | b) -
    · exact WriteLaws.room (b := b) trivial
    · exact WriteLaws.room (b := b) trivial
  writeCompositeLength_eq := by
    rintro (b | b) -
    · exact WriteLaws.writeCompositeLength_eq (b := b) trivial
    · exact WriteLaws.writeCompositeLength_eq (b := b) trivial
  writeSegment := by
    rintro (b | b) i - hi
    · obtain ⟨s, a, hs, h0, hle, ha, hst⟩ := WriteLaws.writeSegment (b := b) trivial hi
      refine ⟨s, a, hs, h0, hle, ha, fun xs hxs => ?_⟩
      obtain ⟨b', h, -, hw⟩ := hst xs hxs
      exact ⟨ring b', congrArg (Option.map ring) h, trivial, hw⟩
    · obtain ⟨s, a, hs, h0, hle, ha, hst⟩ := WriteLaws.writeSegment (b := b) trivial hi
      refine ⟨s, a, hs, h0, hle, ha, fun xs hxs => ?_⟩
      obtain ⟨b', h, -, hw⟩ := hst xs hxs
      exact ⟨array b', congrArg (Option.map array) h, trivial, hw⟩
  writeAdvance_eq := by
    rintro (b | b) k - h0 hk
    · obtain ⟨b', h, -, hw⟩ := WriteLaws.writeAdvance_eq (b := b) trivial h0 hk
      exact ⟨ring b', congrArg (Option.map ring) h, trivial, hw⟩
    · obtain ⟨b', h, -, hw⟩ := WriteLaws.writeAdvance_eq (b := b) trivial h0 hk
      exact ⟨array b', congrArg (Option.map array) h, trivial, hw⟩
  writeRequireLength_eq := by
    rintro (b | b) k - hk
    · exact WriteLaws.writeRequireLength_eq (b := b) trivial hk
    · exact WriteLaws.writeRequireLength_eq (b := b) trivial hk

theorem readable_eq_written : ∀ b : AnyBuffer, readable b = written b
  | ring b => b.readable_eq_written
  | array b => b.readable_eq_written

/-- Reading on never takes free memory away. -/
theorem room_of_frame : ∀ {b b' : AnyBuffer}, ReadFrame b b' → (readable b').length ≤ (readable b).length →
    (writable b).length ≤ (writable b').length
  | ring b, ring b', h, hr => by
    have hs : b'.size = b.size := congrArg List.length h.1
    have h₁ := b.length_readable
    have h₂ := b'.length_readable
    have h₃ := b.length_writable
    have h₄ := b'.length_writable
    have hr : (readable b').length ≤ (readable b).length := hr
    show (writable b).length ≤ (writable b').length
    omega
  | array b, array b', h, _ => by
    show (b.buffer.drop b.writePosition).length ≤ (b'.buffer.drop b'.writePosition).length
    rw [h.1, h.2]

end AnyBuffer

end Forstio
