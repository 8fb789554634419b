import Forstio.BufferLaws
import Forstio.Lib.LittleEndian

/-!
# Integers in a stream

`StreamValue` moves one integer of `w` bytes by shifting, whatever the byte
order of the host. A single byte goes through `push` and `pop`. Under the laws
of a buffer both directions are the little-endian format.
-/

namespace Forstio

open Buffer Memory LittleEndian

namespace StreamValue

variable {β : Type} [Buffer β]

/-- `for (; n > 0; --n, ++i) raw |= buffer.read(i) << (i * 8)`. -/
def readLoop (b : β) : Nat → Nat → Nat → Option Nat
  | 0, _, raw => some raw
  | n + 1, i, raw => do
    match ← load b (← read b i) 1 with
    | [x] => readLoop b n (i + 1) (raw ||| (x.toNat <<< (i * 8)))
    | _ => none

/-- The integer is the caller's `val` after the call. -/
def decode (w : Nat) (val : BitVec (8 * w)) (b : β) : Option (Error × BitVec (8 * w) × β) := do
  if w = 1 then
    match ← pop b 1 with
    | (error, [raw], b) => return (error, BitVec.ofNat _ raw.toNat, b)
    | (error, _, b) => return (error, val, b)
  else if (← readCompositeLength b) < w then
    return (recoverableError "Buffer too small", val, b)
  else
    let raw ← readLoop b w 0 0
    let b ← readAdvance b w
    return (noError, BitVec.ofNat _ raw, b)

/-- `for (; n > 0; --n, ++i) buffer.write(i) = raw >> (i * 8)`. -/
def writeLoop (raw : Nat) : Nat → Nat → β → Option β
  | 0, _, b => some b
  | n + 1, i, b => do
    let b ← store b (← write b i) [UInt8.ofNat (raw >>> (i * 8))]
    writeLoop raw n (i + 1) b

def encode (w : Nat) (val : BitVec (8 * w)) (b : β) : Option (Error × β) := do
  if w = 1 then
    push b [UInt8.ofNat val.toNat]
  else
    let error ← writeRequireLength b w
    if error.failed then
      return (error, b)
    else
      let b ← writeLoop val.toNat w 0 b
      let b ← writeAdvance b w
      return (noError, b)

end StreamValue

def leBits {w : Nat} (v : BitVec (8 * w)) : List UInt8 := leBytes w v.toNat

@[simp] theorem length_leBits {w : Nat} (v : BitVec (8 * w)) : (leBits v).length = w := length_leBytes w v.toNat

theorem pow_bits (w : Nat) : 2 ^ (8 * w) = 256 ^ w := by
  rw [Nat.pow_mul]

theorem ofNat_leBits {w : Nat} (v : BitVec (8 * w)) : BitVec.ofNat (8 * w) (leNat (leBits v)) = v := by
  rw [leBits, leNat_leBytes, ← pow_bits, Nat.mod_eq_of_lt v.isLt, BitVec.ofNat_toNat, BitVec.setWidth_eq]

theorem leBits_ofNat {w : Nat} {bs : List UInt8} (h : bs.length = w) :
    leBits (BitVec.ofNat (8 * w) (leNat bs)) = bs := by
  have hlt := leNat_lt bs
  rw [leBits, BitVec.toNat_ofNat, pow_bits, ← h, Nat.mod_eq_of_lt hlt, leBytes_leNat]

/-! ## Reading -/

section
variable {β : Type} [Buffer β] [ReadLaws β] {b : β}

theorem StreamValue.readLoop_spec (hb : ReadValid b) : ∀ n i, i + n ≤ (readable b).length →
    readLoop b n i (leNat ((readable b).take i)) = some (leNat ((readable b).take (i + n)))
  | 0, _, _ => rfl
  | n + 1, i, h => by
    obtain ⟨a, ha, hl⟩ := read_load hb (i := i) (by omega)
    have hnext : leNat ((readable b).take (i + 1)) =
        leNat ((readable b).take i) ||| ((readable b)[i].toNat <<< (i * 8)) := by
      rw [List.take_succ_eq_append_getElem (by omega), leNat_append, List.length_take, Nat.min_eq_left (by omega)]
    simp only [readLoop, ha, hl, Option.bind_eq_bind, Option.bind_some, ← hnext]
    rw [readLoop_spec hb n (i + 1) (by omega), Nat.add_assoc, Nat.add_comm 1]

/-- Reading an integer takes its bytes off the front, or fails and leaves all
as it was. -/
theorem StreamValue.decode_spec (hb : ReadValid b) (w : Nat) (val : BitVec (8 * w)) :
    (w ≤ (readable b).length → ∃ b', decode w val b =
        some (noError, BitVec.ofNat _ (leNat ((readable b).take w)), b') ∧
      ReadValid b' ∧ readable b' = (readable b).drop w ∧ ReadFrame b b') ∧
    ((readable b).length < w → decode w val b = some (recoverableError "Buffer too small", val, b)) := by
  by_cases hw : w = 1
  · subst hw
    refine ⟨fun h => ?_, fun h => ?_⟩
    · obtain ⟨b', hp, hb', hr, hf⟩ := (pop_spec hb 1).1 h
      obtain ⟨x, hx⟩ : ∃ x, (readable b).take 1 = [x] := by
        rw [← List.length_eq_one_iff, List.length_take, Nat.min_eq_left h]
      refine ⟨b', ?_, hb', hr, hf⟩
      rw [hx] at hp ⊢
      simp [decode, hp, leNat]
    · simp [decode, (pop_spec hb 1).2 h]
  · refine ⟨fun h => ?_, fun h => ?_⟩
    · obtain ⟨b', hadv, hb', hr, hf⟩ := ReadLaws.readAdvance_eq hb h
      have hloop := readLoop_spec hb w 0 (by omega)
      rw [Nat.zero_add] at hloop
      refine ⟨b', ?_, hb', hr, hf⟩
      simp only [decode, if_neg hw, ReadLaws.readCompositeLength_eq hb, Option.bind_eq_bind, Option.bind_some,
        if_neg (Nat.not_lt.mpr h), List.take_zero, leNat] at hloop ⊢
      rw [hloop, Option.bind_some, hadv]
      rfl
    · simp [decode, hw, ReadLaws.readCompositeLength_eq hb, h]

end

/-! ## Writing -/

section
variable {β : Type} [Buffer β] [WriteLaws β]

theorem store_byte {b : β} {i : Nat} (hb : WriteValid b) (hi : i < (writable b).length) (x : UInt8) :
    ∃ a b', write b i = some a ∧ store b a [x] = some b' ∧ WriteValid b' ∧
      writable b' = overwrite (writable b) i [x] ∧ written b' = written b ∧ WriteFrame b b' := by
  obtain ⟨s, a, -, hs, -, ha, hst⟩ := WriteLaws.writeSegment hb hi
  obtain ⟨b', h, hb', hw, ho, hp⟩ := hst [x] hs
  exact ⟨a, b', ha, h, hb', hw, ho, hp⟩

theorem StreamValue.writeLoop_spec (raw : Nat) : ∀ (n i : Nat) (b : β), WriteValid b →
    i + n ≤ (writable b).length → ∃ b', writeLoop raw n i b = some b' ∧ WriteValid b' ∧
      writable b' = overwrite (writable b) i ((leBytes (i + n) raw).drop i) ∧ written b' = written b ∧
      WriteFrame b b'
  | 0, i, b, hb, _ => ⟨b, rfl, hb, by rw [List.drop_of_length_le (by simp), overwrite_nil], rfl, WriteLaws.frame_refl b⟩
  | n + 1, i, b, hb, h => by
    obtain ⟨a, b₁, ha, h₁, hb₁, hw₁, ho₁, hp₁⟩ := store_byte hb (show i < _ by omega) (UInt8.ofNat (raw >>> (i * 8)))
    have hlen : (writable b₁).length = (writable b).length := by
      rw [hw₁, length_overwrite (by simp; omega)]
    obtain ⟨b₂, h₂, hb₂, hw₂, ho₂, hp₂⟩ := writeLoop_spec raw n (i + 1) b₁ hb₁ (by omega)
    refine ⟨b₂, by simp [writeLoop, ha, h₁, h₂], hb₂, ?_, ho₂.trans ho₁, WriteLaws.frame_trans hp₁ hp₂⟩
    have hdrop : (leBytes (i + (n + 1)) raw).drop i =
        [UInt8.ofNat (raw >>> (i * 8))] ++ (leBytes (i + 1 + n) raw).drop (i + 1) := by
      have hi := getElem?_leBytes (i + (n + 1)) raw i (by omega)
      rw [show i + 1 + n = i + (n + 1) by omega, List.singleton_append, List.drop_eq_getElem?_toList_append, hi]
      rfl
    rw [hw₂, hw₁, hdrop, ← overwrite_overwrite]
    · rfl
    · simp only [List.length_cons, List.length_nil, List.length_drop, length_leBytes]
      omega

theorem StreamValue.encode_spec {b : β} (hb : WriteValid b) (w : Nat) (hw0 : 0 < w) (val : BitVec (8 * w))
    (h : w ≤ (writable b).length) : ∃ b', encode w val b = some (noError, b') ∧ WriteValid b' ∧
      writable b' = (writable b).drop w ∧ written b' = written b ++ leBits val ∧
      WriteFrame b b' := by
  by_cases hw : w = 1
  · subst hw
    have hroom := WriteLaws.room hb
    obtain ⟨b', hp, hb', hwr, ho, hpos⟩ := (push_spec hb [UInt8.ofNat val.toNat] (by simp; omega)).1 h
    exact ⟨b', hp, hb', hwr, ho, hpos⟩
  · obtain ⟨b₁, h₁, hb₁, hw₁, ho₁, hp₁⟩ := writeLoop_spec val.toNat w 0 b hb (by omega)
    rw [Nat.zero_add, List.drop_zero] at hw₁
    have hbits : (leBytes w val.toNat).length = w := length_leBytes w _
    have hlen : (writable b₁).length = (writable b).length := by
      rw [hw₁, length_overwrite (by omega)]
    obtain ⟨b₂, h₂, hb₂, hw₂, ho₂, hp₂⟩ := WriteLaws.writeAdvance_eq hb₁ hw0 (by omega)
    refine ⟨b₂, ?_, hb₂, ?_, ?_, WriteLaws.frame_trans hp₁ hp₂⟩
    · simp [encode, hw, writeRequireLength_fits hb h, h₁, h₂]
    · have := drop_overwrite_zero (writable b) (leBytes w val.toNat)
      rw [hbits] at this
      rw [hw₂, hw₁, this]
    · have := take_overwrite_zero (writable b) (leBytes w val.toNat)
      rw [hbits] at this
      rw [ho₂, ho₁, hw₁, this]
      rfl

end

end Forstio
