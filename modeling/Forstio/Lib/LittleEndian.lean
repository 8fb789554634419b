import Mathlib.Algebra.Group.Nat.Defs
import Mathlib.Data.List.Basic
import Mathlib.Data.Nat.Bitwise

/-!
# Little-endian numbers

`leBytes n v` are the `n` low bytes of `v`, least significant first, and
`leNat` reads such a list back. Both are also what shifting does byte by byte:
`getElem?_leBytes` for taking a number apart, `leNat_append` for putting one
together.
-/

namespace LittleEndian

def leBytes : Nat → Nat → List UInt8
  | 0, _ => []
  | n + 1, v => UInt8.ofNat v :: leBytes n (v / 256)

def leNat : List UInt8 → Nat
  | [] => 0
  | b :: bs => b.toNat + 256 * leNat bs

@[simp] theorem length_leBytes : ∀ n v, (leBytes n v).length = n
  | 0, _ => rfl
  | n + 1, v => congrArg (· + 1) (length_leBytes n (v / 256))

theorem leNat_lt : ∀ bs : List UInt8, leNat bs < 256 ^ bs.length
  | [] => by simp [leNat]
  | b :: bs => by
    have hb := b.toNat_lt
    have ih := leNat_lt bs
    simp only [leNat, List.length_cons, Nat.pow_succ]
    omega

theorem leNat_leBytes : ∀ n v, leNat (leBytes n v) = v % 256 ^ n
  | 0, v => by simp [leBytes, leNat, Nat.mod_one]
  | n + 1, v => by
    have hb : (UInt8.ofNat v).toNat = v % 256 := UInt8.toNat_ofNat'
    rw [leBytes, leNat, leNat_leBytes n, hb, Nat.pow_succ, Nat.mul_comm (256 ^ n) 256, Nat.mod_mul]

theorem leNat_leBytes_of_lt {n v : Nat} (h : v < 256 ^ n) : leNat (leBytes n v) = v := by
  rw [leNat_leBytes, Nat.mod_eq_of_lt h]

theorem leBytes_leNat : ∀ bs : List UInt8, leBytes bs.length (leNat bs) = bs
  | [] => rfl
  | b :: bs => by
    have hb := b.toNat_lt
    have hq : (b.toNat + 256 * leNat bs) / 256 = leNat bs := by omega
    have hr : UInt8.ofNat (b.toNat + 256 * leNat bs) = b := by
      apply UInt8.toNat_inj.mp
      rw [UInt8.toNat_ofNat']
      omega
    rw [List.length_cons, leBytes, leNat, hq, leBytes_leNat bs, hr]

theorem eq_leBytes {bs : List UInt8} {n : Nat} (h : bs.length = n) : bs = leBytes n (leNat bs) := by
  rw [← h, leBytes_leNat]

/-! ## Shifting -/

theorem getElem?_leBytes : ∀ (n v i : Nat), i < n → (leBytes n v)[i]? = some (UInt8.ofNat (v >>> (i * 8)))
  | n + 1, v, 0, _ => by simp [leBytes]
  | n + 1, v, i + 1, h => by
    rw [leBytes, List.getElem?_cons_succ, getElem?_leBytes n (v / 256) i (by omega), Nat.add_mul,
      Nat.add_comm (i * 8), Nat.shiftRight_add, Nat.shiftRight_eq_div_pow v]

theorem leNat_append_add (b : UInt8) : ∀ bs : List UInt8,
    leNat (bs ++ [b]) = 2 ^ (bs.length * 8) * b.toNat + leNat bs
  | [] => by simp [leNat]
  | x :: bs => by
    simp only [List.cons_append, leNat, leNat_append_add b bs, List.length_cons, Nat.add_mul, Nat.pow_add,
      Nat.one_mul, Nat.mul_add, Nat.mul_comm (2 ^ (bs.length * 8)) (2 ^ 8), Nat.mul_assoc]
    omega

theorem leNat_append (bs : List UInt8) (b : UInt8) :
    leNat (bs ++ [b]) = leNat bs ||| (b.toNat <<< (bs.length * 8)) := by
  have hlt : leNat bs < 2 ^ (bs.length * 8) := by
    have := leNat_lt bs
    rwa [show (256 : Nat) = 2 ^ 8 by rfl, ← Nat.pow_mul, Nat.mul_comm] at this
  rw [leNat_append_add, Nat.two_pow_add_eq_or_of_lt hlt, Nat.shiftLeft_eq, Nat.mul_comm (2 ^ _), Nat.or_comm]

end LittleEndian
