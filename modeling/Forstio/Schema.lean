import Mathlib.Algebra.Group.Nat.Defs
import Mathlib.Data.List.Nodup

/-!
# Schemas and messages

A schema is a type of the host language; `Message S` is the value tree that
`message_container.h` stores for it: a tuple of member messages, a variant, a
vector, an integer or a string. Floating point numbers are bit patterns.
-/

namespace Forstio

/-- The ten instances of `Primitive<T, N>` that its `static_assert` admits. -/
inductive Primitive where
  | int8 | int16 | int32 | int64
  | uint8 | uint16 | uint32 | uint64
  | float32 | float64
  deriving DecidableEq, Repr

/-- `sizeof(T)`. -/
def Primitive.width : Primitive → Nat
  | int8 | uint8 => 1
  | int16 | uint16 => 2
  | int32 | uint32 | float32 => 4
  | int64 | uint64 | float64 => 8

mutual

inductive Schema where
  | primitive (p : Primitive)
  | string
  | tuple (ts : Pack)
  | struct (keys : List String) (vs : Pack)
  | union (keys : List String) (vs : Alternatives)
  | array (t : Schema)
  deriving DecidableEq

inductive Pack where
  | nil
  | cons (t : Schema) (ts : Pack)
  deriving DecidableEq

/-- The alternatives of a union; `std::variant` needs at least one. -/
inductive Alternatives where
  | one (t : Schema)
  | cons (t : Schema) (ts : Alternatives)
  deriving DecidableEq

end

def Pack.toList : Pack → List Schema
  | nil => []
  | cons t ts => t :: ts.toList

def Alternatives.toList : Alternatives → List Schema
  | one t => [t]
  | cons t ts => t :: ts.toList

def Alternatives.count : Alternatives → Nat
  | one _ => 1
  | cons _ ts => ts.count + 1

def Schema.isArray : Schema → Bool
  | array _ => true
  | _ => false

mutual

/-- The schemas whose codec compiles: one name for each member, distinct
alternatives that a `msg_union_id_t` can number, and no array directly in an
array. -/
def Schema.wellFormed : Schema → Bool
  | .primitive _ => true
  | .string => true
  | .tuple ts => ts.wellFormed
  | .struct keys vs => decide (keys.length = vs.toList.length) && vs.wellFormed
  | .union keys vs =>
    decide (keys.length = vs.toList.length ∧ vs.toList.Nodup ∧ vs.count ≤ 2 ^ 32) && vs.wellFormed
  | .array t => !t.isArray && t.wellFormed

def Pack.wellFormed : Pack → Bool
  | .nil => true
  | .cons t ts => t.wellFormed && ts.wellFormed

def Alternatives.wellFormed : Alternatives → Bool
  | .one t => t.wellFormed
  | .cons t ts => t.wellFormed && ts.wellFormed

end

/-! ## Storage -/

/-- A `std::vector` or `std::string`: its length is a `size_t`. -/
abbrev Vec (α : Type) := { l : List α // l.length < 2 ^ 64 }

namespace Vec

variable {α : Type}

def empty : Vec α := ⟨[], Nat.two_pow_pos 64⟩

def size (v : Vec α) : Nat := v.1.length

/-- `resize`: cut off at `n`, or filled up with `d`. -/
def resize (d : α) (v : Vec α) (n : BitVec 64) : Vec α :=
  ⟨v.1.take n.toNat ++ List.replicate (n.toNat - v.1.length) d, by
    have := n.isLt
    rw [List.length_append, List.length_take, List.length_replicate]
    omega⟩

/-- `at`: the run ends outside the vector. -/
def at? (v : Vec α) (i : Nat) : Option α := v.1[i]?

def set (v : Vec α) (i : Nat) (x : α) : Vec α := ⟨v.1.set i x, by rw [List.length_set]; exact v.2⟩

theorem length_resize (d : α) (v : Vec α) (n : BitVec 64) : (v.resize d n).1.length = n.toNat := by
  simp only [resize, List.length_append, List.length_take, List.length_replicate]
  omega

end Vec

mutual

def Message : Schema → Type
  | .primitive p => BitVec (8 * p.width)
  | .string => Vec UInt8
  | .tuple ts => Record ts
  | .struct _ vs => Record vs
  | .union _ vs => Variant vs
  | .array t => Vec (Message t)

def Record : Pack → Type
  | .nil => Unit
  | .cons t ts => Message t × Record ts

def Variant : Alternatives → Type
  | .one t => Message t
  | .cons t ts => Message t ⊕ Variant ts

end

mutual

def Message.init : (S : Schema) → Message S
  | .primitive p => (0 : BitVec (8 * p.width))
  | .string => (Vec.empty : Vec UInt8)
  | .tuple ts => Record.init ts
  | .struct _ vs => Record.init vs
  | .union _ vs => Variant.init vs
  | .array t => (Vec.empty : Vec (Message t))

def Record.init : (ts : Pack) → Record ts
  | .nil => ()
  | .cons t ts => (Message.init t, Record.init ts)

def Variant.init : (ts : Alternatives) → Variant ts
  | .one t => Message.init t
  | .cons t _ => .inl (Message.init t)

end

section
variable {t : Schema} {ts : Alternatives}

/-- `get<i>()` of a union for the first of the alternatives from `i` on; the
variant is `none` while it holds one before them. Unless the `i`-th is the one
held, `get` puts a default message there. -/
def Variant.get : Option (Variant (.cons t ts)) → Message t
  | some (.inl m) => m
  | _ => Message.init t

def Variant.next : Option (Variant (.cons t ts)) → Option (Variant ts)
  | some (.inr v) => some v
  | _ => none

end

def Variant.index : (ts : Alternatives) → Variant ts → Nat
  | .one _, _ => 0
  | .cons _ _, .inl _ => 0
  | .cons _ ts, .inr v => Variant.index ts v + 1

theorem Variant.index_lt : ∀ (ts : Alternatives) (v : Variant ts), Variant.index ts v < ts.count
  | .one _, _ => Nat.one_pos
  | .cons _ ts, .inl _ => Nat.succ_pos ts.count
  | .cons _ ts, .inr v => Nat.succ_lt_succ (Variant.index_lt ts v)

end Forstio
