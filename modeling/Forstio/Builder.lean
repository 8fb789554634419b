import Forstio.Reader
import Forstio.Packet
import Forstio.DecodeExact
import Forstio.AnyBuffer

/-!
# Builders

A builder refers to a part of a message and hands out builders of the parts below it.
It is a reference into the containers: a union that changes its alternative and a
vector that is resized leave the builders below them dangling. What is set through a
builder that does not dangle is what the message holds, on the other end as well.
-/

namespace Forstio

/-- The parts below a builder, by their paths, that an operation moves or destroys. -/
abbrev Dangling := List Nat → Bool

/-- What can be asked of a builder; the size is that of an array and zero for everything else. -/
inductive BuilderOp where
  | init (i : Nat) (size : BitVec 64)
  | initNamed (key : String) (size : BitVec 64)
  | size
  | resize (size : BitVec 64)
  | setPrimitive (p : Primitive) (value : BitVec (8 * p.width))
  | setString (value : Vec UInt8)

inductive BuilderAnswer where
  | builder (i : Nat)
  | size (n : Nat)
  | done

def BuilderAnswer.child : BuilderAnswer → Option Nat
  | builder i => some i
  | _ => none

def BuilderOp.written : BuilderOp → Option (Sigma Message)
  | setPrimitive p value => some ⟨.primitive p, value⟩
  | setString value => some ⟨.string, value⟩
  | _ => none

/-! ## One part -/

/-- A vector that grows may reallocate; one that shrinks destroys what is cut off. -/
def resized (old n : Nat) : Dangling
  | [] => false
  | j :: _ => old < n ∨ n ≤ j

def Dangling.below (moved : Dangling) (path : List Nat) : Dangling :=
  fun q => decide (path <+: q) && moved (q.drop path.length)

def Message.resize (t : Schema) (m : Message (.array t)) (n : BitVec 64) : Dangling × Message (.array t) :=
  (resized (Vec.size (α := Message t) m) n.toNat, Vec.resize (Message.init t) m n)

/-- The constructor of a builder; only that of an array takes a size. -/
def Message.build (n : BitVec 64) : (S : Schema) → Message S → Option (Dangling × Message S)
  | .array t, m => some (if n ≠ 0 then Message.resize t m n else (fun _ => false, m))
  | _, m => do
    assert (n = 0)
    return (fun _ => false, m)

def Record.initMember (ts : Pack) (m : Record ts) (i : Nat) (n : BitVec 64) :
    Option ((BuilderAnswer × Dangling) × Record ts) := do
  let (moved, m) ← Record.modify (Message.build n) ts m i []
  return ((.builder i, moved.below [i]), m)

/-- The alternative that is replaced takes everything below the union with it. -/
def Variant.initMember (vs : Alternatives) (v : Variant vs) (i : Nat) (n : BitVec 64) :
    Option ((BuilderAnswer × Dangling) × Variant vs) := do
  let v' ← Variant.select vs v i
  let (moved, v') ← Variant.modify (Message.build n) vs v' i []
  return ((.builder i, if i ≠ Variant.index vs v then fun q => !q.isEmpty else moved.below [i]), v')

namespace BuilderOp

/-- `init<i>()`, or `init(i)` of an array. What does not compile, or throws, aborts. -/
def initPart (i : Nat) (n : BitVec 64) : (S : Schema) → Message S → Option ((BuilderAnswer × Dangling) × Message S)
  | .tuple ts, m => Record.initMember ts m i n
  | .struct _ vs, m => Record.initMember vs m i n
  | .union _ vs, m => Variant.initMember vs m i n
  | .array t, m => do
    assert (n = 0 ∧ !t.isArray)
    assert (i < Vec.size (α := Message t) m)
    return ((.builder i, fun _ => false), m)
  | .primitive _, _ => none
  | .string, _ => none

def keyIndex (key : String) : Schema → Option Nat
  | .struct keys _ => some (keys.idxOf key)
  | .union keys _ => some (keys.idxOf key)
  | _ => none

def resizeArray (n : BitVec 64) : (S : Schema) → Message S → Option ((BuilderAnswer × Dangling) × Message S)
  | .array t, m => some ((.done, (Message.resize t m n).1), (Message.resize t m n).2)
  | _, _ => none

def sizeOf : (S : Schema) → Message S → Option ((BuilderAnswer × Dangling) × Message S)
  | .array t, m => some ((.size (Vec.size (α := Message t) m), fun _ => false), m)
  | _, _ => none

def set (leaf : Sigma Message) (S : Schema) (_ : Message S) : Option ((BuilderAnswer × Dangling) × Message S) :=
  if h : leaf.1 = S then some ((.done, fun _ => false), h ▸ leaf.2) else none

def apply (op : BuilderOp) (S : Schema) (m : Message S) : Option ((BuilderAnswer × Dangling) × Message S) :=
  match op with
  | init i n => initPart i n S m
  | initNamed key n => do
    let i ← keyIndex key S
    initPart i n S m
  | size => sizeOf S m
  | resize n => resizeArray n S m
  | setPrimitive p value => set ⟨.primitive p, value⟩ S m
  | setString value => set ⟨.string, value⟩ S m

end BuilderOp

/-! ## What an operation leaves -/

def Schema.isLeaf : Schema → Bool
  | .primitive _ => true
  | .string => true
  | _ => false

/-- A part stays, and a value stays what it is. -/
def Kept (part part' : Sigma Message) : Prop := part'.1 = part.1 ∧ (part.1.isLeaf → part' = part)

theorem Kept.refl (part : Sigma Message) : Kept part part := ⟨rfl, fun _ => rfl⟩

theorem Message.find_leaf {S : Schema} (h : S.isLeaf) (m : Message S) (i : Nat) (path : List Nat) :
    Message.find S m (i :: path) = none := by
  cases S with
  | primitive p => rfl
  | string => rfl
  | tuple ts => cases h
  | struct keys vs => cases h
  | union keys vs => cases h
  | array t => cases h

theorem Message.find_nil (S : Schema) (m : Message S) : Message.find S m [] = some ⟨S, m⟩ := by
  cases S <;> rfl

theorem Message.modify_nil {ω : Type} (f : (S : Schema) → Message S → Option (ω × Message S)) (S : Schema)
    (m : Message S) : Message.modify f S m [] = f S m := by
  cases S <;> rfl

mutual

theorem Message.find_append : ∀ (S : Schema) (m : Message S) (path r : List Nat),
    Message.find S m (path ++ r) = (Message.find S m path).bind fun n => Message.find n.1 n.2 r
  | S, m, [], r => by
    rw [Message.find_nil]
    rfl
  | .tuple ts, m, i :: path, r => Record.find_append ts m i path r
  | .struct _ vs, m, i :: path, r => Record.find_append vs m i path r
  | .union _ vs, m, i :: path, r => Variant.find_append vs m i path r
  | .array t, m, i :: path, r => by
    simp only [List.cons_append, Message.find, Option.bind_eq_bind, Option.bind_assoc]
    exact congrArg _ (funext fun element => Message.find_append t element path r)
  | .primitive _, _, _ :: _, _ => rfl
  | .string, _, _ :: _, _ => rfl

theorem Record.find_append : ∀ (ts : Pack) (m : Record ts) (i : Nat) (path r : List Nat),
    Record.find ts m i (path ++ r) = (Record.find ts m i path).bind fun n => Message.find n.1 n.2 r
  | .nil, _, _, _, _ => rfl
  | .cons t _, m, 0, path, r => Message.find_append t m.1 path r
  | .cons _ ts, m, i + 1, path, r => Record.find_append ts m.2 i path r

theorem Variant.find_append : ∀ (vs : Alternatives) (v : Variant vs) (i : Nat) (path r : List Nat),
    Variant.find vs v i (path ++ r) = (Variant.find vs v i path).bind fun n => Message.find n.1 n.2 r
  | .one t, m, 0, path, r => Message.find_append t m path r
  | .one _, _, _ + 1, _, _ => rfl
  | .cons t _, .inl m, 0, path, r => Message.find_append t m path r
  | .cons _ _, .inl _, _ + 1, _, _ => rfl
  | .cons _ _, .inr _, 0, _, _ => rfl
  | .cons _ vs, .inr v, i + 1, path, r => Variant.find_append vs v i path r

end

section
variable {ω : Type} {f : (S : Schema) → Message S → Option (ω × Message S)}

mutual

theorem Message.modify_find : ∀ (S : Schema) (m m' : Message S) (path : List Nat) (answer : ω),
    Message.modify f S m path = some (answer, m') → ∃ n x, Message.find S m path = some n ∧
      f n.1 n.2 = some (answer, x) ∧ (∀ r, Message.find S m' (path ++ r) = Message.find n.1 x r) ∧
      ∀ q part, ¬path <+: q → Message.find S m q = some part → ∃ part', Message.find S m' q = some part' ∧
        Kept part part'
  | S, m, m', [], answer, h => by
    rw [Message.modify_nil] at h
    exact ⟨⟨S, m⟩, m', Message.find_nil S m, h, fun r => rfl, fun q _ hq => absurd List.nil_prefix hq⟩
  | .tuple ts, m, m', i :: path, answer, h => by
    obtain ⟨n, x, hfind, hf, hbelow, helse⟩ := Record.modify_find ts m m' i path answer h
    refine ⟨n, x, hfind, hf, hbelow, fun q part hq hpart => ?_⟩
    cases q with
    | nil =>
      obtain rfl := Option.some.inj hpart
      exact ⟨⟨.tuple ts, m'⟩, rfl, rfl, nofun⟩
    | cons j q => exact helse j q part hq hpart
  | .struct keys vs, m, m', i :: path, answer, h => by
    obtain ⟨n, x, hfind, hf, hbelow, helse⟩ := Record.modify_find vs m m' i path answer h
    refine ⟨n, x, hfind, hf, hbelow, fun q part hq hpart => ?_⟩
    cases q with
    | nil =>
      obtain rfl := Option.some.inj hpart
      exact ⟨⟨.struct keys vs, m'⟩, rfl, rfl, nofun⟩
    | cons j q => exact helse j q part hq hpart
  | .union keys vs, m, m', i :: path, answer, h => by
    obtain ⟨n, x, hfind, hf, hbelow, helse⟩ := Variant.modify_find vs m m' i path answer h
    refine ⟨n, x, hfind, hf, hbelow, fun q part hq hpart => ?_⟩
    cases q with
    | nil =>
      obtain rfl := Option.some.inj hpart
      exact ⟨⟨.union keys vs, m'⟩, rfl, rfl, nofun⟩
    | cons j q => exact helse j q part hq hpart
  | .array t, m, m', i :: path, answer, h => by
    simp only [Message.modify, Option.bind_eq_bind, Option.bind_eq_some_iff] at h
    obtain ⟨element, hat, ⟨answer', element'⟩, hm, heq⟩ := h
    obtain ⟨rfl, rfl⟩ := Prod.mk.inj (Option.some.inj heq)
    obtain ⟨n, x, hfind, hf, hbelow, helse⟩ := Message.modify_find t element element' path answer' hm
    have hset : Vec.at? (Vec.set (α := Message t) m i element') i = some element' := by
      obtain ⟨hi, -⟩ := List.getElem?_eq_some_iff.mp hat
      exact List.getElem?_set_self hi
    refine ⟨n, x, ?_, hf, fun r => ?_, fun q part hq hpart => ?_⟩
    · simp only [Message.find, hat, Option.bind_eq_bind, Option.bind_some, hfind]
    · simp only [List.cons_append, Message.find, hset, Option.bind_eq_bind, Option.bind_some, hbelow]
    · cases q with
      | nil =>
        obtain rfl := Option.some.inj hpart
        exact ⟨_, rfl, rfl, nofun⟩
      | cons j q =>
        rw [List.cons_prefix_cons] at hq
        by_cases hij : i = j
        · subst hij
          simp only [Message.find, hat, Option.bind_eq_bind, Option.bind_some] at hpart
          obtain ⟨part', hpart', hkept⟩ := helse q part (fun hpre => hq ⟨rfl, hpre⟩) hpart
          refine ⟨part', ?_, hkept⟩
          simp only [Message.find, hset, Option.bind_eq_bind, Option.bind_some, hpart']
        · have hother : Vec.at? (Vec.set (α := Message t) m i element') j = Vec.at? (α := Message t) m j :=
            List.getElem?_set_ne hij
          refine ⟨part, ?_, Kept.refl part⟩
          rw [← hpart]
          simp only [Message.find, hother]
  | .primitive _, _, _, _ :: _, _, h => nomatch h
  | .string, _, _, _ :: _, _, h => nomatch h

theorem Record.modify_find : ∀ (ts : Pack) (m m' : Record ts) (i : Nat) (path : List Nat) (answer : ω),
    Record.modify f ts m i path = some (answer, m') → ∃ n x, Record.find ts m i path = some n ∧
      f n.1 n.2 = some (answer, x) ∧ (∀ r, Record.find ts m' i (path ++ r) = Message.find n.1 x r) ∧
      ∀ j q part, ¬(i :: path) <+: (j :: q) → Record.find ts m j q = some part →
        ∃ part', Record.find ts m' j q = some part' ∧ Kept part part'
  | .nil, _, _, _, _, _, h => nomatch h
  | .cons t ts, (m, ms), _, 0, path, answer, h => by
    simp only [Record.modify, Option.bind_eq_bind, Option.bind_eq_some_iff] at h
    obtain ⟨⟨answer', m'⟩, hm, heq⟩ := h
    obtain ⟨rfl, rfl⟩ := Prod.mk.inj (Option.some.inj heq)
    obtain ⟨n, x, hfind, hf, hbelow, helse⟩ := Message.modify_find t m m' path answer' hm
    refine ⟨n, x, hfind, hf, hbelow, fun j q part hq hpart => ?_⟩
    cases j with
    | zero =>
      rw [List.cons_prefix_cons] at hq
      exact helse q part (fun hpre => hq ⟨rfl, hpre⟩) hpart
    | succ j => exact ⟨part, hpart, Kept.refl part⟩
  | .cons t ts, (m, ms), _, i + 1, path, answer, h => by
    simp only [Record.modify, Option.bind_eq_bind, Option.bind_eq_some_iff] at h
    obtain ⟨⟨answer', ms'⟩, hm, heq⟩ := h
    obtain ⟨rfl, rfl⟩ := Prod.mk.inj (Option.some.inj heq)
    obtain ⟨n, x, hfind, hf, hbelow, helse⟩ := Record.modify_find ts ms ms' i path answer' hm
    refine ⟨n, x, hfind, hf, hbelow, fun j q part hq hpart => ?_⟩
    cases j with
    | zero => exact ⟨part, hpart, Kept.refl part⟩
    | succ j =>
      rw [List.cons_prefix_cons, Nat.add_right_cancel_iff, ← List.cons_prefix_cons] at hq
      exact helse j q part hq hpart

theorem Variant.modify_find : ∀ (vs : Alternatives) (m m' : Variant vs) (i : Nat) (path : List Nat) (answer : ω),
    Variant.modify f vs m i path = some (answer, m') → ∃ n x, Variant.find vs m i path = some n ∧
      f n.1 n.2 = some (answer, x) ∧ (∀ r, Variant.find vs m' i (path ++ r) = Message.find n.1 x r) ∧
      ∀ j q part, ¬(i :: path) <+: (j :: q) → Variant.find vs m j q = some part →
        ∃ part', Variant.find vs m' j q = some part' ∧ Kept part part'
  | .one t, m, m', 0, path, answer, h => by
    obtain ⟨n, x, hfind, hf, hbelow, helse⟩ := Message.modify_find t m m' path answer h
    refine ⟨n, x, hfind, hf, hbelow, fun j q part hq hpart => ?_⟩
    cases j with
    | zero =>
      rw [List.cons_prefix_cons] at hq
      exact helse q part (fun hpre => hq ⟨rfl, hpre⟩) hpart
    | succ j => cases hpart
  | .one _, _, _, _ + 1, _, _, h => nomatch h
  | .cons t vs, .inl m, _, 0, path, answer, h => by
    simp only [Variant.modify, Option.bind_eq_bind, Option.bind_eq_some_iff] at h
    obtain ⟨⟨answer', m'⟩, hm, heq⟩ := h
    obtain ⟨rfl, rfl⟩ := Prod.mk.inj (Option.some.inj heq)
    obtain ⟨n, x, hfind, hf, hbelow, helse⟩ := Message.modify_find t m m' path answer' hm
    refine ⟨n, x, hfind, hf, hbelow, fun j q part hq hpart => ?_⟩
    cases j with
    | zero =>
      rw [List.cons_prefix_cons] at hq
      exact helse q part (fun hpre => hq ⟨rfl, hpre⟩) hpart
    | succ j => cases hpart
  | .cons _ _, .inl _, _, _ + 1, _, _, h => nomatch h
  | .cons _ _, .inr _, _, 0, _, _, h => nomatch h
  | .cons t vs, .inr v, _, i + 1, path, answer, h => by
    simp only [Variant.modify, Option.bind_eq_bind, Option.bind_eq_some_iff] at h
    obtain ⟨⟨answer', v'⟩, hm, heq⟩ := h
    obtain ⟨rfl, rfl⟩ := Prod.mk.inj (Option.some.inj heq)
    obtain ⟨n, x, hfind, hf, hbelow, helse⟩ := Variant.modify_find vs v v' i path answer' hm
    refine ⟨n, x, hfind, hf, hbelow, fun j q part hq hpart => ?_⟩
    cases j with
    | zero => cases hpart
    | succ j =>
      rw [List.cons_prefix_cons, Nat.add_right_cancel_iff, ← List.cons_prefix_cons] at hq
      exact helse j q part hq hpart

end

mutual

theorem Message.modify_some : ∀ (S : Schema) (m : Message S) (path : List Nat) {n : Sigma Message} {answer : ω}
    {x : Message n.1}, Message.find S m path = some n → f n.1 n.2 = some (answer, x) →
      ∃ m', Message.modify f S m path = some (answer, m')
  | S, m, [], n, answer, x, hfind, hf => by
    rw [Message.find_nil] at hfind
    obtain rfl := Option.some.inj hfind
    exact ⟨x, (Message.modify_nil f S m).trans hf⟩
  | .tuple ts, m, i :: path, _, _, _, hfind, hf => Record.modify_some ts m i path hfind hf
  | .struct _ vs, m, i :: path, _, _, _, hfind, hf => Record.modify_some vs m i path hfind hf
  | .union _ vs, m, i :: path, _, _, _, hfind, hf => Variant.modify_some vs m i path hfind hf
  | .array t, m, i :: path, _, _, _, hfind, hf => by
    obtain ⟨element, hat, hfind⟩ := Option.bind_eq_some_iff.mp hfind
    obtain ⟨element', h⟩ := Message.modify_some t element path hfind hf
    refine ⟨Vec.set (α := Message t) m i element', ?_⟩
    simp only [Message.modify, hat, h, Option.bind_eq_bind, Option.bind_some]
    rfl
  | .primitive _, _, _ :: _, _, _, _, hfind, _ => nomatch hfind
  | .string, _, _ :: _, _, _, _, hfind, _ => nomatch hfind

theorem Record.modify_some : ∀ (ts : Pack) (m : Record ts) (i : Nat) (path : List Nat) {n : Sigma Message}
    {answer : ω} {x : Message n.1}, Record.find ts m i path = some n → f n.1 n.2 = some (answer, x) →
      ∃ m', Record.modify f ts m i path = some (answer, m')
  | .nil, _, _, _, _, _, _, hfind, _ => nomatch hfind
  | .cons t _, (m, ms), 0, path, _, _, _, hfind, hf => by
    obtain ⟨m', h⟩ := Message.modify_some t m path hfind hf
    refine ⟨(m', ms), ?_⟩
    simp only [Record.modify, h, Option.bind_eq_bind, Option.bind_some]
    rfl
  | .cons _ ts, (m, ms), i + 1, path, _, _, _, hfind, hf => by
    obtain ⟨ms', h⟩ := Record.modify_some ts ms i path hfind hf
    refine ⟨(m, ms'), ?_⟩
    simp only [Record.modify, h, Option.bind_eq_bind, Option.bind_some]
    rfl

theorem Variant.modify_some : ∀ (vs : Alternatives) (v : Variant vs) (i : Nat) (path : List Nat) {n : Sigma Message}
    {answer : ω} {x : Message n.1}, Variant.find vs v i path = some n → f n.1 n.2 = some (answer, x) →
      ∃ v', Variant.modify f vs v i path = some (answer, v')
  | .one t, m, 0, path, _, _, _, hfind, hf => Message.modify_some t m path hfind hf
  | .one _, _, _ + 1, _, _, _, _, hfind, _ => nomatch hfind
  | .cons t _, .inl m, 0, path, _, _, _, hfind, hf => by
    obtain ⟨m', h⟩ := Message.modify_some t m path hfind hf
    refine ⟨.inl m', ?_⟩
    simp only [Variant.modify, h, Option.bind_eq_bind, Option.bind_some]
    rfl
  | .cons _ _, .inl _, _ + 1, _, _, _, _, hfind, _ => nomatch hfind
  | .cons _ _, .inr _, 0, _, _, _, _, hfind, _ => nomatch hfind
  | .cons _ vs, .inr v, i + 1, path, _, _, _, hfind, hf => by
    obtain ⟨v', h⟩ := Variant.modify_some vs v i path hfind hf
    refine ⟨.inr v', ?_⟩
    simp only [Variant.modify, h, Option.bind_eq_bind, Option.bind_some]
    rfl

end

end

theorem Variant.index_find : ∀ (vs : Alternatives) (v : Variant vs) (i : Nat) (path : List Nat)
    (part : Sigma Message), Variant.find vs v i path = some part → i = Variant.index vs v
  | .one _, _, 0, _, _, _ => rfl
  | .one _, _, _ + 1, _, _, h => nomatch h
  | .cons _ _, .inl _, 0, _, _, _ => rfl
  | .cons _ _, .inl _, _ + 1, _, _, h => nomatch h
  | .cons _ _, .inr _, 0, _, _, h => nomatch h
  | .cons _ vs, .inr v, i + 1, path, part, h => congrArg Nat.succ (Variant.index_find vs v i path part h)

def Keeps {S : Schema} (moved : Dangling) (m m' : Message S) : Prop :=
  ∀ r part, moved r = false → Message.find S m r = some part →
    ∃ part', Message.find S m' r = some part' ∧ Kept part part'

theorem Keeps.refl {S : Schema} (moved : Dangling) (m : Message S) : Keeps moved m m :=
  fun _ part _ hpart => ⟨part, hpart, Kept.refl part⟩

theorem Dangling.below_eq_false {moved : Dangling} {path q : List Nat} :
    moved.below path q = false ↔ ∀ r, q = path ++ r → moved r = false := by
  unfold Dangling.below
  rw [Bool.and_eq_false_iff, decide_eq_false_iff_not]
  constructor
  · intro h r hr
    subst hr
    rcases h with h | h
    · exact absurd (List.prefix_append path r) h
    · rwa [List.drop_left] at h
  · intro h
    by_cases hpre : path <+: q
    · obtain ⟨r, hr⟩ := hpre
      right
      subst hr
      rw [List.drop_left]
      exact h r rfl
    · exact Or.inl hpre

theorem Message.resize_keeps (t : Schema) (m : Message (.array t)) (n : BitVec 64) :
    Keeps (Message.resize t m n).1 m (Message.resize t m n).2 := by
  intro r part hmoved hpart
  cases r with
  | nil =>
    obtain rfl := Option.some.inj hpart
    exact ⟨_, rfl, rfl, nofun⟩
  | cons i r =>
    have hkept : ¬(Vec.size (α := Message t) m < n.toNat ∨ n.toNat ≤ i) := of_decide_eq_false hmoved
    obtain ⟨element, hat, hpart⟩ := Option.bind_eq_some_iff.mp hpart
    refine ⟨part, Option.bind_eq_some_iff.mpr ⟨element, ?_, hpart⟩, Kept.refl part⟩
    obtain ⟨hi, hget⟩ := List.getElem?_eq_some_iff.mp hat
    show (m.1.take n.toNat ++ _)[i]? = some element
    rw [List.getElem?_append_left (by rw [List.length_take]; omega), List.getElem?_take_of_lt (by omega), ← hget]
    exact List.getElem?_eq_getElem hi

theorem Message.build_keeps {n : BitVec 64} {S : Schema} {m m' : Message S} {moved : Dangling}
    (h : Message.build n S m = some (moved, m')) : Keeps moved m m' := by
  unfold Message.build at h
  split at h
  case h_1 t m =>
    split at h
    · have hresized := Option.some.inj h
      have hkeeps := Message.resize_keeps t m n
      rwa [hresized] at hkeeps
    · obtain ⟨rfl, rfl⟩ := Prod.mk.inj (Option.some.inj h)
      exact Keeps.refl _ m
  case h_2 =>
    obtain ⟨_, _, heq⟩ := Option.bind_eq_some_iff.mp h
    obtain ⟨rfl, rfl⟩ := Prod.mk.inj (Option.some.inj heq)
    exact Keeps.refl _ m

theorem Message.modify_keeps {ω : Type} {f : (S : Schema) → Message S → Option (ω × Message S)} {S : Schema}
    {m m' : Message S} {path : List Nat} {answer : ω} (h : Message.modify f S m path = some (answer, m'))
    {moved : Dangling} (hf : ∀ part x, Message.find S m path = some part → f part.1 part.2 = some (answer, x) →
      Keeps moved part.2 x) : Keeps (moved.below path) m m' := by
  obtain ⟨part₀, x, hfind, happly, hbelow, helse⟩ := Message.modify_find S m m' path answer h
  intro q part hmoved hpart
  by_cases hpre : path <+: q
  · obtain ⟨r, rfl⟩ := hpre
    rw [Message.find_append, hfind, Option.bind_some] at hpart
    rw [hbelow r]
    exact hf part₀ x hfind happly r part (Dangling.below_eq_false.mp hmoved r rfl) hpart
  · exact helse q part hpre hpart

section
variable {ts : Pack} {m m' : Record ts} {vs : Alternatives} {v v' : Variant vs} {i : Nat} {n : BitVec 64}
  {answer : BuilderAnswer} {moved : Dangling}

theorem Record.initMember_modify (h : Record.initMember ts m i n = some ((answer, moved), m')) :
    ∃ moved₀, Record.modify (Message.build n) ts m i [] = some (moved₀, m') ∧ answer = .builder i ∧
      moved = moved₀.below [i] := by
  obtain ⟨⟨moved₀, m₁⟩, hm, heq⟩ := Option.bind_eq_some_iff.mp h
  obtain ⟨hanswer, rfl⟩ := Prod.mk.inj (Option.some.inj heq)
  obtain ⟨rfl, rfl⟩ := Prod.mk.inj hanswer
  exact ⟨moved₀, hm, rfl, rfl⟩

theorem Variant.initMember_modify (h : Variant.initMember vs v i n = some ((answer, moved), v')) :
    ∃ v₁ moved₀, Variant.select vs v i = some v₁ ∧ Variant.modify (Message.build n) vs v₁ i [] = some (moved₀, v') ∧
      answer = .builder i ∧ moved = if i ≠ Variant.index vs v then fun q => !q.isEmpty else moved₀.below [i] := by
  obtain ⟨v₁, hselect, h⟩ := Option.bind_eq_some_iff.mp h
  obtain ⟨⟨moved₀, v₂⟩, hm, heq⟩ := Option.bind_eq_some_iff.mp h
  obtain ⟨hanswer, rfl⟩ := Prod.mk.inj (Option.some.inj heq)
  obtain ⟨rfl, rfl⟩ := Prod.mk.inj hanswer
  exact ⟨v₁, moved₀, hselect, hm, rfl, rfl⟩

theorem Message.initMember_keeps {S : Schema} {x x' : Message S} {moved₀ : Dangling}
    (h : Message.modify (Message.build n) S x [i] = some (moved₀, x')) : Keeps (moved₀.below [i]) x x' :=
  Message.modify_keeps h fun _ _ _ hbuild => Message.build_keeps hbuild

theorem Variant.initMember_keeps (keys : List String) (h : Variant.initMember vs v i n = some ((answer, moved), v')) :
    Keeps (S := .union keys vs) moved v v' := by
  obtain ⟨v₁, moved₀, hselect, hm, -, rfl⟩ := Variant.initMember_modify h
  split
  next =>
    intro r part hmoved hpart
    cases r with
    | nil =>
      obtain rfl := Option.some.inj hpart
      exact ⟨_, rfl, rfl, nofun⟩
    | cons j r => cases hmoved
  next heq =>
    obtain rfl := (Variant.select_eq_iff hselect).mpr (Classical.not_not.mp heq)
    exact Message.initMember_keeps hm

end

namespace BuilderOp

variable {S : Schema} {m m' : Message S} {op : BuilderOp} {answer : BuilderAnswer} {moved : Dangling} {i : Nat}
  {n : BitVec 64} {leaf : Sigma Message}

theorem initPart_keeps (h : initPart i n S m = some ((answer, moved), m')) : Keeps moved m m' := by
  cases S with
  | primitive p => cases h
  | string => cases h
  | tuple ts =>
    obtain ⟨moved₀, hm, -, rfl⟩ := Record.initMember_modify h
    exact Message.initMember_keeps hm
  | struct keys vs =>
    obtain ⟨moved₀, hm, -, rfl⟩ := Record.initMember_modify h
    exact Message.initMember_keeps hm
  | union keys vs => exact Variant.initMember_keeps keys h
  | array t =>
    obtain ⟨_, _, h⟩ := Option.bind_eq_some_iff.mp h
    rw [assert_return h]
    exact Keeps.refl moved m

theorem initPart_leaf (h : initPart i n S m = some ((answer, moved), m')) : ¬S.isLeaf := by
  cases S with
  | primitive p => cases h
  | string => cases h
  | _ => nofun

theorem sizeOf_array (h : sizeOf S m = some ((answer, moved), m')) : m' = m ∧ ¬S.isLeaf := by
  cases S with
  | array t =>
    obtain ⟨-, rfl⟩ := Prod.mk.inj (Option.some.inj h)
    exact ⟨rfl, nofun⟩
  | _ => cases h

theorem resizeArray_keeps (h : resizeArray n S m = some ((answer, moved), m')) : Keeps moved m m' ∧ ¬S.isLeaf := by
  cases S with
  | array t =>
    obtain ⟨hanswer, rfl⟩ := Prod.mk.inj (Option.some.inj h)
    obtain ⟨-, rfl⟩ := Prod.mk.inj hanswer
    exact ⟨Message.resize_keeps t m n, nofun⟩
  | _ => cases h

theorem set_eq_some (h : set leaf S m = some ((answer, moved), m')) :
    moved = (fun _ => false) ∧ (⟨S, m'⟩ : Sigma Message) = leaf := by
  unfold set at h
  split at h
  next hS =>
    subst hS
    obtain ⟨hanswer, rfl⟩ := Prod.mk.inj (Option.some.inj h)
    exact ⟨(Prod.mk.inj hanswer).2.symm, rfl⟩
  next => cases h

theorem set_child (h : set leaf S m = some ((answer, moved), m')) : answer.child ≠ some i := by
  unfold set at h
  split at h
  next =>
    obtain ⟨hanswer, -⟩ := Prod.mk.inj (Option.some.inj h)
    obtain ⟨rfl, -⟩ := Prod.mk.inj hanswer
    nofun
  next => cases h

theorem apply_cases (h : op.apply S m = some ((answer, moved), m')) :
    (∃ leaf, op.written = some leaf ∧ S.isLeaf ∧ moved = (fun _ => false) ∧ (⟨S, m'⟩ : Sigma Message) = leaf) ∨
      (op.written = none ∧ ¬S.isLeaf ∧ Keeps moved m m') := by
  cases op with
  | init i n => exact Or.inr ⟨rfl, initPart_leaf h, initPart_keeps h⟩
  | initNamed key n =>
    obtain ⟨i, -, h⟩ := Option.bind_eq_some_iff.mp h
    exact Or.inr ⟨rfl, initPart_leaf h, initPart_keeps h⟩
  | size =>
    obtain ⟨rfl, hleaf⟩ := sizeOf_array h
    exact Or.inr ⟨rfl, hleaf, Keeps.refl moved m'⟩
  | resize n =>
    obtain ⟨hkeeps, hleaf⟩ := resizeArray_keeps h
    exact Or.inr ⟨rfl, hleaf, hkeeps⟩
  | setPrimitive p value =>
    obtain ⟨rfl, heq⟩ := set_eq_some (m := m) h
    cases heq
    exact Or.inl ⟨_, rfl, rfl, rfl, rfl⟩
  | setString value =>
    obtain ⟨rfl, heq⟩ := set_eq_some (m := m) h
    cases heq
    exact Or.inl ⟨_, rfl, rfl, rfl, rfl⟩

theorem apply_child (h : op.apply S m = some ((answer, moved), m')) (hi : answer.child = some i) :
    (Message.find S m' [i]).isSome := by
  have hpart {j : Nat} {k : BitVec 64} (hinit : initPart j k S m = some ((answer, moved), m')) :
      (Message.find S m' [i]).isSome := by
    have hmember {x : Message S} {moved₀ : Dangling}
        (hm : Message.modify (Message.build k) S x [j] = some (moved₀, m')) (hanswer : answer = .builder j) :
        (Message.find S m' [i]).isSome := by
      obtain ⟨part, x', -, -, hbelow, -⟩ := Message.modify_find S x m' [j] moved₀ hm
      subst hanswer
      obtain rfl := Option.some.inj hi
      have hfind := hbelow []
      rw [Message.find_nil, List.append_nil] at hfind
      rw [hfind]
      rfl
    cases S with
    | primitive p => cases hinit
    | string => cases hinit
    | tuple ts =>
      obtain ⟨moved₀, hm, hanswer, -⟩ := Record.initMember_modify hinit
      exact hmember hm hanswer
    | struct keys vs =>
      obtain ⟨moved₀, hm, hanswer, -⟩ := Record.initMember_modify hinit
      exact hmember hm hanswer
    | union keys vs =>
      obtain ⟨v₁, moved₀, -, hm, hanswer, -⟩ := Variant.initMember_modify hinit
      exact hmember (x := v₁) hm hanswer
    | array t =>
      obtain ⟨_, _, hinit⟩ := Option.bind_eq_some_iff.mp hinit
      obtain ⟨_, hlt, hinit⟩ := Option.bind_eq_some_iff.mp hinit
      obtain ⟨hanswer, rfl⟩ := Prod.mk.inj (Option.some.inj hinit)
      obtain ⟨rfl, -⟩ := Prod.mk.inj hanswer
      obtain rfl := Option.some.inj hi
      obtain ⟨element, hat⟩ : ∃ element, Vec.at? (α := Message t) m j = some element :=
        ⟨_, List.getElem?_eq_getElem (of_assert hlt)⟩
      rw [Message.find, hat]
      simp only [Option.bind_eq_bind, Option.bind_some, Message.find_nil]
      rfl
  cases op with
  | init j k => exact hpart h
  | initNamed key k =>
    obtain ⟨j, -, h⟩ := Option.bind_eq_some_iff.mp h
    exact hpart h
  | size =>
    cases S with
    | array t =>
      obtain ⟨hanswer, -⟩ := Prod.mk.inj (Option.some.inj h)
      obtain ⟨rfl, -⟩ := Prod.mk.inj hanswer
      cases hi
    | _ => cases h
  | resize k =>
    cases S with
    | array t =>
      obtain ⟨hanswer, -⟩ := Prod.mk.inj (Option.some.inj h)
      obtain ⟨rfl, -⟩ := Prod.mk.inj hanswer
      cases hi
    | _ => cases h
  | setPrimitive p value => exact absurd hi (set_child (m := m) h)
  | setString value => exact absurd hi (set_child (m := m) h)

end BuilderOp

/-! ## Runs -/

/-- A message and the builders handed out so far, the first one for all of it; `none` stands for one that dangles. -/
structure Building (S : Schema) where
  message : Message S
  builders : List (Option (List Nat))

namespace Building

variable {S : Schema}

/-- `heapMessageRoot` and its `build`, which takes a size if the message is an array. -/
def new (S : Schema) (n : BitVec 64) : Option (Building S) := do
  let (_, message) ← Message.build n S (Message.init S)
  return ⟨message, [some []]⟩

def valid (moved : Dangling) (path : List Nat) (builder : Option (List Nat)) : Option (List Nat) :=
  builder.filter fun q => !moved.below path q

/-- An operation on the builder of the given number; nothing is promised of one that dangles. -/
def step (b : Building S) (op : Nat × BuilderOp) : Option (BuilderAnswer × Building S) := do
  let path ← (b.builders[op.1]?).join
  let ((answer, moved), message) ← Message.modify op.2.apply S b.message path
  let builders := b.builders.map (valid moved path)
  return (answer, ⟨message, builders ++ (answer.child.map fun i => some (path ++ [i])).toList⟩)

def Refers (b : Building S) : Prop := ∀ q, some q ∈ b.builders → (Message.find S b.message q).isSome

theorem valid_eq_some {moved : Dangling} {path q : List Nat} {builder : Option (List Nat)} :
    valid moved path builder = some q ↔ builder = some q ∧ moved.below path q = false := by
  unfold valid
  rw [Option.filter_eq_some_iff, Bool.not_eq_true']

theorem step_eq_some {b b' : Building S} {op : Nat × BuilderOp} {answer : BuilderAnswer}
    (h : b.step op = some (answer, b')) : ∃ path moved, b.builders[op.1]? = some (some path) ∧
      Message.modify op.2.apply S b.message path = some ((answer, moved), b'.message) ∧
      b'.builders = b.builders.map (valid moved path) ++ (answer.child.map fun i => some (path ++ [i])).toList := by
  obtain ⟨path, hpath, h⟩ := Option.bind_eq_some_iff.mp h
  obtain ⟨⟨⟨answer', moved⟩, message⟩, hm, heq⟩ := Option.bind_eq_some_iff.mp h
  obtain ⟨rfl, rfl⟩ := Prod.mk.inj (Option.some.inj heq)
  exact ⟨path, moved, Option.join_eq_some_iff.mp hpath, hm, rfl⟩

theorem step_keeps {b : Building S} {op : BuilderOp} {path : List Nat} {answer : BuilderAnswer} {moved : Dangling}
    {m' : Message S} (h : Message.modify op.apply S b.message path = some ((answer, moved), m')) {q : List Nat}
    {part : Sigma Message} (hmoved : moved.below path q = false) (hpart : Message.find S b.message q = some part) :
    ∃ part', Message.find S m' q = some part' ∧ part'.1 = part.1 ∧
      (part.1.isLeaf → (q = path → op.written = none) → part' = part) := by
  obtain ⟨part₀, x, hfind, happly, hbelow, helse⟩ := Message.modify_find S b.message m' path _ h
  by_cases hpre : path <+: q
  · obtain ⟨r, rfl⟩ := hpre
    rw [Message.find_append, hfind, Option.bind_some] at hpart
    rw [hbelow r]
    rcases BuilderOp.apply_cases happly with ⟨leaf, hwritten, hleaf, -, -⟩ | ⟨-, -, hkeeps⟩
    · cases r with
      | nil =>
        rw [Message.find_nil] at hpart
        obtain rfl := Option.some.inj hpart
        refine ⟨_, Message.find_nil _ _, rfl, fun _ hsame => ?_⟩
        rw [hsame (List.append_nil path)] at hwritten
        cases hwritten
      | cons i r =>
        rw [Message.find_leaf hleaf] at hpart
        cases hpart
    · obtain ⟨part', hpart', hschema, hsame⟩ := hkeeps r part (Dangling.below_eq_false.mp hmoved r rfl) hpart
      exact ⟨part', hpart', hschema, fun hleaf _ => hsame hleaf⟩
  · obtain ⟨part', hpart', hschema, hsame⟩ := helse q part hpre hpart
    exact ⟨part', hpart', hschema, fun hleaf _ => hsame hleaf⟩

theorem step_refers {b b' : Building S} {op : Nat × BuilderOp} {answer : BuilderAnswer} (hb : b.Refers)
    (h : b.step op = some (answer, b')) : b'.Refers := by
  obtain ⟨path, moved, hpath, hm, hbuilders⟩ := step_eq_some h
  intro q hq
  rw [hbuilders, List.mem_append] at hq
  rcases hq with hold | hchild
  · obtain ⟨builder, hmem, hvalid⟩ := List.mem_map.mp hold
    obtain ⟨rfl, hmoved⟩ := valid_eq_some.mp hvalid
    obtain ⟨part, hpart⟩ := Option.isSome_iff_exists.mp (hb q hmem)
    obtain ⟨part', hpart', -⟩ := step_keeps hm hmoved hpart
    rw [hpart']
    rfl
  · obtain ⟨i, hi, heq⟩ := Option.map_eq_some_iff.mp (Option.mem_toList.mp hchild)
    obtain rfl := Option.some.inj heq
    obtain ⟨part₀, x, -, happly, hbelow, -⟩ := Message.modify_find S b.message b'.message path _ hm
    rw [hbelow [i]]
    exact BuilderOp.apply_child happly hi

theorem new_refers {n : BitVec 64} {b : Building S} (h : new S n = some b) : b.Refers := by
  obtain ⟨⟨moved, message⟩, -, heq⟩ := Option.bind_eq_some_iff.mp h
  obtain rfl := Option.some.inj heq
  intro q hq
  obtain rfl := Option.some.inj (List.mem_singleton.mp hq)
  rw [Message.find_nil]
  rfl

theorem step_valid {b b' : Building S} {op : Nat × BuilderOp} {answer : BuilderAnswer}
    (h : b.step op = some (answer, b')) {k : Nat} (hk : k < b.builders.length) {q : List Nat}
    (hq : b'.builders[k]? = some (some q)) : b.builders[k]? = some (some q) ∧ ∃ path moved,
      b.builders[op.1]? = some (some path) ∧ moved.below path q = false ∧
      Message.modify op.2.apply S b.message path = some ((answer, moved), b'.message) := by
  obtain ⟨path, moved, hpath, hm, hbuilders⟩ := step_eq_some h
  rw [hbuilders, List.getElem?_append_left (by rwa [List.length_map]), List.getElem?_map] at hq
  obtain ⟨builder, hbuilder, hvalid⟩ := Option.map_eq_some_iff.mp hq
  obtain ⟨rfl, hmoved⟩ := valid_eq_some.mp hvalid
  exact ⟨hbuilder, path, moved, hpath, hmoved, hm⟩

theorem step_length {b b' : Building S} {op : Nat × BuilderOp} {answer : BuilderAnswer}
    (h : b.step op = some (answer, b')) : b.builders.length ≤ b'.builders.length := by
  obtain ⟨path, moved, -, -, hbuilders⟩ := step_eq_some h
  rw [hbuilders, List.length_append, List.length_map]
  exact Nat.le_add_right _ _

/-- Nothing is set where the builder of a part is. -/
def Spares (q : List Nat) (b : Building S) (op : Nat × BuilderOp) : Prop :=
  b.builders[op.1]? = some (some q) → op.2.written = none

structure Holds (k : Nat) (q : List Nat) (leaf : Sigma Message) (b : Building S) : Prop where
  handed : k < b.builders.length
  find : b.builders[k]? = some (some q) → Message.find S b.message q = some leaf

theorem Holds.step {k : Nat} {q : List Nat} {leaf : Sigma Message} (hleaf : leaf.1.isLeaf) {b b' : Building S}
    {op : Nat × BuilderOp} {answer : BuilderAnswer} (hb : b.Holds k q leaf) (hspares : b.Spares q op)
    (h : b.step op = some (answer, b')) : b'.Holds k q leaf := by
  refine ⟨Nat.lt_of_lt_of_le hb.handed (step_length h), fun hq => ?_⟩
  obtain ⟨hq₀, path, moved, hpath, hmoved, hm⟩ := step_valid h hb.handed hq
  obtain ⟨part', hpart', -, hsame⟩ := step_keeps hm hmoved (hb.find hq₀)
  rw [hpart', hsame hleaf]
  intro heq
  subst heq
  exact hspares hpath

theorem holds_set {k : Nat} {op : BuilderOp} {leaf : Sigma Message} (hop : op.written = some leaf) {b b' : Building S}
    {answer : BuilderAnswer} (h : b.step (k, op) = some (answer, b')) (q : List Nat) :
    leaf.1.isLeaf ∧ b'.Holds k q leaf := by
  obtain ⟨path, moved, hpath, hm, hbuilders⟩ := step_eq_some h
  obtain ⟨part₀, x, -, happly, hbelow, -⟩ := Message.modify_find S b.message b'.message path _ hm
  have hk : k < b.builders.length := (List.getElem?_eq_some_iff.mp hpath).1
  rcases BuilderOp.apply_cases happly with ⟨leaf', hwritten, hleaf, -, heq⟩ | ⟨hnone, -⟩
  · obtain rfl := Option.some.inj (hop.symm.trans hwritten)
    subst heq
    refine ⟨hleaf, Nat.lt_of_lt_of_le hk (step_length h), fun hq => ?_⟩
    obtain ⟨hq₀, -⟩ := step_valid h hk hq
    obtain rfl := Option.some.inj (Option.some.inj (hpath.symm.trans hq₀))
    have hfind := hbelow []
    rwa [List.append_nil, Message.find_nil] at hfind
  · rw [hop] at hnone
    cases hnone

end Building

/-! ## Reading what was built -/

def Message.answer : Sigma Message → Option Answer
  | ⟨.primitive p, value⟩ => some (.primitive p value)
  | ⟨.string, value⟩ => some (.string value)
  | _ => none

theorem Record.lt_of_find : ∀ (ts : Pack) (m : Record ts) (i : Nat) (path : List Nat) (part : Sigma Message),
    Record.find ts m i path = some part → i < ts.toList.length
  | .nil, _, _, _, _, h => nomatch h
  | .cons _ _, _, 0, _, _, _ => Nat.succ_pos _
  | .cons _ ts, m, i + 1, path, part, h => Nat.succ_lt_succ (Record.lt_of_find ts m.2 i path part h)

theorem ReaderOp.apply_get {S : Schema} {m : Message S} {i : Nat} {path : List Nat} {part : Sigma Message}
    (h : Message.find S m (i :: path) = some part) : (ReaderOp.get i).apply S m = some (.reader i, m) := by
  cases S with
  | primitive p => cases h
  | string => cases h
  | tuple ts =>
    simp only [ReaderOp.apply, assert_pos (Record.lt_of_find ts m i path part h)]
    rfl
  | struct keys vs =>
    simp only [ReaderOp.apply, assert_pos (Record.lt_of_find vs m i path part h)]
    rfl
  | union keys vs =>
    have hselect : Variant.select vs m i = some m :=
      if_neg (not_not.mpr (Variant.index_find vs m i path part h))
    simp only [ReaderOp.apply, hselect]
    rfl
  | array t =>
    obtain ⟨element, hat, -⟩ := Option.bind_eq_some_iff.mp h
    obtain ⟨hi, -⟩ := List.getElem?_eq_some_iff.mp hat
    have hsize : i < Vec.size (α := Message t) m := hi
    simp only [ReaderOp.apply, assert_pos hsize]
    rfl

theorem ReaderOp.apply_value {leaf : Sigma Message} {answer : Answer} (h : Message.answer leaf = some answer) :
    ReaderOp.value.apply leaf.1 leaf.2 = some (answer, leaf.2) := by
  obtain ⟨S, m⟩ := leaf
  cases S with
  | primitive p =>
    obtain rfl := Option.some.inj h
    rfl
  | string =>
    obtain rfl := Option.some.inj h
    rfl
  | _ => cases h

namespace Reading

variable {S : Schema}

def walk : Nat → List Nat → List (Nat × ReaderOp)
  | k, [] => [(k, .value)]
  | k, i :: path => (k, .get i) :: walk (k + 1) path

theorem step_same {r : Reading S} {k : Nat} {op : ReaderOp} {path : List Nat} {part : Sigma Message} {answer : Answer}
    (hk : r.readers[k]? = some path) (hfind : Message.find S r.message path = some part)
    (happly : op.apply part.1 part.2 = some (answer, part.2)) : r.step (k, op) =
      some (answer, ⟨r.message, r.readers ++ (answer.child.map fun i => path ++ [i]).toList⟩) := by
  obtain ⟨m', hm⟩ := Message.modify_some S r.message path hfind happly
  obtain ⟨n, x, hn, hx, hiff⟩ := Message.modify_spec S r.message m' path answer hm
  obtain rfl := Option.some.inj (hfind.symm.trans hn)
  obtain ⟨-, rfl⟩ := Prod.mk.inj (Option.some.inj (happly.symm.trans hx))
  obtain rfl := hiff.mpr rfl
  simp only [step, hk, hm, Option.bind_eq_bind, Option.bind_some]
  rfl

/-- **Readers find what is there.** -/
theorem exec_walk {leaf : Sigma Message} {answer : Answer} (hanswer : Message.answer leaf = some answer) :
    ∀ (q path : List Nat) (r : Reading S) (k : Nat), r.readers.length = k + 1 → r.readers[k]? = some path →
      Message.find S r.message (path ++ q) = some leaf →
        ∃ readers, Run.exec step r (walk k q) = some (q.map .reader ++ [answer], ⟨r.message, readers⟩)
  | [], path, r, k, _, hk, hfind => by
    rw [List.append_nil] at hfind
    refine ⟨r.readers ++ (answer.child.map fun i => path ++ [i]).toList, ?_⟩
    rw [walk, Run.exec_cons (step_same hk hfind (ReaderOp.apply_value hanswer))]
    rfl
  | i :: q, path, r, k, hlen, hk, hfind => by
    have hpart := hfind
    rw [Message.find_append] at hpart
    obtain ⟨part, hpart, hbelow⟩ := Option.bind_eq_some_iff.mp hpart
    have hstep := step_same hk hpart (ReaderOp.apply_get hbelow)
    obtain ⟨readers, hrun⟩ := exec_walk hanswer q (path ++ [i]) ⟨r.message, r.readers ++ [path ++ [i]]⟩ (k + 1)
      (by rw [List.length_append, hlen, List.length_singleton])
      (by rw [List.getElem?_append_right (Nat.le_of_eq hlen), hlen, Nat.sub_self]; rfl)
      (by rwa [List.append_assoc])
    refine ⟨readers, ?_⟩
    rw [walk, Run.exec_cons hstep]
    exact congrArg _ hrun

end Reading

namespace Building

variable {S : Schema}

/-- **What was built is what is read.** The last value set through a builder that is still valid is in the message and
is encoded, and whoever decodes the bytes, from whatever buffer, finds it by the same path. -/
theorem built_is_read (hS : S.wellFormed) {n : BitVec 64} {b₀ b₁ b₂ b : Building S} (hnew : new S n = some b₀)
    {before : List (Nat × BuilderOp)} {os : List BuilderAnswer} (hbefore : Run.exec step b₀ before = some (os, b₁))
    {k : Nat} {op : BuilderOp} {leaf : Sigma Message} (hop : op.written = some leaf) {o : BuilderAnswer}
    (hset : b₁.step (k, op) = some (o, b₂)) {after : List (Nat × BuilderOp)} {os' : List BuilderAnswer}
    (hafter : Run.exec step b₂ after = some (os', b)) {q : List Nat} (hq : b.builders[k]? = some (some q))
    (hlast : Run.Along step (Spares q) b₂ after) :
    Message.find S b.message q = some leaf ∧
    ∀ out : AnyBuffer, (Wire.packetOf S b.message).length ≤ (writable out).length →
      ∃ sent out', ProtoKelCodec.encode S b.message out = some (noError, b.message, out') ∧
        readable out' = readable out ++ sent ∧
        ∀ (input : AnyBuffer) (rest : List UInt8) (old : Message S) (limit : Nat), readable input = sent ++ rest →
          sent.length ≤ 8 + limit → ∃ m d, ProtoKelCodec.decode S old input limit = some (noError, m, d) ∧
            readable d.buffer = rest ∧ (∀ q', some q' ∈ b.builders → (Message.find S m q').isSome) ∧
            ∃ answer readers, Message.answer leaf = some answer ∧
              Run.exec Reading.step (Reading.new m) (Reading.walk 0 q) =
                some (q.map .reader ++ [answer], ⟨m, readers⟩) := by
  obtain ⟨hleaf, hholds⟩ := holds_set hop hset q
  have hholds := Run.exec_preserves (Holds k q leaf) (Spares q) (fun _ _ _ _ hb hok h => hb.step hleaf hok h) after
    _ _ _ hafter hlast hholds
  have hrefers (s s' : Building S) (ops : List (Nat × BuilderOp)) (as : List BuilderAnswer)
      (hrun : Run.exec step s ops = some (as, s')) (hs : s.Refers) : s'.Refers :=
    Run.exec_preserves Refers (fun _ _ => True) (fun _ _ _ _ hb _ h => step_refers hb h) ops s s' as hrun
      (Run.along_true ops s) hs
  have hb : b.Refers := hrefers _ _ _ _ hafter (step_refers (hrefers _ _ _ _ hbefore (new_refers hnew)) hset)
  obtain ⟨answer, hanswer⟩ : ∃ answer, Message.answer leaf = some answer := by
    obtain ⟨T, value⟩ := leaf
    cases T with
    | primitive p => exact ⟨_, rfl⟩
    | string => exact ⟨_, rfl⟩
    | _ => cases hleaf
  refine ⟨hholds.find hq, fun out hroom => ?_⟩
  obtain ⟨out', hencode, -, -, hwritten, -⟩ := ProtoKelCodec.encode_fits hS (b := out) trivial hroom
  refine ⟨Wire.packetOf S b.message, out', hencode, ?_, ?_⟩
  · rw [AnyBuffer.readable_eq_written, AnyBuffer.readable_eq_written, hwritten]
  · intro input rest old limit hinput hlimit
    have hlen := Wire.length_packetOf S b.message
    have hlt := WriteLaws.room (b := out) trivial
    have hbody : (Wire.body S b.message).length < 2 ^ 64 := by omega
    have hfits : (Wire.body S b.message).length ≤ limit := by omega
    obtain ⟨d, hdecode, hrest⟩ := (ProtoKelCodec.decode_iff old limit (b := input) trivial b.message rest).mpr
      ((Wire.packet_exact hS hbody).mpr ⟨hinput, hfits⟩)
    obtain ⟨readers, hwalk⟩ := Reading.exec_walk hanswer q [] (Reading.new b.message) 0 rfl rfl (hholds.find hq)
    exact ⟨b.message, d, hdecode, hrest, hb, answer, readers, hanswer, hwalk⟩

instance (q : List Nat) (b : Building S) (op : Nat × BuilderOp) : Decidable (b.Spares q op) :=
  inferInstanceAs (Decidable (b.builders[op.1]? = some (some q) → op.2.written = none))

def post : Schema := .struct ["id", "tags"] (.cons (.primitive .uint8) (.cons (.array .string) .nil))

def tag : Vec UInt8 := ⟨[97, 98], by decide⟩

def posted : Message post := ((7 : BitVec 8), ((⟨[tag], by decide⟩ : Vec (Vec UInt8)), ()))

def postOps : List (Nat × BuilderOp) :=
  [(1, .init 1 0), (3, .setString ⟨[99], by decide⟩), (0, .init 0 0), (4, .setPrimitive .uint8 7), (1, .resize 1)]

theorem built_is_read_post : Message.find post posted [1, 0] = some ⟨.string, tag⟩ ∧ ∃ out' m d readers,
    ProtoKelCodec.encode post posted (AnyBuffer.ring (RingBuffer.new 40 (by decide))) = some (noError, posted, out') ∧
    ProtoKelCodec.decode post (Message.init post) out' (2 ^ 63) = some (noError, m, d) ∧
    Run.exec Reading.step (Reading.new m) (Reading.walk 0 [1, 0]) =
      some ([.reader 1, .reader 0, .string tag], ⟨m, readers⟩) := by
  obtain ⟨hfind, hbuilt⟩ := built_is_read (S := post) (n := 0) (k := 2) (q := [1, 0])
    (b := ⟨posted, [some [], some [1], some [1, 0], none, some [0]]⟩) (by decide) rfl
    (show Run.exec step _ [(0, .initNamed "tags" 2), (1, .init 0 0)] = _ from rfl)
    (show (BuilderOp.setString tag).written = _ from rfl) rfl (show Run.exec step _ postOps = _ from rfl) rfl
    (by decide)
  obtain ⟨sent, out', hencode, hsent, hread⟩ := hbuilt (AnyBuffer.ring (RingBuffer.new 40 (by decide))) (by decide)
  have hinput : readable out' = sent ++ [] := by
    rw [hsent, List.append_nil]
    rfl
  have hlimit : sent.length ≤ 8 + 2 ^ 63 := by
    have hlt := ReadLaws.readable_lt (b := out') trivial
    rw [hinput, List.append_nil] at hlt
    omega
  obtain ⟨m, d, hdecode, -, -, answer, readers, hanswer, hwalk⟩ :=
    hread out' [] (Message.init post) (2 ^ 63) hinput hlimit
  obtain rfl := Option.some.inj hanswer
  exact ⟨hfind, out', m, d, readers, hencode, hdecode, hwalk⟩

end Building

end Forstio
