import Forstio.Schema
import Forstio.Error
import Forstio.Lib.Run

/-!
# Readers

A reader refers to a part of a message and hands out readers of the parts below
it. Readers and builders share the accessors of the containers, and that of a
union is made for building: unless the alternative asked for is the one held, a
default message takes its place. Every other operation leaves the message
alone, and so does this one on the alternative held.
-/

namespace Forstio

/-- What can be asked of a reader; a member is named by its index or by its key. -/
inductive ReaderOp where
  | get (i : Nat)
  | getNamed (key : String)
  | size
  | index
  | hasAlternative (key : String)
  | value

inductive Answer where
  | reader (i : Nat)
  | size (n : Nat)
  | index (n : Nat)
  | hasAlternative (held : Bool)
  | primitive (p : Primitive) (value : BitVec (8 * p.width))
  | string (value : Vec UInt8)

def Answer.child : Answer → Option Nat
  | reader i => some i
  | _ => none

/-! ## One part -/

def Variant.initAt : (vs : Alternatives) → Nat → Option (Variant vs)
  | .one t, 0 => some (Message.init t)
  | .one _, _ + 1 => none
  | .cons t _, 0 => some (.inl (Message.init t))
  | .cons _ vs, i + 1 => (Variant.initAt vs i).map .inr

/-- `MessageContainer<schema::Union>::get<i>()`: the variant it leaves. -/
def Variant.select (vs : Alternatives) (v : Variant vs) (i : Nat) : Option (Variant vs) :=
  if i ≠ Variant.index vs v then Variant.initAt vs i else some v

namespace ReaderOp

/-- The operation on the part a reader refers to; what does not compile, or throws, aborts. -/
def apply : ReaderOp → (S : Schema) → Message S → Option (Answer × Message S)
  | get i, .tuple ts, m => do
    assert (i < ts.toList.length)
    return (.reader i, m)
  | get i, .struct _ vs, m => do
    assert (i < vs.toList.length)
    return (.reader i, m)
  | get i, .union _ vs, m => do
    let m ← Variant.select vs m i
    return (.reader i, m)
  | get i, .array t, m => do
    assert (i < Vec.size (α := Message t) m)
    return (.reader i, m)
  | getNamed key, .struct keys vs, m => do
    assert (keys.idxOf key < vs.toList.length)
    return (.reader (keys.idxOf key), m)
  | getNamed key, .union keys vs, m => do
    let m ← Variant.select vs m (keys.idxOf key)
    return (.reader (keys.idxOf key), m)
  | size, .array t, m => some (.size (Vec.size (α := Message t) m), m)
  | index, .union _ vs, m => some (.index (Variant.index vs m), m)
  | hasAlternative key, .union keys vs, m => do
    assert (key ∈ keys)
    return (.hasAlternative (Variant.index vs m = keys.idxOf key), m)
  | value, .primitive p, m => some (.primitive p m, m)
  | value, .string, m => some (.string m, m)
  | _, _, _ => none

def alternative (keys : List String) : ReaderOp → Option Nat
  | get i => some i
  | getNamed key => some (keys.idxOf key)
  | _ => none

/-- An alternative that is asked for is the one held. -/
def Held (op : ReaderOp) : (S : Schema) → Message S → Prop
  | .union keys vs, m => ∀ i ∈ op.alternative keys, i = Variant.index vs m
  | _, _ => True

instance (op : ReaderOp) : (S : Schema) → (m : Message S) → Decidable (op.Held S m)
  | .union keys vs, m => inferInstanceAs (Decidable (∀ i ∈ op.alternative keys, i = Variant.index vs m))
  | .primitive _, _ => isTrue trivial
  | .string, _ => isTrue trivial
  | .tuple _, _ => isTrue trivial
  | .struct _ _, _ => isTrue trivial
  | .array _, _ => isTrue trivial

end ReaderOp

theorem Variant.index_initAt : ∀ (vs : Alternatives) (i : Nat) (v : Variant vs), Variant.initAt vs i = some v →
    Variant.index vs v = i
  | .one _, 0, _, _ => rfl
  | .cons _ _, 0, _, h => by
    obtain rfl := Option.some.inj h
    rfl
  | .cons _ vs, i + 1, _, h => by
    obtain ⟨v, hv, rfl⟩ := Option.map_eq_some_iff.mp h
    exact congrArg Nat.succ (Variant.index_initAt vs i v hv)

theorem Variant.select_eq_iff {vs : Alternatives} {v v' : Variant vs} {i : Nat}
    (h : Variant.select vs v i = some v') : v' = v ↔ i = Variant.index vs v := by
  unfold Variant.select at h
  split at h
  next hne =>
    have hi := Variant.index_initAt vs i v' h
    refine ⟨fun heq => ?_, fun heq => absurd heq hne⟩
    rw [← hi, heq]
  next heq => exact ⟨fun _ => Classical.not_not.mp heq, fun _ => (Option.some.inj h).symm⟩

theorem assert_return {α β : Type} {p : Prop} [Decidable p] {a b : α} {x y : β}
    (h : (do assert p; return (a, x)) = some (b, y)) : y = x := by
  obtain ⟨-, -, heq⟩ := Option.bind_eq_some_iff.mp h
  exact (Prod.mk.inj (Option.some.inj heq)).2.symm

/-- An operation leaves its part alone exactly if it asks for the alternative held. -/
theorem ReaderOp.apply_eq_iff {op : ReaderOp} {S : Schema} {m m' : Message S} {answer : Answer}
    (h : op.apply S m = some (answer, m')) : m' = m ↔ op.Held S m := by
  unfold ReaderOp.apply at h
  split at h
  case h_1 => simp [ReaderOp.Held, assert_return h]
  case h_2 => simp [ReaderOp.Held, assert_return h]
  case h_3 i keys vs m =>
    obtain ⟨v, hv, heq⟩ := Option.bind_eq_some_iff.mp h
    obtain ⟨-, rfl⟩ := Prod.mk.inj (Option.some.inj heq)
    exact (Variant.select_eq_iff hv).trans (by simp [ReaderOp.Held, ReaderOp.alternative])
  case h_4 => simp [ReaderOp.Held, assert_return h]
  case h_5 => simp [ReaderOp.Held, assert_return h]
  case h_6 key keys vs m =>
    obtain ⟨v, hv, heq⟩ := Option.bind_eq_some_iff.mp h
    obtain ⟨-, rfl⟩ := Prod.mk.inj (Option.some.inj heq)
    exact (Variant.select_eq_iff hv).trans (by simp [ReaderOp.Held, ReaderOp.alternative])
  case h_7 => simp [ReaderOp.Held, (Prod.mk.inj (Option.some.inj h)).2]
  case h_8 => simp [ReaderOp.Held, ReaderOp.alternative, (Prod.mk.inj (Option.some.inj h)).2]
  case h_9 => simp [ReaderOp.Held, ReaderOp.alternative, assert_return h]
  case h_10 => simp [ReaderOp.Held, (Prod.mk.inj (Option.some.inj h)).2]
  case h_11 => simp [ReaderOp.Held, (Prod.mk.inj (Option.some.inj h)).2]
  case h_12 => nomatch h

/-! ## Parts of a message -/

mutual

def Message.find : (S : Schema) → Message S → List Nat → Option (Sigma Message)
  | S, m, [] => some ⟨S, m⟩
  | .tuple ts, m, i :: path => Record.find ts m i path
  | .struct _ vs, m, i :: path => Record.find vs m i path
  | .union _ vs, m, i :: path => Variant.find vs m i path
  | .array t, m, i :: path => do
    let element ← Vec.at? (α := Message t) m i
    Message.find t element path
  | .primitive _, _, _ :: _ => none
  | .string, _, _ :: _ => none

def Record.find : (ts : Pack) → Record ts → Nat → List Nat → Option (Sigma Message)
  | .nil, _, _, _ => none
  | .cons t _, m, 0, path => Message.find t m.1 path
  | .cons _ ts, m, i + 1, path => Record.find ts m.2 i path

def Variant.find : (vs : Alternatives) → Variant vs → Nat → List Nat → Option (Sigma Message)
  | .one t, m, 0, path => Message.find t m path
  | .one _, _, _ + 1, _ => none
  | .cons t _, .inl m, 0, path => Message.find t m path
  | .cons _ _, .inl _, _ + 1, _ => none
  | .cons _ _, .inr _, 0, _ => none
  | .cons _ vs, .inr v, i + 1, path => Variant.find vs v i path

end

section
variable {ω : Type} (f : (S : Schema) → Message S → Option (ω × Message S))

mutual

/-- The message after an operation on the part at the end of a path; a path through an alternative
that is not held leads nowhere. -/
def Message.modify : (S : Schema) → Message S → List Nat → Option (ω × Message S)
  | S, m, [] => f S m
  | .tuple ts, m, i :: path => Record.modify ts m i path
  | .struct _ vs, m, i :: path => Record.modify vs m i path
  | .union _ vs, m, i :: path => Variant.modify vs m i path
  | .array t, m, i :: path => do
    let element ← Vec.at? (α := Message t) m i
    let (answer, element) ← Message.modify t element path
    return (answer, Vec.set (α := Message t) m i element)
  | .primitive _, _, _ :: _ => none
  | .string, _, _ :: _ => none

def Record.modify : (ts : Pack) → Record ts → Nat → List Nat → Option (ω × Record ts)
  | .nil, _, _, _ => none
  | .cons t _, (m, ms), 0, path => do
    let (answer, m) ← Message.modify t m path
    return (answer, (m, ms))
  | .cons _ ts, (m, ms), i + 1, path => do
    let (answer, ms) ← Record.modify ts ms i path
    return (answer, (m, ms))

def Variant.modify : (vs : Alternatives) → Variant vs → Nat → List Nat → Option (ω × Variant vs)
  | .one t, m, 0, path => Message.modify t m path
  | .one _, _, _ + 1, _ => none
  | .cons t _, .inl m, 0, path => do
    let (answer, m) ← Message.modify t m path
    return (answer, .inl m)
  | .cons _ _, .inl _, _ + 1, _ => none
  | .cons _ _, .inr _, 0, _ => none
  | .cons _ vs, .inr v, i + 1, path => do
    let (answer, v) ← Variant.modify vs v i path
    return (answer, .inr v)

end

variable {f}

theorem Vec.set_eq_iff {α : Type} {v : Vec α} {i : Nat} {x y : α} (h : v.at? i = some x) : v.set i y = v ↔ y = x := by
  obtain ⟨hi, hx⟩ := List.getElem?_eq_some_iff.mp h
  rw [Subtype.ext_iff]
  refine ⟨fun heq => ?_, fun heq => ?_⟩
  · have := congrArg (·[i]?) heq
    simpa [Vec.set, hi, hx] using this
  · subst heq hx
    exact List.set_getElem_self hi

mutual

theorem Message.modify_spec : ∀ (S : Schema) (m m' : Message S) (path : List Nat) (answer : ω),
    Message.modify f S m path = some (answer, m') → ∃ n x, Message.find S m path = some n ∧
      f n.1 n.2 = some (answer, x) ∧ (m' = m ↔ x = n.2)
  | S, m, m', [], answer, h => by
    refine ⟨⟨S, m⟩, m', ?_, ?_, Iff.rfl⟩
    · cases S <;> rfl
    · cases S <;> exact h
  | .tuple ts, m, m', i :: path, answer, h => Record.modify_spec ts m m' i path answer h
  | .struct _ vs, m, m', i :: path, answer, h => Record.modify_spec vs m m' i path answer h
  | .union _ vs, m, m', i :: path, answer, h => Variant.modify_spec vs m m' i path answer h
  | .array t, m, m', i :: path, answer, h => by
    simp only [Message.modify, Option.bind_eq_bind, Option.bind_eq_some_iff] at h
    obtain ⟨element, hat, ⟨answer', element'⟩, hm, heq⟩ := h
    obtain ⟨rfl, rfl⟩ := Prod.mk.inj (Option.some.inj heq)
    obtain ⟨n, x, hfind, hf, hiff⟩ := Message.modify_spec t element element' path answer' hm
    refine ⟨n, x, ?_, hf, Iff.trans ?_ hiff⟩
    · simp only [Message.find, hat, Option.bind_eq_bind, Option.bind_some, hfind]
    · exact Vec.set_eq_iff hat
  | .primitive _, _, _, _ :: _, _, h => nomatch h
  | .string, _, _, _ :: _, _, h => nomatch h

theorem Record.modify_spec : ∀ (ts : Pack) (m m' : Record ts) (i : Nat) (path : List Nat) (answer : ω),
    Record.modify f ts m i path = some (answer, m') → ∃ n x, Record.find ts m i path = some n ∧
      f n.1 n.2 = some (answer, x) ∧ (m' = m ↔ x = n.2)
  | .nil, _, _, _, _, _, h => nomatch h
  | .cons t _, (m, ms), _, 0, path, answer, h => by
    simp only [Record.modify, Option.bind_eq_bind, Option.bind_eq_some_iff] at h
    obtain ⟨⟨answer', m'⟩, hm, heq⟩ := h
    obtain ⟨rfl, rfl⟩ := Prod.mk.inj (Option.some.inj heq)
    obtain ⟨n, x, hfind, hf, hiff⟩ := Message.modify_spec t m m' path answer' hm
    exact ⟨n, x, hfind, hf, Iff.trans ⟨fun heq => (Prod.mk.inj heq).1, congrArg (·, ms)⟩ hiff⟩
  | .cons _ ts, (m, ms), _, i + 1, path, answer, h => by
    simp only [Record.modify, Option.bind_eq_bind, Option.bind_eq_some_iff] at h
    obtain ⟨⟨answer', ms'⟩, hm, heq⟩ := h
    obtain ⟨rfl, rfl⟩ := Prod.mk.inj (Option.some.inj heq)
    obtain ⟨n, x, hfind, hf, hiff⟩ := Record.modify_spec ts ms ms' i path answer' hm
    exact ⟨n, x, hfind, hf, Iff.trans ⟨fun heq => (Prod.mk.inj heq).2, congrArg (m, ·)⟩ hiff⟩

theorem Variant.modify_spec : ∀ (vs : Alternatives) (m m' : Variant vs) (i : Nat) (path : List Nat) (answer : ω),
    Variant.modify f vs m i path = some (answer, m') → ∃ n x, Variant.find vs m i path = some n ∧
      f n.1 n.2 = some (answer, x) ∧ (m' = m ↔ x = n.2)
  | .one t, m, m', 0, path, answer, h => Message.modify_spec t m m' path answer h
  | .one _, _, _, _ + 1, _, _, h => nomatch h
  | .cons t _, .inl m, _, 0, path, answer, h => by
    simp only [Variant.modify, Option.bind_eq_bind, Option.bind_eq_some_iff] at h
    obtain ⟨⟨answer', m'⟩, hm, heq⟩ := h
    obtain ⟨rfl, rfl⟩ := Prod.mk.inj (Option.some.inj heq)
    obtain ⟨n, x, hfind, hf, hiff⟩ := Message.modify_spec t m m' path answer' hm
    exact ⟨n, x, hfind, hf, Iff.trans ⟨fun heq => Sum.inl.inj heq, congrArg Sum.inl⟩ hiff⟩
  | .cons _ _, .inl _, _, _ + 1, _, _, h => nomatch h
  | .cons _ _, .inr _, _, 0, _, _, h => nomatch h
  | .cons _ vs, .inr v, _, i + 1, path, answer, h => by
    simp only [Variant.modify, Option.bind_eq_bind, Option.bind_eq_some_iff] at h
    obtain ⟨⟨answer', v'⟩, hm, heq⟩ := h
    obtain ⟨rfl, rfl⟩ := Prod.mk.inj (Option.some.inj heq)
    obtain ⟨n, x, hfind, hf, hiff⟩ := Variant.modify_spec vs v v' i path answer' hm
    exact ⟨n, x, hfind, hf, Iff.trans ⟨fun heq => Sum.inr.inj heq, congrArg Sum.inr⟩ hiff⟩

end

end

/-! ## Runs -/

/-- A message and the readers handed out so far, the first one for all of it. -/
structure Reading (S : Schema) where
  message : Message S
  readers : List (List Nat)

namespace Reading

variable {S : Schema}

def new (m : Message S) : Reading S := ⟨m, [[]]⟩

def step (r : Reading S) (op : Nat × ReaderOp) : Option (Answer × Reading S) := do
  let path ← r.readers[op.1]?
  let (answer, message) ← Message.modify op.2.apply S r.message path
  return (answer, ⟨message, r.readers ++ (answer.child.map fun i => path ++ [i]).toList⟩)

def Held (r : Reading S) (op : Nat × ReaderOp) : Prop :=
  ∀ path ∈ r.readers[op.1]?, ∀ part ∈ Message.find S r.message path, op.2.Held part.1 part.2

instance (r : Reading S) (op : Nat × ReaderOp) : Decidable (r.Held op) :=
  inferInstanceAs (Decidable (∀ path ∈ r.readers[op.1]?, ∀ part ∈ Message.find S r.message path,
    op.2.Held part.1 part.2))

theorem step_message {r r' : Reading S} {op : Nat × ReaderOp} {answer : Answer}
    (h : r.step op = some (answer, r')) : r'.message = r.message ↔ r.Held op := by
  obtain ⟨path, hpath, hrest⟩ := Option.bind_eq_some_iff.mp h
  obtain ⟨⟨answer', m⟩, hm, heq⟩ := Option.bind_eq_some_iff.mp hrest
  obtain ⟨-, rfl⟩ := Prod.mk.inj (Option.some.inj heq)
  obtain ⟨part, x, hfind, happly, hiff⟩ := Message.modify_spec S r.message m path answer' hm
  refine Iff.trans hiff (Iff.trans (ReaderOp.apply_eq_iff happly) ⟨fun hheld p hp n hn => ?_, fun hheld => ?_⟩)
  · obtain rfl := Option.some.inj (hpath.symm.trans hp)
    obtain rfl := Option.some.inj (hfind.symm.trans hn)
    exact hheld
  · exact hheld path hpath part hfind

/-- **Readers leave the message alone** throughout a run of operations exactly when they ask unions
for the alternative held only. -/
theorem message_unchanged_iff (m : Message S) (ops : List (Nat × ReaderOp)) {answers : List Answer} {r : Reading S}
    (hrun : Run.exec step (new m) ops = some (answers, r)) :
    (∀ bs, bs <+: ops → ∀ os r', Run.exec step (new m) bs = some (os, r') → r'.message = m) ↔
      Run.Along step Held (new m) ops := by
  refine Run.exec_runs_iff (fun r => r.message = m) (fun r => r.message = m) (fun _ h => h) ?_ ?_ ops (new m) rfl
    ⟨answers, r, hrun⟩
  · intro r op answer r' hm hheld hstep
    exact ((step_message hstep).mpr hheld).trans hm
  · intro r op answer r' hm hno hstep hm'
    exact hno ((step_message hstep).mp (hm'.trans hm.symm))

def schema : Schema :=
  .struct ["u"] (.cons (.union ["number", "text"] (.cons (.primitive .uint8) (.one .string))) .nil)

def number (n : BitVec 8) : Message schema := ((Sum.inl n : BitVec 8 ⊕ Vec UInt8), ())

def numberOps : List (Nat × ReaderOp) := [(0, .getNamed "u"), (1, .index), (1, .getNamed "number"), (2, .value)]

theorem message_unchanged_iff_number : Run.Along step Held (new (number 5)) numberOps ∧
    ∀ bs, bs <+: numberOps → ∀ os r, Run.exec step (new (number 5)) bs = some (os, r) → r.message = number 5 := by
  have hheld : Run.Along step Held (new (number 5)) numberOps := by decide
  have hrun : Run.exec step (new (number 5)) numberOps =
      some ([.reader 0, .index 0, .reader 0, .primitive .uint8 5], ⟨number 5, [[], [0], [0, 0]]⟩) := rfl
  exact ⟨hheld, (message_unchanged_iff (number 5) numberOps hrun).mpr hheld⟩

/-- Asking for the text of a message that holds a number empties it. -/
theorem message_unchanged_fails : ∃ r, Run.exec step (new (number 5)) [(0, .getNamed "u"), (1, .index),
      (1, .getNamed "text"), (1, .index)] = some ([.reader 0, .index 0, .reader 1, .index 1], r) ∧
    r.message ≠ number 5 := by
  refine ⟨⟨((Sum.inr Vec.empty : BitVec 8 ⊕ Vec UInt8), ()), [[], [0], [0, 1]]⟩, rfl, fun h => ?_⟩
  exact absurd (Prod.mk.inj h).1 nofun

end Reading

end Forstio
