import Forstio.Schema
import Forstio.StreamEndian
import Forstio.Lib.Format

/-!
# The wire format

What the codec means, without buffers: `body` is the word of a message and
`parse` takes a message off the front of a word. The format delimits itself
(`parse_exact`), and more bytes change neither an accepted message nor a
critical error (`parse_steady`).
-/

namespace Forstio

open LittleEndian Format

namespace Wire

def tooSmall : Error := recoverableError "Buffer too small"

def badId : Error := criticalError "Union doesn't have this many id's"

def number (w : Nat) : Parser UInt8 Error (BitVec (8 * w)) := do
  let xs ← block tooSmall w
  return BitVec.ofNat _ (leNat xs)

/-- The vector of `k` items that were read one after another. -/
def vec {α : Type} (k : BitVec 64) (xs : List α) : Vec α :=
  ⟨xs.take k.toNat, Nat.lt_of_le_of_lt (List.length_take_le _ _) k.isLt⟩

mutual

def body : (S : Schema) → Message S → List UInt8
  | .primitive p, m => leBits (w := p.width) m
  | .string, m => leBytes 8 (Vec.size m) ++ m.1
  | .tuple ts, m => bodyRecord ts m
  | .struct _ vs, m => bodyRecord vs m
  | .union _ vs, m => leBytes 4 (Variant.index vs m) ++ bodyVariant vs m
  | .array t, m => leBytes 8 (Vec.size m) ++ m.1.flatMap (body t)

def bodyRecord : (ts : Pack) → Record ts → List UInt8
  | .nil, _ => []
  | .cons t ts, (m, ms) => body t m ++ bodyRecord ts ms

def bodyVariant : (ts : Alternatives) → Variant ts → List UInt8
  | .one t, m => body t m
  | .cons t _, .inl m => body t m
  | .cons _ ts, .inr v => bodyVariant ts v

end

mutual

def parse : (S : Schema) → Parser UInt8 Error (Message S)
  | .primitive p => number p.width
  | .string => do
    let k ← number 8
    let xs ← block tooSmall k.toNat
    return vec k xs
  | .tuple ts => parseRecord ts
  | .struct _ vs => parseRecord vs
  | .union _ vs => do
    let id ← number 4
    parseVariant vs id.toNat
  | .array t => do
    let k ← number 8
    let ms ← repeated (parse t) k.toNat
    return vec k ms

def parseRecord : (ts : Pack) → Parser UInt8 Error (Record ts)
  | .nil => return ()
  | .cons t ts => do
    let m ← parse t
    let ms ← parseRecord ts
    return (m, ms)

def parseVariant : (ts : Alternatives) → Nat → Parser UInt8 Error (Variant ts)
  | .one t, 0 => parse t
  | .one _, _ + 1 => throw badId
  | .cons t _, 0 => do
    let m ← parse t
    return .inl m
  | .cons _ ts, i + 1 => do
    let v ← parseVariant ts i
    return .inr v

end

/-! ## Memory -/

/-- What happens behind a value that was read. -/
def after {α : Type} (p : Parser UInt8 Error α) (bs : List UInt8) (f : α → List UInt8 → List Nat) : List Nat :=
  match p.run bs with
  | .ok (a, rest) => f a rest
  | .error _ => []

def allocsRepeated {α : Type} (p : Parser UInt8 Error α) (allocs : List UInt8 → List Nat) :
    Nat → List UInt8 → List Nat
  | 0, _ => []
  | n + 1, bs => allocs bs ++ after p bs fun _ rest => allocsRepeated p allocs n rest

mutual

/-- The lengths for which reading a message asks for memory. A string is
resized once its bytes are there, an array as soon as its length is. -/
def allocs : Schema → List UInt8 → List Nat
  | .primitive _, _ => []
  | .string, bs => after (number 8) bs fun k rest => if rest.length < k.toNat then [] else [k.toNat]
  | .tuple ts, bs => allocsRecord ts bs
  | .struct _ vs, bs => allocsRecord vs bs
  | .union _ vs, bs => after (number 4) bs fun id rest => allocsVariant vs id.toNat rest
  | .array t, bs => after (number 8) bs fun k rest => k.toNat :: allocsRepeated (parse t) (allocs t) k.toNat rest

def allocsRecord : Pack → List UInt8 → List Nat
  | .nil, _ => []
  | .cons t ts, bs => allocs t bs ++ after (parse t) bs fun _ rest => allocsRecord ts rest

def allocsVariant : Alternatives → Nat → List UInt8 → List Nat
  | .one t, 0, bs => allocs t bs
  | .one _, _ + 1, _ => []
  | .cons t _, 0, bs => allocs t bs
  | .cons _ ts, i + 1, bs => allocsVariant ts i bs

end

/-! ## The format delimits itself -/

theorem number_exact (w : Nat) : Exact leBits (number w) := by
  intro bs v rest
  simp only [number, run_bind_ok, run_block_ok, run_pure_ok]
  constructor
  · rintro ⟨xs, r, ⟨hlen, rfl⟩, h⟩
    obtain ⟨rfl, rfl⟩ := Prod.mk.inj h
    rw [leBits_ofNat hlen]
  · rintro rfl
    exact ⟨leBits v, rest, ⟨length_leBits v, rfl⟩, by rw [ofNat_leBits]⟩

theorem vec_exact {α : Type} {p : Nat → Parser UInt8 Error (List α)} {flat : List α → List UInt8}
    (hp : ∀ n bs xs rest, (p n).run bs = .ok (xs, rest) ↔ xs.length = n ∧ bs = flat xs ++ rest)
    (k : BitVec 64) (bs : List UInt8) (c : Vec α) (rest : List UInt8) :
    (do let xs ← p k.toNat; return vec k xs : Parser UInt8 Error (Vec α)).run bs = .ok (c, rest) ↔
      BitVec.ofNat 64 c.size = k ∧ bs = flat c.1 ++ rest := by
  simp only [run_bind_ok, run_pure_ok, hp]
  constructor
  · rintro ⟨xs, r, ⟨hlen, rfl⟩, h⟩
    obtain ⟨rfl, rfl⟩ := Prod.mk.inj h
    have hxs : (vec k xs).1 = xs := List.take_of_length_le (by omega)
    refine ⟨?_, by rw [hxs]⟩
    rw [Vec.size, hxs, hlen, BitVec.ofNat_toNat, BitVec.setWidth_eq]
  · rintro ⟨rfl, rfl⟩
    have hk : (BitVec.ofNat 64 c.size).toNat = c.size := by
      rw [BitVec.toNat_ofNat, Nat.mod_eq_of_lt (show c.size < 2 ^ 64 from c.2)]
    refine ⟨c.1, rest, ⟨hk.symm, rfl⟩, ?_⟩
    have hc : vec (BitVec.ofNat 64 c.size) c.1 = c := by
      apply Subtype.ext
      simp only [vec]
      rw [hk, Vec.size, List.take_length]
    rw [hc]

theorem leBits_ofNat_size {α : Type} (c : Vec α) : leBits (w := 8) (BitVec.ofNat 64 c.size) = leBytes 8 c.size := by
  rw [leBits, BitVec.toNat_ofNat, Nat.mod_eq_of_lt (show c.size < 2 ^ (8 * 8) from c.2)]

theorem ofNat_index {ts : Alternatives} (h : ts.count ≤ 2 ^ 32) (v : Variant ts) (id : BitVec 32) :
    BitVec.ofNat 32 (Variant.index ts v) = id ↔ Variant.index ts v = id.toNat := by
  have hlt := Variant.index_lt ts v
  constructor
  · rintro rfl
    rw [BitVec.toNat_ofNat, Nat.mod_eq_of_lt (by omega)]
  · intro h
    rw [h, BitVec.ofNat_toNat, BitVec.setWidth_eq]

/-- A vector is its length and then its items. -/
theorem counted_exact {α : Type} {p : Nat → Parser UInt8 Error (List α)} {flat : List α → List UInt8}
    (hp : ∀ n bs xs rest, (p n).run bs = .ok (xs, rest) ↔ xs.length = n ∧ bs = flat xs ++ rest) :
    Exact (fun c : Vec α => leBytes 8 c.size ++ flat c.1)
      (do let k ← number 8; let xs ← p k.toNat; return vec k xs) := by
  have h := (number_exact 8).bind (fun c : Vec α => BitVec.ofNat 64 c.size) (vec_exact hp)
  simpa only [leBits_ofNat_size] using h

theorem union_exact {ts : Alternatives} (hn : ts.count ≤ 2 ^ 32)
    (hp : ∀ i bs v rest, (parseVariant ts i).run bs = .ok (v, rest) ↔
      Variant.index ts v = i ∧ bs = bodyVariant ts v ++ rest) :
    Exact (fun v => leBytes 4 (Variant.index ts v) ++ bodyVariant ts v)
      (do let id ← number 4; parseVariant ts id.toNat) := by
  have h := (number_exact 4).bind (fun v => BitVec.ofNat 32 (Variant.index ts v))
    fun id bs v rest => (hp id.toNat bs v rest).trans (and_congr_left fun _ => (ofNat_index hn v id).symm)
  have hid : ∀ v, leBits (w := 4) (BitVec.ofNat 32 (Variant.index ts v)) = leBytes 4 (Variant.index ts v) := by
    intro v
    have hlt : Variant.index ts v < 2 ^ (8 * 4) := Nat.lt_of_lt_of_le (Variant.index_lt ts v) hn
    rw [leBits, BitVec.toNat_ofNat, Nat.mod_eq_of_lt hlt]
  simpa only [hid] using h

mutual

/-- **The format delimits itself.** A word is accepted exactly when it starts
with the word of a message, and then that message is the result. -/
theorem parse_exact : ∀ S : Schema, S.wellFormed → Exact (body S) (parse S)
  | .primitive p, _ => number_exact p.width
  | .string, _ => counted_exact fun n bs xs rest => run_block_ok
  | .tuple ts, h => parseRecord_exact ts h
  | .struct _ vs, h => by
    simp only [Schema.wellFormed, Bool.and_eq_true] at h
    exact parseRecord_exact vs h.2
  | .union _ vs, h => by
    simp only [Schema.wellFormed, Bool.and_eq_true, decide_eq_true_eq] at h
    exact union_exact h.1.2.2 (parseVariant_exact vs h.2)
  | .array t, h => by
    simp only [Schema.wellFormed, Bool.and_eq_true] at h
    exact counted_exact (repeated_ok (parse_exact t h.2))

theorem parseRecord_exact : ∀ ts : Pack, ts.wellFormed → Exact (bodyRecord ts) (parseRecord ts)
  | .nil, _ => Exact.unit
  | .cons t ts, h => by
    simp only [Pack.wellFormed, Bool.and_eq_true] at h
    exact (parse_exact t h.1).pair (parseRecord_exact ts h.2)

theorem parseVariant_exact : ∀ ts : Alternatives, ts.wellFormed → ∀ (i : Nat) (bs : List UInt8) (v : Variant ts)
    (rest : List UInt8), (parseVariant ts i).run bs = .ok (v, rest) ↔
      Variant.index ts v = i ∧ bs = bodyVariant ts v ++ rest
  | .one t, h, 0, bs, v, rest => (parse_exact t h bs v rest).trans ⟨fun h => ⟨rfl, h⟩, fun h => h.2⟩
  | .one t, h, i + 1, bs, v, rest => run_throw_ok.trans ⟨False.elim, fun h => by cases h.1⟩
  | .cons t ts, h, 0, bs, v, rest => by
    simp only [Alternatives.wellFormed, Bool.and_eq_true] at h
    refine run_map_ok.trans ?_
    cases v with
    | inl m =>
      constructor
      · rintro ⟨_, hm, hbs⟩
        cases hm
        exact ⟨rfl, (parse_exact t h.1 ..).mp hbs⟩
      · rintro ⟨-, hbs⟩
        exact ⟨m, rfl, (parse_exact t h.1 ..).mpr hbs⟩
    | inr v => exact ⟨fun ⟨_, hm, _⟩ => (by cases hm), fun ⟨hi, _⟩ => (by cases hi)⟩
  | .cons t ts, h, i + 1, bs, v, rest => by
    simp only [Alternatives.wellFormed, Bool.and_eq_true] at h
    refine run_map_ok.trans ?_
    cases v with
    | inl m => exact ⟨fun ⟨_, hv, _⟩ => (by cases hv), fun ⟨hi, _⟩ => (by cases hi)⟩
    | inr v =>
      constructor
      · rintro ⟨_, hv, hbs⟩
        cases hv
        obtain ⟨hi, hbs⟩ := (parseVariant_exact ts h.2 i bs v rest).mp hbs
        exact ⟨congrArg (· + 1) hi, hbs⟩
      · rintro ⟨hi, hbs⟩
        exact ⟨v, rfl, (parseVariant_exact ts h.2 i bs v rest).mpr ⟨Nat.succ.inj hi, hbs⟩⟩

end

/-! ## More bytes -/

def critical (e : Error) : Prop := e.isCritical = true

theorem number_steady (w : Nat) : Steady tooSmall critical (number w) :=
  (Steady.block tooSmall critical w).bind fun _ => Steady.pure _

mutual

/-- **More bytes change no verdict** but that there are too few. -/
theorem parse_steady : ∀ S : Schema, Steady tooSmall critical (parse S)
  | .primitive p => number_steady p.width
  | .string => (number_steady 8).bind fun k =>
    (Steady.block tooSmall critical k.toNat).bind fun _ => Steady.pure _
  | .tuple ts => parseRecord_steady ts
  | .struct _ vs => parseRecord_steady vs
  | .union _ vs => (number_steady 4).bind fun id => parseVariant_steady vs id.toNat
  | .array t => (number_steady 8).bind fun k => ((parse_steady t).repeated k.toNat).bind fun _ => Steady.pure _

theorem parseRecord_steady : ∀ ts : Pack, Steady tooSmall critical (parseRecord ts)
  | .nil => Steady.pure ()
  | .cons t ts => (parse_steady t).bind fun _ => (parseRecord_steady ts).bind fun _ => Steady.pure _

theorem parseVariant_steady : ∀ (ts : Alternatives) (i : Nat), Steady tooSmall critical (parseVariant ts i)
  | .one t, 0 => parse_steady t
  | .one _, _ + 1 => Steady.throw rfl
  | .cons t _, 0 => (parse_steady t).bind fun _ => Steady.pure _
  | .cons _ ts, i + 1 => (parseVariant_steady ts i).bind fun _ => Steady.pure _

end

end Wire

end Forstio
