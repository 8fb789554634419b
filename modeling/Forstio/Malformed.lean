import Forstio.DecodeExact

/-!
# Packets that are not well formed

`Visits P S bs` walks over `bs` as over a value of `S` and says that it comes
to the beginning of some value with the property `P`. A recoverable verdict is
a walk that comes to a value cut off by the end of the word (`Cut`), whatever
the announced packet length; a call of `resize` beyond the data received is a
walk that comes to an array with such a length.
-/

namespace Forstio

open LittleEndian Format

namespace Wire

mutual

/-- Reading `bs` as a value of the schema, one comes to the beginning of a
value of a schema `T`, with the bytes `r` still to read, for which `P T r`. -/
def Visits (P : Schema → List UInt8 → Prop) : Schema → List UInt8 → Prop
  | .primitive p, bs => P (.primitive p) bs
  | .string, bs => P .string bs
  | .tuple ts, bs => VisitsRecord P ts bs
  | .struct _ vs, bs => VisitsRecord P vs bs
  | .union keys vs, bs =>
    P (.union keys vs) bs ∨ ∃ id rest, id < 2 ^ 32 ∧ bs = leBytes 4 id ++ rest ∧ VisitsVariant P vs id rest
  | .array t, bs =>
    P (.array t) bs ∨ ∃ k rest, k < 2 ^ 64 ∧ bs = leBytes 8 k ++ rest ∧
      ∃ (ms : List (Message t)) (r : List UInt8), ms.length < k ∧ rest = ms.flatMap (body t) ++ r ∧ Visits P t r

def VisitsRecord (P : Schema → List UInt8 → Prop) : Pack → List UInt8 → Prop
  | .nil, _ => False
  | .cons t ts, bs => Visits P t bs ∨ ∃ m rest, bs = body t m ++ rest ∧ VisitsRecord P ts rest

def VisitsVariant (P : Schema → List UInt8 → Prop) : Alternatives → Nat → List UInt8 → Prop
  | .one t, 0, bs => Visits P t bs
  | .one _, _ + 1, _ => False
  | .cons t _, 0, bs => Visits P t bs
  | .cons _ ts, i + 1, bs => VisitsVariant P ts i bs

end

/-- The value begins, but the word ends before its own bytes do. Of a union or
an array these are only the number or the length. -/
def Cut : Schema → List UInt8 → Prop
  | .primitive p, r => r.length < p.width
  | .string, r => r.length < 8 ∨ r.length < 8 + leNat (r.take 8)
  | .union _ _, r => r.length < 4
  | .array _, r => r.length < 8
  | _, _ => False

/-- An array that says it has more than `n` items. -/
def Longer (n : Nat) : Schema → List UInt8 → Prop
  | .array _, r => ∃ k rest, k < 2 ^ 64 ∧ r = leBytes 8 k ++ rest ∧ n < k
  | _, _ => False

/-! ## Walking as the parser does -/

theorem number_error {w : Nat} {bs : List UInt8} {e : Error} :
    (number w).run bs = .error e ↔ e = tooSmall ∧ bs.length < w := by
  rcases Nat.lt_or_ge bs.length w with hlt | hge
  · rw [(ProtoKel.number_run bs).1 hlt]
    exact ⟨fun h => ⟨(Except.error.inj h).symm, hlt⟩, fun h => by rw [h.1]⟩
  · rw [(ProtoKel.number_run bs).2 hge]
    exact ⟨fun h => (by cases h), fun h => absurd h.2 (Nat.not_lt.mpr hge)⟩

theorem number_bind_short {α : Type} {w : Nat} {q : BitVec (8 * w) → Parser UInt8 Error α}
    {Q : Nat → List UInt8 → Prop} (hq : ∀ k rest, (q k).run rest = .error tooSmall ↔ Q k.toNat rest)
    (bs : List UInt8) : (number w >>= q).run bs = .error tooSmall ↔
      bs.length < w ∨ ∃ k rest, k < 2 ^ (8 * w) ∧ bs = leBytes w k ++ rest ∧ Q k rest := by
  rw [run_bind_error, number_error]
  refine or_congr ⟨fun h => h.2, fun h => ⟨rfl, h⟩⟩ ?_
  constructor
  · rintro ⟨k, rest, hk, h⟩
    exact ⟨k.toNat, rest, k.isLt, (number_exact w _ _ _).mp hk, (hq k rest).mp h⟩
  · rintro ⟨k, rest, hlt, hbs, h⟩
    have hk : (BitVec.ofNat (8 * w) k).toNat = k := by rw [BitVec.toNat_ofNat, Nat.mod_eq_of_lt hlt]
    refine ⟨BitVec.ofNat _ k, rest, (number_exact w _ _ _).mpr ?_, (hq _ rest).mpr (by rwa [hk])⟩
    rw [leBits, hk, hbs]

theorem block_error {k : Nat} {bs : List UInt8} {e : Error} :
    (block tooSmall k).run bs = .error e ↔ e = tooSmall ∧ bs.length < k := by
  rw [run_block]
  split
  · rename_i h
    exact ⟨fun h' => ⟨(Except.error.inj h').symm, h⟩, fun h' => by rw [h'.1]⟩
  · rename_i h
    exact ⟨fun h' => (by cases h'), fun h' => absurd h'.2 h⟩

mutual

/-- **A message is reported as incomplete** exactly when it is cut off. -/
theorem parse_short : ∀ (S : Schema), S.wellFormed → ∀ bs, (parse S).run bs = .error tooSmall ↔ Visits Cut S bs
  | .primitive p, _, bs => by
    refine number_error.trans ?_
    exact ⟨fun h => h.2, fun h => ⟨rfl, h⟩⟩
  | .string, _, bs => by
    refine (number_bind_short (Q := fun k rest => rest.length < k)
      (fun k rest => run_map_error.trans (block_error.trans ⟨fun h => h.2, fun h => ⟨rfl, h⟩⟩)) bs).trans ?_
    show _ ↔ bs.length < 8 ∨ bs.length < 8 + leNat (bs.take 8)
    constructor
    · rintro (h | ⟨k, rest, hlt, rfl, h⟩)
      · exact Or.inl h
      · right
        rw [List.take_left' (length_leBytes 8 k), leNat_leBytes_of_lt hlt, List.length_append, length_leBytes]
        omega
    · intro h
      rcases Nat.lt_or_ge bs.length 8 with h8 | h8
      · exact Or.inl h8
      · have hlen : (bs.take 8).length = 8 := by rw [List.length_take]; omega
        have hlt := leNat_lt (bs.take 8)
        rw [hlen] at hlt
        refine Or.inr ⟨leNat (bs.take 8), bs.drop 8, hlt, ?_, ?_⟩
        · rw [← eq_leBytes hlen, List.take_append_drop]
        · rw [List.length_drop]
          omega
  | .tuple ts, h, bs => parseRecord_short ts h bs
  | .struct _ vs, h, bs => by
    simp only [Schema.wellFormed, Bool.and_eq_true] at h
    exact parseRecord_short vs h.2 bs
  | .union _ vs, h, bs => by
    simp only [Schema.wellFormed, Bool.and_eq_true] at h
    exact number_bind_short (fun id rest => parseVariant_short vs h.2 id.toNat rest) bs
  | .array t, h, bs => by
    simp only [Schema.wellFormed, Bool.and_eq_true] at h
    refine number_bind_short (fun k rest => run_map_error.trans
      ((repeated_error (parse_exact t h.2) k.toNat rest).trans ?_)) bs
    exact exists_congr fun ms => exists_congr fun r =>
      and_congr_right fun _ => and_congr_right fun _ => parse_short t h.2 r

theorem parseRecord_short : ∀ (ts : Pack), ts.wellFormed → ∀ bs,
    (parseRecord ts).run bs = .error tooSmall ↔ VisitsRecord Cut ts bs
  | .nil, _, bs => ⟨fun h => (by cases h), False.elim⟩
  | .cons t ts, h, bs => by
    simp only [Pack.wellFormed, Bool.and_eq_true] at h
    refine run_bind_error.trans (or_congr (parse_short t h.1 bs) ?_)
    exact exists_congr fun m => exists_congr fun rest => and_congr (parse_exact t h.1 bs m rest)
      (run_map_error.trans (parseRecord_short ts h.2 rest))

theorem parseVariant_short : ∀ (ts : Alternatives), ts.wellFormed → ∀ i bs,
    (parseVariant ts i).run bs = .error tooSmall ↔ VisitsVariant Cut ts i bs
  | .one t, h, 0, bs => parse_short t h bs
  | .one _, _, _ + 1, bs => ⟨fun h => absurd (Except.error.inj h) (by decide), False.elim⟩
  | .cons t ts, h, 0, bs => by
    simp only [Alternatives.wellFormed, Bool.and_eq_true] at h
    exact run_map_error.trans (parse_short t h.1 bs)
  | .cons t ts, h, i + 1, bs => by
    simp only [Alternatives.wellFormed, Bool.and_eq_true] at h
    exact run_map_error.trans (parseVariant_short ts h.2 i bs)

end

/-! ## Lengths beyond the word -/

def Exceeds (n : Nat) (ks : List Nat) : Prop := ∃ k ∈ ks, n < k

theorem exceeds_append {n : Nat} {ks ks' : List Nat} : Exceeds n (ks ++ ks') ↔ Exceeds n ks ∨ Exceeds n ks' := by
  simp only [Exceeds, List.mem_append]
  constructor
  · rintro ⟨k, h | h, hk⟩
    · exact Or.inl ⟨k, h, hk⟩
    · exact Or.inr ⟨k, h, hk⟩
  · rintro (⟨k, h, hk⟩ | ⟨k, h, hk⟩)
    · exact ⟨k, Or.inl h, hk⟩
    · exact ⟨k, Or.inr h, hk⟩

theorem exceeds_cons {n k : Nat} {ks : List Nat} : Exceeds n (k :: ks) ↔ n < k ∨ Exceeds n ks := by
  simp [Exceeds]

theorem exceeds_nil {n : Nat} : ¬ Exceeds n [] := fun ⟨_, h, _⟩ => by cases h

theorem exceeds_after {α : Type} {n : Nat} {p : Parser UInt8 Error α} {bs : List UInt8}
    {f : α → List UInt8 → List Nat} :
    Exceeds n (after p bs f) ↔ ∃ a rest, p.run bs = .ok (a, rest) ∧ Exceeds n (f a rest) := by
  unfold after
  split
  · rename_i a rest h
    constructor
    · intro hx
      exact ⟨a, rest, h, hx⟩
    · rintro ⟨a', rest', h', hx⟩
      obtain ⟨rfl, rfl⟩ := Prod.mk.inj (Except.ok.inj (h.symm.trans h'))
      exact hx
  · rename_i h
    constructor
    · intro hx
      exact absurd hx exceeds_nil
    · rintro ⟨a', rest', h', -⟩
      cases h.symm.trans h'

theorem exceeds_number {n w : Nat} {f : BitVec (8 * w) → List UInt8 → List Nat} {Q : Nat → List UInt8 → Prop}
    {bs : List UInt8} (hn : bs.length ≤ n)
    (hf : ∀ k rest, rest.length ≤ n → (Exceeds n (f k rest) ↔ Q k.toNat rest)) :
    Exceeds n (after (number w) bs f) ↔ ∃ k rest, k < 2 ^ (8 * w) ∧ bs = leBytes w k ++ rest ∧ Q k rest := by
  have hle : ∀ {xs rest : List UInt8}, bs = xs ++ rest → rest.length ≤ n := by
    rintro xs rest rfl
    rw [List.length_append] at hn
    omega
  rw [exceeds_after]
  constructor
  · rintro ⟨k, rest, hk, h⟩
    have hbs := (number_exact w _ _ _).mp hk
    exact ⟨k.toNat, rest, k.isLt, hbs, (hf k rest (hle hbs)).mp h⟩
  · rintro ⟨k, rest, hlt, hbs, h⟩
    have hk : (BitVec.ofNat (8 * w) k).toNat = k := by rw [BitVec.toNat_ofNat, Nat.mod_eq_of_lt hlt]
    refine ⟨BitVec.ofNat _ k, rest, (number_exact w _ _ _).mpr ?_, (hf _ rest (hle hbs)).mpr (by rwa [hk])⟩
    rw [leBits, hk, hbs]

theorem exceeds_repeated {α : Type} {n : Nat} {enc : α → List UInt8} {p : Parser UInt8 Error α} (hp : Exact enc p)
    {log : List UInt8 → List Nat} : ∀ (k : Nat) (bs : List UInt8), Exceeds n (allocsRepeated p log k bs) ↔
      ∃ (as : List α) (rest : List UInt8), as.length < k ∧ bs = as.flatMap enc ++ rest ∧ Exceeds n (log rest)
  | 0, bs => ⟨fun h => absurd h exceeds_nil, fun ⟨_, _, h, _⟩ => absurd h (Nat.not_lt_zero _)⟩
  | k + 1, bs => by
    rw [allocsRepeated, exceeds_append, exceeds_after]
    simp only [exceeds_repeated hp k]
    constructor
    · rintro (h | ⟨a, r, ha, as, r', hlen, rfl, h⟩)
      · exact ⟨[], bs, Nat.succ_pos k, rfl, h⟩
      · refine ⟨a :: as, r', Nat.succ_lt_succ hlen, ?_, h⟩
        rw [(hp _ _ _).mp ha, List.flatMap_cons, List.append_assoc]
    · rintro ⟨as, rest, hlen, rfl, h⟩
      cases as with
      | nil => exact Or.inl h
      | cons a as =>
        refine Or.inr ⟨a, as.flatMap enc ++ rest, (hp _ _ _).mpr ?_, as, rest, Nat.lt_of_succ_lt_succ hlen, rfl, h⟩
        rw [List.flatMap_cons, List.append_assoc]

theorem visits_array {n : Nat} {t : Schema} {bs : List UInt8} :
    (∃ k rest, k < 2 ^ (8 * 8) ∧ bs = leBytes 8 k ++ rest ∧ (n < k ∨ ∃ (ms : List (Message t)) (r : List UInt8),
        ms.length < k ∧ rest = ms.flatMap (body t) ++ r ∧ Visits (Longer n) t r)) ↔
      Visits (Longer n) (.array t) bs := by
  simp only [Visits, Longer]
  constructor
  · rintro ⟨k, rest, hk, hbs, h | h⟩
    · exact Or.inl ⟨k, rest, hk, hbs, h⟩
    · exact Or.inr ⟨k, rest, hk, hbs, h⟩
  · rintro (⟨k, rest, hk, hbs, h⟩ | ⟨k, rest, hk, hbs, h⟩)
    · exact ⟨k, rest, hk, hbs, Or.inl h⟩
    · exact ⟨k, rest, hk, hbs, Or.inr h⟩

mutual

/-- **Memory beyond the word is asked for** exactly by an array that says so. -/
theorem allocs_exceed {n : Nat} : ∀ (S : Schema), S.wellFormed → ∀ bs, bs.length ≤ n →
    (Exceeds n (allocs S bs) ↔ Visits (Longer n) S bs)
  | .primitive p, _, bs, _ => ⟨fun h => absurd h exceeds_nil, False.elim⟩
  | .string, _, bs, hn => by
    refine (exceeds_number (Q := fun _ _ => False) hn fun k rest hrest => ?_).trans ?_
    · -- the bytes of the string are there before memory for them is asked for
      refine ⟨?_, False.elim⟩
      rintro ⟨k', hmem, hk'⟩
      split at hmem
      · cases hmem
      · rw [List.mem_singleton] at hmem
        omega
    · exact ⟨fun ⟨_, _, _, _, h⟩ => h, False.elim⟩
  | .tuple ts, h, bs, hn => allocsRecord_exceed ts h bs hn
  | .struct _ vs, h, bs, hn => by
    simp only [Schema.wellFormed, Bool.and_eq_true] at h
    exact allocsRecord_exceed vs h.2 bs hn
  | .union _ vs, h, bs, hn => by
    simp only [Schema.wellFormed, Bool.and_eq_true] at h
    refine (exceeds_number hn fun id rest hrest => allocsVariant_exceed vs h.2 id.toNat rest hrest).trans ?_
    exact ⟨Or.inr, fun h => h.elim False.elim id⟩
  | .array t, h, bs, hn => by
    simp only [Schema.wellFormed, Bool.and_eq_true] at h
    refine (exceeds_number hn fun k rest hrest => ?_).trans visits_array
    refine exceeds_cons.trans (or_congr_right ((exceeds_repeated (parse_exact t h.2) k.toNat rest).trans ?_))
    refine exists_congr fun ms => exists_congr fun r => and_congr_right fun _ => and_congr_right fun hr => ?_
    refine allocs_exceed t h.2 r ?_
    rw [hr, List.length_append] at hrest
    omega

theorem allocsRecord_exceed {n : Nat} : ∀ (ts : Pack), ts.wellFormed → ∀ bs, bs.length ≤ n →
    (Exceeds n (allocsRecord ts bs) ↔ VisitsRecord (Longer n) ts bs)
  | .nil, _, bs, _ => ⟨fun h => absurd h exceeds_nil, False.elim⟩
  | .cons t ts, h, bs, hn => by
    simp only [Pack.wellFormed, Bool.and_eq_true] at h
    refine exceeds_append.trans (or_congr (allocs_exceed t h.1 bs hn) (exceeds_after.trans ?_))
    refine exists_congr fun m => exists_congr fun rest => ?_
    rw [parse_exact t h.1 bs m rest]
    refine and_congr_right fun hbs => allocsRecord_exceed ts h.2 rest ?_
    rw [hbs, List.length_append] at hn
    omega

theorem allocsVariant_exceed {n : Nat} : ∀ (ts : Alternatives), ts.wellFormed → ∀ i bs, bs.length ≤ n →
    (Exceeds n (allocsVariant ts i bs) ↔ VisitsVariant (Longer n) ts i bs)
  | .one t, h, 0, bs, hn => allocs_exceed t h bs hn
  | .one _, _, _ + 1, bs, _ => ⟨fun h => absurd h exceeds_nil, False.elim⟩
  | .cons t ts, h, 0, bs, hn => by
    simp only [Alternatives.wellFormed, Bool.and_eq_true] at h
    exact allocs_exceed t h.1 bs hn
  | .cons t ts, h, i + 1, bs, hn => by
    simp only [Alternatives.wellFormed, Bool.and_eq_true] at h
    exact allocsVariant_exceed ts h.2 i bs hn

end

end Wire

namespace ProtoKelCodec

open Wire Buffer

def announced (bs : List UInt8) : Nat := leNat (bs.take 8)

theorem header_run {bs : List UInt8} (h8 : 8 ≤ bs.length) :
    ∃ k : BitVec 64, (number 8).run bs = .ok (k, bs.drop 8) ∧ k.toNat = announced bs := by
  refine ⟨_, (ProtoKel.number_run bs).2 h8, ?_⟩
  have hlen : (bs.take 8).length = 8 := by rw [List.length_take]; omega
  have hlt := leNat_lt (bs.take 8)
  rw [hlen] at hlt
  rw [BitVec.toNat_ofNat, Nat.mod_eq_of_lt (show _ < 2 ^ 64 from hlt), announced]

section
variable {S : Schema}

theorem packet_short {limit : Nat} {bs : List UInt8} (hS : S.wellFormed) (h8 : 8 ≤ bs.length) (hle : announced bs ≤ limit) :
    (packet S limit).run bs = .error tooSmall ↔ Visits Cut S (bs.drop 8) := by
  obtain ⟨k, hk, hk'⟩ := header_run h8
  rw [← parse_short S hS, packet, run_bind_error, hk]
  constructor
  · rintro (h | ⟨k', r, hr, h⟩)
    · cases h
    · obtain ⟨rfl, rfl⟩ := Prod.mk.inj (Except.ok.inj hr)
      rw [if_neg (by omega)] at h
      rcases run_bind_error.mp h with h | ⟨m, r', -, h⟩
      · exact h
      · split at h
        · exact absurd (Except.error.inj h) (by decide)
        · cases h
  · intro h
    refine Or.inr ⟨k, bs.drop 8, rfl, ?_⟩
    rw [if_neg (by omega)]
    exact run_bind_error.mpr (Or.inl h)

theorem packetAllocs_exceed (hS : S.wellFormed) (limit : Nat) (bs : List UInt8) :
    Exceeds bs.length (packetAllocs S limit bs) ↔
      8 ≤ bs.length ∧ announced bs ≤ limit ∧ Visits (Longer bs.length) S (bs.drop 8) := by
  rcases Nat.lt_or_ge bs.length 8 with h8 | h8
  · rw [packetAllocs, ProtoKel.after_error ((ProtoKel.number_run bs).1 h8)]
    exact ⟨fun h => absurd h exceeds_nil, fun h => absurd h.1 (Nat.not_le.mpr h8)⟩
  · obtain ⟨k, hk, hk'⟩ := header_run h8
    rw [packetAllocs, ProtoKel.after_ok hk]
    split
    · exact ⟨fun h => absurd h exceeds_nil, fun h => absurd h.2.1 (by omega)⟩
    · rw [allocs_exceed S hS (bs.drop 8) (by rw [List.length_drop]; omega)]
      exact ⟨fun h => ⟨h8, by omega, h⟩, fun h => h.2.2⟩

end

/-- **A complete packet is accepted or rejected for good** exactly when no part
of the message is cut off by the end of the buffer. -/
theorem decode_settles_iff (S : Schema) (hS : S.wellFormed) (b : AnyBuffer) (limit : Nat) (old : Message S)
    (hcomplete : 8 + announced (readable b) ≤ (readable b).length) (hlimit : announced (readable b) ≤ limit) :
    (∃ e m d, decode S old b limit = some (e, m, d) ∧ (e.failed = false ∨ e.isCritical = true)) ↔
      ¬ Visits Cut S ((readable b).drop 8) := by
  rw [← packet_short hS (by omega) hlimit]
  cases hp : (packet S limit).run (readable b) with
  | ok c =>
    obtain ⟨b', h, -⟩ := decode_ok old trivial hp
    exact ⟨fun _ h => (by cases h), fun _ => ⟨_, _, _, h, Or.inl rfl⟩⟩
  | error e =>
    obtain ⟨hfail, m, h⟩ := decode_error old trivial hp
    constructor
    · rintro ⟨e', m', d', h', he'⟩ heq
      obtain ⟨rfl, -⟩ := Prod.mk.inj (Option.some.inj (h.symm.trans h'))
      obtain rfl := Except.error.inj heq
      rcases he' with h | h
      · cases h
      · cases h
    · intro hne
      rcases (packet_steady S limit).error hp with rfl | ⟨hc, -⟩
      · exact absurd rfl hne
      · exact ⟨_, _, _, h, Or.inr hc⟩

/-- A string that announces more bytes than the complete packet around it has. -/
def cutString : ArrayBuffer where
  buffer := [8, 0, 0, 0, 0, 0, 0, 0, 100, 0, 0, 0, 0, 0, 0, 0]
  readPosition := 0
  writePosition := 16
  small := by decide
  read_le := by decide
  write_le := by decide

theorem decode_settles_fails : ¬ ∀ (S : Schema) (b : AnyBuffer) (limit : Nat) (old : Message S), S.wellFormed →
    8 + announced (readable b) ≤ (readable b).length → announced (readable b) ≤ limit →
    ∀ e m d, decode S old b limit = some (e, m, d) → e.isRecoverable = false := by
  intro h
  have hcut : Visits Cut .string ((readable (AnyBuffer.array cutString)).drop 8) := Or.inr (by decide)
  have hlimit : announced (readable (AnyBuffer.array cutString)) ≤ 4096 := by decide
  have hp := (packet_short (S := .string) (by decide) (by decide) hlimit).mpr hcut
  obtain ⟨-, m, hd⟩ := decode_error (Message.init .string) trivial hp
  cases h .string (AnyBuffer.array cutString) 4096 (Message.init .string) (by decide) (by decide) hlimit _ _ _ hd

theorem decode_settles_iff_number : ∃ e m d,
    decode (.primitive .uint8) (0 : BitVec 8) (AnyBuffer.array cutString) 4096 = some (e, m, d) ∧
      (e.failed = false ∨ e.isCritical = true) :=
  (decode_settles_iff (.primitive .uint8) (by decide) (AnyBuffer.array cutString) 4096 _ (by decide) (by decide)).mpr
    (show ¬ ((readable (AnyBuffer.array cutString)).drop 8).length < 1 by decide)

theorem decode_resizes {S : Schema} (b : AnyBuffer) (limit : Nat) (old : Message S) :
    ∃ e m d, decode S old b limit = some (e, m, d) ∧ d.resizes = packetAllocs S limit (readable b) := by
  cases hp : (packet S limit).run (readable b) with
  | ok c =>
    obtain ⟨b', h, -⟩ := decode_ok old trivial hp
    exact ⟨_, _, _, h, rfl⟩
  | error e =>
    obtain ⟨-, m, h⟩ := decode_error old trivial hp
    exact ⟨_, _, _, h, rfl⟩

/-- **No memory beyond the data received is asked for** exactly when no array
that the decoder comes to says it has more items than there are bytes. -/
theorem decode_resizes_iff (S : Schema) (hS : S.wellFormed) (b : AnyBuffer) (limit : Nat) (old : Message S) :
    (∃ e m d, decode S old b limit = some (e, m, d) ∧ ∀ k ∈ d.resizes, k ≤ (readable b).length) ↔
      (8 ≤ (readable b).length → announced (readable b) ≤ limit →
        ¬ Visits (Longer (readable b).length) S ((readable b).drop 8)) := by
  obtain ⟨e, m, d, h, hd⟩ := decode_resizes b limit old
  have hx := packetAllocs_exceed hS limit (readable b)
  rw [← hd] at hx
  constructor
  · rintro ⟨e', m', d', h', hk⟩ h8 hle hv
    obtain ⟨-, hd'⟩ := Prod.mk.inj (Option.some.inj (h.symm.trans h'))
    obtain ⟨-, rfl⟩ := Prod.mk.inj hd'
    obtain ⟨k, hmem, hlt⟩ := hx.mpr ⟨h8, hle, hv⟩
    exact absurd (hk k hmem) (Nat.not_le.mpr hlt)
  · intro hc
    refine ⟨e, m, d, h, fun k hmem => Nat.not_lt.mp fun hlt => ?_⟩
    obtain ⟨h8, hle, hv⟩ := hx.mp ⟨k, hmem, hlt⟩
    exact hc h8 hle hv

def hugeArray : ArrayBuffer where
  buffer := [8, 0, 0, 0, 0, 0, 0, 0, 0, 0, 0, 0, 0, 1, 0, 0]
  readPosition := 0
  writePosition := 16
  small := by decide
  read_le := by decide
  write_le := by decide

theorem decode_resizes_fails : (∀ m, (body (.primitive .uint8) m).length = 1) ∧
    ∃ e m d, decode (.array (.primitive .uint8)) (Vec.empty : Vec (BitVec 8)) (AnyBuffer.array hugeArray) 4096 =
      some (e, m, d) ∧ ∃ k ∈ d.resizes, (readable (AnyBuffer.array hugeArray)).length < k := by
  refine ⟨fun m => length_leBits (w := 1) m, ?_⟩
  obtain ⟨e, m, d, h, hd⟩ := decode_resizes (S := .array (.primitive .uint8)) (AnyBuffer.array hugeArray) 4096
    (Vec.empty : Vec (BitVec 8))
  refine ⟨e, m, d, h, ?_⟩
  have hv : Visits (Longer 16) (.array (.primitive .uint8)) ((readable (AnyBuffer.array hugeArray)).drop 8) :=
    Or.inl ⟨2 ^ 40, [], by decide, by decide, by decide⟩
  have hx := (packetAllocs_exceed (S := .array (.primitive .uint8)) (by decide) 4096
    (readable (AnyBuffer.array hugeArray))).mpr ⟨by decide, by decide, hv⟩
  rw [← hd] at hx
  exact hx

def smallArray : ArrayBuffer where
  buffer := [10, 0, 0, 0, 0, 0, 0, 0, 2, 0, 0, 0, 0, 0, 0, 0, 5, 6]
  readPosition := 0
  writePosition := 18
  small := by decide
  read_le := by decide
  write_le := by decide

theorem decode_resizes_iff_small : ∃ e m d,
    decode (.array (.primitive .uint8)) (Vec.empty : Vec (BitVec 8)) (AnyBuffer.array smallArray) 4096 =
      some (e, m, d) ∧ ∀ k ∈ d.resizes, k ≤ (readable (AnyBuffer.array smallArray)).length := by
  refine (decode_resizes_iff (.array (.primitive .uint8)) (by decide) (AnyBuffer.array smallArray) 4096 _).mpr ?_
  rintro - - (⟨k, rest, hk, hr, hlt⟩ | ⟨_, _, _, _, _, _, _, _, h⟩)
  · have hlen : leNat ((leBytes 8 k ++ rest).take 8) = k := by
      rw [List.take_left' (length_leBytes 8 k), leNat_leBytes_of_lt hk]
    rw [← hr] at hlen
    have h2 : leNat (((readable (AnyBuffer.array smallArray)).drop 8).take 8) = 2 := by decide
    have h18 : (readable (AnyBuffer.array smallArray)).length = 18 := by decide
    omega
  · exact h

end ProtoKelCodec

end Forstio
