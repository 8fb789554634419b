import Forstio.ChainTake
import Mathlib.Algebra.Order.BigOperators.Group.Finset
import Mathlib.Data.Prod.Lex
import Mathlib.Order.Interval.Finset.Nat

/-!
# When a chain comes to rest

A turn moves an element on, or it fires a buffer that has to wait and is not
armed again, or it fires the feeder, which is armed again behind all others.
`rank` is lowered by each of these as long as somebody besides the feeder is
armed. In front of a sink this is always so, and the chain drains. A chain that
is taken from comes to rest exactly if the buffers can take what the feeder
holds; otherwise the feeder fires for ever.
-/

namespace Forstio

namespace Pipe

variable {α : Type}

def load (q : Nat → List (ErrorOr α)) : Nat → Nat
  | 0 => (q 0).length
  | m + 1 => load q m + (q (m + 1)).length

section
variable {q q' : Nat → List (ErrorOr α)} {m i : Nat}

theorem load_congr : ∀ {m : Nat}, (∀ i ≤ m, q' i = q i) → load q' m = load q m
  | 0, h => by rw [load, load, h 0 le_rfl]
  | m + 1, h => by rw [load, load, h (m + 1) le_rfl, load_congr fun i hi => h i (Nat.le_succ_of_le hi)]

theorem load_update_above (h : m < i) (xs : List (ErrorOr α)) : load (Function.update q i xs) m = load q m :=
  load_congr fun _ hj => Function.update_of_ne (Nat.ne_of_lt (Nat.lt_of_le_of_lt hj h)) _ _

theorem load_update (xs : List (ErrorOr α)) : ∀ {m : Nat}, i ≤ m →
    load (Function.update q i xs) m + (q i).length = load q m + xs.length
  | 0, h => by
    obtain rfl := Nat.le_zero.mp h
    rw [load, load, Function.update_self]
    exact Nat.add_comm _ _
  | m + 1, h => by
    rw [load, load]
    rcases eq_or_ne i (m + 1) with rfl | hi
    · rw [load_update_above (Nat.lt_succ_self m), Function.update_self]
      omega
    · have ih := load_update xs (show i ≤ m by omega)
      rw [Function.update_of_ne (Ne.symm hi)]
      omega

theorem load_move {x y : ErrorOr α} {xs : List (ErrorOr α)} (hq : q i = x :: xs) (m : Nat) :
    load (Function.update (Function.update q i xs) (i + 1) (q (i + 1) ++ [y])) m + (if m = i then 1 else 0) =
      load q m := by
  have hnext : Function.update q i xs (i + 1) = q (i + 1) := Function.update_of_ne (Nat.succ_ne_self i) _ _
  rcases Nat.lt_trichotomy m i with hm | rfl | hm
  · rw [load_update_above (by omega), load_update_above hm, if_neg (Nat.ne_of_lt hm), Nat.add_zero]
  · have h₁ := load_update (q := q) xs (le_refl m)
    rw [hq, List.length_cons] at h₁
    rw [load_update_above (Nat.lt_succ_self m), if_pos rfl]
    omega
  · have h₁ := load_update (q := q) xs hm.le
    have h₂ := load_update (q := Function.update q i xs) (i := i + 1) (q (i + 1) ++ [y]) hm
    rw [hq, List.length_cons] at h₁
    rw [hnext, List.length_append, List.length_singleton] at h₂
    rw [if_neg (Nat.ne_of_gt hm)]
    omega

end

/-! ## What a turn does -/

section
variable {c : Chain α} {sunk : Bool} {s : Pipe α} {i : Nat}

theorem queues_fire (c : Chain α) (sunk : Bool) (s : Pipe α) (i : Nat) :
    (s.fire c sunk i).queues = (s.pull c sunk i).queues := by
  have hrearm : ∀ s : Pipe α, (s.rearm c sunk i).queues = s.queues := fun s => by
    unfold rearm
    split <;> rfl
  have hwake : ∀ s : Pipe α, (s.wakeChild c i).queues = s.queues := fun s => by
    unfold wakeChild
    split <;> rfl
  unfold fire
  split
  · rw [hwake, hrearm]
  · rw [hrearm]

/-- A buffer that cannot hand on is not armed again, the feeder is, and else an element moves on. -/
theorem fire_cases (hq : HasParent c sunk i → s.queues i ≠ []) :
    (0 < i ∨ ¬ HasParent c sunk i) ∧ s.fire c sunk i = s ∨
    i = 0 ∧ i < c.top ∧ s.Full c 1 ∧ s.fire c sunk i = s.arm 0 ∨
    HasParent c sunk i ∧ (i < c.top → ¬ s.Full c (i + 1)) ∧
      ∀ m ≤ c.top, load (s.fire c sunk i).queues m + (if m = i then 1 else 0) = load s.queues m := by
  rw [queues_fire]
  rcases pull_cases c sunk s i with ⟨h, hwhy⟩ | ⟨x, xs, hx, hi, hroom, h⟩ | ⟨x, xs, hx, hi, hs, h⟩
  · have hfire : s.fire c sunk i = s.rearm c sunk i := by
      unfold fire
      rw [h]
      split
      next hfull =>
        have hfull' : (s.rearm c sunk i).Full c i := by
          unfold rearm
          split <;> exact hfull.2
        rw [wakeChild, if_neg fun hwake => hwake.1 hfull']
      next => rfl
    by_cases hpush : s.CanPush c sunk i
    · obtain ⟨hp, hne, hpush'⟩ := hpush
      rcases hwhy with hnil | ⟨hlt, hfull⟩ | hno
      · exact absurd hnil hne
      · obtain rfl : i = 0 := hpush'.resolve_right fun hroom => hroom hlt hfull
        refine Or.inr (Or.inl ⟨rfl, hlt, hfull, ?_⟩)
        rw [hfire, rearm, if_pos ⟨hp, hne, hpush'⟩]
      · exact absurd hp hno
    · refine Or.inl ⟨?_, ?_⟩
      · by_cases h0 : 0 < i
        · exact Or.inl h0
        · exact Or.inr fun hp => hpush ⟨hp, hq hp, Or.inl (Nat.eq_zero_of_not_pos h0)⟩
      · rw [hfire, rearm, if_neg hpush]
  · refine Or.inr (Or.inr ⟨Or.inl hi, fun _ => hroom, fun m _ => ?_⟩)
    rw [h]
    exact load_move hx m
  · refine Or.inr (Or.inr ⟨Or.inr ⟨hi, hs⟩, fun hlt => absurd hi (Nat.ne_of_lt hlt), fun m hm => ?_⟩)
    rw [h]
    dsimp only
    rcases Nat.lt_or_eq_of_le (hi ▸ hm) with hlt | rfl
    · rw [load_update_above hlt, if_neg (Nat.ne_of_lt hlt), Nat.add_zero]
    · have hload := load_update (q := s.queues) xs (le_refl m)
      rw [hx, List.length_cons] at hload
      rw [if_pos rfl]
      omega

end

/-! ## The rank -/

/-- Each element has as many moves ahead of it as there are nodes up to the last. -/
def effort (c : Chain α) (s : Pipe α) : Nat := ∑ m ∈ Finset.range (c.top + 1), load s.queues m

def awake (c : Chain α) (s : Pipe α) : Finset Nat := (Finset.Icc 1 c.top).filter fun i => s.loop.isArmed i

/-- The moves ahead, the armed buffers, and whether the feeder comes first. -/
def rank (c : Chain α) (s : Pipe α) : ℕ ×ₗ ℕ ×ₗ ℕ :=
  toLex (s.effort c, toLex ((s.awake c).card, if s.loop.head = some 0 then 1 else 0))

section
variable {c : Chain α} {sunk : Bool} {s : Pipe α} {i e : Nat} {es : List Nat}

theorem effort_move {s' : Pipe α} (hi : i ≤ c.top)
    (hload : ∀ m ≤ c.top, load s'.queues m + (if m = i then 1 else 0) = load s.queues m) :
    s'.effort c < s.effort c := by
  refine Finset.sum_lt_sum (fun m hm => ?_) ⟨i, Finset.mem_range_succ_iff.mpr hi, ?_⟩
  · have h := hload m (Finset.mem_range_succ_iff.mp hm)
    omega
  · have h := hload i hi
    rw [if_pos rfl] at h
    omega

theorem awake_turn (hes : s.loop.InOrder (e :: es)) (h0 : 0 < e) (hi : e ≤ c.top) :
    (awake c { s with loop := s.loop.turn.2 }).card < (awake c s).card := by
  have hrest := hes.turn.2
  have hsub : awake c { s with loop := s.loop.turn.2 } ⊆ awake c s := by
    intro j hj
    obtain ⟨hrange, harmed⟩ := Finset.mem_filter.mp hj
    refine Finset.mem_filter.mpr ⟨hrange, (hes.isArmed j).mpr (List.mem_cons_of_mem e ?_)⟩
    exact (hrest.isArmed j).mp harmed
  refine Finset.card_lt_card ((Finset.ssubset_iff_of_subset hsub).mpr ⟨e, ?_, fun hmem => ?_⟩)
  · exact Finset.mem_filter.mpr ⟨Finset.mem_Icc.mpr ⟨h0, hi⟩, (hes.isArmed e).mpr (List.mem_cons_self ..)⟩
  · exact (List.nodup_cons.mp hes.nodup).1 ((hrest.isArmed e).mp (Finset.mem_filter.mp hmem).2)

theorem order_again (hes : s.loop.InOrder (0 :: es)) : (s.loop.turn.2.armLater 0).InOrder (es ++ [0]) := by
  have hlast := hes.turn.2.armLater 0
  rwa [if_neg (List.nodup_cons.mp hes.nodup).1] at hlast

theorem awake_again (hes : s.loop.InOrder (0 :: es)) :
    awake c ({ s with loop := s.loop.turn.2 }.arm 0) = awake c s := by
  refine Finset.filter_congr fun j _ => ?_
  rw [hes.isArmed, arm, (order_again hes).isArmed, List.mem_append, List.mem_singleton, List.mem_cons]
  exact Or.comm

theorem head_again (hes : s.loop.InOrder (0 :: es)) (hne : es ≠ []) : (s.loop.turn.2.armLater 0).head ≠ some 0 := by
  rw [(order_again hes).head]
  cases es with
  | nil => exact absurd rfl hne
  | cons a es =>
    intro ha
    rw [List.cons_append, List.head?_cons, Option.some.injEq] at ha
    exact (List.nodup_cons.mp hes.nodup).1 (ha ▸ List.mem_cons_self ..)

/-- **Every turn lowers the rank**, unless the feeder is armed alone in front of a full buffer. -/
theorem rank_turn (h : Inv c sunk s) (hp : HasParent c sunk 0) (hes : s.loop.InOrder (e :: es))
    (hlive : e = 0 → 0 < c.top → s.Full c 1 → es ≠ []) : (s.turn c sunk).rank c < s.rank c := by
  have hturn : s.loop.turn = (some e, s.loop.turn.2) := Prod.ext hes.turn.1 rfl
  obtain ⟨-, hi, -, hq, -⟩ := h.fires hturn
  have hstep : s.turn c sunk = fire c sunk { s with loop := s.loop.turn.2 } e := by
    unfold turn
    rw [hturn]
  rw [hstep, rank, rank, Prod.Lex.toLex_lt_toLex]
  rcases fire_cases (s := { s with loop := s.loop.turn.2 }) hq with ⟨hbuffer, hfire⟩ | ⟨h0, hlt, hfull, hfire⟩ |
    ⟨-, -, hload⟩
  · have h0 : 0 < e := hbuffer.elim id fun hno => Nat.pos_of_ne_zero fun h0 => hno (h0 ▸ hp)
    refine Or.inr ⟨by rw [hfire]; rfl, ?_⟩
    rw [Prod.Lex.toLex_lt_toLex, hfire]
    exact Or.inl (awake_turn hes h0 hi)
  · subst h0
    refine Or.inr ⟨by rw [hfire]; rfl, ?_⟩
    rw [Prod.Lex.toLex_lt_toLex, hfire]
    refine Or.inr ⟨congrArg Finset.card (awake_again hes), ?_⟩
    have hhead : s.loop.head = some 0 := hes.head
    rw [if_pos hhead, arm, if_neg (head_again hes (hlive rfl hlt hfull))]
    exact Nat.one_pos
  · exact Or.inl (effort_move hi hload)

end

/-! ## Reachable states -/

/-- What holds besides the invariant after any calls: the event queue is in the order of arming, and
nobody waits unarmed for a buffer with room unless that is the last one. -/
structure Reached (c : Chain α) (sunk : Bool) (s : Pipe α) : Prop extends Inv c sunk s where
  order : ∃ es, s.loop.InOrder es
  inner : ∀ i, i = 0 ∨ i + 1 < c.top → HasParent c sunk i → s.Wakes c i

section
variable {c : Chain α} {sunk : Bool} {s : Pipe α} {i : Nat}

theorem order_arm (h : ∃ es, s.loop.InOrder es) (i : Nat) : ∃ es, (s.arm i).loop.InOrder es := by
  obtain ⟨es, hes⟩ := h
  exact ⟨_, hes.armLater i⟩

theorem order_fire (h : ∃ es, s.loop.InOrder es) : ∃ es, (s.fire c sunk i).loop.InOrder es := by
  have hpull : ∃ es, (s.pull c sunk i).loop.InOrder es := by
    rcases pull_cases c sunk s i with ⟨h', -⟩ | ⟨x, xs, -, -, -, h'⟩ | ⟨x, xs, -, -, -, h'⟩ <;> rw [h']
    · exact h
    · exact order_arm h (i + 1)
    · exact h
  have hrearm : ∃ es, ((s.pull c sunk i).rearm c sunk i).loop.InOrder es := by
    unfold rearm
    split
    · exact order_arm hpull i
    · exact hpull
  unfold fire wakeChild
  split
  · dsimp only
    split
    · exact order_arm hrearm (i - 1)
    · exact hrearm
  · exact hrearm

theorem order_turn (h : ∃ es, s.loop.InOrder es) : ∃ es, (s.turn c sunk).loop.InOrder es := by
  obtain ⟨es, hes⟩ := h
  unfold turn
  cases es with
  | nil =>
    rw [EventLoop.turn_none hes.head]
    exact ⟨[], hes⟩
  | cons e es =>
    rw [show s.loop.turn = (some e, s.loop.turn.2) from Prod.ext hes.turn.1 rfl]
    exact order_fire ⟨es, hes.turn.2⟩

theorem order_take (h : ∃ es, s.loop.InOrder es) : ∃ es, (s.take c).loop.InOrder es := by
  unfold take
  split
  · exact h
  · exact h

theorem empty_reached (c : Chain α) (sunk : Bool) : Reached c sunk (empty : Pipe α) where
  toInv := empty_inv c sunk
  order := ⟨[], EventLoop.inOrder_new⟩
  inner _ _ _ hq := absurd rfl hq

theorem Reached.turn (hc : c.Admissible) (h : Reached c sunk s) : Reached c sunk (s.turn c sunk) where
  toInv := h.toInv.turn hc
  order := order_turn h.order
  inner i hi hp := (h.inner i hi hp).turn hc h.toInv hp

theorem Reached.feed (h : Reached c sunk s) {x : ErrorOr α} (hx : x.isCritical = false) :
    Reached c sunk (s.feed x) where
  toInv := h.toInv.feed hx
  order := h.order.elim fun _ hes => hes.armNext 0
  inner i hi hp := (h.inner i hi hp).feed h.toCore x

theorem Reached.take (h : Reached c false s) : Reached c false (s.take c) where
  toInv := h.toInv.take
  order := order_take h.order
  inner i hi hp := by
    have hlt : i < c.top := hp.elim id fun hs => absurd hs.2 (by simp)
    exact (h.inner i hi hp).take hlt (hi.imp_right Nat.ne_of_lt)

theorem Reached.call (hc : c.Admissible) (h : Reached c sunk s) {call : Call α} (hcall : call.Tame) :
    Reached c sunk (s.call c sunk call) := by
  cases call with
  | feed v => exact h.feed rfl
  | fail e => exact h.feed hcall
  | turn => exact h.turn hc
  | take =>
    cases sunk with
    | true => exact h
    | false => exact h.take

theorem Reached.run (hc : c.Admissible) : ∀ (calls : List (Call α)) {s : Pipe α}, Reached c sunk s →
    (∀ call ∈ calls, call.Tame) → Reached c sunk (s.run c sunk calls)
  | [], _, h, _ => h
  | call :: calls, _, h, htame => Reached.run hc calls (h.call hc (htame call (List.mem_cons_self ..)))
      fun call hcall => htame call (List.mem_cons_of_mem _ hcall)

theorem run_turns : ∀ (n : Nat) (s : Pipe α), s.run c sunk (List.replicate n .turn) = (turn c sunk)^[n] s
  | 0, _ => rfl
  | n + 1, s => run_turns n (s.turn c sunk)

theorem turns_world (hc : c.Admissible) (h : Inv c sunk s) (n : Nat) : ∃ results,
    Run.exec (World.step (if sunk then none else some ⟨c.node, c.top⟩)) (s.world c sunk) (List.replicate n .turn) =
      some (results, Pipe.world c sunk ((turn c sunk)^[n] s)) := by
  have hturns : ∀ call ∈ List.replicate n (Call.turn : Call α), call.Tame := by
    intro call hcall
    rw [List.eq_of_mem_replicate hcall]
    trivial
  exact ⟨_, run_turns n s ▸ run_world hc _ h hturns⟩

theorem Reached.gets_on (h : Reached c sunk s) (hp : HasParent c sunk 0) (hrun : s.loop.head ≠ none)
    (hlive : s.Armed 0 → 0 < c.top → s.Full c 1 → ∃ j, 0 < j ∧ s.Armed j) :
    (s.turn c sunk).rank c < s.rank c := by
  obtain ⟨es, hes⟩ := h.order
  cases es with
  | nil => exact absurd hes.head hrun
  | cons e es =>
    refine rank_turn h.toInv hp hes fun he htop hfull => ?_
    subst he
    obtain ⟨j, h0, ha⟩ := hlive ((hes.isArmed 0).mpr (List.mem_cons_self ..)) htop hfull
    exact List.ne_nil_of_mem ((List.mem_cons.mp ((hes.isArmed j).mp ha)).resolve_left (Nat.ne_of_gt h0))

theorem Reached.buffer_armed (hc : c.Admissible) (h : Reached c true s) (htop : 0 < c.top) (hfull : s.Full c 1) :
    ∃ j, 0 < j ∧ s.Armed j := by
  refine Classical.byContradiction fun hnone => ?_
  have hempty := h.drained hc (c.top - 1) 1 (by omega) fun j hj ha => hnone ⟨j, hj, ha⟩
  rw [Full, hempty, List.length_nil] at hfull
  exact Nat.not_le.mpr (Chain.limit_bounds hc Nat.one_pos htop).1 hfull

theorem Reached.comes_to_rest (hc : c.Admissible) (h : Reached c true s) :
    ∃ n, ((Pipe.turn c true)^[n] s).loop.head = none := by
  refine Run.halts (Pipe.turn c true) (Reached c true) (fun s => s.loop.head = none) (rank c) (fun s h hrun => ?_) s h
  refine ⟨h.turn hc, h.gets_on (hasParent_sunk.mpr (Nat.zero_le _)) hrun fun _ htop hfull => ?_⟩
  exact h.buffer_armed hc htop hfull

end

end Pipe

namespace Chain

variable {α : Type}

/-- **A chain with a sink drains.** From every state reached by any calls, finitely many turns empty the
event queue. -/
theorem drains (c : Chain α) (hc : c.Admissible) (calls : List (Call α)) (hcalls : ∀ call ∈ calls, call.Tame) :
    ∃ w₀ results w, c.finish true = some (none, w₀) ∧ Run.exec (World.step none) w₀ calls = some (results, w) ∧
      ∃ n results' w', Run.exec (World.step none) w (List.replicate n .turn) = some (results', w') ∧
        w'.loop.head = none := by
  have hrun := Pipe.run_world hc calls (Pipe.empty_inv c true) hcalls
  have hreached := (Pipe.empty_reached c true).run hc calls hcalls
  obtain ⟨n, hn⟩ := hreached.comes_to_rest hc
  obtain ⟨results', hturns⟩ := Pipe.turns_world hc hreached.toInv n
  exact ⟨_, _, _, c.finish_world true, hrun, n, results', _, hturns, hn⟩

theorem drains_doubling : ∃ w₀ results w, doubling.finish true = some (none, w₀) ∧
    Run.exec (World.step none) w₀ [.feed 1, .feed 2, .turn, .feed 3] = some (results, w) ∧
      ∃ n results' w', Run.exec (World.step none) w (List.replicate n .turn) = some (results', w') ∧
        w'.loop.head = none :=
  drains doubling (by simp [doubling, Admissible, ErrorOr.isCritical]) [.feed 1, .feed 2, .turn, .feed 3]
    (by simp [Call.Tame])

end Chain

end Forstio
