import Forstio.Chain
import Forstio.EventQueue

/-!
# A chain as a row of queues

`Pipe` keeps of a built chain only what changes while it runs: the queues of its
storage nodes, the event loop and the results that came out. A storage node that
fires hands one element on, if there is room ahead of it, and is armed again
while it can hand on more; a buffer that was full and has room again wakes the
buffer behind it. `Inv` is what every call keeps: nobody is armed with nothing
to hand on, and in front of a sink nobody waits unarmed for a buffer with room.
-/

namespace Forstio

structure Pipe (α : Type) where
  queues : Nat → List (ErrorOr α)
  loop : EventLoop Nat
  delivered : List (ErrorOr α)

namespace Pipe

variable {α : Type} (c : Chain α) (sunk : Bool)

def empty : Pipe α := ⟨fun _ => [], EventLoop.new, []⟩

def arm (s : Pipe α) (i : Nat) : Pipe α := { s with loop := s.loop.armLater i }

def Armed (s : Pipe α) (i : Nat) : Prop := s.loop.isArmed i

def HasParent (i : Nat) : Prop := i < c.top ∨ i = c.top ∧ sunk

def Full (s : Pipe α) (i : Nat) : Prop := c.limit i ≤ (s.queues i).length

instance (i : Nat) : Decidable (HasParent c sunk i) := inferInstanceAs (Decidable (_ ∨ _))
instance (s : Pipe α) (i : Nat) : Decidable (s.Full c i) := inferInstanceAs (Decidable (_ ≤ _))

def pull (s : Pipe α) (i : Nat) : Pipe α :=
  match s.queues i with
  | [] => s
  | x :: xs =>
    if i < c.top then
      if s.Full c (i + 1) then s
      else
        { s with
          queues := Function.update (Function.update s.queues i xs) (i + 1)
            (s.queues (i + 1) ++ [(c.upTo i).post x])
          loop := s.loop.armLater (i + 1) }
    else if i = c.top ∧ sunk then
      { s with queues := Function.update s.queues i xs, delivered := s.delivered ++ [c.post x] }
    else s

/-- Storage node `i` can hand on more. The feeder is armed again without looking. -/
def CanPush (s : Pipe α) (i : Nat) : Prop :=
  HasParent c sunk i ∧ s.queues i ≠ [] ∧ (i = 0 ∨ (i < c.top → ¬ s.Full c (i + 1)))

instance (s : Pipe α) (i : Nat) : Decidable (s.CanPush c sunk i) :=
  inferInstanceAs (Decidable (_ ∧ s.queues i ≠ [] ∧ (_ ∨ _)))

def rearm (s : Pipe α) (i : Nat) : Pipe α := if s.CanPush c sunk i then s.arm i else s

/-- Buffer `i` was full: the buffer behind it is armed if there is room now. -/
def wakeChild (s : Pipe α) (i : Nat) : Pipe α :=
  if ¬ s.Full c i ∧ 1 < i ∧ s.queues (i - 1) ≠ [] then s.arm (i - 1) else s

def fire (s : Pipe α) (i : Nat) : Pipe α :=
  let s' := (s.pull c sunk i).rearm c sunk i
  if 0 < i ∧ s.Full c i then s'.wakeChild c i else s'

def feed (s : Pipe α) (x : ErrorOr α) : Pipe α :=
  { s with queues := Function.update s.queues 0 (s.queues 0 ++ [x]), loop := s.loop.armNext 0 }

def turn (s : Pipe α) : Pipe α :=
  match s.loop.turn with
  | (none, _) => s
  | (some i, loop) => fire c sunk { s with loop } i

def take (s : Pipe α) : Pipe α :=
  match s.queues c.top with
  | [] => s
  | x :: xs =>
    { s with queues := Function.update s.queues c.top xs, delivered := s.delivered ++ [c.post x] }

def taken (s : Pipe α) : ErrorOr α :=
  match s.queues c.top with
  | [] => .error (recoverableError "Conveyor buffer has no elements")
  | x :: _ => c.post x

/-! ## Nothing is lost -/

def total (s : Pipe α) : List (ErrorOr α) := s.delivered ++ c.pending s.queues

section
variable {c sunk} {s : Pipe α} {i : Nat}

theorem total_pull : (s.pull c sunk i).total c = s.total c := by
  unfold pull
  split
  · rfl
  next x xs hq =>
    split
    next hi =>
      split
      · rfl
      · rw [total, Chain.pending_move hi hq, total]
    next =>
      split
      next htop =>
        obtain ⟨rfl, -⟩ := htop
        rw [total, total, Chain.pending_pop hq, List.append_assoc]
        rfl
      · rfl

theorem total_rearm : (s.rearm c sunk i).total c = s.total c := by
  unfold rearm
  split <;> rfl

theorem total_wakeChild : (s.wakeChild c i).total c = s.total c := by
  unfold wakeChild
  split <;> rfl

theorem total_fire : (s.fire c sunk i).total c = s.total c := by
  unfold fire
  split
  · rw [total_wakeChild, total_rearm, total_pull]
  · rw [total_rearm, total_pull]

theorem total_feed (x : ErrorOr α) : (s.feed x).total c = s.total c ++ [c.apply x] := by
  rw [total, feed, total, Chain.pending_feed, List.append_assoc]

theorem total_turn : (s.turn c sunk).total c = s.total c := by
  unfold turn
  split
  · rfl
  · rw [total_fire]
    rfl

theorem delivered_pull : (s.pull c false i).delivered = s.delivered := by
  unfold pull
  split
  · rfl
  next x xs hq =>
    split
    · split <;> rfl
    · rw [if_neg fun htop => Bool.false_ne_true htop.2]

theorem delivered_rearm : (s.rearm c sunk i).delivered = s.delivered := by
  unfold rearm
  split <;> rfl

theorem delivered_wakeChild : (s.wakeChild c i).delivered = s.delivered := by
  unfold wakeChild
  split <;> rfl

theorem delivered_turn : (s.turn c false).delivered = s.delivered := by
  unfold turn
  split
  · rfl
  next i loop _ =>
    unfold fire
    split
    · rw [delivered_wakeChild, delivered_rearm, delivered_pull]
    · rw [delivered_rearm, delivered_pull]

theorem total_take : (s.take c).total c = s.total c := by
  unfold take
  split
  · rfl
  next x xs hq =>
    rw [total, total, Chain.pending_pop hq, List.append_assoc]
    rfl

end

/-! ## The invariant -/

structure Core (s : Pipe α) : Prop where
  loop : s.loop.Sound
  live : ∀ i, s.Armed i → i ≤ c.top
  bounded : ∀ i, 0 < i → i ≤ c.top → (s.queues i).length ≤ c.limit i
  tame : ∀ i ≤ c.top, ∀ x ∈ s.queues i, x.isCritical = false
  ready : ∀ i, HasParent c sunk i → s.Armed i → s.queues i ≠ []

/-- Storage node `i` is armed if it holds anything, unless it is a buffer and the one ahead is full. -/
def Wakes (s : Pipe α) (i : Nat) : Prop :=
  s.queues i ≠ [] → s.Armed i ∨ 0 < i ∧ i < c.top ∧ s.Full c (i + 1)

structure Inv (s : Pipe α) : Prop extends Core c sunk s where
  wakes : sunk → ∀ i ≤ c.top, s.Wakes c i

section
variable {c sunk} {s : Pipe α} {i j : Nat}

theorem empty_inv (c : Chain α) (sunk : Bool) : Inv c sunk (empty : Pipe α) where
  loop := EventLoop.sound_new
  live _ h := absurd h (EventLoop.not_isArmed_new _)
  bounded _ _ _ := Nat.zero_le _
  tame _ _ _ hx := absurd hx List.not_mem_nil
  ready _ _ h := absurd h (EventLoop.not_isArmed_new _)
  wakes _ _ _ h := absurd rfl h

theorem armed_arm (h : Core c sunk s) : (s.arm i).Armed j ↔ j = i ∨ s.Armed j := h.loop.isArmed_armLater i j

theorem Core.arm (h : Core c sunk s) (hi : i ≤ c.top) (hq : s.queues i ≠ []) : Core c sunk (s.arm i) where
  loop := h.loop.armLater i
  live j hj := ((armed_arm h).mp hj).elim (fun e => e ▸ hi) (h.live j)
  bounded := h.bounded
  tame := h.tame
  ready j hp hj := ((armed_arm h).mp hj).elim (fun e => e ▸ hq) (h.ready j hp)

theorem Wakes.arm (h : Core c sunk s) (hw : s.Wakes c j) : (s.arm i).Wakes c j := fun hq =>
  (hw hq).imp_left fun ha => (armed_arm h).mpr (Or.inr ha)

theorem wakes_arm_self (h : Core c sunk s) : (s.arm i).Wakes c i := fun _ =>
  Or.inl ((armed_arm h).mpr (Or.inl rfl))

/-- What a pull does: nothing, or it moves an element to the next buffer or out of the chain. -/
theorem pull_cases (c : Chain α) (sunk : Bool) (s : Pipe α) (i : Nat) :
    s.pull c sunk i = s ∧ (s.queues i = [] ∨ i < c.top ∧ s.Full c (i + 1) ∨ ¬ HasParent c sunk i) ∨
    (∃ x xs, s.queues i = x :: xs ∧ i < c.top ∧ ¬ s.Full c (i + 1) ∧ s.pull c sunk i = { s with
      queues := Function.update (Function.update s.queues i xs) (i + 1)
        (s.queues (i + 1) ++ [(c.upTo i).post x])
      loop := s.loop.armLater (i + 1) }) ∨
    ∃ x xs, s.queues i = x :: xs ∧ i = c.top ∧ sunk ∧ s.pull c sunk i = { s with
      queues := Function.update s.queues i xs
      delivered := s.delivered ++ [c.post x] } := by
  unfold pull
  cases hq : s.queues i with
  | nil => exact Or.inl ⟨rfl, Or.inl rfl⟩
  | cons x xs =>
    by_cases hi : i < c.top
    · simp only [if_pos hi]
      by_cases hf : s.Full c (i + 1)
      · exact Or.inl ⟨if_pos hf, Or.inr (Or.inl ⟨hi, hf⟩)⟩
      · exact Or.inr (Or.inl ⟨x, xs, rfl, hi, hf, if_neg hf⟩)
    · simp only [if_neg hi]
      by_cases htop : i = c.top ∧ sunk
      · exact Or.inr (Or.inr ⟨x, xs, rfl, htop.1, htop.2, if_pos htop⟩)
      · exact Or.inl ⟨if_neg htop, Or.inr (Or.inr (not_or.mpr ⟨hi, htop⟩))⟩

theorem queues_pull (hj : j ≠ i) (hj' : j ≠ i + 1) : (s.pull c sunk i).queues j = s.queues j := by
  rcases pull_cases c sunk s i with ⟨h, -⟩ | ⟨x, xs, -, -, -, h⟩ | ⟨x, xs, -, -, -, h⟩ <;> rw [h]
  · exact (Function.update_of_ne hj' _ _).trans (Function.update_of_ne hj _ _)
  · exact Function.update_of_ne hj _ _

theorem queues_pull_self : (s.pull c sunk i).queues i <:+ s.queues i := by
  rcases pull_cases c sunk s i with ⟨h, -⟩ | ⟨x, xs, hq, -, -, h⟩ | ⟨x, xs, hq, -, -, h⟩ <;> rw [h]
  · dsimp only
    rw [Function.update_of_ne (Nat.ne_of_lt (Nat.lt_succ_self i)), Function.update_self, hq]
    exact List.suffix_cons x xs
  · dsimp only
    rw [Function.update_self, hq]
    exact List.suffix_cons x xs

theorem queues_pull_next (hc : c.Admissible) (h : Core c sunk s) (hi : i ≤ c.top) :
    (s.pull c sunk i).queues (i + 1) = s.queues (i + 1) ∨ i < c.top ∧ ¬ s.Full c (i + 1) ∧
      (s.pull c sunk i).Armed (i + 1) ∧
      ∃ y : ErrorOr α, y.isCritical = false ∧ (s.pull c sunk i).queues (i + 1) = s.queues (i + 1) ++ [y] := by
  rcases pull_cases c sunk s i with ⟨h', -⟩ | ⟨x, xs, hq, hlt, hroom, h'⟩ | ⟨x, xs, -, -, -, h'⟩ <;> rw [h']
  · exact Or.inl rfl
  · refine Or.inr ⟨hlt, hroom, (h.loop.isArmed_armLater _ _).mpr (Or.inl rfl), _, ?_, Function.update_self ..⟩
    exact Chain.post_isCritical (hc.upTo i) (h.tame i hi x (hq ▸ List.mem_cons_self ..))
  · exact Or.inl (Function.update_of_ne (Nat.succ_ne_self i) _ _)

theorem armed_pull (h : Core c sunk s) (ha : (s.pull c sunk i).Armed j) :
    s.Armed j ∨ j = i + 1 ∧ i < c.top ∧ (s.pull c sunk i).queues (i + 1) ≠ [] := by
  rcases pull_cases c sunk s i with ⟨h', -⟩ | ⟨x, xs, -, hlt, -, h'⟩ | ⟨x, xs, -, -, -, h'⟩ <;> rw [h'] at ha ⊢
  · exact Or.inl ha
  · refine ((h.loop.isArmed_armLater _ _).mp ha).symm.imp_right fun hj => ⟨hj, hlt, ?_⟩
    simp
  · exact Or.inl ha

theorem Armed.pull (h : Core c sunk s) (ha : s.Armed j) : (s.pull c sunk i).Armed j := by
  rcases pull_cases c sunk s i with ⟨h', -⟩ | ⟨x, xs, -, -, -, h'⟩ | ⟨x, xs, -, -, -, h'⟩ <;> rw [h']
  · exact ha
  · exact (h.loop.isArmed_armLater _ _).mpr (Or.inr ha)
  · exact ha

theorem loop_pull (h : Core c sunk s) : (s.pull c sunk i).loop.Sound := by
  rcases pull_cases c sunk s i with ⟨h', -⟩ | ⟨x, xs, -, -, -, h'⟩ | ⟨x, xs, -, -, -, h'⟩ <;> rw [h']
  · exact h.loop
  · exact h.loop.armLater _
  · exact h.loop

theorem Core.pull (hc : c.Admissible) (h : Core c sunk s) (hi : i ≤ c.top) (hu : ¬ s.Armed i) :
    Core c sunk (s.pull c sunk i) := by
  have hself : (s.pull c sunk i).queues i <:+ s.queues i := queues_pull_self
  have hnext := queues_pull_next hc h hi
  refine ⟨loop_pull h, fun j hj => ?_, fun j h0 hj => ?_, fun j hj => ?_, fun j hp hj => ?_⟩
  · rcases armed_pull h hj with hj | ⟨rfl, hlt, -⟩
    · exact h.live j hj
    · exact hlt
  · rcases eq_or_ne j i with rfl | hji
    · exact Nat.le_trans hself.length_le (h.bounded j h0 hj)
    rcases eq_or_ne j (i + 1) with rfl | hjn
    · rcases hnext with heq | ⟨-, hroom, -, y, -, heq⟩ <;> rw [heq]
      · exact h.bounded _ h0 hj
      · rw [List.length_append]
        exact Nat.not_le.mp hroom
    · rw [queues_pull hji hjn]
      exact h.bounded j h0 hj
  · rcases eq_or_ne j i with rfl | hji
    · exact fun x hx => h.tame j hj x (hself.subset hx)
    rcases eq_or_ne j (i + 1) with rfl | hjn
    · rcases hnext with heq | ⟨-, -, -, y, hy, heq⟩ <;> rw [heq]
      · exact h.tame _ hj
      · intro x hx
        rcases List.mem_append.mp hx with hx | hx
        · exact h.tame _ hj x hx
        · rw [List.mem_singleton.mp hx]
          exact hy
    · rw [queues_pull hji hjn]
      exact h.tame j hj
  · rcases armed_pull h hj with ha | ⟨rfl, -, hne⟩
    · have hji : j ≠ i := by
        rintro rfl
        exact hu ha
      have hne := h.ready j hp ha
      rcases eq_or_ne j (i + 1) with rfl | hjn
      · rcases hnext with heq | ⟨-, -, -, y, -, heq⟩ <;> rw [heq]
        · exact hne
        · simp
      · rw [queues_pull hji hjn]
        exact hne
    · exact hne

/-- A pull from `i` can only unsettle `i` itself and the buffer behind a full `i`. -/
theorem Wakes.pull (hc : c.Admissible) (h : Core c sunk s) (hi : i ≤ c.top) (hw : s.Wakes c j) (hji : j ≠ i)
    (hfull : j + 1 = i → s.queues j ≠ [] → s.Armed j) : (s.pull c sunk i).Wakes c j := by
  intro hq
  rcases eq_or_ne j (i + 1) with rfl | hjn
  · rcases queues_pull_next hc h hi with heq | ⟨-, -, ha, -⟩
    · rw [heq] at hq
      refine (hw hq).imp (Armed.pull h) fun ⟨h0, hlt, hf⟩ => ⟨h0, hlt, ?_⟩
      rw [Full, queues_pull (by omega) (by omega)]
      exact hf
    · exact Or.inl ha
  · rw [queues_pull hji hjn] at hq
    rcases eq_or_ne (j + 1) i with hj | hj
    · exact Or.inl ((hfull hj hq).pull h)
    · refine (hw hq).imp (Armed.pull h) fun ⟨h0, hlt, hf⟩ => ⟨h0, hlt, ?_⟩
      rw [Full, queues_pull hj (by omega)]
      exact hf

theorem Core.rearm (h : Core c sunk s) (hi : i ≤ c.top) : Core c sunk (s.rearm c sunk i) := by
  unfold Pipe.rearm
  split
  next hpush => exact h.arm hi hpush.2.1
  next => exact h

theorem Core.wakeChild (h : Core c sunk s) (hi : i ≤ c.top) : Core c sunk (s.wakeChild c i) := by
  unfold Pipe.wakeChild
  split
  next hwake => exact h.arm (by omega) hwake.2.2
  next => exact h

theorem Wakes.rearm (h : Core c sunk s) (hw : s.Wakes c j) : (s.rearm c sunk i).Wakes c j := by
  unfold Pipe.rearm
  split
  · exact hw.arm h
  · exact hw

theorem Wakes.wakeChild (h : Core c sunk s) (hw : s.Wakes c j) : (s.wakeChild c i).Wakes c j := by
  unfold Pipe.wakeChild
  split
  · exact hw.arm h
  · exact hw

theorem wakes_rearm_self (h : Core c sunk s) (hp : HasParent c sunk i) : (s.rearm c sunk i).Wakes c i := by
  unfold Pipe.rearm
  split
  next => exact wakes_arm_self h
  next hno =>
    intro hq
    have hblocked : ¬ (i = 0 ∨ (i < c.top → ¬ s.Full c (i + 1))) := fun hpush => hno ⟨hp, hq, hpush⟩
    obtain ⟨h0, hfull⟩ := not_or.mp hblocked
    obtain ⟨hlt, hfull⟩ := Classical.not_imp.mp hfull
    exact Or.inr ⟨Nat.pos_of_ne_zero h0, hlt, not_not.mp hfull⟩

theorem wakes_wakeChild (h : Core c sunk s) (h0 : 0 < j) (hlt : j < c.top) : (s.wakeChild c (j + 1)).Wakes c j := by
  unfold Pipe.wakeChild
  split
  next => exact wakes_arm_self h
  next hno =>
    intro hq
    refine Or.inr ⟨h0, hlt, Classical.byContradiction fun hroom => hno ⟨hroom, by omega, hq⟩⟩

theorem core_fire (hc : c.Admissible) (h : Core c sunk s) (hi : i ≤ c.top) (hu : ¬ s.Armed i) :
    Core c sunk (s.fire c sunk i) := by
  have h₂ := (h.pull hc hi hu).rearm hi
  unfold Pipe.fire
  split
  · exact h₂.wakeChild hi
  · exact h₂

theorem Wakes.fired (h : Core c sunk ((s.pull c sunk i).rearm c sunk i))
    (hw : ((s.pull c sunk i).rearm c sunk i).Wakes c j) : (s.fire c sunk i).Wakes c j := by
  unfold Pipe.fire
  split
  · exact hw.wakeChild h
  · exact hw

/-- Firing wakes whoever can hand on afterwards; before, this may be open at the firing node. -/
theorem wakes_fire (hc : c.Admissible) (h : Core c sunk s) (hi : i ≤ c.top) (hu : ¬ s.Armed i)
    (hp : HasParent c sunk j) (hw : j ≠ i → s.Wakes c j) : (s.fire c sunk i).Wakes c j := by
  have h₁ := h.pull hc hi hu
  have h₂ := h₁.rearm hi
  by_cases hji : j = i
  · subst hji
    exact (wakes_rearm_self h₁ hp).fired h₂
  · by_cases hbehind : j + 1 = i ∧ 0 < j ∧ s.Full c i
    · obtain ⟨rfl, h0, hfull⟩ := hbehind
      unfold Pipe.fire
      rw [if_pos ⟨Nat.succ_pos j, hfull⟩]
      exact wakes_wakeChild h₂ h0 hi
    · refine (((hw hji).pull hc h hi hji fun hj' hq => ?_).rearm h₁).fired h₂
      subst hj'
      exact (hw hji hq).resolve_right fun ⟨h0, _, hfull⟩ => hbehind ⟨rfl, h0, hfull⟩

/-- A buffer that gets full by a fire is armed. -/
theorem wakes_filled (hc : c.Admissible) (h : Core c sunk s) (hi : i ≤ c.top) (hu : ¬ s.Armed i)
    (hroom : ¬ s.Full c j) (hfull : (s.pull c sunk i).Full c j) : (s.fire c sunk i).Wakes c j := by
  have h₁ := h.pull hc hi hu
  by_cases hji : j = i
  · subst hji
    exact absurd (Nat.le_trans hfull queues_pull_self.length_le) hroom
  by_cases hjn : j = i + 1
  · subst hjn
    rcases queues_pull_next hc h hi with heq | ⟨-, -, ha, -⟩
    · rw [Full, heq] at hfull
      exact absurd hfull hroom
    · have hw : (s.pull c sunk i).Wakes c (i + 1) := fun _ => Or.inl ha
      exact (hw.rearm h₁).fired (h₁.rearm hi)
  · rw [Full, queues_pull hji hjn] at hfull
    exact absurd hfull hroom

theorem armed_rearm (h : Core c sunk s) (ha : (s.rearm c sunk i).Armed j) : j = i ∨ s.Armed j := by
  unfold Pipe.rearm at ha
  split at ha
  · exact (armed_arm h).mp ha
  · exact Or.inr ha

theorem armed_wakeChild (h : Core c sunk s) (ha : (s.wakeChild c i).Armed j) : i = j + 1 ∨ s.Armed j := by
  by_cases hwake : ¬ s.Full c i ∧ 1 < i ∧ s.queues (i - 1) ≠ []
  · rw [Pipe.wakeChild, if_pos hwake] at ha
    exact ((armed_arm h).mp ha).imp_left fun hj => by omega
  · rw [Pipe.wakeChild, if_neg hwake] at ha
    exact Or.inr ha

/-- Whom a fire may arm: itself, the buffer it moved an element to, or the one behind a full buffer. -/
theorem armed_fire (hc : c.Admissible) (h : Core c sunk s) (hi : i ≤ c.top) (hu : ¬ s.Armed i)
    (ha : (s.fire c sunk i).Armed j) :
    s.Armed j ∨ j = i ∨ j = i + 1 ∧ ¬ s.Full c j ∨ i = j + 1 ∧ s.Full c i := by
  have h₁ := h.pull hc hi hu
  have hpull : (s.pull c sunk i).Armed j → s.Armed j ∨ j = i + 1 ∧ ¬ s.Full c j := by
    rcases pull_cases c sunk s i with ⟨h', -⟩ | ⟨x, xs, -, -, hroom, h'⟩ | ⟨x, xs, -, -, -, h'⟩ <;> rw [h']
    · exact Or.inl
    · intro ha
      rcases (h.loop.isArmed_armLater _ _).mp ha with rfl | ha
      · exact Or.inr ⟨rfl, hroom⟩
      · exact Or.inl ha
    · exact Or.inl
  have hrearm : ((s.pull c sunk i).rearm c sunk i).Armed j → s.Armed j ∨ j = i ∨ j = i + 1 ∧ ¬ s.Full c j := by
    intro ha
    rcases armed_rearm h₁ ha with hji | ha
    · exact Or.inr (Or.inl hji)
    · exact (hpull ha).imp_right Or.inr
  unfold Pipe.fire at ha
  split at ha
  next hfull =>
    rcases armed_wakeChild (h₁.rearm hi) ha with hij | ha
    · exact Or.inr (Or.inr (Or.inr ⟨hij, hfull.2⟩))
    · exact (hrearm ha).imp_right fun h => h.imp_right Or.inl
  next => exact (hrearm ha).imp_right fun h => h.imp_right Or.inl

theorem hasParent_sunk : HasParent c true i ↔ i ≤ c.top := by
  unfold HasParent
  simp only [and_true]
  exact Nat.le_iff_lt_or_eq.symm

/-- **Firing keeps the invariant**, which may be open at the firing node. -/
theorem Core.fire (hc : c.Admissible) (h : Core c sunk s) (hi : i ≤ c.top) (hu : ¬ s.Armed i)
    (hw : sunk → ∀ j ≤ c.top, j ≠ i → s.Wakes c j) : Inv c sunk (s.fire c sunk i) := by
  refine ⟨core_fire hc h hi hu, fun hs j hj => ?_⟩
  subst hs
  exact wakes_fire hc h hi hu (hasParent_sunk.mpr hj) (hw rfl j hj)

/-! ## Every call keeps the invariant -/

theorem Inv.fires (h : Inv c sunk s) {loop : EventLoop Nat} (ht : s.loop.turn = (some i, loop)) :
    Core c sunk { s with loop := loop } ∧ i ≤ c.top ∧ ¬ ({ s with loop := loop } : Pipe α).Armed i ∧
      (HasParent c sunk i → s.queues i ≠ []) ∧
      ∀ j, j ≠ i → s.Wakes c j → ({ s with loop := loop } : Pipe α).Wakes c j := by
  have hturn := h.loop.turn (e := i) (by rw [ht])
  rw [ht] at hturn
  obtain ⟨hi, hsound, harmed⟩ := hturn
  refine ⟨⟨hsound, fun j hj => h.live j ((harmed j).mp hj).2, h.bounded, h.tame,
    fun j hp hj => h.ready j hp ((harmed j).mp hj).2⟩, h.live i hi, fun ha => ((harmed i).mp ha).1 rfl,
    fun hp => h.ready i hp hi, fun j hji hw hq => ?_⟩
  exact (hw hq).imp_left fun ha => (harmed j).mpr ⟨hji, ha⟩

theorem Inv.turn (hc : c.Admissible) (h : Inv c sunk s) : Inv c sunk (s.turn c sunk) := by
  unfold Pipe.turn
  split
  next => exact h
  next i loop ht =>
    obtain ⟨hcore, hi, hu, -, hw⟩ := h.fires ht
    exact hcore.fire hc hi hu fun hs j hj hji => hw j hji (h.wakes hs j hj)

theorem Wakes.turn (hc : c.Admissible) (h : Inv c sunk s) (hp : HasParent c sunk j) (hw : s.Wakes c j) :
    (s.turn c sunk).Wakes c j := by
  unfold Pipe.turn
  split
  next => exact hw
  next i loop ht =>
    obtain ⟨hcore, hi, hu, -, hother⟩ := h.fires ht
    exact wakes_fire hc hcore hi hu hp fun hji => hother j hji hw

theorem queues_feed (x : ErrorOr α) {j : Nat} (hj : j ≠ 0) : (s.feed x).queues j = s.queues j :=
  Function.update_of_ne hj _ _

theorem Wakes.feed (h : Core c sunk s) (x : ErrorOr α) {j : Nat} (hw : s.Wakes c j) : (s.feed x).Wakes c j := by
  have harmed : ∀ j, (s.feed x).Armed j ↔ j = 0 ∨ s.Armed j := h.loop.isArmed_armNext 0
  intro hq
  by_cases hj0 : j = 0
  · exact Or.inl ((harmed j).mpr (Or.inl hj0))
  · rw [queues_feed x hj0] at hq
    refine (hw hq).imp (fun ha => (harmed j).mpr (Or.inr ha)) fun ⟨h0, hlt, hf⟩ => ⟨h0, hlt, ?_⟩
    rw [Full, queues_feed x (Nat.succ_ne_zero j)]
    exact hf

theorem Inv.feed (h : Inv c sunk s) {x : ErrorOr α} (hx : x.isCritical = false) : Inv c sunk (s.feed x) := by
  have harmed : ∀ j, (s.feed x).Armed j ↔ j = 0 ∨ s.Armed j := h.loop.isArmed_armNext 0
  have hother : ∀ j, j ≠ 0 → (s.feed x).queues j = s.queues j := fun j => queues_feed x
  have hzero : (s.feed x).queues 0 = s.queues 0 ++ [x] := by
    simp only [Pipe.feed, Function.update_self]
  refine ⟨⟨h.loop.armNext 0, fun j hj => ?_, fun j h0 hj => ?_, fun j hj y hy => ?_, fun j hp hj => ?_⟩,
    fun hs j hj => (h.wakes hs j hj).feed h.toCore x⟩
  · exact ((harmed j).mp hj).elim (fun e => e ▸ Nat.zero_le _) (h.live j)
  · rw [hother j (Nat.ne_of_gt h0)]
    exact h.bounded j h0 hj
  · rcases eq_or_ne j 0 with rfl | hj0
    · rw [hzero] at hy
      rcases List.mem_append.mp hy with hy | hy
      · exact h.tame 0 hj y hy
      · rw [List.mem_singleton.mp hy]
        exact hx
    · rw [hother j hj0] at hy
      exact h.tame j hj y hy
  · rcases eq_or_ne j 0 with rfl | hj0
    · rw [hzero]
      simp
    · rw [hother j hj0]
      exact h.ready j hp (((harmed j).mp hj).resolve_left hj0)

theorem Inv.take (h : Inv c false s) : Inv c false (s.take c) := by
  unfold Pipe.take
  split
  next => exact h
  next x xs hq =>
    have hother : ∀ j, j ≠ c.top → Function.update s.queues c.top xs j = s.queues j :=
      fun j hj => Function.update_of_ne hj _ _
    have htop : Function.update s.queues c.top xs c.top = xs := Function.update_self ..
    refine ⟨⟨h.loop, h.live, fun j h0 hj => ?_, fun j hj y hy => ?_, fun j hp hj => ?_⟩, fun hs => absurd hs (by simp)⟩
    · dsimp only
      rcases eq_or_ne j c.top with rfl | hjt
      · rw [htop]
        have hlen := h.bounded _ h0 hj
        rw [hq, List.length_cons] at hlen
        omega
      · rw [hother j hjt]
        exact h.bounded j h0 hj
    · dsimp only at hy
      rcases eq_or_ne j c.top with rfl | hjt
      · rw [htop] at hy
        exact h.tame _ hj y (hq ▸ List.mem_cons_of_mem x hy)
      · rw [hother j hjt] at hy
        exact h.tame j hj y hy
    · dsimp only
      have hjt : j ≠ c.top := by
        rintro rfl
        rcases hp with hlt | ⟨-, hs⟩
        · exact Nat.lt_irrefl _ hlt
        · cases hs
      rw [hother j hjt]
      exact h.ready j hp hj

/-- **Nothing waits for ever**: where no event is armed from storage node `i` on, these queues are empty
in front of a sink. -/
theorem Inv.drained (hc : c.Admissible) (h : Inv c true s) :
    ∀ k i, i + k = c.top → (∀ j, i ≤ j → ¬ s.Armed j) → s.queues i = []
  | k, i, hk, hidle => by
    refine Classical.byContradiction fun hq => ?_
    rcases h.wakes rfl i (by omega) hq with ha | ⟨h0, hlt, hfull⟩
    · exact hidle i le_rfl ha
    · have hnext := Inv.drained hc h (k - 1) (i + 1) (by omega) fun j hj => hidle j (Nat.le_of_succ_le hj)
      have hpos := (Chain.limit_bounds hc (Nat.succ_pos i) hlt).1
      rw [Full, hnext, List.length_nil] at hfull
      exact Nat.not_le.mpr hpos hfull

end

end Pipe

end Forstio
