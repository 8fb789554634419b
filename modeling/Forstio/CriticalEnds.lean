import Forstio.Placed
import Forstio.Sparing

/-!
# After a critical error

A buffer that stores a critical error forgets its child's storage node, but owns
the child until it is fired with that error at its front. If the storage node
behind is fired before, the buffer takes more elements behind the error. `Ledger`
keeps beside the world what each storage node has accepted and given out, and
`Settled` relates both to the node's queue and to its forgotten child. `Alone`
says of a buffer that has accepted a critical error what keeps it from taking
more until it is fired.
-/

namespace Forstio

/-- No result follows a critical error. -/
def EndsCritical {α : Type} (xs : List (ErrorOr α)) : Prop := xs.Pairwise fun x _ => x.isCritical = false

structure Ledger (α : Type) where
  world : World α
  accepted : Nat → List (ErrorOr α)
  pulled : Nat → List (ErrorOr α)

namespace Ledger

variable {α : Type}

def start (w : World α) : Ledger α := ⟨w, fun _ => [], fun _ => []⟩

/-- A queue that has become longer has accepted what is new at its end; one that has become shorter, in a node that
is still there, has given out what was at its front. -/
def record (s : Ledger α) (w : World α) : Ledger α where
  world := w
  accepted i := s.accepted i ++ (w.queueAt i).drop (s.world.queueAt i).length
  pulled i := s.pulled i ++
    if w.live i then (s.world.queueAt i).take ((s.world.queueAt i).length - (w.queueAt i).length) else []

def step (taker : Option (Conveyor α)) (s : Ledger α) (call : Call α) :
    Option (Option (ErrorOr α) × Ledger α) := do
  let (result, w) ← World.step taker s.world call
  return (result, s.record w)

/-- The turn fires a storage node into a buffer that takes elements although it has forgotten that node. -/
def Reopens (c : Chain α) (s : Ledger α) : Call α → Prop
  | .turn => ∃ i < c.top, s.world.loop.head = some i ∧
      ∃ n, s.world.nodes (i + 1) = some n ∧ n.body.takes ∧ n.childStorage = none
  | _ => False

end Ledger

/-! ## One node -/

namespace World

variable {α : Type} {c : Chain α} {sunk : Bool} {w w' : World α} {i j : Nat}

def Spends (w : World α) (i : Nat) (w' : World α) : Prop :=
  w'.nodes i = none ∨ ∃ n n', w.nodes i = some n ∧ w'.nodes i = some n' ∧
    (n'.body.queue = n.body.queue ∨ ∃ y, n.body.queue = y :: n'.body.queue) ∧
    (n'.body.child = none ∨ n'.body.child = n.body.child ∧ n'.childStorage = n.childStorage)

def Accepts (w : World α) (i : Nat) (w' : World α) : Prop :=
  ∃ n n' x, w.nodes i = some n ∧ w'.nodes i = some n' ∧ n.body.takes ∧ n'.body.child = n.body.child ∧
    n'.body.queue = n.body.queue ++ [x] ∧ n'.childStorage = if x.isCritical then none else n.childStorage

theorem spends_same (h : w'.nodes i = w.nodes i) : Spends w i w' := by
  cases hn : w.nodes i with
  | none => exact Or.inl (h.trans hn)
  | some n => exact Or.inr ⟨n, n, hn, h.trans hn, Or.inl rfl, Or.inr ⟨rfl, rfl⟩⟩

theorem Popped.spends {post : ErrorOr α → ErrorOr α} {x : ErrorOr α} (h : Popped w i post x w') (j : Nat) :
    Spends w j w' := by
  by_cases hji : j = i
  · subst hji
    obtain ⟨n, n', hn, hn', -, hstorage, hchild, hqueue⟩ := h.self
    refine Or.inr ⟨n, n', hn, hn', ?_, Or.inr ⟨hchild, hstorage⟩⟩
    rcases hqueue with ⟨y, hy, -⟩ | ⟨hnil, hnil', -⟩
    · exact Or.inr ⟨y, hy⟩
    · exact Or.inl (hnil'.trans hnil.symm)
  · exact spends_same (h.other j hji)

theorem Dropped.spends (h : Dropped w i w') (j : Nat) : Spends w j w' := by
  rcases Nat.lt_trichotomy j i with hj | rfl | hj
  · rcases h.below j hj with hnone | hsame
    · exact Or.inl hnone
    · exact spends_same hsame
  · obtain ⟨n, n', hn, hn', hqueue, hchild⟩ := h.self
    exact Or.inr ⟨n, n', hn, hn', Or.inl hqueue, hchild.imp_right And.right⟩
  · exact spends_same (h.above j hj)

theorem Spends.congr {w₁ : World α} (h : Spends w j w₁) (heq : w'.nodes j = w₁.nodes j) : Spends w j w' := by
  unfold Spends at *
  rw [heq]
  exact h

theorem Dropped.spends_popped {w₁ w₂ : World α} {post : ErrorOr α → ErrorOr α} {x : ErrorOr α} (hd : Dropped w i w₁)
    (hp : Popped w₁ i post x w₂) (j : Nat) : Spends w j w₂ := by
  by_cases hji : j = i
  · subst hji
    obtain ⟨n, n₁, hn, hn₁, hqueue, hchild⟩ := hd.self
    obtain ⟨m, n₂, hm, hn₂, -, hstorage, hchild₂, hqueue₂⟩ := hp.self
    obtain rfl := Option.some.inj (hn₁.symm.trans hm)
    refine Or.inr ⟨n, n₂, hn, hn₂, ?_, ?_⟩
    · rw [← hqueue]
      rcases hqueue₂ with ⟨y, hy, -⟩ | ⟨hnil, hnil', -⟩
      · exact Or.inr ⟨y, hy⟩
      · exact Or.inl (hnil'.trans hnil.symm)
    · rw [hchild₂, hstorage]
      exact hchild.imp_right And.right
  · exact (hd.spends j).congr (hp.other j hji)

/-- **What a fire does to a buffer**: the next one takes an element if it can, all others only spend. -/
theorem fires_node (h : Fires c sunk w i w') (hj : j ≤ c.top) :
    (∃ n, w.nodes j = some n ∧ j = i + 1 ∧ n.body.takes) ∧ Accepts w j w' ∨
      ¬ (∃ n, w.nodes j = some n ∧ j = i + 1 ∧ n.body.takes) ∧ Spends w j w' := by
  obtain ⟨w₁, w₂, hdropped, hpassed, hloose⟩ := h
  have hahead : w₁.nodes (i + 1) = w.nodes (i + 1) := hdropped.above _ (Nat.lt_succ_self i)
  have hend : w'.nodes j = w₂.nodes j := congrFun hloose.1 j
  cases hpassed with
  | idle hwhy hsame =>
    refine Or.inr ⟨fun ⟨n, hn, hji, htakes⟩ => ?_, (hdropped.spends j).congr (hend.trans (congrFun hsame.1 j))⟩
    subst hji
    obtain ⟨m, hm, hno⟩ := hwhy (Or.inl hj)
    obtain rfl := Option.some.inj (hn.symm.trans (hahead.symm.trans hm))
    rw [hno] at htakes
    cases htakes
  | sunk hi hpopped _ _ hnodes _ =>
    refine Or.inr ⟨fun ⟨n, hn, hji, htakes⟩ => by omega, ?_⟩
    exact (hdropped.spends_popped hpopped j).congr (hend.trans (congrFun hnodes j))
  | stored hi hpopped hm htakes hm' hparent hchild hqueue hstorage hother _ =>
    by_cases hji : j = i + 1
    · subst hji
      have hn := hahead.symm.trans hm
      exact Or.inl ⟨⟨_, hn, rfl, htakes⟩, _, _, _, hn, hend.trans hm', htakes, hchild, hqueue, hstorage⟩
    · refine Or.inr ⟨fun ⟨n, hn, hji', _⟩ => hji hji', ?_⟩
      exact (hdropped.spends_popped hpopped j).congr (hend.trans (hother j hji))

/-! ## Letting a buffer end -/

/-- Buffer `i` has stored a critical error, and owns its child until it is fired. -/
def closing (w : World α) (i : Nat) : Bool :=
  (w.nodes i).any fun n => n.body.child.isSome && n.childStorage.isNone

/-- What node `i` gives to the next one is a critical error. -/
def givesCritical (c : Chain α) (w : World α) (i : Nat) : Bool :=
  ((w.queueAt i).head?.map (c.upTo i).post).any (·.isCritical)

/-- Nothing is put behind a buffer that is closing, nor taken from it, and a critical error goes
alone, into a buffer that is empty. -/
def LetsEnd (c : Chain α) (w : World α) : Call α → Prop
  | .feed _ => ¬ w.closing 1
  | .fail _ => ¬ w.closing 1
  | .take => ¬ w.closing c.top
  | .turn => ∀ i < c.top, w.loop.head = some i → ¬ (i + 1 < c.top ∧ w.closing (i + 2)) ∧
      (w.givesCritical c i → (w.queueAt i).length = 1 ∧ w.queueAt (i + 1) = [])

instance (c : Chain α) (w : World α) : ∀ call : Call α, Decidable (w.LetsEnd c call)
  | .feed _ => inferInstanceAs (Decidable (¬ _))
  | .fail _ => inferInstanceAs (Decidable (¬ _))
  | .take => inferInstanceAs (Decidable (¬ _))
  | .turn => inferInstanceAs (Decidable (∀ i < c.top, w.loop.head = some i →
      ¬ (i + 1 < c.top ∧ w.closing (i + 2)) ∧
        (w.givesCritical c i → (w.queueAt i).length = 1 ∧ w.queueAt (i + 1) = [])))

/-- A buffer that is closing holds one critical error, and the node behind has nothing for it. -/
def Alone (c : Chain α) (w : World α) : Prop :=
  ∀ j < c.top, w.closing (j + 1) → w.queueAt j = [] ∧ ∃ x, w.queueAt (j + 1) = [x] ∧ x.isCritical

theorem closing_node {n : StorageNode α} (hn : w.nodes i = some n) :
    w.closing i ↔ n.body.child ≠ none ∧ n.childStorage = none := by
  rw [closing, hn, Option.any_some, Bool.and_eq_true, Option.isSome_iff_ne_none, Option.isNone_iff_eq_none]

theorem closing_some (h : w.closing i) :
    ∃ n, w.nodes i = some n ∧ n.body.child ≠ none ∧ n.childStorage = none := by
  cases hn : w.nodes i with
  | none =>
    rw [closing, hn] at h
    cases h
  | some n => exact ⟨n, rfl, (closing_node hn).mp h⟩

theorem closing_kept (h : w'.nodes i = none ∨ w'.nodes i = w.nodes i) (hclosing : w'.closing i) :
    w'.nodes i = w.nodes i ∧ w.closing i := by
  obtain ⟨n, hn, hmark⟩ := closing_some hclosing
  have hnode : w'.nodes i = w.nodes i := h.resolve_left fun hgone => by cases hgone.symm.trans hn
  exact ⟨hnode, (closing_node (hnode.symm.trans hn)).mpr hmark⟩

theorem Spends.closing (h : Spends w j w') (hclosing : w'.closing j) : w.closing j := by
  obtain ⟨n', hn', hchild, hstorage⟩ := closing_some hclosing
  rcases h with hgone | ⟨n, m, hn, hm, -, hsame⟩
  · cases hgone.symm.trans hn'
  · obtain rfl := Option.some.inj (hn'.symm.trans hm)
    obtain ⟨hchild', hstorage'⟩ := hsame.resolve_left hchild
    exact (closing_node hn).mpr ⟨hchild' ▸ hchild, hstorage' ▸ hstorage⟩

/-- **A node fired into the next one**: every other node of the chain is gone or as it was, and if the next
one took a result, it is the first that the node had. -/
theorem fires_moves (h : Fires c sunk w i w') :
    (∀ j ≤ c.top, j ≠ i → w'.nodes j = none ∨ w'.nodes j = w.nodes j) ∨
    i < c.top ∧ (∀ j, j ≠ i → j ≠ i + 1 → w'.nodes j = none ∨ w'.nodes j = w.nodes j) ∧
      ∃ x, w'.queueAt (i + 1) = w.queueAt (i + 1) ++ [x] ∧ Accepts w (i + 1) w' ∧
        (w.queueAt i = [] ∨ ∃ y, w.queueAt i = y :: w'.queueAt i ∧ x = (c.upTo i).post y) := by
  obtain ⟨w₁, w₂, hdropped, hpassed, hloose⟩ := h
  have hend : ∀ j, w'.nodes j = w₂.nodes j := fun j => congrFun hloose.1 j
  have hothers : ∀ j, j ≠ i → w₁.nodes j = none ∨ w₁.nodes j = w.nodes j := by
    intro j hj
    rcases Nat.lt_or_gt_of_ne hj with hlt | hgt
    · exact hdropped.below j hlt
    · exact Or.inr (hdropped.above j hgt)
  cases hpassed with
  | idle _ hsame =>
    refine Or.inl fun j _ hj => ?_
    rw [hend, congrFun hsame.1 j]
    exact hothers j hj
  | sunk hi hpopped _ _ hnodes _ =>
    refine Or.inl fun j _ hj => ?_
    rw [hend, congrFun hnodes j, hpopped.other j hj]
    exact hothers j hj
  | @stored _ _ x m m' hi hpopped hm htakes hm' hparent hchild hqueue hstorage hother _ =>
    have hahead := hdropped.above _ (Nat.lt_succ_self i)
    have hn' := (hend (i + 1)).trans hm'
    refine Or.inr ⟨hi, fun j hj hj' => ?_, x, ?_, ⟨m, m', x, hahead.symm.trans hm, hn', htakes, hchild, hqueue,
      hstorage⟩, ?_⟩
    · rw [hend, hother j hj', hpopped.other j hj]
      exact hothers j hj
    · rw [queueAt_node hn', queueAt_node (hahead.symm.trans hm), hqueue]
    · obtain ⟨n, n₁, hn, hn₁, hsame, -⟩ := hdropped.self
      obtain ⟨m, n₂, hm₂, hn₂, -, -, -, hpop⟩ := hpopped.self
      obtain rfl := Option.some.inj (hn₁.symm.trans hm₂)
      have hback : w'.nodes i = some n₂ := (hend i).trans ((hother i (Nat.ne_of_lt (Nat.lt_succ_self i))).trans hn₂)
      rw [queueAt_node hn, queueAt_node hback, ← hsame]
      rcases hpop with ⟨y, hy, hx⟩ | ⟨hnil, -⟩
      · exact Or.inr ⟨y, hy, hx⟩
      · exact Or.inl hnil

theorem fires_closes (h : Fires c sunk w i w') {x : ErrorOr α} {xs : List (ErrorOr α)} (hx : w.queueAt i = x :: xs)
    (hcritical : x.isCritical) : ¬ w'.closing i := by
  obtain ⟨w₁, w₂, hdropped, hpassed, hloose⟩ := h
  obtain ⟨n, n₁, hn, hn₁, -, hkept⟩ := hdropped.self
  have hnone : n₁.body.child = none := by
    refine hkept.resolve_right fun hkept => ?_
    have hfine := hkept.1
    rw [← queueAt_node hn, hx, List.head?_cons, Option.any_some, hcritical] at hfine
    cases hfine
  have hfired : ∃ n₂, w'.nodes i = some n₂ ∧ n₂.body.child = none := by
    rw [congrFun hloose.1 i]
    cases hpassed with
    | idle _ hsame => exact ⟨n₁, (congrFun hsame.1 i).trans hn₁, hnone⟩
    | sunk _ hpopped _ _ hnodes _ =>
      obtain ⟨m, n₂, hm, hn₂, -, -, hchild, -⟩ := hpopped.self
      obtain rfl := Option.some.inj (hn₁.symm.trans hm)
      exact ⟨n₂, (congrFun hnodes i).trans hn₂, hchild.trans hnone⟩
    | stored _ hpopped _ _ _ _ _ _ _ hother _ =>
      obtain ⟨m, n₂, hm, hn₂, -, -, hchild, -⟩ := hpopped.self
      obtain rfl := Option.some.inj (hn₁.symm.trans hm)
      exact ⟨n₂, (hother i (Nat.ne_of_lt (Nat.lt_succ_self i))).trans hn₂, hchild.trans hnone⟩
  obtain ⟨n₂, hn₂, hchild⟩ := hfired
  exact fun hclosing => ((closing_node hn₂).mp hclosing).1 hchild

section
variable (h : Alone c w)
include h

theorem Alone.feedResult (hw : Placed c sunk w) (hopen : ¬ w.closing 1) (x : ErrorOr α) :
    Alone c (w.feedResult 0 x) := by
  have hother := (feedResult_placed (i := 0) hw x).2.2
  intro j hj hclosing
  have hahead := hother (j + 1) (Nat.succ_ne_zero j)
  have hwas : w.closing (j + 1) := by rwa [closing, hahead] at hclosing
  cases j with
  | zero => exact absurd hwas hopen
  | succ j =>
    rw [queueAt, hother _ (Nat.succ_ne_zero j), queueAt, hahead]
    exact h (j + 1) hj hwas

theorem Alone.take (hw : Placed c sunk w) (hopen : ¬ w.closing c.top) {x : ErrorOr α}
    (htake : Conveyor.take ⟨c.node, c.top⟩ w = some (x, w')) : Alone c w' := by
  obtain ⟨-, hpopped⟩ := take_popped hw htake
  rcases hpopped with rfl | ⟨w₂, hpopped, hnodes⟩
  · exact h
  have hother : ∀ j, j ≠ c.top → w'.nodes j = w.nodes j := fun j hj =>
    (congrFun hnodes j).trans (hpopped.other j hj)
  intro j hj hclosing
  have hwas := ((hpopped.spends (j + 1)).congr (congrFun hnodes (j + 1))).closing hclosing
  by_cases hlast : j + 1 = c.top
  · exact absurd (hlast ▸ hwas) hopen
  · rw [queueAt, hother j (Nat.ne_of_lt hj), queueAt, hother (j + 1) hlast]
    exact h j hj hwas

theorem Alone.fired (hfires : Fires c sunk w (j + 1) w') (hj : j < c.top) : ¬ w'.closing (j + 1) := by
  intro hclosing
  have hspends : Spends w (j + 1) w' := by
    rcases fires_node hfires hj with ⟨⟨n, -, hnext, -⟩, -⟩ | ⟨-, hspends⟩
    · omega
    · exact hspends
  obtain ⟨-, x, hx, hcritical⟩ := h j hj (hspends.closing hclosing)
  exact fires_closes hfires hx hcritical hclosing

theorem Alone.aside (hj : j < c.top) (hahead : w'.nodes (j + 1) = none ∨ w'.nodes (j + 1) = w.nodes (j + 1))
    (hback : w'.nodes j = none ∨ w'.nodes j = w.nodes j) (hclosing : w'.closing (j + 1)) :
    w'.queueAt j = [] ∧ ∃ x, w'.queueAt (j + 1) = [x] ∧ x.isCritical := by
  obtain ⟨hnode, hwas⟩ := closing_kept hahead hclosing
  obtain ⟨hempty, x, hx, hcritical⟩ := h j hj hwas
  refine ⟨?_, x, ?_, hcritical⟩
  · rcases hback with hgone | hkept
    · rw [queueAt, hgone]
    · rw [queueAt, hkept]
      exact hempty
  · rw [queueAt, hnode]
    exact hx

theorem Alone.stored (hi : i < c.top) (hready : w.queueAt i ≠ [])
    (hgives : w.givesCritical c i → (w.queueAt i).length = 1 ∧ w.queueAt (i + 1) = [])
    {x : ErrorOr α} (hqueue : w'.queueAt (i + 1) = w.queueAt (i + 1) ++ [x]) (haccepts : Accepts w (i + 1) w')
    {y : ErrorOr α} (hy : w.queueAt i = y :: w'.queueAt i) (hx : x = (c.upTo i).post y)
    (hclosing : w'.closing (i + 1)) : w'.queueAt i = [] ∧ ∃ x, w'.queueAt (i + 1) = [x] ∧ x.isCritical := by
  obtain ⟨n, n', z, hn, hn', -, hchild, hz, hstorage⟩ := haccepts
  have hmark := (closing_node hn').mp hclosing
  obtain rfl : z = x := by
    rw [queueAt_node hn', queueAt_node hn, hz] at hqueue
    exact List.singleton_inj.mp (List.append_cancel_left hqueue)
  by_cases hz : z.isCritical
  · have hcritical : w.givesCritical c i := by
      rw [givesCritical, hy, List.head?_cons, Option.map_some, Option.any_some, ← hx]
      exact hz
    obtain ⟨hone, hempty⟩ := hgives hcritical
    refine ⟨?_, z, ?_, hz⟩
    · rw [hy, List.length_cons] at hone
      exact List.eq_nil_of_length_eq_zero (Nat.succ.inj hone)
    · rw [hqueue, hempty, List.nil_append]
  · rw [if_neg hz] at hstorage
    have hwas := (closing_node hn).mpr ⟨hchild ▸ hmark.1, hstorage.symm.trans hmark.2⟩
    exact absurd (h i hi hwas).1 hready

theorem Alone.fires (hfires : Fires c sunk w i w') (hready : i < c.top → w.queueAt i ≠ [])
    (hlets : i < c.top → ¬ (i + 1 < c.top ∧ w.closing (i + 2)) ∧
      (w.givesCritical c i → (w.queueAt i).length = 1 ∧ w.queueAt (i + 1) = [])) : Alone c w' := by
  intro j hj hclosing
  by_cases hself : j + 1 = i
  · subst hself
    exact absurd hclosing (h.fired hfires hj)
  rcases fires_moves hfires with hsame | ⟨hi, hsame, x, hqueue, haccepts, hmoved⟩
  · by_cases hji : j = i
    · subst hji
      exact absurd (h j hj (closing_kept (hsame (j + 1) hj hself) hclosing).2).1 (hready hj)
    · exact h.aside hj (hsame (j + 1) hj hself) (hsame j hj.le hji) hclosing
  · by_cases hji : j = i
    · subst hji
      obtain ⟨y, hy, hx⟩ := hmoved.resolve_left (hready hj)
      exact h.stored hj (hready hj) (hlets hj).2 hqueue haccepts hy hx hclosing
    · have hahead := hsame (j + 1) hself (by omega)
      by_cases hnext : j = i + 1
      · subst hnext
        exact absurd ⟨hj, (closing_kept hahead hclosing).2⟩ (hlets hi).1
      · exact h.aside hj hahead (hsame j hji hnext) hclosing

/-- **A turn that lets every buffer end** fires nothing into one that is closing. -/
theorem Alone.turn (hw : Placed c sunk w) (hready : ∀ i < c.top, w.loop.head = some i → w.queueAt i ≠ [])
    (hlets : LetsEnd c w .turn) {fired : Bool} (hturn : w.turn = some (fired, w')) : Alone c w' := by
  obtain ⟨-, ⟨-, rfl⟩ | ⟨i, hhead, ⟨-, hfires⟩ | ⟨htop, hdropped⟩⟩⟩ := turn_fires hw hturn
  · exact h
  · exact h.fires hfires (fun hi => hready i hi hhead) fun hi => hlets i hi hhead
  · intro j hj hclosing
    exact h.aside hj (hdropped.below _ (by omega)) (hdropped.below _ (by omega)) hclosing

end

end World

/-! ## The ledger of one buffer -/

namespace Ledger

variable {α : Type} {c : Chain α} {sunk : Bool} {s : Ledger α} {w : World α} {i : Nat}

/-- What a buffer gave and what it holds make up what it accepted, and while it owns its child, the child's
storage node is forgotten exactly if a critical error was accepted. -/
structure Settled (s : Ledger α) (i : Nat) : Prop where
  ends : EndsCritical (s.accepted i)
  pulled : s.pulled i <+: s.accepted i
  queue : ∀ n, s.world.nodes i = some n → s.pulled i ++ n.body.queue = s.accepted i
  mark : ∀ n, s.world.nodes i = some n → n.body.child ≠ none →
    (n.childStorage = none ↔ ∃ x ∈ s.accepted i, x.isCritical)

theorem accepted_record : (s.record w).accepted i =
    s.accepted i ++ (w.queueAt i).drop (s.world.queueAt i).length := rfl

theorem pulled_record : (s.record w).pulled i = s.pulled i ++
    if w.live i then (s.world.queueAt i).take ((s.world.queueAt i).length - (w.queueAt i).length) else [] := rfl

theorem accepted_shorter (h : (w.queueAt i).length ≤ (s.world.queueAt i).length) :
    (s.record w).accepted i = s.accepted i := by
  rw [accepted_record, List.drop_eq_nil_of_le h, List.append_nil]

theorem Settled.spends (h : s.Settled i) (hw : World.Spends s.world i w) : (s.record w).Settled i := by
  rcases hw with hgone | ⟨n, n', hn, hn', hqueue, hchild⟩
  · have hempty : w.queueAt i = [] := by rw [World.queueAt, hgone]
    have haccepted : (s.record w).accepted i = s.accepted i := accepted_shorter (by rw [hempty]; exact Nat.zero_le _)
    have hpulled : (s.record w).pulled i = s.pulled i := by
      have hdead : w.live i = false := by rw [World.live, hgone, Option.isSome_none]
      rw [pulled_record, hdead, if_neg Bool.false_ne_true, List.append_nil]
    refine ⟨haccepted ▸ h.ends, ?_, fun m hm => ?_, fun m hm => ?_⟩
    · rw [haccepted, hpulled]
      exact h.pulled
    · cases hgone.symm.trans hm
    · cases hgone.symm.trans hm
  · have hq : s.world.queueAt i = n.body.queue := World.queueAt_node hn
    have hq' : w.queueAt i = n'.body.queue := World.queueAt_node hn'
    have hlive : w.live i = true := World.live_of_node hn'
    have hlen : (w.queueAt i).length ≤ (s.world.queueAt i).length := by
      rw [hq, hq']
      rcases hqueue with hsame | ⟨y, hy⟩
      · rw [hsame]
      · rw [hy]
        exact Nat.le_succ _
    have haccepted : (s.record w).accepted i = s.accepted i := accepted_shorter hlen
    have hall : (s.record w).pulled i ++ n'.body.queue = s.accepted i := by
      rw [← h.queue n hn, pulled_record, if_pos hlive, hq, hq', List.append_assoc]
      rcases hqueue with hsame | ⟨y, hy⟩
      · rw [hsame, Nat.sub_self]
        rfl
      · rw [hy, List.length_cons, Nat.add_sub_cancel_left]
        rfl
    refine ⟨haccepted ▸ h.ends, ?_, fun m hm => ?_, fun m hm hne => ?_⟩
    · rw [haccepted, ← hall]
      exact List.prefix_append _ _
    · obtain rfl := Option.some.inj (hn'.symm.trans hm)
      rw [haccepted]
      exact hall
    · obtain rfl := Option.some.inj (hn'.symm.trans hm)
      obtain ⟨hchild', hstorage⟩ := hchild.resolve_left hne
      rw [haccepted, hstorage]
      exact h.mark n hn (hchild' ▸ hne)

theorem takes_child {b : StorageBody α} (h : b.takes) : b.child ≠ none := by
  cases b with
  | queueBuffer child st limit =>
    cases child with
    | none => cases h
    | some node => exact Option.some_ne_none node
  | sink child =>
    cases child with
    | none => cases h
    | some node => exact Option.some_ne_none node
  | _ => cases h

theorem Settled.accepts (h : s.Settled i) {n : StorageNode α} (hn : s.world.nodes i = some n)
    (hw : World.Accepts s.world i w) : (n.childStorage ≠ none → (s.record w).Settled i) ∧
      (n.childStorage = none → ¬ EndsCritical ((s.record w).accepted i)) := by
  obtain ⟨m, n', x, hm, hn', htakes, hchild, hqueue, hstorage⟩ := hw
  obtain rfl := Option.some.inj (hn.symm.trans hm)
  have hmark := h.mark n hn (takes_child htakes)
  have haccepted : (s.record w).accepted i = s.accepted i ++ [x] := by
    rw [accepted_record, World.queueAt_node hn, World.queueAt_node hn', hqueue, List.drop_left]
  have hpulled : (s.record w).pulled i = s.pulled i := by
    have hzero : n.body.queue.length - (n.body.queue ++ [x]).length = 0 := by
      rw [List.length_append]
      omega
    rw [pulled_record, World.queueAt_node hn, World.queueAt_node hn', hqueue, hzero, List.take_zero, ite_self,
      List.append_nil]
  rw [haccepted]
  refine ⟨fun hopen => ?_, fun hforgotten hends => ?_⟩
  · have hnone : ∀ y ∈ s.accepted i, y.isCritical = false := fun y hy =>
      Bool.eq_false_iff.mpr fun hcritical => hopen (hmark.mpr ⟨y, hy, hcritical⟩)
    refine ⟨?_, ?_, fun k hk => ?_, fun k hk _ => ?_⟩
    · rw [haccepted]
      refine List.pairwise_append.mpr ⟨h.ends, List.pairwise_singleton _ x, fun y hy _ _ => hnone y hy⟩
    · rw [haccepted, hpulled]
      exact h.pulled.trans (List.prefix_append _ _)
    · obtain rfl := Option.some.inj (hn'.symm.trans hk)
      rw [haccepted, hpulled, hqueue, ← List.append_assoc, h.queue n hn]
    · obtain rfl := Option.some.inj (hn'.symm.trans hk)
      rw [haccepted, hstorage]
      by_cases hx : x.isCritical
      · rw [if_pos hx]
        exact iff_of_true rfl ⟨x, List.mem_append_right _ (List.mem_singleton_self x), hx⟩
      · rw [if_neg hx]
        refine iff_of_false hopen fun ⟨y, hy, hcritical⟩ => ?_
        rcases List.mem_append.mp hy with hy | hy
        · rw [hnone y hy] at hcritical
          cases hcritical
        · exact hx (List.mem_singleton.mp hy ▸ hcritical)
  · obtain ⟨y, hy, hcritical⟩ := hmark.mp hforgotten
    have hplain := (List.pairwise_append.mp hends).2.2 y hy x (List.mem_singleton_self x)
    rw [hplain] at hcritical
    cases hcritical

/-! ## Runs -/

theorem step_some {taker : Option (Conveyor α)} {s' : Ledger α} {call : Call α} {result : Option (ErrorOr α)}
    (hs : s.step taker call = some (result, s')) :
    ∃ w, World.step taker s.world call = some (result, w) ∧ s' = s.record w := by
  obtain ⟨⟨r, w⟩, hw, hs⟩ := Option.bind_eq_some_iff.mp hs
  obtain ⟨rfl, rfl⟩ := Prod.mk.inj (Option.some.inj hs)
  exact ⟨w, hw, rfl⟩

def Kept (c : Chain α) (sunk : Bool) (s : Ledger α) : Prop :=
  s.world.Placed c sunk ∧ ∀ i, 0 < i → i ≤ c.top → s.Settled i

section
variable (h : s.Kept c sunk)
include h

theorem Kept.spends (hp : w.Placed c sunk) (hall : ∀ i, World.Spends s.world i w) : (s.record w).Kept c sunk :=
  ⟨hp, fun i h0 hi => (h.2 i h0 hi).spends (hall i)⟩

theorem Kept.feedResult (x : ErrorOr α) : (s.record (s.world.feedResult 0 x)).Kept c sunk := by
  obtain ⟨hp, -, hother⟩ := World.feedResult_placed (i := 0) h.1 x
  refine ⟨hp, fun i h0 hi => (h.2 i h0 hi).spends ?_⟩
  exact World.spends_same (hother i (Nat.ne_of_gt h0))

theorem Kept.take {x : ErrorOr α} (htake : Conveyor.take ⟨c.node, c.top⟩ s.world = some (x, w)) :
    (s.record w).Kept c sunk := by
  obtain ⟨hp, hpopped⟩ := World.take_popped h.1 htake
  refine h.spends hp fun i => ?_
  rcases hpopped with rfl | ⟨w₂, hpopped, hnodes⟩
  · exact World.spends_same rfl
  · exact (hpopped.spends i).congr (congrFun hnodes i)

theorem Kept.turn {fired : Bool} (hturn : s.world.turn = some (fired, w)) :
    (¬ s.Reopens c .turn → (s.record w).Kept c sunk) ∧
      (s.Reopens c .turn → ∃ i, 0 < i ∧ i ≤ c.top ∧ ¬ EndsCritical ((s.record w).accepted i)) := by
  obtain ⟨hp, hturned⟩ := World.turn_fires h.1 hturn
  rcases hturned with ⟨hidle, rfl⟩ | ⟨i, hhead, ⟨-, hfires⟩ | ⟨hi, hdropped⟩⟩
  · refine ⟨fun _ => h.spends h.1 fun i => World.spends_same rfl, fun hno => ?_⟩
    obtain ⟨i, -, hhead, -⟩ := hno
    rw [hidle] at hhead
    cases hhead
  · constructor
    · intro hok
      refine ⟨hp, fun j h0 hj => ?_⟩
      rcases World.fires_node hfires hj with ⟨⟨n, hn, rfl, htakes⟩, haccepts⟩ | ⟨-, hspent⟩
      · exact ((h.2 _ h0 hj).accepts hn haccepts).1 fun hnone => hok ⟨i, hj, hhead, n, hn, htakes, hnone⟩
      · exact (h.2 j h0 hj).spends hspent
    · intro ⟨i', hi', hhead', n, hn, htakes, hnone⟩
      obtain rfl := Option.some.inj (hhead.symm.trans hhead')
      refine ⟨i + 1, Nat.succ_pos i, hi', ?_⟩
      rcases World.fires_node hfires hi' with ⟨-, haccepts⟩ | ⟨hno, -⟩
      · exact ((h.2 _ (Nat.succ_pos i) hi').accepts hn haccepts).2 hnone
      · exact absurd ⟨n, hn, rfl, htakes⟩ hno
  · refine ⟨fun _ => h.spends hp fun j => hdropped.spends j, fun hno => ?_⟩
    obtain ⟨i', hi', hhead', -⟩ := hno
    have heq := Option.some.inj (hhead.symm.trans hhead')
    omega

theorem step_kept {call : Call α} {result : Option (ErrorOr α)}
    (hw : World.step (if sunk then none else some ⟨c.node, c.top⟩) s.world call = some (result, w)) :
    (¬ s.Reopens c call → (s.record w).Kept c sunk) ∧
      (s.Reopens c call → ∃ i, 0 < i ∧ i ≤ c.top ∧ ¬ EndsCritical ((s.record w).accepted i)) := by
  cases call with
  | feed v =>
    obtain ⟨-, rfl⟩ := Prod.mk.inj (Option.some.inj hw)
    exact ⟨fun _ => h.feedResult (.value v), fun hno => hno.elim⟩
  | fail e =>
    obtain ⟨-, rfl⟩ := Prod.mk.inj (Option.some.inj hw)
    exact ⟨fun _ => h.feedResult (.error e), fun hno => hno.elim⟩
  | take =>
    refine ⟨fun _ => ?_, fun hno => hno.elim⟩
    cases sunk with
    | true =>
      obtain ⟨-, rfl⟩ := Prod.mk.inj (Option.some.inj hw)
      exact h.spends h.1 fun i => World.spends_same rfl
    | false =>
      obtain ⟨⟨x, w₁⟩, htake, hw⟩ := Option.bind_eq_some_iff.mp hw
      obtain ⟨-, rfl⟩ := Prod.mk.inj (Option.some.inj hw)
      exact h.take htake
  | turn =>
    obtain ⟨⟨fired, w₁⟩, hturn, hw⟩ := Option.bind_eq_some_iff.mp hw
    obtain ⟨-, rfl⟩ := Prod.mk.inj (Option.some.inj hw)
    exact h.turn hturn

end

theorem kept_start (c : Chain α) (sunk : Bool) : (start (Pipe.empty.world c sunk)).Kept c sunk := by
  refine ⟨c.placed_new sunk, fun i h0 hi => ⟨List.Pairwise.nil, List.prefix_rfl, fun n hn => ?_, fun n hn _ => ?_⟩⟩
  · have hempty : (Pipe.empty.world c sunk).queueAt i = [] := Pipe.queueAt_world hi
    exact (World.queueAt_node hn).symm.trans hempty
  · obtain rfl := Option.some.inj ((Pipe.nodes_world hi).symm.trans hn)
    cases i with
    | zero => exact absurd h0 (Nat.lt_irrefl 0)
    | succ i => exact iff_of_false (Option.some_ne_none i) fun ⟨x, hx, _⟩ => absurd hx List.not_mem_nil

def Ends (c : Chain α) (s : Ledger α) : Prop :=
  ∀ i, 0 < i → i ≤ c.top → EndsCritical (s.accepted i) ∧ EndsCritical (s.pulled i)

theorem Kept.ends (h : s.Kept c sunk) : s.Ends c := by
  intro i h0 hi
  have hsettled := h.2 i h0 hi
  exact ⟨hsettled.ends, hsettled.ends.sublist hsettled.pulled.sublist⟩

def Sparing (taker : Option (Conveyor α)) (s : Ledger α) (calls : List (Call α)) : Prop :=
  Run.Along (step taker) (fun s call => s.world.SparesAt call) s calls

instance (taker : Option (Conveyor α)) (s : Ledger α) (calls : List (Call α)) : Decidable (s.Sparing taker calls) :=
  Run.decidableAlong _ _ calls s

instance (c : Chain α) (s : Ledger α) : ∀ call, Decidable (s.Reopens c call)
  | .turn =>
    have (i : Nat) : Decidable (∃ n, s.world.nodes (i + 1) = some n ∧ n.body.takes ∧ n.childStorage = none) :=
      decidable_of_iff ((s.world.nodes (i + 1)).any fun n => n.body.takes && n.childStorage.isNone) (by
        cases s.world.nodes (i + 1) with
        | none => simp
        | some n => simp)
    inferInstanceAs (Decidable (∃ i < c.top, s.world.loop.head = some i ∧ _))
  | .feed _ => isFalse id
  | .fail _ => isFalse id
  | .take => isFalse id

def Grown (c : Chain α) (sunk : Bool) (s : Ledger α) : Prop :=
  ∃ fed, Growing.Grown (c, sunk) fed ⟨s.world, if sunk then none else some ⟨c.node, c.top⟩⟩

theorem grown_start (hc : c.Roomy) : (start (Pipe.empty.world c sunk)).Grown c sunk :=
  ⟨[], Growing.grown_finished hc sunk⟩

section
variable (h : s.Grown c sunk)
include h

theorem Grown.step {call : Call α} (hspare : s.world.SparesAt call) :
    ∃ result s', s.step (if sunk then none else some ⟨c.node, c.top⟩) call = some (result, s') ∧ s'.Grown c sunk := by
  obtain ⟨fed, h⟩ := h
  obtain ⟨result, w, fed', hw, h'⟩ := h.spared hspare
  have hstep : s.step (if sunk then none else some ⟨c.node, c.top⟩) call = some (result, s.record w) := by
    simp only [Ledger.step, hw, Option.bind_eq_bind, Option.bind_some, Option.pure_def]
  exact ⟨result, _, hstep, fed', h'⟩

theorem Grown.loaded (hi : i < c.top) (hhead : s.world.loop.head = some i) : s.world.queueAt i ≠ [] := by
  obtain ⟨fed, h⟩ := h
  have hfires : s.world.loop.turn.1 = some i := by rw [EventLoop.turn_eq hhead]
  obtain ⟨n, hn, hq⟩ := h.chained.ready i (h.chained.loop.turn hfires).1
  have hsize : s.world.size = c.top + 1 + sunk.toNat := h.chained.size
  have hparent : n.parent = some (i + 1) := 
    (h.chained.node i n hn).parent.trans (if_pos (show i + 1 < s.world.size by omega))
  rw [World.queueAt_node hn]
  exact hq (by rw [hparent]; exact Option.some_ne_none _)

end

/-- **A call that lets every buffer end** reopens none. -/
theorem Kept.lets (h : s.Kept c sunk) (hgrown : s.Grown c sunk) (halone : s.world.Alone c) {call : Call α}
    (hlets : s.world.LetsEnd c call) : ¬ s.Reopens c call ∧
      ∀ result w, World.step (if sunk then none else some ⟨c.node, c.top⟩) s.world call = some (result, w) →
        w.Alone c := by
  cases call with
  | feed v =>
    refine ⟨id, fun result w hw => ?_⟩
    obtain ⟨-, rfl⟩ := Prod.mk.inj (Option.some.inj hw)
    exact halone.feedResult h.1 hlets (.value v)
  | fail e =>
    refine ⟨id, fun result w hw => ?_⟩
    obtain ⟨-, rfl⟩ := Prod.mk.inj (Option.some.inj hw)
    exact halone.feedResult h.1 hlets (.error e)
  | take =>
    refine ⟨id, fun result w hw => ?_⟩
    cases sunk with
    | true =>
      obtain ⟨-, rfl⟩ := Prod.mk.inj (Option.some.inj hw)
      exact halone
    | false =>
      obtain ⟨⟨x, w₁⟩, htake, hw⟩ := Option.bind_eq_some_iff.mp hw
      obtain ⟨-, rfl⟩ := Prod.mk.inj (Option.some.inj hw)
      exact halone.take h.1 hlets htake
  | turn =>
    refine ⟨fun hreopens => ?_, fun result w hw => ?_⟩
    · obtain ⟨i, hi, hhead, n, hn, htakes, hnone⟩ := hreopens
      have hclosing := (World.closing_node hn).mpr ⟨takes_child htakes, hnone⟩
      exact hgrown.loaded hi hhead (halone i hi hclosing).1
    · obtain ⟨⟨fired, w₁⟩, hturn, hw⟩ := Option.bind_eq_some_iff.mp hw
      obtain ⟨-, rfl⟩ := Prod.mk.inj (Option.some.inj hw)
      exact halone.turn h.1 (fun i hi hhead => hgrown.loaded hi hhead) hlets hturn

theorem alone_start (c : Chain α) (sunk : Bool) : (Pipe.empty.world c sunk).Alone c := by
  intro j hj hclosing
  have hnode : (Pipe.empty.world c sunk).nodes (j + 1) = some (c.nodeOf sunk (fun _ => []) (j + 1)) :=
    Pipe.nodes_world hj
  have hmark := ((World.closing_node hnode).mp hclosing).2
  cases hmark

/-- **Nothing follows a critical error, exactly when.** A run of a chain, with a sink or taken from, that spares its
events goes through, and no buffer accepts or gives out a result behind a critical error if and only if no turn
fires a storage node into a buffer that has forgotten it and still takes elements. No turn does if critical errors
go alone into empty buffers, and until such a buffer is fired nothing is put behind it or taken from it. -/
theorem ends_iff (c : Chain α) (sunk : Bool) : ∃ taker w₀, c.finish sunk = some (taker, w₀) ∧
    ∀ calls, (start w₀).Sparing taker calls →
      (c.Roomy → ∃ results s, Run.exec (step taker) (start w₀) calls = some (results, s)) ∧
      ((∃ results s, Run.exec (step taker) (start w₀) calls = some (results, s)) →
        ((∀ done, done <+: calls → ∀ results s, Run.exec (step taker) (start w₀) done = some (results, s) →
            s.Ends c) ↔
          Run.Along (step taker) (fun s call => ¬ s.Reopens c call) (start w₀) calls)) ∧
      (c.Roomy → Run.Along (step taker) (fun s call => s.world.LetsEnd c call) (start w₀) calls →
        ∀ done, done <+: calls →
          ∃ results s, Run.exec (step taker) (start w₀) done = some (results, s) ∧ s.Ends c) := by
  refine ⟨_, _, c.finish_world sunk, fun calls hspare => ⟨fun hc => ?_, fun hruns => ?_, fun hc hlets => ?_⟩⟩
  · obtain ⟨results, s, hrun, -⟩ := Run.exec_invariant (Grown c sunk) _ (fun s call h hok => h.step hok) calls _
      (grown_start hc) hspare
    exact ⟨results, s, hrun⟩
  · refine Run.exec_runs_iff (Ends c) (Kept c sunk) (fun s h => h.ends) ?_ ?_ calls _ (kept_start c sunk) hruns
    · intro s call result s' h hok hs
      obtain ⟨w, hw, rfl⟩ := step_some hs
      exact (step_kept h hw).1 hok
    · intro s call result s' h hbad hs hends
      obtain ⟨w, hw, rfl⟩ := step_some hs
      obtain ⟨i, h0, hi, hno⟩ := (step_kept h hw).2 (not_not.mp hbad)
      exact hno (hends i h0 hi).1
  · intro done hdone
    have hstep : ∀ (s : Ledger α) call, (s.Kept c sunk ∧ s.Grown c sunk ∧ s.world.Alone c) →
        s.world.SparesAt call ∧ s.world.LetsEnd c call → ∃ result s',
          s.step (if sunk then none else some ⟨c.node, c.top⟩) call = some (result, s') ∧
            s'.Kept c sunk ∧ s'.Grown c sunk ∧ s'.world.Alone c := by
      intro s call ⟨hkept, hgrown, halone⟩ ⟨hok, hlets⟩
      obtain ⟨result, s', hs, hgrown'⟩ := hgrown.step hok
      obtain ⟨w, hw, rfl⟩ := step_some hs
      obtain ⟨hclosed, halone'⟩ := hkept.lets hgrown halone hlets
      exact ⟨result, _, hs, (step_kept hkept hw).1 hclosed, hgrown', halone' result w hw⟩
    obtain ⟨results, s, hrun, h, -⟩ := Run.exec_invariant _ _ hstep done _
      ⟨kept_start c sunk, grown_start hc, alone_start c sunk⟩ ((hspare.and hlets).initial hdone)
    exact ⟨results, s, hrun, h.ends⟩

def threeSlots : Chain Nat := .buffer .feeder 3

/-- The error is stored behind a value, so the buffer keeps its child when it is fired. -/
def reopening : List (Call Nat) :=
  [.feed 1, .fail (criticalError "broken"), .feed 2, .turn, .turn, .turn, .turn, .turn]

/-- The buffer takes a value, and when that is gone the error alone; what is fed after its fire goes nowhere. -/
def ending : List (Call Nat) :=
  [.feed 1, .turn, .take, .turn, .fail (criticalError "broken"), .turn, .turn, .feed 2, .turn, .take]

theorem ends_iff_threeSlots : ∃ taker w₀, threeSlots.finish false = some (taker, w₀) ∧
    ((∀ done, done <+: reopening → ∀ results s, Run.exec (step taker) (start w₀) done = some (results, s) →
        s.Ends threeSlots) ↔
      Run.Along (step taker) (fun s call => ¬ s.Reopens threeSlots call) (start w₀) reopening) ∧
    ∃ results s, Run.exec (step taker) (start w₀) ending = some (results, s) ∧ s.Ends threeSlots ∧
      s.accepted 1 = [.value 1, .error (criticalError "broken")] ∧ s.pulled 1 = s.accepted 1 := by
  obtain ⟨taker, w₀, hfinish, hall⟩ := ends_iff threeSlots false
  have hroomy : threeSlots.Roomy := by simp [threeSlots, Chain.Roomy]
  have hchecked : (threeSlots.finish false).any fun r => decide ((start r.2).Sparing r.1 reopening) ∧
      (start r.2).Sparing r.1 ending ∧
      Run.Along (step r.1) (fun s call => s.world.LetsEnd threeSlots call) (start r.2) ending ∧
      ((Run.exec (step r.1) (start r.2) ending).map fun t => (t.2.accepted 1, t.2.pulled 1)) =
        some ([.value 1, .error (criticalError "broken")], [.value 1, .error (criticalError "broken")]) := by decide
  rw [hfinish, Option.any_some, decide_eq_true_eq, decide_eq_true_eq] at hchecked
  obtain ⟨hspare₁, hspare₂, hlets, hledger⟩ := hchecked
  obtain ⟨hruns₁, hiff₁, -⟩ := hall reopening hspare₁
  obtain ⟨-, -, hends₂⟩ := hall ending hspare₂
  obtain ⟨results, s, hrun, hends⟩ := hends₂ hroomy hlets ending List.prefix_rfl
  rw [hrun] at hledger
  obtain ⟨haccepted, hpulled⟩ := Prod.mk.inj (Option.some.inj hledger)
  exact ⟨taker, w₀, hfinish, hiff₁ (hruns₁ hroomy), results, s, hrun, hends, haccepted, hpulled.trans haccepted.symm⟩

theorem ends_fails : ∃ taker w₀ results s, threeSlots.finish false = some (taker, w₀) ∧
    Run.exec (step taker) (start w₀) reopening = some (results, s) ∧ ¬ s.Ends threeSlots := by
  have hrun : ((threeSlots.finish false).bind fun r => (Run.exec (step r.1) (start r.2) reopening).map
      fun r => r.2.accepted 1) = some [.value 1, .error (criticalError "broken"), .value 2] := by decide
  obtain ⟨⟨taker, w₀⟩, hfinish, hrun⟩ := Option.bind_eq_some_iff.mp hrun
  obtain ⟨⟨results, s⟩, hexec, haccepted⟩ := Option.map_eq_some_iff.mp hrun
  refine ⟨taker, w₀, results, s, hfinish, hexec, fun hends => ?_⟩
  have hone := (hends 1 Nat.one_pos le_rfl).1
  dsimp only at haccepted
  rw [haccepted] at hone
  have hbehind := (List.pairwise_cons.mp (List.pairwise_cons.mp hone).2).1 (.value 2) (List.mem_singleton_self _)
  cases hbehind

end Ledger

end Forstio
