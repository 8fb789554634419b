import Forstio.ChainRun
import Forstio.Chained

/-!
# What a call does to the nodes of a chain

`Placed` says where the nodes of a chain stand, whatever was destroyed and
whatever became of the event queue, so it holds in every run that goes through.
The spec lemmas say what each call does to each node: a destructor takes nodes
away, `getResult` pops one element, and a fire may drop what the node owns and
then hands one element on (`Fires`).
-/

namespace Forstio

namespace StorageBody

variable {α : Type} {c : Chain α} {sunk : Bool} {i : Nat} {b : StorageBody α}

/-- The classes of a chain, each at its place. -/
def Stands (c : Chain α) (sunk : Bool) (i : Nat) : StorageBody α → Prop
  | adapt _ => i = 0
  | queueBuffer child _ _ => 0 < i ∧ i ≤ c.top ∧ ∀ node ∈ child, node = (c.upTo (i - 1)).node
  | sink child => i = c.top + 1 ∧ sunk ∧ ∀ node ∈ child, node = c.node
  | _ => False

def takes : StorageBody α → Bool
  | queueBuffer (some _) storage maxStore => storage.length < maxStore
  | sink (some _) => true
  | _ => false

theorem Stands.dropChild (h : b.Stands c sunk i) : b.dropChild.Stands c sunk i := by
  cases b with
  | adapt st => exact h
  | queueBuffer child st limit => exact ⟨h.1, h.2.1, fun _ hnode => by cases hnode⟩
  | sink child => exact ⟨h.1, h.2.1, fun _ hnode => by cases hnode⟩
  | _ => exact h.elim

theorem Stands.child_dropChild (h : b.Stands c sunk i) : b.dropChild.child = none := by
  cases b with
  | appendage _ _ _ => exact h.elim
  | _ => rfl

theorem Stands.push (h : b.Stands c sunk i) (x : ErrorOr α) : (b.push x).Stands c sunk i := by
  cases b with
  | adapt st => exact h
  | queueBuffer child st limit => exact h
  | _ => exact h

theorem Stands.owned (h : b.Stands c sunk i) : b.owned = (b.child.map ConveyorNode.base).toList := by
  cases b with
  | merge appendages next => exact h.elim
  | _ => rfl

theorem Stands.base (h : b.Stands c sunk i) {node : ConveyorNode α} (hchild : b.child = some node) :
    node.base + 1 = i ∧ Pipe.HasParent c sunk node.base := by
  cases b with
  | adapt st => cases hchild
  | queueBuffer child st limit =>
    obtain ⟨h0, htop, hnode⟩ := h
    rw [hnode node hchild, Chain.base_node, Chain.top_upTo c (by omega)]
    exact ⟨Nat.sub_add_cancel h0, Or.inl (by omega)⟩
  | sink child =>
    rw [h.2.2 node hchild, Chain.base_node, h.1]
    exact ⟨rfl, Or.inr ⟨rfl, h.2.1⟩⟩
  | _ => exact h.elim

end StorageBody

namespace World

variable {α : Type}

/-- The nodes of `w` are some of the chain `c`, each with its parent. -/
def Placed (c : Chain α) (sunk : Bool) (w : World α) : Prop :=
  ∀ i n, w.nodes i = some n → (i ≤ c.top → n.parent = c.parentOf sunk i) ∧ n.body.Stands c sunk i

/-- The same nodes, and nothing delivered. -/
def Loose (w w' : World α) : Prop := w'.nodes = w.nodes ∧ w'.delivered = w.delivered

section
variable {c : Chain α} {sunk : Bool} {w w' : World α} {i j : Nat} {n : StorageNode α}

theorem modify_some {f : StorageNode α → StorageNode α} (h : w.modify i f = some w') :
    ∃ n, w.nodes i = some n ∧ w'.nodes i = some (f n) ∧ (∀ j, j ≠ i → w'.nodes j = w.nodes j) ∧
      w'.delivered = w.delivered := by
  obtain ⟨n, hn, h⟩ := Option.bind_eq_some_iff.mp h
  obtain rfl := Option.some.inj h
  exact ⟨n, hn, Function.update_self .., fun j hj => Function.update_of_ne hj .., rfl⟩

theorem Placed.of_nodes (h : Placed c sunk w) (hsub : ∀ j m, w'.nodes j = some m → ∃ n, w.nodes j = some n ∧
    m.parent = n.parent ∧ (n.body.Stands c sunk j → m.body.Stands c sunk j)) : Placed c sunk w' := by
  intro j m hm
  obtain ⟨n, hn, hparent, hbody⟩ := hsub j m hm
  refine ⟨fun hj => ?_, hbody (h j n hn).2⟩
  rw [hparent]
  exact (h j n hn).1 hj

theorem Placed.modify {f : StorageNode α → StorageNode α} (h : Placed c sunk w) (hw : w.modify i f = some w')
    (hparent : ∀ n, (f n).parent = n.parent) (hbody : ∀ n, n.body.Stands c sunk i → (f n).body.Stands c sunk i) :
    Placed c sunk w' := by
  obtain ⟨n, hn, hself, hother, -⟩ := modify_some hw
  refine h.of_nodes fun j m hm => ?_
  by_cases hji : j = i
  · subst hji
    obtain rfl := Option.some.inj (hself.symm.trans hm)
    exact ⟨n, hn, hparent n, hbody n⟩
  · exact ⟨m, (hother j hji).symm.trans hm, rfl, id⟩

theorem Placed.loose (h : Placed c sunk w) (hw : Loose w w') : Placed c sunk w' := fun i n hn => h i n (hw.1 ▸ hn)

theorem Loose.refl : Loose w w := ⟨rfl, rfl⟩

theorem Loose.trans {w'' : World α} (h : Loose w w') (h' : Loose w' w'') : Loose w w'' :=
  ⟨h'.1.trans h.1, h'.2.trans h.2⟩

theorem loose_ite {p : Prop} [Decidable p] {loop loop' : EventLoop Nat} :
    Loose w (if p then { w with loop := loop } else { w with loop := loop' }) := by
  split
  · exact .refl
  · exact .refl

/-! ## Destroying -/

theorem Placed.remove (h : Placed c sunk w) (b : Nat) : Placed c sunk (w.remove b (some (b + 1))) := by
  refine h.of_nodes fun j m hm => ?_
  rw [remove_nodes] at hm
  by_cases hjb : j = b
  · rw [hjb, Function.update_self] at hm
    cases hm
  rw [Function.update_of_ne hjb] at hm
  by_cases hjb' : j = b + 1
  · rw [hjb', Function.update_self] at hm
    obtain ⟨n, hn, rfl⟩ := Option.map_eq_some_iff.mp hm
    exact ⟨n, hjb' ▸ hn, rfl, id⟩
  · rw [Function.update_of_ne hjb'] at hm
    exact ⟨m, hm, rfl, id⟩

/-- `w'` is `w` without some nodes up to `b`; the node ahead of `b` may have forgotten it. -/
structure Fewer (w : World α) (b : Nat) (w' : World α) : Prop where
  delivered : w'.delivered = w.delivered
  above : ∀ j, b + 1 < j → w'.nodes j = w.nodes j
  owner : w'.nodes (b + 1) = w.nodes (b + 1) ∨
    w'.nodes (b + 1) = (w.nodes (b + 1)).map fun n => { n with childStorage := none }
  below : ∀ j ≤ b, w'.nodes j = none ∨ w'.nodes j = w.nodes j

theorem Fewer.refl {b : Nat} : Fewer w b w := ⟨rfl, fun _ _ => rfl, Or.inl rfl, fun _ _ => Or.inr rfl⟩

theorem destroy_fewer : ∀ (fuel : Nat) {w : World α} {b : Nat}, Placed c sunk w → Pipe.HasParent c sunk b →
    Placed c sunk (destroy fuel w b) ∧ Fewer w b (destroy fuel w b)
  | 0, _, _, h, _ => ⟨h, .refl⟩
  | fuel + 1, w, b, h, hb => by
    cases hn : w.nodes b with
    | none =>
      rw [destroy, hn]
      exact ⟨h, .refl⟩
    | some n =>
      obtain ⟨hparent, hbody⟩ := h b n hn
      have hle : b ≤ c.top := hb.elim Nat.le_of_lt fun hb => hb.1.le
      have howned : Placed c sunk (n.body.owned.foldl (destroy fuel) w) ∧
          (n.body.owned.foldl (destroy fuel) w).delivered = w.delivered ∧
          (∀ j, b < j → (n.body.owned.foldl (destroy fuel) w).nodes j = w.nodes j) ∧
          ∀ j < b, (n.body.owned.foldl (destroy fuel) w).nodes j = none ∨
            (n.body.owned.foldl (destroy fuel) w).nodes j = w.nodes j := by
        rw [hbody.owned]
        cases hchild : n.body.child with
        | none => exact ⟨h, rfl, fun _ _ => rfl, fun _ _ => Or.inr rfl⟩
        | some node =>
          obtain ⟨hbase, hp⟩ := hbody.base hchild
          obtain ⟨h', hfewer⟩ := destroy_fewer fuel h hp
          exact ⟨h', hfewer.delivered, fun j hj => hfewer.above j (by omega), fun j hj => hfewer.below j (by omega)⟩
      obtain ⟨h', hdelivered, habove, hbelow⟩ := howned
      have hup : c.parentOf sunk b = some (b + 1) := if_pos hb
      rw [destroy_node hn, hparent hle, hup]
      refine ⟨h'.remove b, (remove_frame _ b (b + 1)).2.1.trans hdelivered, fun j hj => ?_, Or.inr ?_, fun j hj => ?_⟩
      · rw [remove_nodes, Function.update_of_ne (by omega), Function.update_of_ne (by omega)]
        exact habove j (by omega)
      · rw [remove_nodes, Function.update_of_ne (by omega), Function.update_self, habove (b + 1) (Nat.lt_succ_self b)]
      · rw [remove_nodes]
        by_cases hjb : j = b
        · rw [hjb, Function.update_self]
          exact Or.inl rfl
        · rw [Function.update_of_ne hjb, Function.update_of_ne (by omega)]
          exact hbelow j (by omega)

/-- `w'` is `w` after node `i` dropped what it owns, if it did. -/
structure Dropped (w : World α) (i : Nat) (w' : World α) : Prop where
  delivered : w'.delivered = w.delivered
  above : ∀ j, i < j → w'.nodes j = w.nodes j
  self : ∃ n n', w.nodes i = some n ∧ w'.nodes i = some n' ∧ n'.body.queue = n.body.queue ∧
    (n'.body.child = none ∨ n.body.queue.head?.any (·.isCritical) = false ∧ n'.body.child = n.body.child ∧
      n'.childStorage = n.childStorage)
  below : ∀ j < i, w'.nodes j = none ∨ w'.nodes j = w.nodes j

theorem Dropped.refl (hn : w.nodes i = some n)
    (hkept : n.body.child = none ∨ n.body.queue.head?.any (·.isCritical) = false) : Dropped w i w :=
  ⟨rfl, fun _ _ => rfl, ⟨n, n, hn, hn, rfl, hkept.imp_right fun hfront => ⟨hfront, rfl, rfl⟩⟩, fun _ _ => Or.inr rfl⟩

theorem resetChild_dropped (h : Placed c sunk w) (hw : w.resetChild i = some w') : Placed c sunk w' ∧ Dropped w i w' ∧
    ∃ n', w'.nodes i = some n' ∧ n'.body.child = none := by
  obtain ⟨n, hn, hw⟩ := Option.bind_eq_some_iff.mp hw
  obtain ⟨w₁, h₁, hw⟩ := Option.bind_eq_some_iff.mp hw
  have hplaced₁ : Placed c sunk w₁ := h.modify h₁ (fun _ => rfl) fun _ hbody => hbody.dropChild
  obtain ⟨n', hn', hself, hother, hdelivered₁⟩ := modify_some h₁
  obtain rfl := Option.some.inj (hn.symm.trans hn')
  have hbody := (h i n hn).2
  have hnone := hbody.child_dropChild
  have hdropped₁ : Dropped w i w₁ := by
    refine ⟨hdelivered₁, fun j hj => hother j (Nat.ne_of_gt hj), ⟨n, _, hn, hself, ?_, Or.inl hnone⟩, fun j hj => ?_⟩
    · exact StorageBody.queue_dropChild _
    · exact Or.inr (hother j (Nat.ne_of_lt hj))
  cases hchild : n.body.child with
  | none =>
    rw [hchild] at hw
    obtain rfl := Option.some.inj hw
    exact ⟨hplaced₁, hdropped₁, _, hself, hnone⟩
  | some node =>
    rw [hchild] at hw
    obtain rfl := Option.some.inj hw
    obtain ⟨hbase, hp⟩ := hbody.base hchild
    obtain ⟨hplaced, hfewer⟩ := destroy_fewer w₁.size hplaced₁ hp
    have howner : ∃ n', (destroy w₁.size w₁ node.base).nodes i = some n' ∧ n'.body = n.body.dropChild := by
      have hkept := hfewer.owner
      rw [hbase, hself] at hkept
      rcases hkept with hkept | hkept
      · exact ⟨_, hkept, rfl⟩
      · exact ⟨_, hkept, rfl⟩
    obtain ⟨n', hn', hbody'⟩ := howner
    have hnone' : n'.body.child = none := by rw [hbody', hnone]
    refine ⟨hplaced, ⟨hfewer.delivered.trans hdelivered₁, fun j hj => ?_, ⟨n, n', hn, hn', ?_, Or.inl hnone'⟩,
      fun j hj => ?_⟩, n', hn', hnone'⟩
    · exact (hfewer.above j (by omega)).trans (hother j (Nat.ne_of_gt hj))
    · rw [hbody', StorageBody.queue_dropChild]
    · exact (hfewer.below j (by omega)).imp_right fun heq => heq.trans (hother j (Nat.ne_of_lt hj))

theorem dropCritical_dropped (h : Placed c sunk w) {n : StorageNode α} (hn : w.nodes i = some n)
    (hw : QueueBuffer.dropCritical w i n = some w') :
    Placed c sunk w' ∧ Dropped w i w' := by
  unfold QueueBuffer.dropCritical at hw
  split at hw
  next child x xs hchild hq =>
    split at hw
    next hcritical =>
      obtain ⟨w₁, h₁, hw⟩ := Option.bind_eq_some_iff.mp hw
      obtain ⟨hplaced₁, hdropped, m, hm, hnone⟩ := resetChild_dropped h h₁
      obtain ⟨m', hm', hself, hother, hdelivered⟩ := modify_some hw
      obtain rfl := Option.some.inj (hm.symm.trans hm')
      obtain ⟨k, k', hk, hk', hqueue, -⟩ := hdropped.self
      obtain rfl := Option.some.inj (hm.symm.trans hk')
      refine ⟨hplaced₁.modify hw (fun _ => rfl) fun _ => id, hdelivered.trans hdropped.delivered, fun j hj => ?_,
        ⟨k, _, hk, hself, hqueue, Or.inl hnone⟩, fun j hj => ?_⟩
      · exact (hother j (Nat.ne_of_gt hj)).trans (hdropped.above j hj)
      · rw [hother j (Nat.ne_of_lt hj)]
        exact hdropped.below j hj
    next hfine =>
      obtain rfl := Option.some.inj hw
      refine ⟨h, .refl hn (Or.inr ?_)⟩
      rw [hq, List.head?_cons, Option.any_some]
      exact Bool.eq_false_iff.mpr hfine
  next hnone =>
    obtain rfl := Option.some.inj hw
    refine ⟨h, .refl hn ?_⟩
    cases hchild : n.body.child with
    | none => exact Or.inl rfl
    | some node =>
      cases hq : n.body.queue with
      | nil => exact Or.inr rfl
      | cons x xs => exact (hnone node x xs hchild hq).elim

/-! ## Pulling -/

/-- `w'` is `w` after storage node `i` was asked for a result through the functions `post` and gave `x`. -/
structure Popped (w : World α) (i : Nat) (post : ErrorOr α → ErrorOr α) (x : ErrorOr α) (w' : World α) : Prop where
  delivered : w'.delivered = w.delivered
  other : ∀ j, j ≠ i → w'.nodes j = w.nodes j
  self : ∃ n n', w.nodes i = some n ∧ w'.nodes i = some n' ∧ n'.parent = n.parent ∧
    n'.childStorage = n.childStorage ∧ n'.body.child = n.body.child ∧
    ((∃ y, n.body.queue = y :: n'.body.queue ∧ x = post y) ∨
      n.body.queue = [] ∧ n'.body.queue = [] ∧ ∃ e, x = .error e)

theorem popped_set {f : StorageBody α → StorageBody α} {x y : ErrorOr α} (h : Placed c sunk w)
    (hn : w.nodes i = some n) (hset : (do return (y, ← w.setBody i f)) = some (x, w'))
    (hstands : (f n.body).Stands c sunk i) (hchild : (f n.body).child = n.body.child)
    (hqueue : n.body.queue = y :: (f n.body).queue) : Placed c sunk w' ∧ Popped w i id x w' := by
  obtain ⟨w₁, h₁, hset⟩ := Option.bind_eq_some_iff.mp hset
  obtain ⟨rfl, rfl⟩ := Prod.mk.inj (Option.some.inj hset)
  obtain ⟨n', hn', hself, hother, hdelivered⟩ := modify_some h₁
  obtain rfl := Option.some.inj (hn.symm.trans hn')
  refine ⟨h.of_nodes fun j m hm => ?_, hdelivered, hother, n, _, hn, hself, rfl, rfl, hchild, Or.inl ⟨y, hqueue, rfl⟩⟩
  by_cases hji : j = i
  · subst hji
    obtain rfl := Option.some.inj (hself.symm.trans hm)
    exact ⟨n, hn, rfl, fun _ => hstands⟩
  · exact ⟨m, (hother j hji).symm.trans hm, rfl, id⟩

theorem storage_popped {x : ErrorOr α} (h : Placed c sunk w) (hi : i ≤ c.top)
    (hget : w.getResult (.storage i) = some (x, w')) : Placed c sunk w' ∧ Popped w i id x w' := by
  obtain ⟨n, hn, hget⟩ := Option.bind_eq_some_iff.mp hget
  have hbody := (h i n hn).2
  cases hn' : n.body with
  | adapt st =>
    rw [hn'] at hbody hget
    cases st with
    | nil =>
      obtain ⟨rfl, rfl⟩ := Prod.mk.inj (Option.some.inj hget)
      refine ⟨h, rfl, fun _ _ => rfl, n, n, hn, hn, rfl, rfl, rfl, Or.inr ⟨?_, ?_, _, rfl⟩⟩
      · rw [hn']
        rfl
      · rw [hn']
        rfl
    | cons y st =>
      refine popped_set h hn hget hbody ?_ ?_
      · rw [hn']
        rfl
      · rw [hn']
        rfl
  | queueBuffer child st limit =>
    rw [hn'] at hbody hget
    cases st with
    | nil => cases hget
    | cons y st =>
      refine popped_set h hn hget hbody ?_ ?_
      · rw [hn']
        rfl
      · rw [hn']
        rfl
  | sink child =>
    rw [hn'] at hbody
    exact absurd hbody.1 (by omega)
  | _ =>
    rw [hn'] at hbody
    exact hbody.elim

theorem getResult_popped (h : Placed c sunk w) : ∀ (d : Chain α) {x : ErrorOr α} {w' : World α}, d.top ≤ c.top →
    w.getResult d.node = some (x, w') → Placed c sunk w' ∧ Popped w d.top d.post x w'
  | .feeder, x, w', hd, hget => storage_popped h hd hget
  | .buffer d limit, x, w', hd, hget => storage_popped h hd hget
  | .then d func, x, w', hd, hget => by
    obtain ⟨⟨dep, w₁⟩, hdep, hget⟩ := Option.bind_eq_some_iff.mp hget
    obtain ⟨h', hpopped⟩ := getResult_popped h d hd hdep
    have hbind : x = dep.bind func ∧ w' = w₁ := by
      cases dep with
      | value v =>
        obtain ⟨rfl, rfl⟩ := Prod.mk.inj (Option.some.inj hget)
        exact ⟨rfl, rfl⟩
      | error e =>
        obtain ⟨rfl, rfl⟩ := Prod.mk.inj (Option.some.inj hget)
        exact ⟨rfl, rfl⟩
    obtain ⟨rfl, rfl⟩ := hbind
    obtain ⟨hdelivered, hother, n, n', hn, hn', hparent, hstorage, hchild, hqueue⟩ := hpopped
    refine ⟨h', hdelivered, hother, n, n', hn, hn', hparent, hstorage, hchild, ?_⟩
    refine hqueue.imp (fun ⟨y, hy, hdep⟩ => ⟨y, hy, ?_⟩) fun ⟨hnil, hnil', e, hdep⟩ => ⟨hnil, hnil', e, ?_⟩
    · rw [hdep]
      rfl
    · rw [hdep]
      rfl

/-- What the parent of storage node `i` does when its child fires: it takes nothing, a buffer stores an element,
or the sink delivers it. -/
inductive PassedOn (c : Chain α) (sunk : Bool) (w : World α) (i : Nat) : World α → Prop where
  | idle {w' : World α} : (Pipe.HasParent c sunk i → ∃ m, w.nodes (i + 1) = some m ∧ m.body.takes = false) →
      Loose w w' → PassedOn c sunk w i w'
  | stored {w₁ w' : World α} {x : ErrorOr α} {m m' : StorageNode α} : i < c.top → Popped w i (c.upTo i).post x w₁ →
      w.nodes (i + 1) = some m → m.body.takes → w'.nodes (i + 1) = some m' → m'.parent = m.parent →
      m'.body.child = m.body.child → m'.body.queue = m.body.queue ++ [x] →
      m'.childStorage = (if x.isCritical then none else m.childStorage) →
      (∀ j, j ≠ i + 1 → w'.nodes j = w₁.nodes j) → w'.delivered = w.delivered →
      PassedOn c sunk w i w'
  | sunk {w₁ w' : World α} {x : ErrorOr α} {m : StorageNode α} : i = c.top → Popped w i c.post x w₁ →
      w.nodes (i + 1) = some m → m.body.takes → w'.nodes = w₁.nodes → w'.delivered = w.delivered ++ [x] →
      PassedOn c sunk w i w'

theorem push_passedOn {w₁ w₂ : World α} {x : ErrorOr α} {child : Option (ConveyorNode α)} {st : List (ErrorOr α)}
    {limit : Nat} {m m₂ : StorageNode α} (hi : i < c.top) (hpopped : Popped w i (c.upTo i).post x w₁)
    (hm : w.nodes (i + 1) = some m) (htakes : m.body.takes) (hm' : m.body = .queueBuffer child st limit)
    (h₂ : Placed c sunk w₂) (hm₂ : w₂.nodes (i + 1) = some m₂) (hparent : m₂.parent = m.parent)
    (hsame : m₂.body = m.body) (hstorage : m₂.childStorage = if x.isCritical then none else m.childStorage)
    (hother₂ : ∀ j, j ≠ i + 1 → w₂.nodes j = w₁.nodes j) (hdelivered₂ : w₂.delivered = w₁.delivered)
    (hw : (do
      let w₃ ← w₂.setBody (i + 1) (.push x)
      return if w₃.isArmed (i + 1) then w₃ else w₃.armLater (i + 1)) = some w') :
    Placed c sunk w' ∧ PassedOn c sunk w i w' := by
  obtain ⟨w₃, h₃, hw⟩ := Option.bind_eq_some_iff.mp hw
  have hplaced₃ : Placed c sunk w₃ := h₂.modify h₃ (fun _ => rfl) fun _ hbody => hbody.push x
  obtain ⟨m₃, hm₃, hself, hother, hdelivered⟩ := modify_some h₃
  obtain rfl := Option.some.inj (hm₂.symm.trans hm₃)
  have hloose : Loose w₃ w' := by
    obtain rfl := Option.some.inj hw
    exact loose_ite
  rw [hsame, hm'] at hself
  refine ⟨hplaced₃.loose hloose, .stored hi hpopped hm htakes ((congrFun hloose.1 _).trans hself) hparent ?_ ?_
    hstorage (fun j hj => ?_) ?_⟩
  · rw [hm']
    rfl
  · rw [hm']
    rfl
  · rw [hloose.1, hother j hj, hother₂ j hj]
  · rw [hloose.2, hdelivered, hdelivered₂, hpopped.delivered]

theorem bufferHasFired_passedOn {st : List (ErrorOr α)} {limit : Nat} {m : StorageNode α} (h : Placed c sunk w)
    (hi : i < c.top) (hm : w.nodes (i + 1) = some m) (hm' : m.body = .queueBuffer (some (c.upTo i).node) st limit)
    (hroom : st.length < limit) (hw : (do
      let (eov, w) ← w.getResult (c.upTo i).node
      let w ← if eov.isCritical then w.modify (i + 1) fun n => { n with childStorage := none } else some w
      let w ← w.setBody (i + 1) (.push eov)
      return if w.isArmed (i + 1) then w else w.armLater (i + 1)) = some w') :
    Placed c sunk w' ∧ PassedOn c sunk w i w' := by
  obtain ⟨⟨eov, w₁⟩, hget, hw⟩ := Option.bind_eq_some_iff.mp hw
  dsimp only at hw
  have htop := Chain.top_upTo c (i := i) (by omega)
  obtain ⟨h₁, hpopped⟩ := getResult_popped h (c.upTo i) (by omega) hget
  rw [htop] at hpopped
  have hm₁ : w₁.nodes (i + 1) = some m := (hpopped.other _ (Nat.succ_ne_self i)).trans hm
  have htakes : m.body.takes := by rw [hm', StorageBody.takes, decide_eq_true hroom]
  split at hw
  next hcritical =>
    obtain ⟨w₂, h₂, hw⟩ := Option.bind_eq_some_iff.mp hw
    obtain ⟨m₂, hm₂, hself₂, hother₂, hdelivered₂⟩ := modify_some h₂
    obtain rfl := Option.some.inj (hm₁.symm.trans hm₂)
    refine push_passedOn hi hpopped hm htakes hm' (h₁.modify h₂ (fun _ => rfl) fun _ => id) hself₂ rfl rfl ?_
      hother₂ hdelivered₂ hw
    exact (if_pos hcritical).symm
  next hplain =>
    exact push_passedOn hi hpopped hm htakes hm' h₁ hm₁ rfl rfl (if_neg hplain).symm (fun _ _ => rfl) rfl hw

theorem sinkHasFired_passedOn {m : StorageNode α} (h : Placed c sunk w) (hm : w.nodes (c.top + 1) = some m)
    (hm' : m.body = .sink (some c.node)) (hw : (do
      let (dep, w) ← w.getResult c.node
      let w := w.deliver dep
      return if dep.isCritical ∧ ¬ w.isArmed (c.top + 1) then w.armLast (c.top + 1) else w) = some w') :
    Placed c sunk w' ∧ PassedOn c sunk w c.top w' := by
  obtain ⟨⟨dep, w₁⟩, hget, hw⟩ := Option.bind_eq_some_iff.mp hw
  obtain ⟨h₁, hpopped⟩ := getResult_popped h c le_rfl hget
  obtain rfl := Option.some.inj hw
  have hloose : Loose (w₁.deliver dep) (if dep.isCritical ∧ ¬ (w₁.deliver dep).isArmed (c.top + 1) then
      (w₁.deliver dep).armLast (c.top + 1) else w₁.deliver dep) := loose_ite
  refine ⟨Placed.loose (w := w₁.deliver dep) h₁ hloose, .sunk rfl hpopped hm (by rw [hm']; rfl) hloose.1 ?_⟩
  rw [hloose.2, deliver, hpopped.delivered]

theorem childHasFired_passedOn (h : Placed c sunk w) (hp : Pipe.HasParent c sunk i)
    (hw : w.childHasFired (i + 1) = some w') : Placed c sunk w' ∧ PassedOn c sunk w i w' := by
  obtain ⟨m, hm, hw⟩ := Option.bind_eq_some_iff.mp hw
  have hbody := (h _ m hm).2
  cases hm' : m.body with
  | adapt st =>
    rw [hm'] at hw
    cases hw
  | queueBuffer child st limit =>
    rw [hm'] at hbody hw
    obtain ⟨-, hi, hnode⟩ := hbody
    cases child with
    | none =>
      obtain rfl := Option.some.inj hw
      exact ⟨h, .idle (fun _ => ⟨m, hm, by rw [hm']; rfl⟩) .refl⟩
    | some child =>
      obtain rfl : child = (c.upTo i).node := hnode child rfl
      by_cases hroom : st.length < limit
      · simp only [if_pos hroom] at hw
        exact bufferHasFired_passedOn h hi hm hm' hroom hw
      · simp only [if_neg hroom] at hw
        obtain rfl := Option.some.inj hw
        refine ⟨h, .idle (fun _ => ⟨m, hm, ?_⟩) .refl⟩
        rw [hm', StorageBody.takes, decide_eq_false hroom]
  | sink child =>
    rw [hm'] at hbody hw
    obtain ⟨htop, -, hnode⟩ := hbody
    obtain rfl : i = c.top := Nat.succ.inj htop
    cases child with
    | none =>
      obtain rfl := Option.some.inj hw
      exact ⟨h, .idle (fun _ => ⟨m, hm, by rw [hm']; rfl⟩) .refl⟩
    | some child =>
      obtain rfl := hnode child rfl
      exact sinkHasFired_passedOn h hm hm' hw
  | _ =>
    rw [hm'] at hbody
    exact hbody.elim

/-! ## Firing -/

/-- `w'` is `w` after storage node `i` was fired: it may drop what it owns, then its parent takes an element. -/
def Fires (c : Chain α) (sunk : Bool) (w : World α) (i : Nat) (w' : World α) : Prop :=
  ∃ w₁ w₂, Dropped w i w₁ ∧ PassedOn c sunk w₁ i w₂ ∧ Loose w₂ w'

theorem eventParentHasFired_loose (hw : w.eventParentHasFired i = some w') : Loose w w' := by
  obtain ⟨n, hn, hw⟩ := Option.bind_eq_some_iff.mp hw
  cases hn' : n.body with
  | adapt st =>
    rw [hn'] at hw
    obtain ⟨p, -, hw⟩ := Option.bind_eq_some_iff.mp hw
    obtain ⟨k, -, hw⟩ := Option.bind_eq_some_iff.mp hw
    obtain rfl := Option.some.inj hw
    exact .refl
  | queueBuffer child st limit =>
    rw [hn'] at hw
    obtain ⟨p, -, hw⟩ := Option.bind_eq_some_iff.mp hw
    obtain ⟨k, -, hw⟩ := Option.bind_eq_some_iff.mp hw
    split at hw
    · obtain rfl := Option.some.inj hw
      exact .refl
    · obtain rfl := Option.some.inj hw
      exact loose_ite
  | sink child =>
    rw [hn'] at hw
    obtain rfl := Option.some.inj hw
    exact .refl
  | immediate value retrieved =>
    rw [hn'] at hw
    obtain ⟨p, -, hw⟩ := Option.bind_eq_some_iff.mp hw
    obtain ⟨k, -, hw⟩ := Option.bind_eq_some_iff.mp hw
    obtain ⟨-, -, hw⟩ := Option.bind_eq_some_iff.mp hw
    obtain rfl := Option.some.inj hw
    exact loose_ite
  | merge appendages next =>
    rw [hn'] at hw
    obtain ⟨p, -, hw⟩ := Option.bind_eq_some_iff.mp hw
    obtain ⟨k, -, hw⟩ := Option.bind_eq_some_iff.mp hw
    obtain ⟨l, -, hw⟩ := Option.bind_eq_some_iff.mp hw
    obtain rfl := Option.some.inj hw
    exact loose_ite
  | appendage child merger value =>
    rw [hn'] at hw
    cases hw

theorem parentHasFired_loose (h : Placed c sunk w) (hw : w.parentHasFired i = some w') : Loose w w' := by
  obtain ⟨n, hn, hw'⟩ := Option.bind_eq_some_iff.mp hw
  have hbody := (h i n hn).2
  cases hn' : n.body with
  | appendage child merger value =>
    rw [hn'] at hbody
    exact hbody.elim
  | _ =>
    rw [hn'] at hw'
    exact eventParentHasFired_loose hw'

theorem fireParent_passedOn (h : Placed c sunk w)
    (hw : QueueBuffer.fireParent w i (c.parentOf sunk i) = some w') :
    Placed c sunk w' ∧ ∃ w₁, PassedOn c sunk w i w₁ ∧ Loose w₁ w' := by
  by_cases hp : Pipe.HasParent c sunk i
  · rw [Chain.parentOf, if_pos hp] at hw
    obtain ⟨w₁, h₁, hw⟩ := Option.bind_eq_some_iff.mp hw
    obtain ⟨k, -, hw⟩ := Option.bind_eq_some_iff.mp hw
    obtain ⟨l, -, hw⟩ := Option.bind_eq_some_iff.mp hw
    obtain rfl := Option.some.inj hw
    obtain ⟨hplaced, hpassed⟩ := childHasFired_passedOn h hp h₁
    exact ⟨hplaced.loose loose_ite, w₁, hpassed, loose_ite⟩
  · rw [Chain.parentOf, if_neg hp] at hw
    obtain rfl := Option.some.inj hw
    exact ⟨h, w, .idle (fun hp' => absurd hp' hp) .refl, .refl⟩

/-- **What a fire does** to the nodes, of a storage node or of the sink. -/
theorem fire_fires (h : Placed c sunk w) (hw : w.fire i = some w') :
    Placed c sunk w' ∧ (i ≤ c.top ∧ Fires c sunk w i w' ∨ i = c.top + 1 ∧ Dropped w i w') := by
  obtain ⟨n, hn, hw⟩ := Option.bind_eq_some_iff.mp hw
  obtain ⟨hparent, hbody⟩ := h i n hn
  cases hn' : n.body with
  | adapt st =>
    rw [hn'] at hbody hw
    obtain rfl : i = 0 := hbody
    have hchild : n.body.child = none := by
      rw [hn']
      rfl
    simp only [Adapt.fire, hparent (Nat.zero_le _)] at hw
    by_cases hp : Pipe.HasParent c sunk 0
    · simp only [Chain.parentOf, if_pos hp] at hw
      obtain ⟨w₁, h₁, hw⟩ := Option.bind_eq_some_iff.mp hw
      obtain ⟨k, -, hw⟩ := Option.bind_eq_some_iff.mp hw
      obtain rfl := Option.some.inj hw
      obtain ⟨hplaced, hpassed⟩ := childHasFired_passedOn h hp h₁
      exact ⟨hplaced.loose loose_ite, Or.inl ⟨Nat.zero_le _, w, w₁, .refl hn (Or.inl hchild), hpassed, loose_ite⟩⟩
    · simp only [Chain.parentOf, if_neg hp] at hw
      obtain rfl := Option.some.inj hw
      exact ⟨h, Or.inl ⟨Nat.zero_le _, w, w, .refl hn (Or.inl hchild), .idle (fun hp' => absurd hp' hp) .refl, .refl⟩⟩
  | queueBuffer child st limit =>
    rw [hn'] at hbody hw
    obtain ⟨-, hi, -⟩ := hbody
    obtain ⟨w₁, h₁, hw⟩ := Option.bind_eq_some_iff.mp hw
    obtain ⟨k, -, hw⟩ := Option.bind_eq_some_iff.mp hw
    obtain ⟨w₂, h₂, hw⟩ := Option.bind_eq_some_iff.mp hw
    obtain ⟨n₂, -, hw⟩ := Option.bind_eq_some_iff.mp hw
    obtain ⟨hplaced₁, hdropped⟩ := dropCritical_dropped h hn h₁
    rw [hparent hi] at h₂
    obtain ⟨hplaced₂, w₃, hpassed, hloose⟩ := fireParent_passedOn hplaced₁ h₂
    have hloose' : Loose w₂ w' := by
      split at hw
      · obtain rfl := Option.some.inj hw
        exact .refl
      · split at hw
        · obtain rfl := Option.some.inj hw
          exact .refl
        · exact parentHasFired_loose hplaced₂ hw
    exact ⟨hplaced₂.loose hloose', Or.inl ⟨hi, w₁, w₃, hdropped, hpassed, hloose.trans hloose'⟩⟩
  | sink child =>
    rw [hn'] at hbody hw
    obtain ⟨hplaced, hdropped, -⟩ := resetChild_dropped h hw
    exact ⟨hplaced, Or.inr ⟨hbody.1, hdropped⟩⟩
  | _ =>
    rw [hn'] at hbody
    exact hbody.elim

/-! ## Calls -/

theorem Dropped.of_loose {w₀ : World α} (hw : Loose w w₀) (h : Dropped w₀ i w') : Dropped w i w' := by
  obtain ⟨hdelivered, habove, hself, hbelow⟩ := h
  rw [hw.1] at habove hself hbelow
  exact ⟨hdelivered.trans hw.2, habove, hself, hbelow⟩

theorem turn_fires {fired : Bool} (h : Placed c sunk w) (hw : w.turn = some (fired, w')) : Placed c sunk w' ∧
    (w.loop.head = none ∧ w' = w ∨
      ∃ i, w.loop.head = some i ∧ (i ≤ c.top ∧ Fires c sunk w i w' ∨ i = c.top + 1 ∧ Dropped w i w')) := by
  unfold turn at hw
  split at hw
  next loop ht =>
    obtain ⟨-, rfl⟩ := Prod.mk.inj (Option.some.inj hw)
    exact ⟨h, Or.inl ⟨EventLoop.head_of_turn ht, rfl⟩⟩
  next i loop ht =>
    obtain ⟨w₁, h₁, hw⟩ := Option.bind_eq_some_iff.mp hw
    obtain ⟨-, rfl⟩ := Prod.mk.inj (Option.some.inj hw)
    have hloop : Loose w { w with loop := loop } := .refl
    obtain ⟨hplaced, hfires⟩ := fire_fires (h.loose hloop) h₁
    refine ⟨hplaced, Or.inr ⟨i, EventLoop.head_of_turn ht, ?_⟩⟩
    rcases hfires with ⟨hi, w₂, w₃, hdropped, hrest⟩ | ⟨hi, hdropped⟩
    · exact Or.inl ⟨hi, w₂, w₃, hdropped.of_loose hloop, hrest⟩
    · exact Or.inr ⟨hi, hdropped.of_loose hloop⟩

theorem feedResult_placed (h : Placed c sunk w) (x : ErrorOr α) : Placed c sunk (w.feedResult i x) ∧
    (w.feedResult i x).delivered = w.delivered ∧ ∀ j, j ≠ i → (w.feedResult i x).nodes j = w.nodes j := by
  unfold feedResult
  cases hset : w.setBody i (.push x) with
  | none => exact ⟨h, rfl, fun _ _ => rfl⟩
  | some w₁ =>
    obtain ⟨-, -, -, hother, hdelivered⟩ := modify_some hset
    have hplaced : Placed c sunk w₁ := h.modify hset (fun _ => rfl) fun _ hbody => hbody.push x
    exact ⟨hplaced, hdelivered, hother⟩

theorem take_popped {x : ErrorOr α} (h : Placed c sunk w) (hw : Conveyor.take ⟨c.node, c.top⟩ w = some (x, w')) :
    Placed c sunk w' ∧ (w' = w ∨ ∃ w₁, Popped w c.top c.post x w₁ ∧ w'.nodes = w₁.nodes) := by
  obtain ⟨k, -, hw⟩ := Option.bind_eq_some_iff.mp hw
  split at hw
  · obtain ⟨⟨y, w₁⟩, hget, hw⟩ := Option.bind_eq_some_iff.mp hw
    obtain ⟨rfl, rfl⟩ := Prod.mk.inj (Option.some.inj hw)
    obtain ⟨hplaced, hpopped⟩ := getResult_popped h c le_rfl hget
    exact ⟨hplaced, Or.inr ⟨w₁, hpopped, rfl⟩⟩
  · obtain ⟨-, rfl⟩ := Prod.mk.inj (Option.some.inj hw)
    exact ⟨h, Or.inl rfl⟩

end

end World

theorem Chain.placed_new {α : Type} (c : Chain α) (sunk : Bool) : (Pipe.empty.world c sunk).Placed c sunk := by
  intro i n hn
  have hlayout : c.layout sunk (fun _ => []) i = some n := hn
  unfold layout at hlayout
  split at hlayout
  next hi =>
    obtain rfl := Option.some.inj hlayout
    refine ⟨fun _ => rfl, ?_⟩
    cases i with
    | zero => rfl
    | succ i =>
      rw [nodeOf, bodyOf]
      by_cases hlt : i < c.top
      · rw [if_pos hlt]
        exact ⟨Nat.succ_pos i, hlt, fun node hnode => (Option.some.inj hnode).symm⟩
      · rw [if_neg hlt]
        obtain ⟨htop, hs⟩ := hi.resolve_left (by omega)
        exact ⟨htop, hs, fun node hnode => (Option.some.inj hnode).symm⟩
  next => cases hlayout

end Forstio
