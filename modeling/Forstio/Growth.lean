import Forstio.Traced

/-!
# Chains that grow while they run

A chain behind a feeder to which functions, buffers and in the end a sink are
added at any time, between feeding, failing, taking and turning. As long as
nothing is attached to a node that is armed but has been emptied by `take`, a
node fires into its parent only when it has something to give.
-/

namespace Forstio

/-- The world of a chain with its outermost conveyor, until a sink owns that. -/
structure Growing (α : Type) where
  world : World α
  outer : Option (Conveyor α)

namespace Growing

variable {α : Type}

inductive Call (α : Type) where
  | feed (v : α)
  | fail (e : Error)
  | take
  | turn
  | «then» (func : α → ErrorOr α)
  | buffer (limit : Nat)
  | sink

def start : Growing α :=
  let (_, conveyor, w) := Conveyor.newConveyorAndFeeder World.new
  ⟨w, some conveyor⟩

def step (g : Growing α) : Call α → Option (Option (ErrorOr α) × Growing α)
  | .feed v => return (none, { g with world := g.world.feed 0 v })
  | .fail e => return (none, { g with world := g.world.fail 0 e })
  | .take =>
    match g.outer with
    | none => return (none, g)
    | some conveyor => do
      let (x, w) ← conveyor.take g.world
      return (some x, { g with world := w })
  | .turn => do
    let (_, w) ← g.world.turn
    return (none, { g with world := w })
  | .then func => return (none, { g with outer := g.outer.map (·.then func) })
  | .buffer limit =>
    match g.outer with
    | none => return (none, g)
    | some conveyor => do
      let (conveyor, w) ← conveyor.buffer g.world limit
      return (none, ⟨w, some conveyor⟩)
  | .sink =>
    match g.outer with
    | none => return (none, g)
    | some conveyor => do
      let (_, w) ← conveyor.sink g.world
      return (none, ⟨w, none⟩)

def Call.fed : Call α → List (ErrorOr α)
  | feed v => [.value v]
  | fail e => [.error e]
  | _ => []

def Call.Roomy : Call α → Prop
  | buffer limit => 0 < limit ∧ limit < 2 ^ 64
  | _ => True

def Call.extend : Chain α × Bool → Call α → Chain α × Bool
  | (c, false), «then» func => (c.then func, false)
  | (c, false), buffer limit => (c.buffer limit, false)
  | (c, false), sink => (c, true)
  | built, _ => built

def chainOf (calls : List (Call α)) : Chain α × Bool := calls.foldl Call.extend (.feeder, false)

/-- The outermost node is not armed with nothing to give. -/
def Unspent (g : Growing α) : Prop :=
  ∀ conveyor ∈ g.outer, g.world.isArmed conveyor.storage → g.world.queueAt conveyor.storage ≠ []

instance (g : Growing α) : Decidable g.Unspent :=
  inferInstanceAs (Decidable (∀ conveyor ∈ g.outer, g.world.isArmed conveyor.storage →
    g.world.queueAt conveyor.storage ≠ []))

/-- Nothing is attached to a node that is armed but empty, and no turn destroys the event that
holds the later insertion point. -/
def Careful (g : Growing α) : Call α → Prop
  | .buffer _ => g.Unspent
  | .sink => g.Unspent
  | .turn => g.world.Spares
  | _ => True

instance (g : Growing α) : ∀ call : Call α, Decidable (g.Careful call)
  | .feed _ => isTrue trivial
  | .fail _ => isTrue trivial
  | .take => isTrue trivial
  | .turn => inferInstanceAs (Decidable g.world.Spares)
  | .then _ => isTrue trivial
  | .buffer _ => inferInstanceAs (Decidable g.Unspent)
  | .sink => inferInstanceAs (Decidable g.Unspent)

end Growing

namespace World

variable {α : Type} {c : Chain α} {sunk : Bool} {w : World α} {fed : List (ErrorOr α)}

/-! ## Feeding -/

theorem Chained.adapt_node (h : Chained c sunk w) (himm : w.instant = false) {n : StorageNode α}
    (hn : w.nodes 0 = some n) : ∃ st, n.body = .adapt st := by
  rw [instant, hn, Option.any_some] at himm
  have hfits := (h.node 0 n hn).fits
  cases hbody : n.body with
  | adapt st => exact ⟨st, rfl⟩
  | queueBuffer child st limit =>
    rw [hbody] at hfits
    exact absurd hfits.1 (Nat.lt_irrefl 0)
  | sink child =>
    rw [hbody] at hfits
    exact absurd hfits (Nat.succ_ne_zero _).symm
  | immediate value retrieved =>
    rw [hbody] at himm
    cases himm
  | merge _ _ => exact (hbody ▸ hfits : StorageBody.Fits c 0 (.merge _ _)).elim
  | appendage _ _ _ => exact (hbody ▸ hfits : StorageBody.Fits c 0 (.appendage _ _ _)).elim

theorem Chained.feed (h : Chained c sunk w) (himm : w.instant = false) (ht : Traced c fed w) (x : ErrorOr α) :
    Chained c sunk (w.feedResult 0 x) ∧ (w.feedResult 0 x).instant = false ∧
      Traced c (fed ++ [x]) (w.feedResult 0 x) := by
  unfold feedResult
  cases hn : w.nodes 0 with
  | none =>
    have hstay : w.setBody 0 (.push x) = none := by simp only [setBody, modify, hn, Option.bind_eq_bind, Option.bind_none]
    obtain ⟨gone, rest, hfed, hgone, hsofar, -⟩ := ht
    rw [hstay]
    refine ⟨h, himm, gone, rest ++ [x], ?_, hgone, ?_, fun hlive => ?_⟩
    · rw [hfed, List.append_assoc]
    · rw [List.map_append]
      exact hsofar.trans (List.prefix_append _ _)
    · rw [live, hn] at hlive
      cases hlive
  | some n =>
    obtain ⟨st, hbody⟩ := h.adapt_node himm hn
    have hq : w.queueAt 0 = st := by
      rw [queueAt_node hn, hbody]
      rfl
    rw [setBody_eq hn, hbody]
    have hput : Chained c sunk (w.put 0 { n with body := StorageBody.adapt st |>.push x }) := by
      refine h.put hn rfl rfl ?_ (Or.inl rfl) fun _ _ => List.append_ne_nil_of_right_ne_nil _ (List.cons_ne_nil _ _)
      rw [hbody]
      rfl
    have hqueue : (w.put 0 { n with body := StorageBody.adapt st |>.push x }).queueAt =
        Function.update w.queueAt 0 (w.queueAt 0 ++ [x]) := by
      rw [queueAt_put, hq]
      rfl
    obtain ⟨gone, rest, hfed, hgone, hsofar, hrest⟩ := ht
    refine ⟨hput.armNext nodes_put_self fun _ => List.append_ne_nil_of_right_ne_nil _ (List.cons_ne_nil _ _), ?_,
      gone, rest ++ [x], ?_, hgone, ?_, fun _ => ?_⟩
    · have hinst : (w.put 0 { n with body := StorageBody.adapt st |>.push x }).instant = w.instant :=
        instant_put hn (by rw [hbody]; rfl)
      exact hinst.trans himm
    · rw [hfed, List.append_assoc]
    · change c.pending (w.put 0 _).queueAt <+: _
      rw [hqueue, Chain.pending_feed, List.map_append, hrest (live_of_node hn)]
      exact List.prefix_rfl
    · change c.pending (w.put 0 _).queueAt = _
      rw [hqueue, Chain.pending_feed, List.map_append, hrest (live_of_node hn)]
      rfl

/-! ## Functions -/

theorem Chained.then (h : Chained c false w) (func : α → ErrorOr α) : Chained (c.then func) false w := by
  have hsize : w.size = c.top + 1 := h.size
  refine ⟨h.loop, h.size, fun i n hn => ?_, h.above, h.last, h.ready, h.fed⟩
  obtain ⟨hbelow, hparent, hfits, hchild, hstorage⟩ := h.node i n hn
  refine ⟨hbelow, hparent, ?_, ?_, hstorage⟩
  · cases hbody : n.body with
    | _ =>
      rw [hbody] at hfits
      exact hfits
  · rw [hchild]
    cases i with
    | zero => rfl
    | succ i =>
      rw [childAt, childAt]
      simp only [Chain.upTo, if_neg (show i ≠ c.top by omega)]

end World

namespace Growing

variable {α : Type} {g : Growing α} {built : Chain α × Bool} {fed : List (ErrorOr α)}

structure Grown (built : Chain α × Bool) (fed : List (ErrorOr α)) (g : Growing α) : Prop where
  chained : World.Chained built.1 built.2 g.world
  outer : g.outer = if built.2 then none else some ⟨built.1.node, built.1.top⟩
  roomy : built.1.Roomy
  feeder : g.world.instant = false
  traced : World.Traced built.1 fed g.world

theorem grown_start : Grown (.feeder, false) [] (start : Growing α) := by
  have hnode : ∀ i n, (start : Growing α).world.nodes i = some n → i = 0 ∧ n = ⟨none, none, .adapt []⟩ := by
    intro i n hn
    by_cases hi : i = 0
    · subst hi
      exact ⟨rfl, (Option.some.inj hn).symm⟩
    · have hnone : (start : Growing α).world.nodes i = none := Function.update_of_ne hi _ _
      rw [hnone] at hn
      cases hn
  refine ⟨⟨EventLoop.sound_new, rfl, fun i n hn => ?_, fun i _ hlt => absurd hlt (by simp [start,
    Conveyor.newConveyorAndFeeder, World.alloc, World.new]), rfl, fun i hi => ?_, rfl⟩, rfl, trivial, rfl,
    [], [], rfl, .nil, List.prefix_rfl, fun _ => rfl⟩
  · obtain ⟨rfl, rfl⟩ := hnode i n hn
    exact ⟨Nat.one_pos, rfl, rfl, rfl, fun j hj => absurd hj (Option.some_ne_none j).symm⟩
  · exact absurd hi (EventLoop.not_isArmed_new i)

theorem Grown.sunk {c : Chain α} (h : Grown (c, true) fed g) : g.outer = none := h.outer

theorem Grown.taker {c : Chain α} (h : Grown (c, false) fed g) : g.outer = some ⟨c.node, c.top⟩ := h.outer

theorem Grown.feed (h : Grown built fed g) (x : ErrorOr α) :
    Grown built (fed ++ [x]) { g with world := g.world.feedResult 0 x } := by
  obtain ⟨hchained, hfeeder, htraced⟩ := h.chained.feed h.feeder h.traced x
  exact ⟨hchained, h.outer, h.roomy, hfeeder, htraced⟩

theorem Grown.take {c : Chain α} (h : Grown (c, false) fed g) :
    ∃ x g', g.step .take = some (some x, g') ∧ Grown (c, false) fed g' := by
  obtain ⟨x, w', htake, hchained, hw'⟩ := World.Chained.take h.chained
  have hinstant : w'.instant = g.world.instant := by
    rcases hw' with rfl | hw'
    · rfl
    · exact hw'.instant
  refine ⟨x, { g with world := w' }, ?_, hchained, h.outer, h.roomy, hinstant.trans h.feeder, h.traced.taken hw'⟩
  simp only [Growing.step, h.taker, htake, Option.bind_eq_bind, Option.bind_some, Option.pure_def]

theorem Grown.turn (h : Grown built fed g) (hspare : g.world.Spares) :
    ∃ g', g.step .turn = some (none, g') ∧ Grown built fed g' := by
  have hcalm : ∀ i n, g.world.loop.head = some i → g.world.nodes i = some n → World.Calm built.1 g.world i n := by
    intro i n _ _ hinstant
    rw [h.feeder] at hinstant
    cases hinstant
  obtain ⟨fired, w', hturn, hchained, hw', -⟩ := h.chained.turn h.roomy hspare hcalm
  have hfeeder : w'.instant = false := by
    rcases hw' with rfl | ⟨i, n, loop, -, -, hfired⟩
    · exact h.feeder
    · rw [← Bool.not_eq_true]
      intro hinstant
      have hwas : g.world.instant = true := hfired.instant hinstant
      rw [h.feeder] at hwas
      cases hwas
  refine ⟨{ g with world := w' }, ?_, hchained, h.outer, h.roomy, hfeeder, h.traced.turned h.chained hw'⟩
  simp only [Growing.step, hturn, Option.bind_eq_bind, Option.bind_some, Option.pure_def]

theorem Grown.buffer {c : Chain α} (h : Grown (c, false) fed g) {limit : Nat} (hlimit : 0 < limit ∧ limit < 2 ^ 64)
    (hunspent : g.Unspent) : ∃ g', g.step (.buffer limit) = some (none, g') ∧ Grown (c.buffer limit, false) fed g' := by
  obtain ⟨w', hattach, hchained, hw'⟩ :=
    World.Chained.attach h.chained (World.ends_buffer hlimit) (hunspent _ h.taker)
  have hsize : g.world.size = c.top + 1 := h.chained.size
  refine ⟨⟨w', some ⟨.storage (c.top + 1), c.top + 1⟩⟩, ?_, hchained, rfl, ⟨h.roomy, hlimit⟩,
    hw'.instant.trans h.feeder, h.traced.buffer limit hw'.delivered hw'.live hw'.queueAt⟩
  simp only [Growing.step, h.taker, Conveyor.buffer, hattach, Option.bind_eq_bind, Option.bind_some, Option.pure_def]
  rw [World.alloc, hsize]

theorem Grown.sink {c : Chain α} (h : Grown (c, false) fed g) (hunspent : g.Unspent) :
    ∃ g', g.step .sink = some (none, g') ∧ Grown (c, true) fed g' := by
  obtain ⟨w', hattach, hchained, hw'⟩ := World.Chained.attach h.chained World.ends_sink (hunspent _ h.taker)
  refine ⟨⟨w', none⟩, ?_, hchained, rfl, h.roomy, hw'.instant.trans h.feeder,
    h.traced.same hw'.delivered hw'.live ?_⟩
  · simp only [Growing.step, h.taker, Conveyor.sink, hattach, Option.bind_eq_bind, Option.bind_some, Option.pure_def]
  · rw [hw'.queueAt, Chain.pending_update_above (Nat.lt_succ_self _)]

theorem Grown.step (h : Grown built fed g) {call : Call α} (hroomy : call.Roomy) (hcareful : g.Careful call) :
    ∃ result g', g.step call = some (result, g') ∧ Grown (call.extend built) (fed ++ call.fed) g' := by
  obtain ⟨c, sunk⟩ := built
  cases call with
  | feed v =>
    refine ⟨none, _, rfl, ?_⟩
    cases sunk <;> exact h.feed (.value v)
  | fail e =>
    refine ⟨none, _, rfl, ?_⟩
    cases sunk <;> exact h.feed (.error e)
  | turn =>
    obtain ⟨g', hstep, h'⟩ := h.turn hcareful
    refine ⟨none, g', hstep, ?_⟩
    simp only [Call.fed, List.append_nil]
    cases sunk <;> exact h'
  | take =>
    simp only [Call.fed, List.append_nil]
    cases sunk with
    | true => exact ⟨none, g, by simp only [Growing.step, h.sunk, Option.pure_def], h⟩
    | false =>
      obtain ⟨x, g', hstep, h'⟩ := h.take
      exact ⟨some x, g', hstep, h'⟩
  | «then» func =>
    simp only [Call.fed, List.append_nil]
    refine ⟨none, _, rfl, ?_⟩
    cases sunk with
    | true => exact ⟨h.chained, by rw [h.sunk]; rfl, h.roomy, h.feeder, h.traced⟩
    | false => exact ⟨h.chained.then func, by rw [h.taker]; rfl, h.roomy, h.feeder, h.traced.then func⟩
  | buffer limit =>
    simp only [Call.fed, List.append_nil]
    cases sunk with
    | true => exact ⟨none, g, by simp only [Growing.step, h.sunk, Option.pure_def], h⟩
    | false =>
      obtain ⟨g', hstep, h'⟩ := h.buffer hroomy hcareful
      exact ⟨none, g', hstep, h'⟩
  | sink =>
    simp only [Call.fed, List.append_nil]
    cases sunk with
    | true => exact ⟨none, g, by simp only [Growing.step, h.sunk, Option.pure_def], h⟩
    | false =>
      obtain ⟨g', hstep, h'⟩ := h.sink hcareful
      exact ⟨none, g', hstep, h'⟩

theorem grown_run : ∀ (calls : List (Call α)) {built : Chain α × Bool} {fed : List (ErrorOr α)} {g : Growing α},
    Grown built fed g → (∀ call ∈ calls, call.Roomy) → Run.Along step Careful g calls →
      ∃ results g', Run.exec step g calls = some (results, g') ∧
        Grown (calls.foldl Call.extend built) (fed ++ calls.flatMap Call.fed) g'
  | [], _, fed, g, h, _, _ => ⟨[], g, rfl, by rw [List.flatMap_nil, List.append_nil]; exact h⟩
  | call :: calls, built, fed, g, h, hroomy, hcareful => by
    obtain ⟨result, g₁, hstep, h₁⟩ := h.step (hroomy call (List.mem_cons_self ..)) hcareful.1
    obtain ⟨results, g₂, hrun, h₂⟩ := grown_run calls h₁ (fun call hcall => hroomy call (List.mem_cons_of_mem _ hcall))
      (hcareful.2 _ _ hstep)
    refine ⟨result :: results, g₂, ?_, ?_⟩
    · rw [Run.exec_cons hstep, hrun]
      rfl
    · rw [List.flatMap_cons, ← List.append_assoc]
      exact h₂

/-- **Nobody fires with empty hands.** In a run that attaches nothing to a spent node, the node that
the next turn fires into its parent has something queued, no empty queue was ever asked for a result,
and every result comes from what was fed. -/
theorem fires_loaded (calls : List (Call α)) (hroomy : ∀ call ∈ calls, call.Roomy)
    (hcareful : Run.Along step Careful start calls) :
    ∃ results g, Run.exec step start calls = some (results, g) ∧ g.world.starved = false ∧
      (∀ i n, g.world.loop.head = some i → g.world.nodes i = some n → n.parent ≠ none → n.body.queue ≠ []) ∧
      World.Traced (chainOf calls).1 (calls.flatMap Call.fed) g.world := by
  obtain ⟨results, g, hrun, h⟩ := grown_run calls grown_start hroomy hcareful
  refine ⟨results, g, hrun, h.chained.fed, fun i n hhead hn hparent => ?_, h.traced⟩
  have hfires : g.world.loop.turn.1 = some i := by rw [EventLoop.turn_eq hhead]
  obtain ⟨m, hm, hq⟩ := h.chained.ready i (h.chained.loop.turn hfires).1
  obtain rfl := Option.some.inj (hn.symm.trans hm)
  exact hq hparent

def waiting : Chain Nat := (Chain.feeder.then fun n => .value (n + 1)).buffer 1

theorem fires_loaded_waiting : ∃ results g,
    Run.exec step start [.feed 1, .then fun n => .value (n + 1), .buffer 1, .feed 5, .turn, .sink, .turn] =
      some (results, g) ∧ g.world.starved = false ∧ World.Traced waiting [.value 1, .value 5] g.world := by
  obtain ⟨results, g, hrun, hfed, -, htraced⟩ := fires_loaded (α := Nat)
    [.feed 1, .then fun n => .value (n + 1), .buffer 1, .feed 5, .turn, .sink, .turn] (by simp [Call.Roomy]) (by decide)
  exact ⟨results, g, hrun, hfed, htraced⟩

/-- `take` empties the queue of the armed feeder node, which then fires into a buffer attached to it. -/
theorem fires_empty : ∃ results g n, Run.exec step start [.feed 1, .take, .buffer 1] = some (results, g) ∧
    g.world.loop.head = some 0 ∧ g.world.nodes 0 = some n ∧ n.parent = some 1 ∧
    n.body.queue = ([] : List (ErrorOr Nat)) ∧
    ∃ result g', g.step .turn = some (result, g') ∧ g'.world.starved = true := by
  have hrun : ((Run.exec step start [.feed 1, .take, .buffer 1]).map fun r => (r.2.world.loop.head,
      (r.2.world.nodes 0).map fun n => (n.parent, decide (n.body.queue = ([] : List (ErrorOr Nat)))),
      (r.2.step .turn).map fun r => r.2.world.starved)) = some (some 0, some (some 1, true), some true) := by decide
  obtain ⟨⟨results, g⟩, hexec, hend⟩ := Option.map_eq_some_iff.mp hrun
  obtain ⟨hhead, hend⟩ := Prod.mk.inj hend
  obtain ⟨hnode, hturn⟩ := Prod.mk.inj hend
  obtain ⟨n, hn, hnode⟩ := Option.map_eq_some_iff.mp hnode
  obtain ⟨hparent, hqueue⟩ := Prod.mk.inj hnode
  obtain ⟨⟨result, g'⟩, hstep, hstarved⟩ := Option.map_eq_some_iff.mp hturn
  exact ⟨results, g, n, hexec, hhead, hn, hparent, of_decide_eq_true hqueue, result, g', hstep, hstarved⟩

end Growing

end Forstio
