import Forstio.ChainSound

/-!
# Runs of a chain

A chain is built completely, ended by a sink or kept as a conveyor to take from,
and then fed, turned and taken from in any order. Nothing gets lost or out of
order, no buffer exceeds its limit, and a chain with a sink has delivered
everything when its event queue is empty.
-/

namespace Forstio

namespace Chain

variable {α : Type} {c : Chain α}

/-- Ends the chain with a sink, or leaves the conveyor to be taken from. -/
def finish (c : Chain α) (sunk : Bool) : Option (Option (Conveyor α) × World α) := do
  let (conveyor, w) ← c.build
  if sunk then
    let (_, w) ← conveyor.sink w
    return (none, w)
  else return (some conveyor, w)

/-! ## The world of a built chain -/

theorem attach_world (n : StorageNode α) :
    ((Pipe.empty.world c false).alloc n).2.setParent c.top (c.top + 1) = some
      { Pipe.empty.world c false with
        nodes := Function.update (Function.update (c.layout false fun _ => []) (c.top + 1) (some n)) c.top
          (some { c.nodeOf false (fun _ => []) c.top with parent := some (c.top + 1) })
        size := c.top + 2 } := by
  have hnode : ((Pipe.empty.world c false).alloc n).2.nodes c.top = some (c.nodeOf false (fun _ => []) c.top) := by
    refine (Function.update_of_ne (Nat.ne_of_lt ?_) _ _).trans (Pipe.nodes_world le_rfl)
    exact Nat.lt_succ_self c.top
  have hqueued : ((Pipe.empty.world c false).alloc n).2.queued c.top = some 0 := by
    rw [World.queued, hnode]
    cases htop : c.top with
    | zero => rfl
    | succ i => simp [nodeOf, bodyOf, htop, StorageBody.queued]
  simp only [World.setParent, hnode, Option.bind_eq_bind, Option.bind_some, hqueued, lt_irrefl, and_false, if_false,
    World.modify, Option.pure_def]
  rfl

theorem bodyOf_then (func : α → ErrorOr α) (q : Nat → List (ErrorOr α)) {i : Nat} (hi : i ≤ c.top) :
    (c.then func).bodyOf q i = c.bodyOf q i := by
  cases i with
  | zero => rfl
  | succ i => simp only [bodyOf, top, limit, upTo, if_pos (show i < c.top from hi), if_neg (Nat.ne_of_lt hi)]

theorem bodyOf_snoc (n : Nat) (q : Nat → List (ErrorOr α)) {i : Nat} (hi : i ≤ c.top) :
    (c.buffer n).bodyOf q i = c.bodyOf q i := by
  cases i with
  | zero => rfl
  | succ i =>
    have hlt : i < c.top := hi
    simp only [bodyOf, top, limit, upTo, if_pos hlt, if_pos (Nat.lt_succ_of_lt hlt),
      if_neg (show i ≠ c.top + 1 by omega), if_neg (show i + 1 ≠ c.top + 1 by omega)]

theorem layout_then (func : α → ErrorOr α) (q : Nat → List (ErrorOr α)) :
    (c.then func).layout false q = c.layout false q := by
  funext i
  by_cases hi : i ≤ c.top
  · rw [layout_storage (c := c.then func) hi, layout_storage hi, nodeOf, nodeOf, bodyOf_then func q hi]
    rfl
  · rw [layout_open (c := c.then func) (Nat.not_le.mp hi), layout_open (Nat.not_le.mp hi)]

theorem attach_layout {d : Chain α} {sunk : Bool} (q : Nat → List (ErrorOr α)) {n : StorageNode α}
    (hstorage : ∀ i ≤ c.top, d.layout sunk q i = some ⟨some (i + 1), childOf i, c.bodyOf q i⟩)
    (hend : d.layout sunk q (c.top + 1) = some n) (hbeyond : ∀ i, c.top + 1 < i → d.layout sunk q i = none) :
    Function.update (Function.update (c.layout false q) (c.top + 1) (some n)) c.top
      (some { c.nodeOf false q c.top with parent := some (c.top + 1) }) = d.layout sunk q := by
  funext i
  rcases eq_or_ne i c.top with rfl | hi
  · rw [Function.update_self, hstorage c.top le_rfl]
    rfl
  rw [Function.update_of_ne hi]
  rcases eq_or_ne i (c.top + 1) with rfl | hi'
  · rw [Function.update_self, hend]
  rw [Function.update_of_ne hi']
  by_cases hlt : i < c.top
  · have hparent : c.parentOf false i = some (i + 1) := if_pos (Or.inl hlt)
    rw [layout_storage hlt.le, hstorage i hlt.le, nodeOf, hparent]
  · rw [layout_open (by omega), hbeyond i (by omega)]

theorem layout_buffer (limit : Nat) : Function.update (Function.update (c.layout false fun _ => []) (c.top + 1)
      (some ⟨none, some c.top, .queueBuffer (some c.node) [] limit⟩)) c.top
      (some { c.nodeOf false (fun _ => []) c.top with parent := some (c.top + 1) }) =
    (c.buffer limit).layout false fun _ => [] := by
  refine attach_layout _ (fun i hi => ?_) ?_ fun i hi => layout_open (c := c.buffer limit) hi
  · have hparent : (c.buffer limit).parentOf false i = some (i + 1) := if_pos (Or.inl (Nat.lt_succ_of_le hi))
    rw [layout_storage (c := c.buffer limit) (Nat.le_succ_of_le hi), nodeOf, hparent, bodyOf_snoc _ _ hi]
  · have hparent : (c.buffer limit).parentOf false (c.top + 1) = none := if_neg (by simp [Pipe.HasParent, top])
    rw [layout_storage (show c.top + 1 ≤ (c.buffer limit).top from le_rfl), nodeOf, hparent]
    simp only [bodyOf, top, if_pos (Nat.lt_succ_self c.top), upTo, if_neg (Nat.ne_of_lt (Nat.lt_succ_self c.top)),
      upTo_top, Chain.limit, if_true, childOf]

theorem layout_sunk : Function.update (Function.update (c.layout false fun _ => []) (c.top + 1)
      (some ⟨none, some c.top, .sink (some c.node)⟩)) c.top
      (some { c.nodeOf false (fun _ => []) c.top with parent := some (c.top + 1) }) =
    c.layout true fun _ => [] := by
  refine attach_layout _ (fun i hi => ?_) layout_sink fun i hi => layout_beyond hi
  have hparent : c.parentOf true i = some (i + 1) := if_pos ((Nat.lt_or_eq_of_le hi).imp_right fun h => ⟨h, rfl⟩)
  rw [layout_storage hi, nodeOf, hparent]

theorem build_world : ∀ c : Chain α, c.build = some (⟨c.node, c.top⟩, Pipe.empty.world c false)
  | feeder => by
    have hlayout : Function.update (fun _ => none) 0 (some ⟨none, none, .adapt []⟩) =
        (feeder : Chain α).layout false fun _ => [] := by
      funext i
      rcases eq_or_ne i 0 with rfl | hi
      · rw [Function.update_self]
        rfl
      · rw [Function.update_of_ne hi, layout_open (Nat.pos_of_ne_zero hi)]
    simp only [build, Conveyor.newConveyorAndFeeder, World.alloc, World.new, hlayout]
    rfl
  | «then» c func => by
    have hworld : (Pipe.empty : Pipe α).world (c.then func) false = Pipe.empty.world c false := by
      simp only [Pipe.world, Pipe.empty, layout_then]
      rfl
    rw [hworld]
    simp only [build, build_world c, Option.bind_eq_bind, Option.bind_some, Option.pure_def]
    rfl
  | buffer c limit => by
    have hattach := attach_world (c := c) ⟨none, some c.top, .queueBuffer (some c.node) [] limit⟩
    rw [layout_buffer] at hattach
    have hsize : ((Pipe.empty.world c false).alloc ⟨none, some c.top, .queueBuffer (some c.node) [] limit⟩).1 =
        c.top + 1 := rfl
    simp only [build, build_world c, Option.bind_eq_bind, Option.bind_some, Conveyor.buffer, hsize, hattach,
      Option.pure_def]
    rfl

/-- **Building a chain** gives the world of the empty pipe. -/
theorem finish_world (c : Chain α) (sunk : Bool) : c.finish sunk =
    some (if sunk then none else some ⟨c.node, c.top⟩, Pipe.empty.world c sunk) := by
  cases sunk with
  | false =>
    simp only [finish, build_world, Option.bind_eq_bind, Option.bind_some, Bool.false_eq_true, if_false,
      Option.pure_def]
  | true =>
    have hattach := attach_world (c := c) ⟨none, some c.top, .sink (some c.node)⟩
    rw [layout_sunk] at hattach
    have hsize : ((Pipe.empty.world c false).alloc ⟨none, some c.top, .sink (some c.node)⟩).1 = c.top + 1 := rfl
    simp only [finish, build_world, Option.bind_eq_bind, Option.bind_some, if_true, Conveyor.sink, hsize, hattach,
      Option.pure_def]
    rfl

end Chain

/-! ## Runs -/

inductive Call (α : Type) where
  | feed (v : α)
  | fail (e : Error)
  | turn
  | take

namespace Call

variable {α : Type}

def fed : Call α → List (ErrorOr α)
  | feed v => [.value v]
  | fail e => [.error e]
  | turn => []
  | take => []

/-- What a run answers and what it hands out: every `take` hands out what it answers, unless there is nothing. -/
inductive Hands : List (Option (ErrorOr α)) → List (ErrorOr α) → Prop where
  | nil : Hands [] []
  | other {answers got} : Hands answers got → Hands (none :: answers) got
  | taken {answers got} (x : ErrorOr α) : Hands answers got → Hands (some x :: answers) (x :: got)
  | missed {answers got} : Hands answers got →
    Hands (some (.error (recoverableError "Conveyor buffer has no elements")) :: answers) got

def Tame : Call α → Prop
  | fail e => e.isCritical = false
  | _ => True

end Call

namespace World

variable {α : Type}

/-- The feeder's node is the first of the world. There is nothing to take from a chain
with a sink. -/
def step (taker : Option (Conveyor α)) (w : World α) : Call α → Option (Option (ErrorOr α) × World α)
  | .feed v => return (none, w.feed 0 v)
  | .fail e => return (none, w.fail 0 e)
  | .turn => do
    let (_, w) ← w.turn
    return (none, w)
  | .take =>
    match taker with
    | none => return (none, w)
    | some conveyor => do
      let (x, w) ← conveyor.take w
      return (some x, w)

end World

namespace Pipe

variable {α : Type} {c : Chain α} {sunk : Bool} {s : Pipe α}

def call (c : Chain α) (sunk : Bool) (s : Pipe α) : Call α → Pipe α
  | .feed v => s.feed (.value v)
  | .fail e => s.feed (.error e)
  | .turn => s.turn c sunk
  | .take => if sunk then s else s.take c

theorem Inv.call (hc : c.Admissible) (h : Inv c sunk s) {call : Call α} (hcall : call.Tame) :
    Inv c sunk (s.call c sunk call) := by
  cases call with
  | feed v => exact h.feed rfl
  | fail e => exact h.feed hcall
  | turn => exact h.turn hc
  | take =>
    cases sunk with
    | true => exact h
    | false => exact h.take

theorem total_call (call : Call α) : (s.call c sunk call).total c = s.total c ++ call.fed.map c.apply := by
  cases call with
  | feed v => exact total_feed _
  | fail e => exact total_feed _
  | turn => rw [Pipe.call, total_turn, Call.fed, List.map_nil, List.append_nil]
  | take =>
    rw [Call.fed, List.map_nil, List.append_nil]
    cases sunk with
    | true => rfl
    | false => exact total_take

def answer (c : Chain α) (sunk : Bool) (s : Pipe α) : Call α → Option (ErrorOr α)
  | .take => if sunk then none else some (s.taken c)
  | _ => none

theorem call_world (hc : c.Admissible) (h : Inv c sunk s) (call : Call α) :
    World.step (if sunk then none else some ⟨c.node, c.top⟩) (s.world c sunk) call =
      some (s.answer c sunk call, (s.call c sunk call).world c sunk) := by
  cases call with
  | feed v => simp only [World.step, World.feed, Pipe.feed_world, Option.pure_def, Pipe.call, answer]
  | fail e => simp only [World.step, World.fail, Pipe.feed_world, Option.pure_def, Pipe.call, answer]
  | turn =>
    obtain ⟨fired, hturn⟩ := Pipe.turn_world hc h
    simp only [World.step, hturn, Option.bind_eq_bind, Option.bind_some, Option.pure_def, Pipe.call, answer]
  | take =>
    cases sunk with
    | true => rfl
    | false =>
      simp only [World.step, Bool.false_eq_true, if_false, s.take_world c false, Option.bind_eq_bind, Option.bind_some,
        Option.pure_def, Pipe.call, answer]

def run (c : Chain α) (sunk : Bool) (s : Pipe α) (calls : List (Call α)) : Pipe α := calls.foldl (call c sunk) s

theorem Inv.run (hc : c.Admissible) : ∀ (calls : List (Call α)) {s : Pipe α}, Inv c sunk s →
    (∀ call ∈ calls, call.Tame) → Inv c sunk (s.run c sunk calls)
  | [], _, h, _ => h
  | call :: calls, _, h, htame => Inv.run hc calls (h.call hc (htame call (List.mem_cons_self ..)))
      fun call hcall => htame call (List.mem_cons_of_mem _ hcall)

theorem total_run (c : Chain α) (sunk : Bool) : ∀ (calls : List (Call α)) (s : Pipe α),
    (s.run c sunk calls).total c = s.total c ++ (calls.flatMap Call.fed).map c.apply
  | [], _ => (List.append_nil _).symm
  | call :: calls, s => by
    rw [List.flatMap_cons, List.map_append, ← List.append_assoc, ← total_call]
    exact total_run c sunk calls (s.call c sunk call)

def answers (c : Chain α) (sunk : Bool) (s : Pipe α) : List (Call α) → List (Option (ErrorOr α))
  | [] => []
  | call :: calls => s.answer c sunk call :: (s.call c sunk call).answers c sunk calls

theorem run_world (hc : c.Admissible) : ∀ (calls : List (Call α)) {s : Pipe α}, Inv c sunk s →
    (∀ call ∈ calls, call.Tame) →
      Run.exec (World.step (if sunk then none else some ⟨c.node, c.top⟩)) (s.world c sunk) calls =
        some (s.answers c sunk calls, (s.run c sunk calls).world c sunk)
  | [], _, _, _ => rfl
  | call :: calls, s, h, htame => by
    rw [Run.exec_cons (call_world hc h call), run_world hc calls (h.call hc (htame call (List.mem_cons_self ..)))
      fun call hcall => htame call (List.mem_cons_of_mem _ hcall)]
    rfl

theorem run_hands (c : Chain α) : ∀ (calls : List (Call α)) (s : Pipe α), ∃ got,
    (s.run c false calls).delivered = s.delivered ++ got ∧ Call.Hands (s.answers c false calls) got
  | [], s => ⟨[], (List.append_nil _).symm, .nil⟩
  | call :: calls, s => by
    obtain ⟨got, hgot, hhands⟩ := run_hands c calls (s.call c false call)
    have hother (hd : (s.call c false call).delivered = s.delivered) (ha : s.answer c false call = none) :
        ∃ got, (s.run c false (call :: calls)).delivered = s.delivered ++ got ∧
          Call.Hands (s.answers c false (call :: calls)) got := by
      refine ⟨got, hgot.trans (congrArg (· ++ got) hd), ?_⟩
      rw [answers, ha]
      exact hhands.other
    cases call with
    | feed v => exact hother rfl rfl
    | fail e => exact hother rfl rfl
    | turn => exact hother delivered_turn rfl
    | take =>
      have hanswers : s.answers c false (.take :: calls) = some (s.taken c) :: (s.take c).answers c false calls := rfl
      have hrun : s.run c false (.take :: calls) = (s.take c).run c false calls := rfl
      rw [hanswers, hrun]
      change (run c false (s.take c) calls).delivered = (s.take c).delivered ++ got at hgot
      change Call.Hands ((s.take c).answers c false calls) got at hhands
      cases hq : s.queues c.top with
      | nil =>
        have htake : s.take c = s := by
          unfold take
          rw [hq]
        have htaken : s.taken c = .error (recoverableError "Conveyor buffer has no elements") := by
          unfold taken
          rw [hq]
        rw [htaken]
        refine ⟨got, hgot.trans ?_, hhands.missed⟩
        rw [htake]
      | cons x xs =>
        have htake : (s.take c).delivered = s.delivered ++ [s.taken c] := by
          unfold take taken
          rw [hq]
        refine ⟨s.taken c :: got, ?_, hhands.taken _⟩
        rw [hgot, htake, List.append_assoc]
        rfl

end Pipe

namespace Chain

variable {α : Type} {c : Chain α}

/-- **Lossless delivery in order.** After any calls on a chain that was built completely,
what was delivered, by `take` or to the sink, and what is pending make up what was fed,
mapped through all functions; no buffer exceeds its limit and no empty queue was asked for
a result. With a sink at the end, everything has been delivered whenever the event queue is
empty. -/
theorem run_is_lossless (c : Chain α) (hc : c.Admissible) (sunk : Bool) (calls : List (Call α))
    (hcalls : ∀ call ∈ calls, call.Tame) :
    ∃ taker w₀ results w, c.finish sunk = some (taker, w₀) ∧
      Run.exec (World.step taker) w₀ calls = some (results, w) ∧ (sunk = false → Call.Hands results w.delivered) ∧
      w.starved = false ∧
      w.delivered ++ c.pending w.queueAt = (calls.flatMap Call.fed).map c.apply ∧
      (∀ i, 0 < i → i ≤ c.top → (w.queueAt i).length ≤ c.limit i) ∧
      (sunk → w.loop.head = none → w.delivered = (calls.flatMap Call.fed).map c.apply) := by
  have hrun := Pipe.run_world hc calls (Pipe.empty_inv c sunk) hcalls
  have hinv := (Pipe.empty_inv c sunk).run hc calls hcalls
  have htotal := Pipe.total_run c sunk calls Pipe.empty
  have hhands : sunk = false →
      Call.Hands (Pipe.empty.answers c sunk calls) ((Pipe.empty : Pipe α).run c sunk calls).delivered := by
    intro hs
    subst hs
    obtain ⟨got, hgot, hhands⟩ := Pipe.run_hands c calls Pipe.empty
    rw [hgot]
    exact hhands
  generalize (Pipe.empty : Pipe α).run c sunk calls = s at hrun hinv htotal hhands
  have hpending : c.pending (s.world c sunk).queueAt = c.pending s.queues :=
    pending_congr fun i hi => Pipe.queueAt_world hi
  have hempty : (Pipe.empty : Pipe α).total c = [] := pending_nil fun i _ => rfl
  rw [hempty, List.nil_append] at htotal
  refine ⟨_, _, _, _, c.finish_world sunk, hrun, hhands, rfl, ?_, fun i h0 hi => ?_, fun hs hhead => ?_⟩
  · rw [hpending]
    exact htotal
  · rw [Pipe.queueAt_world hi]
    exact hinv.bounded i h0 hi
  · subst hs
    have hnil : c.pending s.queues = [] := pending_nil fun i hi =>
      hinv.drained hc (c.top - i) i (by omega) fun j _ => hinv.loop.not_isArmed hhead j
    rw [← htotal, Pipe.total, hnil, List.append_nil]
    rfl

/-- Increments, waits in a buffer for one element, and doubles. -/
def doubling : Chain Nat := ((feeder.then fun n => .value (n + 1)).buffer 1).then fun n => .value (2 * n)

theorem run_is_lossless_doubling : ∃ taker w₀ results w, doubling.finish true = some (taker, w₀) ∧
    Run.exec (World.step taker) w₀ [.feed 1, .feed 2, .turn, .fail (recoverableError "late"), .turn] =
      some (results, w) ∧
    w.delivered ++ doubling.pending w.queueAt = [.value 4, .value 6, .error (recoverableError "late")] := by
  have hadmissible : doubling.Admissible := by simp [doubling, Admissible, ErrorOr.isCritical]
  obtain ⟨taker, w₀, results, w, hbuild, hrun, -, -, htotal, -⟩ := run_is_lossless doubling hadmissible true
    [.feed 1, .feed 2, .turn, .fail (recoverableError "late"), .turn] (by simp [Call.Tame])
  exact ⟨taker, w₀, results, w, hbuild, hrun, htotal⟩

end Chain

end Forstio
