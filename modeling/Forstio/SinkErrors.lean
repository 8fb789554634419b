import Forstio.IoPeer
import Forstio.Placed
import Forstio.Sparing

/-!
# What a sink does with errors

`sink` takes an error function and lets it go: the sink's node hands the errors
it pulls to the `ConveyorSinks` it belongs to, of which a sink of one's own has
none, and `ConveyorSinks::fail` is empty. So the error function is told of every
error exactly as long as there is none. The invariant `Placed` says where the
nodes of a chain stand; it holds of every run that goes through, whatever was
destroyed.
-/

namespace Forstio

namespace ErrorOr

variable {α : Type}

def asError : ErrorOr α → Option Error
  | error e => some e
  | value _ => none

def errors (xs : List (ErrorOr α)) : List Error := xs.filterMap asError

theorem errors_append (xs : List (ErrorOr α)) (x : ErrorOr α) :
    errors (xs ++ [x]) = errors xs ++ x.asError.toList := by
  rw [errors, List.filterMap_append, ← errors]
  cases x with
  | error e => rfl
  | value v => rfl

end ErrorOr

/-! ## The sink's end -/

structure ConveyorSinks where
  deleteNodes : List Nat

/-- The body is a todo. -/
def ConveyorSinks.fail (s : ConveyorSinks) (_error : Error) : ConveyorSinks := s

/-- The member `conveyor_sink`, null for a sink of one's own, and what the error function was called with. -/
structure SinkEnd where
  conveyorSink : Option ConveyorSinks
  passed : List Error

namespace SinkEnd

variable {α : Type}

/-- `sink(error_func)` does not store the function. -/
def new (_errorFunc : Error → Error) : SinkEnd := ⟨none, []⟩

/-- What `childHasFired` does with a result besides arming the sink. -/
def pulled (s : SinkEnd) : ErrorOr α → SinkEnd
  | .error e => { s with conveyorSink := s.conveyorSink.map (·.fail e) }
  | .value _ => s

theorem passed_pulled (s : SinkEnd) (x : ErrorOr α) : (s.pulled x).passed = s.passed := by
  cases x with
  | error e => rfl
  | value v => rfl

theorem passed_foldl : ∀ (xs : List (ErrorOr α)) (s : SinkEnd), (xs.foldl pulled s).passed = s.passed
  | [], _ => rfl
  | x :: xs, s => (passed_foldl xs (s.pulled x)).trans (s.passed_pulled x)

end SinkEnd

structure SunkChain (α : Type) where
  world : World α
  sinkEnd : SinkEnd

namespace SunkChain

variable {α : Type}

def new (c : Chain α) (errorFunc : Error → Error) : Option (SunkChain α) := do
  let (_, w) ← c.finish true
  return ⟨w, SinkEnd.new errorFunc⟩

def step (s : SunkChain α) (call : Call α) : Option (Option (ErrorOr α) × SunkChain α) := do
  let (result, w) ← World.step none s.world call
  return (result, ⟨w, (w.delivered.drop s.world.delivered.length).foldl SinkEnd.pulled s.sinkEnd⟩)

end SunkChain

namespace World

variable {α : Type} {c : Chain α} {w w' : World α} {i : Nat}

def sinkTakes (c : Chain α) (w : World α) : Bool := (w.nodes (c.top + 1)).any (·.body.takes)

theorem popped_asError {x : ErrorOr α} (h : Popped w c.top c.post x w') :
    x.asError = none ↔ ∃ v, (w.queueAt c.top).head?.map c.post = some (.value v) := by
  obtain ⟨-, -, n, n', hn, -, -, -, -, ⟨y, hq, rfl⟩ | ⟨hq, -, e, rfl⟩⟩ := h
  · rw [queueAt_node hn, hq, List.head?_cons, Option.map_some]
    cases c.post y with
    | error e => simp [ErrorOr.asError]
    | value v => simp [ErrorOr.asError]
  · rw [queueAt_node hn, hq]
    simp [ErrorOr.asError]

theorem fires_delivered (h : Fires c true w i w') :
    (i = c.top ∧ w.sinkTakes c ∧ ∃ x, w'.delivered = w.delivered ++ [x] ∧
      (x.asError = none ↔ ∃ v, (w.queueAt c.top).head?.map c.post = some (.value v))) ∨
    ¬ (i = c.top ∧ w.sinkTakes c) ∧ w'.delivered = w.delivered := by
  obtain ⟨w₁, w₂, hdropped, hpassed, hloose⟩ := h
  have hahead : w₁.nodes (i + 1) = w.nodes (i + 1) := hdropped.above _ (Nat.lt_succ_self i)
  cases hpassed with
  | idle hwhy hsame =>
    refine Or.inr ⟨fun ⟨hi, htakes⟩ => ?_, hloose.2.trans (hsame.2.trans hdropped.delivered)⟩
    subst hi
    obtain ⟨m, hm, hno⟩ := hwhy (Pipe.hasParent_sunk.mpr le_rfl)
    rw [hahead] at hm
    rw [sinkTakes, hm, Option.any_some, hno] at htakes
    cases htakes
  | stored hi _ _ _ _ _ _ _ _ _ hdelivered =>
    refine Or.inr ⟨fun ⟨htop, _⟩ => ?_, hloose.2.trans (hdelivered.trans hdropped.delivered)⟩
    exact absurd htop (Nat.ne_of_lt hi)
  | sunk hi hpopped hm htakes _ hdelivered =>
    subst hi
    obtain ⟨n, n₁, hn, hn₁, hqueue, -⟩ := hdropped.self
    have hsame : w₁.queueAt c.top = w.queueAt c.top := by rw [queueAt_node hn₁, queueAt_node hn, hqueue]
    refine Or.inl ⟨rfl, ?_, _, ?_, hsame ▸ popped_asError hpopped⟩
    · rw [sinkTakes, ← hahead, hm, Option.any_some, htakes]
    · rw [hloose.2, hdelivered, hdropped.delivered]

end World

/-! ## Runs of a chain -/

namespace SunkChain

variable {α : Type}

/-- The call fires the last storage node, and what that gives to the sink is no value. -/
def PullsError (c : Chain α) (s : SunkChain α) : Call α → Prop
  | .turn => s.world.loop.head = some c.top ∧ s.world.sinkTakes c ∧
      ∀ v, (s.world.queueAt c.top).head?.map c.post ≠ some (.value v)
  | _ => False

instance (c : Chain α) (s : SunkChain α) : ∀ call, Decidable (s.PullsError c call)
  | .turn =>
    have : Decidable (∀ v, (s.world.queueAt c.top).head?.map c.post ≠ some (.value v)) :=
      match (s.world.queueAt c.top).head?.map c.post with
      | some (.value v) => isFalse fun h => h v rfl
      | some (.error _) => isTrue fun _ h => by cases h
      | none => isTrue fun _ h => by cases h
    inferInstanceAs (Decidable (_ ∧ _ ∧ _))
  | .feed _ => isFalse id
  | .fail _ => isFalse id
  | .take => isFalse id

section
variable {c : Chain α} {s s' : SunkChain α}

theorem step_some {call : Call α} {result : Option (ErrorOr α)} (hs : s.step call = some (result, s')) :
    World.step none s.world call = some (result, s'.world) ∧ s'.sinkEnd.passed = s.sinkEnd.passed := by
  obtain ⟨⟨r, w⟩, hw, hs⟩ := Option.bind_eq_some_iff.mp hs
  obtain ⟨rfl, rfl⟩ := Prod.mk.inj (Option.some.inj hs)
  exact ⟨hw, SinkEnd.passed_foldl _ _⟩

theorem turn_spec (h : s.world.Placed c true) {fired : Bool} {w : World α} (hturn : s.world.turn = some (fired, w)) :
    w.Placed c true ∧ (¬ s.PullsError c .turn → ErrorOr.errors w.delivered = ErrorOr.errors s.world.delivered) ∧
      (s.PullsError c .turn → ErrorOr.errors w.delivered ≠ []) := by
  obtain ⟨hplaced, hturned⟩ := World.turn_fires h hturn
  refine ⟨hplaced, ?_⟩
  rcases hturned with ⟨hidle, rfl⟩ | ⟨i, hhead, ⟨-, hfires⟩ | ⟨hi, hdropped⟩⟩
  · refine ⟨fun _ => rfl, fun hpulls => ?_⟩
    rw [PullsError, hidle] at hpulls
    cases hpulls.1
  · rcases World.fires_delivered hfires with ⟨rfl, hchild, x, hdelivered, hvalue⟩ | ⟨hno, hdelivered⟩
    · rw [hdelivered, ErrorOr.errors_append]
      refine ⟨fun hpulls => ?_, fun hpulls hnil => ?_⟩
      · have hx : x.asError = none := by
          refine hvalue.mpr (Classical.byContradiction fun hnone => hpulls ⟨hhead, hchild, fun v hv => ?_⟩)
          exact hnone ⟨v, hv⟩
        rw [hx, Option.toList_none, List.append_nil]
      · obtain ⟨-, hnone⟩ := List.append_eq_nil_iff.mp hnil
        obtain ⟨v, hv⟩ := hvalue.mp (Option.toList_eq_nil_iff.mp hnone)
        exact hpulls.2.2 v hv
    · refine ⟨fun _ => congrArg _ hdelivered, fun hpulls => ?_⟩
      obtain ⟨hhead', hchild, -⟩ := hpulls
      obtain rfl := Option.some.inj (hhead.symm.trans hhead')
      exact absurd ⟨rfl, hchild⟩ hno
  · refine ⟨fun _ => congrArg _ hdropped.delivered, fun hpulls => ?_⟩
    have htop := Option.some.inj (hhead.symm.trans hpulls.1)
    omega

theorem step_spec (h : s.world.Placed c true) {call : Call α} {result : Option (ErrorOr α)}
    (hs : s.step call = some (result, s')) : s'.world.Placed c true ∧
      (¬ s.PullsError c call → ErrorOr.errors s'.world.delivered = ErrorOr.errors s.world.delivered) ∧
      (s.PullsError c call → ErrorOr.errors s'.world.delivered ≠ []) := by
  obtain ⟨hw, -⟩ := step_some hs
  generalize s'.world = w' at hw ⊢
  cases call with
  | feed v =>
    obtain ⟨-, rfl⟩ := Prod.mk.inj (Option.some.inj hw)
    obtain ⟨hplaced, hdelivered, -⟩ := World.feedResult_placed (i := 0) h (.value v)
    exact ⟨hplaced, fun _ => congrArg _ hdelivered, fun hno => hno.elim⟩
  | fail e =>
    obtain ⟨-, rfl⟩ := Prod.mk.inj (Option.some.inj hw)
    obtain ⟨hplaced, hdelivered, -⟩ := World.feedResult_placed (i := 0) h (.error e)
    exact ⟨hplaced, fun _ => congrArg _ hdelivered, fun hno => hno.elim⟩
  | take =>
    obtain ⟨-, rfl⟩ := Prod.mk.inj (Option.some.inj hw)
    exact ⟨h, fun _ => rfl, fun hno => hno.elim⟩
  | turn =>
    obtain ⟨⟨fired, w₁⟩, hturn, hw⟩ := Option.bind_eq_some_iff.mp hw
    obtain ⟨-, rfl⟩ := Prod.mk.inj (Option.some.inj hw)
    exact turn_spec h hturn

def Sparing (s : SunkChain α) (calls : List (Call α)) : Prop :=
  Run.Along step (fun s call => s.world.SparesAt call) s calls

instance (s : SunkChain α) (calls : List (Call α)) : Decidable (s.Sparing calls) :=
  Run.decidableAlong _ _ calls s

theorem step_spared {c : Chain α} {fed : List (ErrorOr α)} {s : SunkChain α}
    (h : Growing.Grown (c, true) fed ⟨s.world, none⟩) {call : Call α} (hspare : s.world.SparesAt call) :
    ∃ result s' fed', s.step call = some (result, s') ∧ Growing.Grown (c, true) fed' ⟨s'.world, none⟩ := by
  obtain ⟨result, w, fed', hw, h'⟩ := h.spared hspare
  have hstep : s.step call =
      some (result, ⟨w, (w.delivered.drop s.world.delivered.length).foldl SinkEnd.pulled s.sinkEnd⟩) := by
    simp only [step, hw, Option.bind_eq_bind, Option.bind_some, Option.pure_def]
  exact ⟨result, _, fed', hstep, h'⟩

theorem sparing_runs (hc : c.Roomy) (errorFunc : Error → Error) {calls : List (Call α)}
    (hspare : Sparing ⟨Pipe.empty.world c true, SinkEnd.new errorFunc⟩ calls) :
    ∃ results s, Run.exec step ⟨Pipe.empty.world c true, SinkEnd.new errorFunc⟩ calls = some (results, s) := by
  have hstep : ∀ (s : SunkChain α) call, (∃ fed, Growing.Grown (c, true) fed ⟨s.world, none⟩) →
      s.world.SparesAt call → ∃ result s', s.step call = some (result, s') ∧
        ∃ fed, Growing.Grown (c, true) fed ⟨s'.world, none⟩ := by
    intro s call ⟨fed, h⟩ hok
    obtain ⟨result, s', fed', hs, h'⟩ := step_spared h hok
    exact ⟨result, s', hs, fed', h'⟩
  obtain ⟨results, s, hrun, -⟩ := Run.exec_invariant _ _ hstep calls _ ⟨[], Growing.grown_finished hc true⟩ hspare
  exact ⟨results, s, hrun⟩

/-- In a run that spares its events, the error function of a sink is told of all errors as long as there are none. -/
theorem passed_iff (c : Chain α) (errorFunc : Error → Error) : ∃ s₀, new c errorFunc = some s₀ ∧
    ∀ calls, s₀.Sparing calls →
      (c.Roomy → ∃ results s, Run.exec step s₀ calls = some (results, s)) ∧
      ((∃ results s, Run.exec step s₀ calls = some (results, s)) →
        ((∀ done, done <+: calls → ∀ results s, Run.exec step s₀ done = some (results, s) →
            s.sinkEnd.passed = ErrorOr.errors s.world.delivered) ↔
          Run.Along step (fun s call => ¬ s.PullsError c call) s₀ calls)) := by
  refine ⟨⟨Pipe.empty.world c true, SinkEnd.new errorFunc⟩, ?_, fun calls hspare => ⟨?_, fun hruns => ?_⟩⟩
  · rw [new, c.finish_world true]
    rfl
  · exact fun hc => sparing_runs hc errorFunc hspare
  · refine Run.exec_runs_iff (fun s : SunkChain α => s.sinkEnd.passed = ErrorOr.errors s.world.delivered)
      (fun s => s.world.Placed c true ∧ s.sinkEnd.passed = [] ∧ ErrorOr.errors s.world.delivered = [])
      ?_ ?_ ?_ calls _ ⟨c.placed_new true, rfl, rfl⟩ hruns
    · exact fun s h => h.2.1.trans h.2.2.symm
    · intro s call result s' h hok hs
      obtain ⟨hplaced, hsame, -⟩ := step_spec h.1 hs
      exact ⟨hplaced, (step_some hs).2.trans h.2.1, (hsame hok).trans h.2.2⟩
    · intro s call result s' h hbad hs hpassed
      obtain ⟨-, -, hmore⟩ := step_spec h.1 hs
      exact hmore (not_not.mp hbad) (hpassed.symm.trans ((step_some hs).2.trans h.2.1))

end

end SunkChain

/-! ## The peer -/

/-- The data fills the ring, or what is in the ring then has a critical error. -/
def Peer.Refuses {S : Schema} (p : Peer S) (data : List UInt8) : Prop :=
  ∃ r b₁ b₂, p.request = some r ∧ p.inBuffer.store r.1 data = some b₁ ∧ b₁.writeAdvance data.length = some b₂ ∧
    (b₂.writeSegmentLength 0 = some 0 ∨ ∃ ms e b₃, ProtoKelCodec.drain S ProtoKelCodec.defaultPacketSize
      (b₂.readCompositeLength + 1) b₂ = some (ms, e, b₃) ∧ e.isCritical)

/-- The read side of a `StreamingIoPeer`: `sink_read` with what it has pulled. -/
structure ReadSink (S : Schema) where
  peer : Peer S
  child : Bool
  armed : Bool
  pulled : List (ErrorOr Unit)
  sinkEnd : SinkEnd

inductive ReadEvent where
  | complete (data : List UInt8)
  | fail (e : Error)
  | fire

namespace ReadSink

variable {S : Schema}

/-- The error function calls `incoming_feeder->fail`. -/
def new (p : Peer S) (errorFunc : Error → Error) : ReadSink S := ⟨p, true, false, [], SinkEnd.new errorFunc⟩

def childHasFired (s : ReadSink S) (dep : ErrorOr Unit) : ReadSink S :=
  if s.child then
    { s with
      pulled := s.pulled ++ [dep]
      armed := s.armed || dep.isCritical
      sinkEnd := s.sinkEnd.pulled dep }
  else s

/-- Without its child, which owned the callback, the sink pulls nothing. -/
def step (s : ReadSink S) : ReadEvent → Option (Unit × ReadSink S)
  | .complete data =>
    if s.child then do
      let (error, p) ← s.peer.complete data
      return ((), childHasFired { s with peer := p } (if error.failed then .error error else .value ()))
    else do
      let (address, _) ← s.peer.request
      let b ← s.peer.inBuffer.store address data
      return ((), { s with peer := { s.peer with inBuffer := b, request := none } })
  | .fail e => return ((), s.childHasFired (.error e))
  | .fire => return ((), if s.armed then
      { s with child := false, armed := false, sinkEnd := { s.sinkEnd with conveyorSink := none } } else s)

def PullsError (s : ReadSink S) : ReadEvent → Prop
  | .complete data => s.child ∧ s.peer.Refuses data
  | .fail _ => s.child
  | .fire => False

end ReadSink

theorem Error.failed_of_critical {e : Error} (h : e.isCritical) : e.failed := by
  unfold failed isCritical at *
  simp only [decide_eq_true_eq] at *
  omega

theorem Peer.complete_failed {S : Schema} {p p' : Peer S} {data : List UInt8} {error : Error}
    (h : p.complete data = some (error, p')) : error.failed ↔ p.Refuses data := by
  obtain ⟨r, hr, h⟩ := Option.bind_eq_some_iff.mp h
  obtain ⟨b₁, h₁, h⟩ := Option.bind_eq_some_iff.mp h
  obtain ⟨b₂, h₂, h⟩ := Option.bind_eq_some_iff.mp h
  obtain ⟨k, hk, h⟩ := Option.bind_eq_some_iff.mp h
  have hrefuses : p.Refuses data ↔ k = 0 ∨ ∃ ms e b₃, ProtoKelCodec.drain S ProtoKelCodec.defaultPacketSize
      (b₂.readCompositeLength + 1) b₂ = some (ms, e, b₃) ∧ e.isCritical := by
    constructor
    · intro ⟨r', c₁, c₂, hr', hc₁, hc₂, hend⟩
      obtain rfl := Option.some.inj (hr.symm.trans hr')
      obtain rfl := Option.some.inj (h₁.symm.trans hc₁)
      obtain rfl := Option.some.inj (h₂.symm.trans hc₂)
      exact hend.imp_left fun hzero : b₂.writeSegmentLength 0 = some 0 => Option.some.inj (hk.symm.trans hzero)
    · intro hend
      exact ⟨r, b₁, b₂, hr, h₁, h₂, hend.imp_left fun hzero : k = 0 => hzero ▸ hk⟩
  rw [hrefuses]
  split at h
  next hzero =>
    obtain ⟨rfl, -⟩ := Prod.mk.inj (Option.some.inj h)
    exact iff_of_true rfl (Or.inl hzero)
  next hroom =>
    obtain ⟨request, -, h⟩ := Option.bind_eq_some_iff.mp h
    obtain ⟨⟨ms, e, b₃⟩, hdrain, h⟩ := Option.bind_eq_some_iff.mp h
    dsimp only at h
    split at h
    next hcritical =>
      obtain ⟨rfl, -⟩ := Prod.mk.inj (Option.some.inj h)
      exact iff_of_true (Error.failed_of_critical hcritical) (Or.inr ⟨ms, e, b₃, hdrain, hcritical⟩)
    next hfine =>
      obtain ⟨rfl, -⟩ := Prod.mk.inj (Option.some.inj h)
      refine iff_of_false Bool.false_ne_true fun hend => ?_
      rcases hend with hzero | ⟨ms', e', b₃', hdrain', hcritical⟩
      · exact hroom hzero
      · obtain ⟨-, hrest⟩ := Prod.mk.inj (Option.some.inj (hdrain.symm.trans hdrain'))
        obtain ⟨rfl, -⟩ := Prod.mk.inj hrest
        exact hfine hcritical

namespace ReadSink

variable {S : Schema} {s s' : ReadSink S}

theorem childHasFired_spec (s : ReadSink S) (dep : ErrorOr Unit) :
    (s.childHasFired dep).sinkEnd.passed = s.sinkEnd.passed ∧
      (s.childHasFired dep).pulled = if s.child then s.pulled ++ [dep] else s.pulled := by
  unfold childHasFired
  split
  · exact ⟨SinkEnd.passed_pulled _ _, rfl⟩
  · exact ⟨rfl, rfl⟩

theorem step_spec {event : ReadEvent} (hs : s.step event = some ((), s')) : s'.sinkEnd.passed = s.sinkEnd.passed ∧
    (¬ s.PullsError event → ErrorOr.errors s'.pulled = ErrorOr.errors s.pulled) ∧
    (s.PullsError event → ErrorOr.errors s'.pulled ≠ []) := by
  cases event with
  | complete data =>
    unfold step at hs
    by_cases hchild : s.child
    · simp only [if_pos hchild] at hs
      obtain ⟨⟨error, p⟩, hcomplete, hs⟩ := Option.bind_eq_some_iff.mp hs
      obtain ⟨-, rfl⟩ := Prod.mk.inj (Option.some.inj hs)
      have hfailed := Peer.complete_failed hcomplete
      obtain ⟨hpassed, hpulled⟩ := childHasFired_spec { s with peer := p }
        (if error.failed then .error error else .value ())
      rw [hpulled, if_pos hchild, ErrorOr.errors_append]
      refine ⟨hpassed, fun hno => ?_, fun ⟨_, hrefuses⟩ hnil => ?_⟩
      · rw [if_neg fun hf => hno ⟨hchild, hfailed.mp hf⟩]
        exact List.append_nil _
      · rw [if_pos (hfailed.mpr hrefuses)] at hnil
        exact absurd (List.append_eq_nil_iff.mp hnil).2 (List.cons_ne_nil _ _)
    · simp only [if_neg hchild] at hs
      obtain ⟨r, -, hs⟩ := Option.bind_eq_some_iff.mp hs
      obtain ⟨b, -, hs⟩ := Option.bind_eq_some_iff.mp hs
      obtain ⟨-, rfl⟩ := Prod.mk.inj (Option.some.inj hs)
      exact ⟨rfl, fun _ => rfl, fun hpulls => absurd hpulls.1 hchild⟩
  | fail e =>
    obtain ⟨-, rfl⟩ := Prod.mk.inj (Option.some.inj hs)
    obtain ⟨hpassed, hpulled⟩ := s.childHasFired_spec (.error e)
    rw [hpulled]
    refine ⟨hpassed, fun hno => ?_, fun hchild hnil => ?_⟩
    · have hgone : ¬ s.child := hno
      rw [if_neg hgone]
    · have hthere : s.child := hchild
      rw [if_pos hthere, ErrorOr.errors_append] at hnil
      exact absurd (List.append_eq_nil_iff.mp hnil).2 (List.cons_ne_nil _ _)
  | fire =>
    obtain ⟨-, rfl⟩ := Prod.mk.inj (Option.some.inj hs)
    split
    · exact ⟨rfl, fun _ => rfl, fun hno => hno.elim⟩
    · exact ⟨rfl, fun _ => rfl, fun hno => hno.elim⟩

theorem failures_iff (p : Peer S) (errorFunc : Error → Error) (events : List ReadEvent)
    (hruns : ∃ results s, Run.exec step (new p errorFunc) events = some (results, s)) :
    (∀ done, done <+: events → ∀ results s, Run.exec step (new p errorFunc) done = some (results, s) →
        s.sinkEnd.passed = ErrorOr.errors s.pulled) ↔
      Run.Along step (fun s event => ¬ s.PullsError event) (new p errorFunc) events := by
  refine Run.exec_runs_iff (fun s : ReadSink S => s.sinkEnd.passed = ErrorOr.errors s.pulled)
    (fun s => s.sinkEnd.passed = [] ∧ ErrorOr.errors s.pulled = []) ?_ ?_ ?_ events _ ⟨rfl, rfl⟩ hruns
  · exact fun s h => h.1.trans h.2.symm
  · intro s event result s' h hok hs
    obtain ⟨hpassed, hsame, -⟩ := step_spec hs
    exact ⟨hpassed.trans h.1, (hsame hok).trans h.2⟩
  · intro s event result s' h hbad hs heq
    obtain ⟨hpassed, -, hmore⟩ := step_spec hs
    exact hmore (not_not.mp hbad) (heq.symm.trans (hpassed.trans h.1))

end ReadSink

/-- **Errors reach the error function exactly when there are none.** A run of a chain that was ended by
`sink(error_func)` goes through if it spares its events, and then the error function has at all times been
called with the errors the sink has pulled if and only if the sink pulls none. The same holds of the incoming
feeder of a streaming peer and what its read side pulls. -/
theorem errors_handed_iff (errorFunc : Error → Error) :
    (∀ (α : Type) (c : Chain α), ∃ s₀, SunkChain.new c errorFunc = some s₀ ∧
      ∀ calls, s₀.Sparing calls →
        (c.Roomy → ∃ results s, Run.exec SunkChain.step s₀ calls = some (results, s)) ∧
        ((∃ results s, Run.exec SunkChain.step s₀ calls = some (results, s)) →
          ((∀ done, done <+: calls → ∀ results s, Run.exec SunkChain.step s₀ done = some (results, s) →
              s.sinkEnd.passed = ErrorOr.errors s.world.delivered) ↔
            Run.Along SunkChain.step (fun s call => ¬ s.PullsError c call) s₀ calls))) ∧
    ∀ (S : Schema) (p : Peer S) (events : List ReadEvent),
      (∃ results s, Run.exec ReadSink.step (ReadSink.new p errorFunc) events = some (results, s)) →
        ((∀ done, done <+: events → ∀ results s,
            Run.exec ReadSink.step (ReadSink.new p errorFunc) done = some (results, s) →
              s.sinkEnd.passed = ErrorOr.errors s.pulled) ↔
          Run.Along ReadSink.step (fun s event => ¬ s.PullsError event) (ReadSink.new p errorFunc) events) :=
  ⟨fun _ c => SunkChain.passed_iff c errorFunc,
    fun _ p events hruns => ReadSink.failures_iff p errorFunc events hruns⟩

def oneSlot : Chain Nat := .buffer .feeder 1

/-- The values of the run reach the sink, and the error only a buffer. -/
def lateCalls : List (Call Nat) :=
  [.feed 1, .turn, .turn, .feed 2, .fail (recoverableError "late"), .turn, .turn, .turn]

theorem errors_handed_iff_late : (∃ s₀ results s, SunkChain.new oneSlot id = some s₀ ∧
      Run.exec SunkChain.step s₀ lateCalls = some (results, s) ∧
      (∀ done, done <+: lateCalls → ∀ results s, Run.exec SunkChain.step s₀ done = some (results, s) →
        s.sinkEnd.passed = ErrorOr.errors s.world.delivered) ∧
      ((∀ done, done <+: lateCalls ++ [.turn] → ∀ results s, Run.exec SunkChain.step s₀ done = some (results, s) →
          s.sinkEnd.passed = ErrorOr.errors s.world.delivered) ↔
        Run.Along SunkChain.step (fun s call => ¬ s.PullsError oneSlot call) s₀ (lateCalls ++ [.turn]))) ∧
    ∀ p : Peer (.primitive .uint8), ((∀ done, done <+: [.fail (criticalError "gone"), .fire] → ∀ results s,
        Run.exec ReadSink.step (ReadSink.new p id) done = some (results, s) →
          s.sinkEnd.passed = ErrorOr.errors s.pulled) ↔
      Run.Along ReadSink.step (fun s event => ¬ s.PullsError event) (ReadSink.new p id)
        [.fail (criticalError "gone"), .fire]) := by
  obtain ⟨hchain, hpeer⟩ := errors_handed_iff id
  refine ⟨?_, fun p => hpeer _ p _ ⟨_, _, rfl⟩⟩
  obtain ⟨s₀, hnew, hiff⟩ := hchain Nat oneSlot
  have hroomy : oneSlot.Roomy := by simp [oneSlot, Chain.Roomy]
  have hchecked : (SunkChain.new oneSlot id).any fun s₀ => decide (s₀.Sparing (lateCalls ++ [.turn])) ∧
      Run.Along SunkChain.step (fun s call => ¬ s.PullsError oneSlot call) s₀ lateCalls := by decide
  rw [hnew, Option.any_some, decide_eq_true_eq, decide_eq_true_eq] at hchecked
  obtain ⟨hspare, hfine⟩ := hchecked
  obtain ⟨hruns, hiffLate⟩ := hiff lateCalls (hspare.initial (List.prefix_append _ _))
  obtain ⟨hruns', hiffFail⟩ := hiff (lateCalls ++ [.turn]) hspare
  obtain ⟨results, s, hrun⟩ := hruns hroomy
  exact ⟨s₀, results, s, hnew, hrun, (hiffLate ⟨results, s, hrun⟩).mpr hfine, hiffFail (hruns' hroomy)⟩

/-- The sink pulls a recoverable error, of which nobody hears. -/
theorem errors_handed_fails : ∃ s₀ results s, SunkChain.new (.feeder : Chain Nat) id = some s₀ ∧
    Run.exec SunkChain.step s₀ [.feed 1, .fail (recoverableError "late"), .turn, .turn] = some (results, s) ∧
    s.sinkEnd.passed ≠ ErrorOr.errors s.world.delivered := by
  have hrun : ((SunkChain.new (.feeder : Chain Nat) id).bind fun s₀ =>
      (Run.exec SunkChain.step s₀ [.feed 1, .fail (recoverableError "late"), .turn, .turn]).map
        fun r => (r.2.sinkEnd.passed, ErrorOr.errors r.2.world.delivered)) =
          some ([], [recoverableError "late"]) := by decide
  obtain ⟨s₀, hnew, hrun⟩ := Option.bind_eq_some_iff.mp hrun
  obtain ⟨⟨results, s⟩, hexec, hend⟩ := Option.map_eq_some_iff.mp hrun
  obtain ⟨hpassed, herrors⟩ := Prod.mk.inj hend
  refine ⟨s₀, results, s, hnew, hexec, fun heq => ?_⟩
  rw [hpassed, herrors] at heq
  exact absurd heq (List.cons_ne_nil _ _).symm

end Forstio
