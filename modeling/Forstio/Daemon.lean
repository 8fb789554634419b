import Forstio.Lib.RemoveIf
import Forstio.Lib.Run
import Forstio.SinkErrors

/-!
# The daemon's list of sinks

A detached chain ends in a sink that the event loop's `ConveyorSinks` own. A
sink whose chain has ended asks to be destroyed; when the `ConveyorSinks` fire,
they take what is queued out of their list by `remove_if`, but never erase what
that leaves over. So the list keeps its length, and what was to be dropped stays
in it, alive or as a null pointer.
-/

namespace Forstio

/-- `running` records the chains that have not ended, in the order of the list. -/
structure Daemon extends ConveyorSinks where
  sinkNodes : List (Option Nat)
  armed : Bool
  running : List Nat

inductive SinkOp where
  -- none: the allocation of the sink's node failed
  | add (node : Option Nat)
  | destroySinkConveyorNode (node : Nat)
  | fire

namespace Daemon

def holding (nodes : List Nat) : Daemon := ⟨⟨[]⟩, nodes.map some, false, nodes⟩

def armLast (s : Daemon) : Daemon := { s with armed := true }

def disarm (s : Daemon) : Daemon := { s with armed := false }

def ended (s : Daemon) (node : Nat) : Daemon := { s with running := s.running.filter (· ≠ node) }

def destroySinkConveyorNode (s : Daemon) (node : Nat) : Daemon :=
  let s := if ¬ s.armed then s.armLast else s
  { s with deleteNodes := s.deleteNodes ++ [node] }

def add (s : Daemon) : Option Nat → Daemon
  | none => s
  | some node => { s with sinkNodes := s.sinkNodes ++ [some node], running := s.running ++ [node] }

/-- `std::remove_if(sink_nodes.begin(), sink_nodes.end(), ..)`. -/
def removeNode (sinkNodes : List (Option Nat)) (node : Nat) : List (Option Nat) :=
  let (kept, left) := RemoveIf.removeIf (fun element => some node == element) sinkNodes
  kept ++ left

/-- The loop ends with an empty queue. -/
def fire (s : Daemon) : Daemon :=
  { s with sinkNodes := s.deleteNodes.foldl removeNode s.sinkNodes, deleteNodes := [] }

def step (s : Daemon) : SinkOp → Option (Unit × Daemon)
  | .add node => some ((), s.add node)
  | .destroySinkConveyorNode node => some ((), (s.destroySinkConveyorNode node).ended node)
  -- the event loop disarms what it fires
  | .fire => some ((), s.disarm.fire)

/-- A new sink is no node of the list yet, and only nodes of the list ask to be destroyed. -/
def Within (s : Daemon) : SinkOp → Prop
  | .add none => True
  | .add (some node) => some node ∉ s.sinkNodes
  | .destroySinkConveyorNode node => some node ∈ s.sinkNodes
  | .fire => True

instance (s : Daemon) : ∀ op, Decidable (s.Within op)
  | .add none => isTrue trivial
  | .add (some node) => inferInstanceAs (Decidable (some node ∉ s.sinkNodes))
  | .destroySinkConveyorNode node => inferInstanceAs (Decidable (some node ∈ s.sinkNodes))
  | .fire => isTrue trivial

def isQueued (deleteNodes : List Nat) (element : Option Nat) : Bool := element.any fun node => node ∈ deleteNodes

/-- Firing drops the nodes that are queued, and only those. -/
structure Drops (s s' : Daemon) : Prop where
  kept : s'.sinkNodes = s.sinkNodes.filter fun element => !isQueued s.deleteNodes element
  owning : none ∉ s'.sinkNodes
  done : s'.deleteNodes = []
  length : s'.sinkNodes.length = s'.running.length

def FireDrops (s : Daemon) : SinkOp → Prop
  | .fire => s.Drops s.disarm.fire
  | _ => True

def FiresIdle (s : Daemon) : SinkOp → Prop
  | .fire => s.deleteNodes = []
  | _ => True

instance (s : Daemon) : ∀ op, Decidable (s.FiresIdle op)
  | .add _ => isTrue trivial
  | .destroySinkConveyorNode _ => isTrue trivial
  | .fire => inferInstanceAs (Decidable (s.deleteNodes = []))

/-! ## What firing leaves in the list -/

theorem isQueued_cons (node : Nat) (deleteNodes : List Nat) (element : Option Nat) :
    isQueued (node :: deleteNodes) element = (some node == element || isQueued deleteNodes element) := by
  cases element with
  | none => simp [isQueued]
  | some node' => simp [isQueued, Bool.beq_eq_decide_eq, eq_comm]

theorem isQueued_append (deleteNodes : List Nat) (node : Nat) (element : Option Nat) :
    isQueued (deleteNodes ++ [node]) element = (isQueued deleteNodes element || element == some node) := by
  cases element with
  | none => simp [isQueued]
  | some node' => simp [isQueued, Bool.beq_eq_decide_eq]

theorem length_removeNode (sinkNodes : List (Option Nat)) (node : Nat) :
    (removeNode sinkNodes node).length = sinkNodes.length := RemoveIf.removeIf_length sinkNodes

theorem length_foldl_removeNode (deleteNodes : List Nat) (sinkNodes : List (Option Nat)) :
    (deleteNodes.foldl removeNode sinkNodes).length = sinkNodes.length := by
  induction deleteNodes generalizing sinkNodes with
  | nil => rfl
  | cons node deleteNodes ih => exact (ih _).trans (length_removeNode sinkNodes node)

theorem foldl_removeNode (deleteNodes : List Nat) (sinkNodes : List (Option Nat)) :
    ∃ left, deleteNodes.foldl removeNode sinkNodes =
        (sinkNodes.filter fun element => !isQueued deleteNodes element) ++ left ∧
      ∀ element ∈ left, element = none ∨ isQueued deleteNodes element := by
  induction deleteNodes generalizing sinkNodes with
  | nil =>
    refine ⟨[], ?_, fun element h => absurd h List.not_mem_nil⟩
    rw [List.foldl_nil, List.append_nil, List.filter_eq_self.mpr]
    intro element _
    cases element with
    | none => rfl
    | some node => simp [isQueued]
  | cons node deleteNodes ih =>
    obtain ⟨left, heq, hleft⟩ := ih (removeNode sinkNodes node)
    have hsplit : removeNode sinkNodes node = (sinkNodes.filter fun element => !(some node == element)) ++
        (RemoveIf.removeIf (fun element => some node == element) sinkNodes).2 := by
      rw [← RemoveIf.removeIf_kept]
      rfl
    refine ⟨(RemoveIf.removeIf (fun element => some node == element) sinkNodes).2.filter
      (fun element => !isQueued deleteNodes element) ++ left, ?_, ?_⟩
    · rw [List.foldl_cons, heq, hsplit, List.filter_append, List.filter_filter, List.append_assoc]
      simp only [isQueued_cons, Bool.not_or, Bool.and_comm]
    · intro element hmem
      rw [isQueued_cons, Bool.or_eq_true]
      rcases List.mem_append.mp hmem with hmem | hmem
      · rcases RemoveIf.removeIf_left element (List.mem_of_mem_filter hmem) with hnone | ⟨-, hnode⟩
        · exact Or.inl hnone
        · exact Or.inr (Or.inl hnode)
      · exact (hleft element hmem).imp_right Or.inr

/-- **Firing keeps the others**, in order and at the front, and gives no entry back. -/
theorem fire_keeps (s : Daemon) : ∃ left, s.fire.sinkNodes =
      (s.sinkNodes.filter fun element => !isQueued s.deleteNodes element) ++ left ∧
    left.length = (s.sinkNodes.filter (isQueued s.deleteNodes)).length ∧
    ∀ element ∈ left, element = none ∨ isQueued s.deleteNodes element := by
  obtain ⟨left, heq, hleft⟩ := foldl_removeNode s.deleteNodes s.sinkNodes
  refine ⟨left, heq, ?_, hleft⟩
  have hlen := length_foldl_removeNode s.deleteNodes s.sinkNodes
  have hsplit := s.sinkNodes.length_eq_length_filter_add (isQueued s.deleteNodes)
  rw [heq, List.length_append] at hlen
  omega

/-! ## Runs -/

/-- The list holds the nodes of the running chains and those that are queued. -/
structure Sound (s : Daemon) : Prop where
  running : (s.sinkNodes.filter fun element => !isQueued s.deleteNodes element) = s.running.map some
  queued : ∀ node ∈ s.deleteNodes, some node ∈ s.sinkNodes
  owning : none ∉ s.sinkNodes

section
variable {s : Daemon}

theorem filter_idle (h : s.deleteNodes = []) :
    (s.sinkNodes.filter fun element => !isQueued s.deleteNodes element) = s.sinkNodes := by
  refine List.filter_eq_self.mpr fun element _ => ?_
  rw [h]
  cases element with
  | none => rfl
  | some node => rfl

theorem sound_holding (nodes : List Nat) : Sound (holding nodes) := by
  refine ⟨filter_idle rfl, fun node h => absurd h List.not_mem_nil, fun h => ?_⟩
  obtain ⟨node, -, hnode⟩ := List.mem_map.mp h
  exact Option.some_ne_none node hnode

/-- **When firing drops what has ended.** -/
theorem Sound.drops_iff (h : Sound s) : s.Drops s.disarm.fire ↔ s.deleteNodes = [] := by
  constructor
  · intro hdrops
    obtain ⟨left, heq, hlen, -⟩ := s.disarm.fire_keeps
    have hnil : left = [] := List.append_right_eq_self.mp (heq.symm.trans hdrops.kept)
    rw [hnil, eq_comm, List.length_nil, List.length_eq_zero_iff, List.filter_eq_nil_iff] at hlen
    refine List.eq_nil_iff_forall_not_mem.mpr fun node hnode => ?_
    have hqueued : isQueued s.deleteNodes (some node) = true := decide_eq_true hnode
    exact hlen _ (h.queued node hnode) hqueued
  · intro hidle
    have hsame : s.disarm.fire.sinkNodes = s.sinkNodes := by
      simp only [fire, disarm, hidle, List.foldl_nil]
    refine ⟨hsame.trans (filter_idle hidle).symm, hsame ▸ h.owning, rfl, ?_⟩
    rw [hsame, ← filter_idle hidle, h.running, List.length_map]
    rfl

theorem Sound.fire (h : Sound s) (hidle : s.deleteNodes = []) : Sound s.disarm.fire := by
  obtain ⟨hkept, howning, hdone, -⟩ := h.drops_iff.mpr hidle
  refine ⟨?_, fun node hnode => ?_, howning⟩
  · rw [filter_idle hdone, hkept, h.running]
    rfl
  · rw [hdone] at hnode
    cases hnode

theorem Sound.add (h : Sound s) {node : Nat} (hfresh : some node ∉ s.sinkNodes) : Sound (s.add (some node)) := by
  refine ⟨?_, fun node' hnode' => List.mem_append_left _ (h.queued node' hnode'), fun hnone => ?_⟩
  · have hnot : isQueued s.deleteNodes (some node) = false := by
      simpa [isQueued] using fun hnode => hfresh (h.queued node hnode)
    simp only [Daemon.add, List.filter_append, h.running, List.map_append]
    simp [hnot]
  · rcases List.mem_append.mp hnone with hnone | hnone
    · exact h.owning hnone
    · exact Option.some_ne_none node (List.mem_singleton.mp hnone).symm

theorem destroySinkConveyorNode_eq (s : Daemon) (node : Nat) : s.destroySinkConveyorNode node =
    { s with armed := true, deleteNodes := s.deleteNodes ++ [node] } := by
  unfold Daemon.destroySinkConveyorNode
  cases harmed : s.armed with
  | true => simp [harmed]
  | false => rfl

theorem Sound.destroySinkConveyorNode (h : Sound s) {node : Nat} (hnode : some node ∈ s.sinkNodes) :
    Sound ((s.destroySinkConveyorNode node).ended node) := by
  rw [destroySinkConveyorNode_eq]
  refine ⟨?_, fun node' hmem => ?_, h.owning⟩
  · simp only [ended, isQueued_append, Bool.not_or, Bool.and_comm (!isQueued _ _)]
    rw [← List.filter_filter, h.running, List.filter_map]
    congr 1
    refine List.filter_congr fun node' _ => ?_
    simp [Bool.beq_eq_decide_eq]
  · rcases List.mem_append.mp hmem with hmem | hmem
    · exact h.queued node' hmem
    · rw [List.mem_singleton.mp hmem]
      exact hnode

theorem Sound.step (h : Sound s) {op : SinkOp} (hwithin : s.Within op) (hidle : s.FiresIdle op) {s' : Daemon}
    (hstep : s.step op = some ((), s')) : Sound s' := by
  cases op with
  | add node =>
    cases hstep
    cases node with
    | none => exact h
    | some node => exact h.add hwithin
  | destroySinkConveyorNode node =>
    cases hstep
    exact h.destroySinkConveyorNode hwithin
  | fire =>
    cases hstep
    exact h.fire hidle

end

/-- **The list drops exactly the sinks that have ended** at every `fire` of a run exactly if none has ended
since the last one. -/
theorem drops_finished_iff (nodes : List Nat) (ops : List SinkOp)
    (hwithin : Run.Along step Within (holding nodes) ops) :
    Run.Along step FireDrops (holding nodes) ops ↔ Run.Along step FiresIdle (holding nodes) ops := by
  refine Run.along_iff Sound ?_ ?_ ops (holding nodes) (sound_holding nodes) hwithin
  · intro s op _ s' h hin hidle hstep
    exact h.step hin hidle hstep
  · intro s op h _
    cases op with
    | fire => exact h.drops_iff
    | add node => exact Iff.rfl
    | destroySinkConveyorNode node => exact Iff.rfl

theorem drops_finished_iff_early : Run.Along step FireDrops (holding [1, 2])
    [.add (some 3), .fire, .destroySinkConveyorNode 2] :=
  (drops_finished_iff [1, 2] _ (by decide)).mpr (by decide)

/-- The sink that has ended stays in the list: the last one alive, any other as a null pointer at the end. -/
theorem drops_finished_fails :
    Run.Along step Within (holding [1, 2]) [.destroySinkConveyorNode 2, .fire] ∧
    ¬ Run.Along step FireDrops (holding [1, 2]) [.destroySinkConveyorNode 2, .fire] ∧
    (Run.exec step (holding [1, 2]) [.destroySinkConveyorNode 2, .fire]).map (·.2.sinkNodes) =
      some [some 1, some 2] ∧
    (Run.exec step (holding [1, 2]) [.destroySinkConveyorNode 1, .fire]).map (·.2.sinkNodes) =
      some [some 2, none] := by
  refine ⟨by decide, fun hall => ?_, by decide, by decide⟩
  have hkept := (hall.2 () _ rfl).1.kept
  exact absurd hkept (by decide)

/-! ## The sinks leak -/

def FiredByLoop (s : Daemon) : SinkOp → Prop
  | .fire => s.armed
  | _ => True

def Unfired (_ : Daemon) (op : SinkOp) : Prop := op ≠ .fire

/-- The event loop fires the sinks only while a node is queued, so every such `fire` leaves something over. -/
theorem drops_unfired (nodes : List Nat) (ops : List SinkOp) (hwithin : Run.Along step Within (holding nodes) ops)
    (hloop : Run.Along step FiredByLoop (holding nodes) ops) :
    Run.Along step FireDrops (holding nodes) ops ↔ Run.Along step Unfired (holding nodes) ops := by
  rw [drops_finished_iff nodes ops hwithin]
  refine Run.along_iff (fun s => s.armed = true → s.deleteNodes ≠ []) ?_ ?_ ops (holding nodes)
    (fun harmed => absurd harmed Bool.false_ne_true) hloop
  · intro s op _ s' h _ _ hstep
    cases op with
    | add node =>
      cases hstep
      cases node with
      | none => exact h
      | some node => exact h
    | destroySinkConveyorNode node =>
      cases hstep
      rw [destroySinkConveyorNode_eq]
      exact fun _ => List.append_ne_nil_of_right_ne_nil _ (List.cons_ne_nil node [])
    | fire =>
      cases hstep
      exact fun harmed => absurd harmed Bool.false_ne_true
  · intro s op h hby
    cases op with
    | fire => exact iff_of_false (h hby) (fun hne => hne rfl)
    | add node => exact iff_of_true trivial SinkOp.noConfusion
    | destroySinkConveyorNode node => exact iff_of_true trivial SinkOp.noConfusion

def added : SinkOp → Nat
  | .add node => node.toList.length
  | _ => 0

/-- **The list never shrinks**: it is as long as chains were ever detached. -/
theorem length_sinkNodes (ops : List SinkOp) (s : Daemon) : ∃ results s', Run.exec step s ops = some (results, s') ∧
    s'.sinkNodes.length = s.sinkNodes.length + (ops.map added).sum := by
  induction ops generalizing s with
  | nil => exact ⟨[], s, rfl, rfl⟩
  | cons op ops ih =>
    obtain ⟨s₁, hstep, hlen⟩ : ∃ s₁, s.step op = some ((), s₁) ∧
        s₁.sinkNodes.length = s.sinkNodes.length + added op := by
      cases op with
      | add node =>
        cases node with
        | none => exact ⟨s, rfl, rfl⟩
        | some node => exact ⟨s.add (some node), rfl, List.length_append⟩
      | destroySinkConveyorNode node =>
        refine ⟨_, rfl, ?_⟩
        rw [destroySinkConveyorNode_eq]
        rfl
      | fire => exact ⟨_, rfl, length_foldl_removeNode s.deleteNodes s.sinkNodes⟩
    obtain ⟨results, s', hrun, hlen'⟩ := ih s₁
    refine ⟨() :: results, s', ?_, ?_⟩
    · rw [Run.exec_cons hstep, hrun]
      rfl
    · rw [hlen', hlen, List.map_cons, List.sum_cons, Nat.add_assoc]

end Daemon

end Forstio
