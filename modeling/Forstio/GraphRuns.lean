import Forstio.GraphGrow
import Forstio.Lib.Run

/-!
# Runs of the program on its conveyors

The program builds chains, feeds, pulls, drops handles and feeders, and turns the loop,
in any order. The nodes stay trees that hang on the handles and the daemon, so long as no
conveyor is attached to a merge node of its own tree, and no event is destroyed that
holds the later insertion point.
-/

namespace Forstio

namespace Graph

variable {α : Type}

/-- No node is in the hands of a call. -/
def Sane (g : Graph α) : Prop := Safe g 0 0 ∧ ∃ depth, g.Ranked depth

/-- A conveyor is attached to a merge node that is not part of it. -/
def Apart (g : Graph α) : Op α → Prop
  | .mergeAttach j k => ∀ c m, g.handles.lookup k = some (.conveyor c) → g.handles.lookup j = some (.merger m) →
      ¬ g.Below c.node.base m
  | _ => True

/-- Nothing is destroyed that holds the later insertion point. -/
def Spares (g : Graph α) (op : Op α) : Prop := ∀ v ∈ g.victims op, g.Spared v

def Careful (g : Graph α) (op : Op α) : Prop := g.Apart op ∧ g.Spares op

section
variable {g : Graph α} {k : Nat} {c : Conveyor α} {depth : Nat → Nat}

/-! ## Handles -/

theorem conveyorAt_avoids (g : Graph α) (k : Nat) :
    Guard.Avoids .dangling (g.conveyorAt k) fun c => g.handles.lookup k = some (.conveyor c) := by
  unfold conveyorAt
  split
  next c hk => exact hk
  next => exact Guard.Avoids.error nofun

theorem lt_of_handle (h : Safe g 0 0) {hd : Handle α} (hk : g.handles.lookup k = some hd) :
    k < (g.release k).created := h.handles k (AList.lookup_isSome.mp (by rw [hk]; rfl))

theorem mem_held {hd : Handle α} (hk : g.handles.lookup k = some hd) {i : Nat} (hi : i ∈ hd.owned) : i ∈ g.held :=
  Multiset.mem_add.mpr (Or.inl (Heap.mem_total.mpr ⟨k, hd, hk, hi⟩))

theorem Safe.giveAway (h : Safe g 0 0) (hk : g.handles.lookup k = some (.conveyor c)) :
    Safe (g.release k) ({c.storage} + 0) 0 ∧ Roots (g.release k) ({c.storage} + 0) ∧ c.storage = c.node.base := by
  have hbase := (h.conveyors k c hk).1
  rw [hbase]
  refine ⟨h.release hk, fun j hj nj hnj => ?_, rfl⟩
  rw [add_zero] at hj
  exact h.root_ups (mem_held hk hj) hnj

theorem rehold_release (g : Graph α) (k : Nat) (hd : Handle α) : (g.release k).rehold k hd = g.rehold k hd := by
  have hinsert : (g.handles.erase k).insert k hd = g.handles.insert k hd := by
    apply AList.ext
    show List.kinsert k hd (List.kerase k g.handles.entries) = List.kinsert k hd g.handles.entries
    simp only [List.kinsert_def]
    rw [List.kerase_of_notMem_keys]
    exact List.notMem_keys_kerase k g.handles.nodupKeys
  unfold rehold release
  rw [hinsert]

theorem notMem_release (g : Graph α) (k : Nat) : k ∉ (g.release k).handles := by
  intro hmem
  exact (AList.mem_erase.mp hmem).1 rfl

/-! ## New conveyors -/

theorem Safe.holdStorage {i : Nat} {n : Cell α} (h : Safe g ({i} + 0) 0) (hranked : g.Ranked depth)
    (hn : g.cells.lookup i = some n) (hups : n.ups = []) : Sane (g.hold (.conveyor ⟨.storage i, i⟩)).2 := by
  refine ⟨h.hold (fun j hj nj hnj => ?_) ⟨rfl, n, hn, ?_⟩, depth, hranked⟩
  · rw [Multiset.mem_singleton.mp hj] at hnj
    obtain rfl := Option.some.inj (hn.symm.trans hnj)
    exact hups
  · exact Option.toList_eq_nil_iff.mp (List.append_eq_nil_iff.mp hups).2

theorem Ranked.alloc (hranked : g.Ranked depth) {n : Cell α} (hups : n.ups = []) (howned : n.body.owned = []) :
    (g.alloc n).2.Ranked depth := by
  intro j nj hj
  change (g.put g.created n).cells.lookup j = some nj at hj
  rw [lookup_put] at hj
  split at hj
  next =>
    obtain rfl := Option.some.inj hj
    rw [hups, howned]
    exact ⟨nofun, nofun⟩
  next => exact hranked j nj hj

theorem Sane.ofResult (h : Sane g) (value : ErrorOr α) : Sane (g.ofResult value).2 := by
  obtain ⟨hsafe, depth, hranked⟩ := h
  exact Safe.holdStorage (n := ⟨⟨none, none, .immediate value 0⟩, none, false⟩) (hsafe.alloc rfl rfl rfl rfl)
    (hranked.alloc rfl rfl) ((lookup_put g _ _ _).trans (if_pos rfl)) rfl

theorem Sane.newConveyorAndFeeder (h : Sane g) : Sane g.newConveyorAndFeeder.2 := by
  obtain ⟨hsafe, depth, hranked⟩ := h
  have hf : g.created ∉ g.feeders := fun hmem => Nat.lt_irrefl _ (hsafe.feeders _ hmem)
  have hlookup (f : Nat) := Heap.lookup_insert g.feeders g.created f (some (g.created + 1))
  have hold (f : Nat) {i : Nat} (hi : g.feeders.lookup f = some (some i)) : f ≠ g.created := by
    intro heq
    rw [heq] at hi
    exact hf (AList.lookup_isSome.mp (by rw [hi]; rfl))
  have hranked' : ({ g with created := g.created + 1 } : Graph α).Ranked depth := hranked
  refine Safe.holdStorage (n := ⟨⟨none, none, .adapt []⟩, some g.created, false⟩) (hsafe.fresh.allocWith rfl rfl rfl
    (g.feeders.insert g.created (some (g.created + 1))) ?_ ?_ ?_ ?_) (hranked'.alloc rfl rfl)
    ((lookup_put _ _ _ _).trans (if_pos rfl)) rfl
  · intro f hmem
    rcases (AList.mem_insert _).mp hmem with heq | hmem
    · rw [heq]
      exact Nat.lt_succ_self _
    · exact Nat.lt_succ_of_lt (hsafe.feeders f hmem)
  · intro f i hi
    rw [hlookup, if_neg (hold f hi)]
    exact hi
  · intro f i hi
    rw [hlookup] at hi
    split at hi
    next heq =>
      rw [heq]
      exact Or.inr ⟨(Option.some.inj (Option.some.inj hi)).symm, rfl⟩
    next => exact Or.inl hi
  · intro f hself
    rw [← Option.some.inj hself, hlookup, if_pos rfl]

/-! ## Chains -/

theorem Sane.then (h : Sane g) (k : Nat) (func : α → ErrorOr α) (errorFunc : Error → ErrorOr α) :
    Guard.Avoids .dangling (g.perform (.then k func errorFunc)) fun r => Sane r.2 := by
  obtain ⟨hsafe, depth, hranked⟩ := h
  refine Guard.Avoids.bind (conveyorAt_avoids g k) fun c hk => ?_
  have hgiven := hsafe.release hk
  have hrelease : Safe (g.release k) ((Handle.conveyor ⟨.convert c.node func errorFunc, c.storage⟩).owned + 0) 0 :=
    hgiven
  have hroots : Roots (g.release k) {c.node.base} := fun j hj nj hnj => hsafe.root_ups (mem_held hk hj) hnj
  have hfits : (g.release k).Fits (.conveyor ⟨.convert c.node func errorFunc, c.storage⟩) := hsafe.conveyors k c hk
  have hsafe' : Safe ((g.release k).rehold k (.conveyor ⟨.convert c.node func errorFunc, c.storage⟩)) 0 0 :=
    Safe.rehold hrelease (notMem_release g k) (lt_of_handle hsafe hk) hroots hfits
  rw [rehold_release] at hsafe'
  exact ⟨hsafe', depth, hranked⟩

theorem Safe.hangOn (h : Safe g 0 0) (hranked : g.Ranked depth) (hk : g.handles.lookup k = some (.conveyor c))
    {body : StorageBody α} (howned : body.owned = [c.node.base]) (hmerger : body.merger = none) (conveyorSink : Bool) :
    Guard.Avoids .dangling ((g.release k).hang c body conveyorSink) fun r => r.1 = g.created ∧
      Hung (g.release k) ⟨⟨none, some c.storage, body⟩, none, conveyorSink⟩ c.storage 0 r.2 := by
  obtain ⟨hsafe, hroots, hbase⟩ := h.giveAway hk
  rw [← hbase] at howned
  refine hsafe.hang hroots hranked howned (fun m hm => ?_) conveyorSink
  rw [hmerger] at hm
  cases hm

section
variable {g' : Graph α} {n : Cell α} {x : Nat} (hung : Hung (g.release k) n x 0 g') (hups : n.ups = [])
include hung hups

theorem Hung.roots_new : Roots g' {g.created} := by
  intro j hj nj hnj
  rw [Multiset.mem_singleton.mp hj] at hnj
  obtain rfl := Option.some.inj (hung.new.symm.trans hnj)
  exact hups

theorem Hung.rehold {hd : Handle α} (h : Safe g 0 0) (hk : g.handles.lookup k = some (.conveyor c))
    (howned : hd.owned = {g.created}) (hfits : g'.Fits hd) : Sane (g'.rehold k hd) := by
  obtain ⟨depth, hranked, -⟩ := hung.ranked
  refine ⟨Safe.rehold ?_ ?_ ?_ ?_ hfits, depth, hranked⟩
  · rw [howned]
    exact hung.safe
  · rw [hung.handles]
    exact notMem_release g k
  · rw [hung.created]
    exact Nat.lt_succ_of_lt (lt_of_handle h hk)
  · rw [howned]
    exact hung.roots_new hups

theorem Hung.addSink : Sane { g' with sinkNodes := g'.sinkNodes ++ [some g.created] } := by
  obtain ⟨depth, hranked, -⟩ := hung.ranked
  have hsafe := hung.safe
  refine ⟨⟨?_, hsafe.created, hsafe.cells, hsafe.handles, hsafe.feeders, ?_, hsafe.down, hsafe.child, hsafe.conveyors,
    hsafe.mergers, hsafe.feedees, hsafe.feeder, hsafe.queue⟩, depth, hranked⟩
  · refine Eq.trans ?_ hsafe.counted
    unfold held
    show 0 + 0 + (Heap.total _ g'.handles + ((g'.sinkNodes ++ [some g.created]).filterMap id : List Nat)) +
      g'.ownedBut 0 = {g.created} + 0 + 0 + (_ + (g'.sinkNodes.filterMap id : List Nat)) + g'.ownedBut 0
    rw [List.filterMap_append, ← Multiset.coe_add]
    show 0 + 0 + (_ + (_ + ({g.created} : Multiset Nat))) + _ = _
    abel
  · intro j nj hj u hu
    obtain ⟨nu, hnu, howner⟩ := hsafe.ups j nj hj u hu
    refine ⟨nu, hnu, howner.imp_left fun hmem => ?_⟩
    simp only [add_zero] at hmem
    rw [hung.roots_new hups j hmem nj hj] at hu
    cases hu

end

theorem Sane.buffer (h : Sane g) (k limit : Nat) : Guard.Avoids .dangling (g.buffer k limit) Sane := by
  obtain ⟨hsafe, depth, hranked⟩ := h
  refine Guard.Avoids.bind (conveyorAt_avoids g k) fun c hk => ?_
  refine Guard.Avoids.bind (hsafe.hangOn hranked hk rfl rfl false) fun r hr => ?_
  obtain ⟨i, g'⟩ := r
  obtain ⟨rfl, hung⟩ := hr
  exact hung.rehold rfl hsafe hk rfl ⟨rfl, _, hung.new, rfl⟩

theorem Sane.sink (h : Sane g) (k : Nat) : Guard.Avoids .dangling (g.sink k) Sane := by
  obtain ⟨hsafe, depth, hranked⟩ := h
  refine Guard.Avoids.bind (conveyorAt_avoids g k) fun c hk => ?_
  refine Guard.Avoids.bind (hsafe.hangOn hranked hk rfl rfl false) fun r hr => ?_
  obtain ⟨i, g'⟩ := r
  obtain ⟨rfl, hung⟩ := hr
  exact hung.rehold rfl hsafe hk rfl trivial

theorem Sane.detach (h : Sane g) (k : Nat) : Guard.Avoids .dangling (g.detach k) Sane := by
  obtain ⟨hsafe, depth, hranked⟩ := h
  refine Guard.Avoids.bind (conveyorAt_avoids g k) fun c hk => ?_
  refine Guard.Avoids.bind (hsafe.hangOn hranked hk rfl rfl true) fun r hr => ?_
  obtain ⟨i, g'⟩ := r
  obtain ⟨rfl, hung⟩ := hr
  exact hung.addSink rfl

/-! ## Merging -/

theorem Sane.merge (h : Sane g) (k : Nat) : Guard.Avoids .dangling (g.merge k) fun r => Sane r.2 := by
  obtain ⟨hsafe, depth, hranked⟩ := h
  refine Guard.Avoids.bind (conveyorAt_avoids g k) fun c hk => ?_
  obtain ⟨hsafe₁, hroots₁, hbase⟩ := hsafe.giveAway hk
  have hsafe₂ := hsafe₁.alloc (n := ⟨⟨none, none, .merge [] 0⟩, none, false⟩) rfl rfl rfl rfl
  have hm : ((g.release k).alloc ⟨⟨none, none, .merge [] 0⟩, none, false⟩).2.cells.lookup g.created =
      some ⟨⟨none, none, .merge [] 0⟩, none, false⟩ := (lookup_put _ _ _ _).trans (if_pos rfl)
  have hroots₂ : Roots ((g.release k).alloc ⟨⟨none, none, .merge [] 0⟩, none, false⟩).2 ({c.storage} + {g.created}) := by
    intro j hj nj hnj
    change ((g.release k).put g.created _).cells.lookup j = _ at hnj
    rw [lookup_put] at hnj
    split at hnj
    · obtain rfl := Option.some.inj hnj
      rfl
    next hne =>
      refine hroots₁ j ?_ nj hnj
      rw [add_zero]
      exact (Multiset.mem_add.mp hj).resolve_right fun heq => hne (Multiset.mem_singleton.mp heq)
  rw [add_zero, add_comm] at hsafe₂
  have hne : c.storage ≠ g.created := by
    obtain ⟨n, hn, -⟩ := (hsafe.conveyors k c hk).2
    exact hsafe.ne_created hn
  have hapart : ¬ ((g.release k).alloc ⟨⟨none, none, .merge [] 0⟩, none, false⟩).2.Below c.storage g.created := by
    intro hbelow
    rcases Relation.ReflTransGen.cases_tail hbelow with heq | htail
    · exact hne heq.symm
    · obtain ⟨w, -, nw, hnw, hown⟩ := htail
      exact (hsafe₂.owned_apart hnw (Multiset.notMem_zero w) hown).1 (by simp [release])
  have hranked₂ : ((g.release k).alloc ⟨⟨none, none, .merge [] 0⟩, none, false⟩).2.Ranked depth :=
    Ranked.alloc (g := g.release k) hranked rfl rfl
  refine Guard.Avoids.bind (hsafe₂.attach hroots₂ hranked₂ hbase hm rfl hapart) fun g₃ h₃ => ?_
  obtain ⟨depth₃, hranked₃⟩ := h₃.ranked
  obtain ⟨nm, hnm, hnone, hmerge⟩ := h₃.old _ _ hm
  have hcreated : g.created + 1 ≤ g₃.created := h₃.created
  have hsafe₄ : Safe (g₃.rehold k (.conveyor ⟨.storage g.created, g.created⟩)) 0 0 := by
    refine Safe.rehold ?_ ?_ ?_ ?_ ⟨rfl, nm, hnm, hnone⟩
    · exact h₃.safe
    · rw [h₃.handles]
      exact notMem_release g k
    · exact (lt_of_handle hsafe hk).trans_le (Nat.le_of_succ_le hcreated)
    · exact h₃.roots
  have hfits : (g₃.rehold k (.conveyor ⟨.storage g.created, g.created⟩)).Fits (.merger g.created) := by
    refine ⟨hcreated, fun n hn => ?_⟩
    obtain rfl := Option.some.inj (hnm.symm.trans hn)
    exact hmerge
  exact ⟨Safe.hold hsafe₄ (Roots.zero _) hfits, depth₃, hranked₃⟩

theorem Sane.mergeAttach (h : Sane g) {j k : Nat} (hapart : g.Apart (.mergeAttach j k)) :
    Guard.Avoids .dangling (g.mergeAttach j k) Sane := by
  obtain ⟨hsafe, depth, hranked⟩ := h
  refine Guard.Avoids.bind (conveyorAt_avoids g k) fun c hk => ?_
  obtain ⟨hsafe₁, hroots₁, hbase⟩ := hsafe.giveAway hk
  split
  next m hj =>
    refine Guard.Avoids.bind (check_avoids (m ∈ g.cells)) fun _ hm => ?_
    obtain ⟨nm, hnm⟩ := lookup_of_mem hm
    have hmerge := (hsafe.mergers j m hj).2 nm hnm
    have hbelow : ¬ (g.release k).Below c.storage m := by
      rw [hbase]
      exact hapart c m hk hj
    exact (hsafe₁.attach hroots₁ hranked hbase hnm hmerge hbelow).mono fun g' hg' => ⟨hg'.safe, hg'.ranked⟩
  next => exact Guard.Avoids.error nofun

/-! ## Results and feeders -/

theorem Sane.take (h : Sane g) (k : Nat) : Guard.Avoids .dangling (g.take k) fun r => Sane r.2 := by
  obtain ⟨hsafe, depth, hranked⟩ := h
  refine Guard.Avoids.bind (conveyorAt_avoids g k) fun c hk => ?_
  obtain ⟨hbase, n, hn, hmerger⟩ := hsafe.conveyors k c hk
  obtain ⟨q, hq⟩ := hsafe.queued hn
  refine Guard.Avoids.of_ok hq ?_
  rw [hbase] at hn
  split
  · refine Guard.Avoids.bind (hsafe.getResult c.node hn hmerger) fun r hr => ?_
    exact ⟨hr.1, depth, hr.2.ranked hranked⟩
  · exact ⟨hsafe, depth, hranked⟩

theorem Sane.feed (h : Sane g) (f : Nat) (x : ErrorOr α) : Guard.Avoids .dangling (g.feed f x) Sane := by
  obtain ⟨hsafe, depth, hranked⟩ := h
  unfold Graph.feed
  split
  next i hf =>
    obtain ⟨n, hn, -, hmerger⟩ := hsafe.feedees f i hf
    refine Guard.Avoids.bind (hsafe.calm_setBody hn (StorageBody.alike_push x _)) fun g₁ h₁ => ?_
    obtain ⟨h₁, hframe₁⟩ := h₁
    obtain ⟨n₁, hn₁, hsame₁⟩ := hframe₁.same hn trivial
    refine (h₁.calm_arm arms_next (Or.inr ⟨n₁, hn₁, hsame₁.body.merger.trans hmerger⟩)).mono fun g₂ h₂ => ?_
    exact ⟨h₂.1, depth, (hframe₁.trans h₂.2).ranked hranked⟩
  next => exact ⟨hsafe, depth, hranked⟩
  next => exact Guard.Avoids.error nofun

theorem Sane.dropFeeder (h : Sane g) (f : Nat) : Guard.Avoids .dangling (g.dropFeeder f) Sane := by
  obtain ⟨hsafe, depth, hranked⟩ := h
  have hlt : ∀ f' ∈ g.feeders.erase f, f' < g.created := fun f' hf' => hsafe.feeders f' (AList.mem_erase.mp hf').2
  have hothers : ∀ f' j, (g.feeders.erase f).lookup f' = some (some j) → g.feeders.lookup f' = some (some j) := by
    intro f' j hf'
    by_cases heq : f' = f
    · rw [heq, AList.lookup_erase] at hf'
      cases hf'
    · exact (AList.lookup_erase_ne heq).symm.trans hf'
  unfold Graph.dropFeeder
  split
  next i hf =>
    obtain ⟨n, hn, hfeeder, -⟩ := hsafe.feedees f i hf
    rw [modify_eq hn]
    refine ⟨hsafe.unfeed hn hlt ?_ ?_ hothers, depth, (Frame.unfeed (fun _ => True) hn _).ranked hranked⟩
    · intro f' hf' hgone
      obtain rfl := Option.some.inj (hfeeder.symm.trans hf')
      rw [AList.lookup_erase] at hgone
      cases hgone
    · intro f' hne
      refine AList.lookup_erase_ne fun heq => hne ?_
      rw [heq]
      exact hfeeder
  next hf =>
    refine ⟨⟨hsafe.counted, hsafe.created, hsafe.cells, hsafe.handles, hlt, hsafe.ups, hsafe.down, hsafe.child,
      hsafe.conveyors, hsafe.mergers, fun f' j hf' => hsafe.feedees f' j (hothers f' j hf'), ?_, hsafe.queue⟩, depth,
      hranked⟩
    intro j nj f' hj hf'
    have hfeedee := hsafe.feeder j nj f' hj hf'
    refine (AList.lookup_erase_ne fun heq => ?_).trans hfeedee
    rw [heq, hf] at hfeedee
    cases Option.some.inj hfeedee
  next => exact Guard.Avoids.error nofun

theorem Sane.dropHandle (h : Sane g) (k : Nat) (hspares : g.Spares (.dropHandle k)) :
    Guard.Avoids .dangling (g.dropHandle k) Sane := by
  obtain ⟨hsafe, depth, hranked⟩ := h
  have hdrop {hd : Handle α} (hk : g.handles.lookup k = some hd) {i : Nat} (hroot : hd.root = some i) :
      Guard.Avoids .dangling ((g.release k).drop i) Sane := by
    have hsafe₁ := hsafe.release hk
    rw [Handle.owned, hroot] at hsafe₁
    have hranked₁ : (g.release k).Ranked depth := hranked
    have hspared : (g.release k).Spared i := hspares i (by rw [victims, hk, Option.bind_some, hroot]; simp)
    exact (hsafe₁.drop hranked₁ (.zero _ depth i) hspared).mono fun g' hg' => ⟨hg'.1, depth, hg'.2.1.ranked hranked₁⟩
  unfold Graph.dropHandle
  split
  next c hk => exact hdrop hk rfl
  next i hk => exact hdrop hk rfl
  next m hk =>
    have hsafe₁ := hsafe.release hk
    exact ⟨hsafe₁, depth, hranked⟩
  next => exact Guard.Avoids.error Fault.noConfusion

/-! ## Steps -/

/-- **Every call** follows no dangling pointer and leaves trees. -/
theorem Sane.perform (h : Sane g) {op : Op α} (hcareful : g.Careful op) :
    Guard.Avoids .dangling (g.perform op) fun r => Sane r.2 := by
  have hdone {x : Except Fault (Graph α)} (hx : Guard.Avoids .dangling x Sane) :
      Guard.Avoids .dangling (do return (Reply.done, ← x)) fun r => Sane r.2 :=
    Guard.Avoids.bind hx fun g' hg' => Guard.Avoids.ok (Q := fun r : Reply α × Graph α => Sane r.2) hg'
  obtain ⟨hapart, hspares⟩ := hcareful
  cases op with
  | newConveyorAndFeeder => exact h.newConveyorAndFeeder
  | ofResult value => exact h.ofResult value
  | «then» k func errorFunc => exact h.then k func errorFunc
  | buffer k limit => exact hdone (h.buffer k limit)
  | sink k => exact hdone (h.sink k)
  | detach k => exact hdone (h.detach k)
  | merge k => exact h.merge k
  | mergeAttach j k => exact hdone (h.mergeAttach hapart)
  | take k => exact h.take k
  | feed f x => exact hdone (h.feed f x)
  | dropFeeder f => exact hdone (h.dropFeeder f)
  | dropHandle k => exact hdone (h.dropHandle k hspares)
  | turn =>
    obtain ⟨hsafe, depth, hranked⟩ := h
    exact hdone ((hsafe.turn hranked hspares).mono fun g' hg' => ⟨hg'.1, depth, hg'.2⟩)

theorem Sane.step (h : Sane g) {op : Op α} (hcareful : g.Careful op) {o : Except Fault (Reply α)} {g' : Graph α}
    (hstep : g.step op = some (o, g')) : Sane g' := by
  have hperform := h.perform hcareful
  unfold Graph.step at hstep
  cases hr : g.perform op with
  | ok r =>
    rw [hr] at hperform hstep
    obtain ⟨-, rfl⟩ := Prod.mk.inj (Option.some.inj hstep)
    exact hperform
  | error fault =>
    rw [hr] at hstep
    cases fault with
    | notHeld =>
      obtain ⟨-, rfl⟩ := Prod.mk.inj (Option.some.inj hstep)
      exact h
    | _ => cases hstep

theorem sane_new : Sane (new : Graph α) := by
  refine ⟨⟨rfl, Nat.zero_lt_one, nofun, nofun, nofun, nofun, nofun, nofun, nofun, nofun, nofun, nofun,
    EventLoop.sound_new, fun i hi => absurd hi (EventLoop.not_isArmed_new i)⟩, fun _ => 0, ?_⟩
  intro i n hn
  cases hn

/-! ## What a run leaves -/

def Rooted (g : Graph α) (i : Nat) : Prop :=
  (∃ k c, g.handles.lookup k = some (.conveyor c) ∧ c.node.base = i) ∨
    (∃ k, g.handles.lookup k = some (.sink i)) ∨ some i ∈ g.sinkNodes

/-- Every pointer is to an object that is there, the event queue is in order, and every node is in the tree of one
owner. -/
structure Intact (g : Graph α) : Prop where
  parent : ∀ i n p, g.cells.lookup i = some n → n.parent = some p → g.Owns p i
  childStorage : ∀ i n c, g.cells.lookup i = some n → n.childStorage = some c →
    ∃ nc, g.cells.lookup c = some nc ∧ nc.parent = some i
  merger : ∀ i n m, g.cells.lookup i = some n → n.body.merger = some m → g.Owns m i
  owned : ∀ i j, g.Owns i j → j ∈ g.cells
  feeder : ∀ f i, g.feeders.lookup f = some (some i) ↔ ∃ n, g.cells.lookup i = some n ∧ n.feeder = some f
  armed : ∀ i, g.loop.isArmed i → i = conveyorSinks ∨ i ∈ g.cells
  queue : g.loop.Sound
  rooted : ∀ i, g.Rooted i → i ∈ g.cells
  tree : ∀ i ∈ g.cells, ∃ r, (g.Rooted r ∧ g.Below r i) ∧ ∀ r', g.Rooted r' → g.Below r' i → r' = r

theorem rooted_iff {i : Nat} : g.Rooted i ↔ i ∈ g.held := by
  rw [held, Multiset.mem_add, Heap.mem_total]
  constructor
  · intro hi
    rcases hi with hconveyor | hsink | hdaemon
    · obtain ⟨k, c, hk, rfl⟩ := hconveyor
      exact Or.inl ⟨k, _, hk, Multiset.mem_singleton_self _⟩
    · obtain ⟨k, hk⟩ := hsink
      exact Or.inl ⟨k, _, hk, Multiset.mem_singleton_self _⟩
    · exact Or.inr (Multiset.mem_coe.mpr (List.mem_filterMap.mpr ⟨some i, hdaemon, rfl⟩))
  · intro hi
    rcases hi with hhandle | hdaemon
    · obtain ⟨k, hd, hk, hmem⟩ := hhandle
      cases hd with
      | conveyor c => exact Or.inl ⟨k, c, hk, (Multiset.mem_singleton.mp hmem).symm⟩
      | sink j =>
        obtain rfl : i = j := Multiset.mem_singleton.mp hmem
        exact Or.inr (Or.inl ⟨k, hk⟩)
      | merger m => exact absurd hmem (Multiset.notMem_zero i)
    · obtain ⟨e, he, hei⟩ := List.mem_filterMap.mp (Multiset.mem_coe.mp hdaemon)
      obtain rfl : e = some i := hei
      exact Or.inr (Or.inr he)

theorem Safe.below_meet (h : Safe g 0 0) {i j c : Nat} (hi : i ∈ g.held) (hj : g.Below j c) (hbelow : g.Below i c) :
    g.Below i j := by
  have hi' : i ∈ 0 + g.held := by rwa [zero_add]
  induction hj with
  | refl => exact hbelow
  | tail _ howns ih =>
    obtain ⟨n, hn, hown⟩ := howns
    exact ih (h.below_of_owns hi' hn hown hbelow)

theorem Safe.root_below (h : Safe g 0 0) {i j : Nat} (hj : j ∈ g.held) (hbelow : g.Below i j) : i = j := by
  rcases Relation.ReflTransGen.cases_tail hbelow with heq | htail
  · exact heq.symm
  · obtain ⟨w, -, n, hn, hown⟩ := htail
    exact absurd hj (h.owned_apart hn (Multiset.notMem_zero w) hown).2

/-- **Nothing leaks**: the way up from a node ends at a root. -/
theorem Safe.reached (h : Safe g 0 0) (hranked : g.Ranked depth) {i : Nat} (hi : i ∈ g.cells) :
    ∃ r ∈ g.held, g.Below r i := by
  induction hd : depth i using Nat.strong_induction_on generalizing i with
  | h d ih =>
    have hmem := Heap.mem_addresses.mpr hi
    rw [← h.counted, zero_add, zero_add, Multiset.mem_add] at hmem
    rcases hmem with hheld | hown
    · exact ⟨i, hheld, .refl⟩
    · obtain ⟨p, n, hn, hown⟩ := Heap.mem_total.mp hown
      rw [if_neg (Multiset.notMem_zero p)] at hown
      have hlt := (hranked p n hn).2 i (Multiset.mem_coe.mp hown)
      rw [hd] at hlt
      obtain ⟨r, hr, hbelow⟩ := ih (depth p) hlt (mem_of_lookup hn) rfl
      exact ⟨r, hr, hbelow.tail ⟨n, hn, Multiset.mem_coe.mp hown⟩⟩

theorem Sane.intact (h : Sane g) : Intact g := by
  obtain ⟨hsafe, depth, hranked⟩ := h
  refine ⟨?_, ?_, ?_, ?_, ?_, ?_, hsafe.queue.sound, ?_, ?_⟩
  · intro i n p hn hp
    obtain ⟨np, hnp, hown⟩ := hsafe.parent hn hp
    exact ⟨np, hnp, hown⟩
  · intro i n c hn hc
    obtain ⟨nc, hnc, hparent, -⟩ := hsafe.down i n c hn hc
    exact ⟨nc, hnc, hparent⟩
  · intro i n m hn hm
    have hup : m ∈ n.ups := List.mem_append.mpr (Or.inr (Option.mem_toList.mpr hm))
    exact hsafe.up_owned (Roots.zero g) hn hup
  · intro i j howns
    obtain ⟨n, hn, hown⟩ := howns
    obtain ⟨nj, hnj⟩ := hsafe.owned_alive hn (Multiset.notMem_zero i) hown
    exact mem_of_lookup hnj
  · intro f i
    constructor
    · intro hf
      obtain ⟨n, hn, hfeeder, -⟩ := hsafe.feedees f i hf
      exact ⟨n, hn, hfeeder⟩
    · intro hex
      obtain ⟨n, hn, hf⟩ := hex
      exact hsafe.feeder i n f hn hf
  · intro i hi
    exact (hsafe.queue.alive i hi).imp_right fun ⟨n, hn, _⟩ => mem_of_lookup hn
  · intro i hi
    obtain ⟨n, hn⟩ := hsafe.alive (i := i) (by simp [rooted_iff.mp hi])
    exact mem_of_lookup hn
  · intro i hi
    obtain ⟨r, hr, hbelow⟩ := hsafe.reached hranked hi
    refine ⟨r, ⟨rooted_iff.mpr hr, hbelow⟩, fun r' hr' hbelow' => ?_⟩
    exact hsafe.root_below hr (hsafe.below_meet (rooted_iff.mp hr') hbelow hbelow')

theorem run_sane {ops : List (Op α)} (hcareful : Run.Along Graph.step Careful new ops) {answers g}
    (hrun : Run.exec Graph.step new ops = some (answers, g)) : Sane g :=
  Run.exec_preserves Sane Careful (fun _ _ _ _ hg hok hstep => hg.step hok hstep) ops new g answers hrun hcareful sane_new

/-! ## Checking runs -/

def members (g : Graph α) (i : Nat) : List Nat := ((g.cells.lookup i).map fun n => n.body.owned).getD []

def levels (g : Graph α) : Nat → List Nat → List Nat
  | 0, nodes => nodes
  | fuel + 1, nodes => nodes ++ g.levels fuel (nodes.flatMap g.members)

def isAside (g : Graph α) (i e : Nat) : Bool :=
  let tree := g.levels g.cells.keys.length [i]
  i ∈ tree ∧ e ∉ tree ∧ ∀ j ∈ tree, ∀ c ∈ g.members j, c ∈ tree

theorem not_below_of_isAside {i e : Nat} (h : g.isAside i e) : ¬ g.Below i e := by
  obtain ⟨hi, he, hclosed⟩ := of_decide_eq_true h
  intro hbelow
  refine he ?_
  clear he h
  induction hbelow with
  | refl => exact hi
  | tail _ howns ih =>
    obtain ⟨n, hn, hown⟩ := howns
    refine hclosed _ ih _ ?_
    rw [members, hn]
    exact hown

def isCareful (g : Graph α) (op : Op α) : Bool :=
  (match op with
    | .mergeAttach j k =>
      match g.handles.lookup k, g.handles.lookup j with
      | some (.conveyor c), some (.merger m) => g.isAside c.node.base m
      | _, _ => true
    | _ => true) &&
  (g.victims op).all fun v =>
    match g.loop.laterInsertPoint with
    | .head => true
    | .next e => g.isAside v e

theorem careful_of_isCareful {op : Op α} (h : g.isCareful op) : g.Careful op := by
  obtain ⟨hapart, hspares⟩ := Bool.and_eq_true_iff.mp h
  refine ⟨?_, fun v hv e he => ?_⟩
  · cases op with
    | mergeAttach j k =>
      intro c m hk hj
      simp only [hk, hj] at hapart
      exact not_below_of_isAside hapart
    | _ => trivial
  · have haside := List.all_eq_true.mp hspares v hv
    simp only [he] at haside
    exact not_below_of_isAside haside

/-- **Nothing dangles and nothing leaks**: after a run of careful calls every pointer is good and every node is owned,
and no further careful call follows a pointer to an object that is gone. -/
theorem nothing_dangles (ops : List (Op α)) (hcareful : Run.Along Graph.step Careful new ops) {answers g}
    (hrun : Run.exec Graph.step new ops = some (answers, g)) :
    Intact g ∧ ∀ op, g.Careful op → g.perform op ≠ .error .dangling := by
  have hsane := run_sane hcareful hrun
  refine ⟨hsane.intact, fun op hop hdangling => ?_⟩
  have hperform := hsane.perform hop
  rw [hdangling] at hperform
  exact hperform rfl

/-- A merge of two feeders, one of which was fed and pulled, and a value behind a buffer. -/
def attached : List (Op Nat) :=
  [.newConveyorAndFeeder, .newConveyorAndFeeder, .merge 3, .mergeAttach 9 6, .feed 4 (.value 3), .turn, .take 3,
    .ofResult (.value 7), .buffer 12 3]

/-- The merge is dropped while its node is armed. Of two detached chains one ends, and the daemon drops its sink. -/
def detached : List (Op Nat) :=
  attached ++ [.dropHandle 3, .feed 1 (.value 5), .turn, .turn, .take 12, .newConveyorAndFeeder, .detach 16,
    .newConveyorAndFeeder, .detach 20, .feed 14 (.error ⟨"closed", -1⟩), .turn, .turn, .turn]

theorem nothing_dangles_detached : ∃ answers g, Run.exec Graph.step new detached = some (answers, g) ∧ Intact g ∧
    g.sinkNodes = [some 21, none] ∧ g.perform .turn ≠ .error .dangling := by
  have hend : (Run.exec Graph.step new detached).map (fun r => (r.2.sinkNodes, r.2.isCareful .turn)) =
      some ([some 21, none], true) := by decide
  obtain ⟨⟨answers, g⟩, hrun, hend⟩ := Option.map_eq_some_iff.mp hend
  obtain ⟨hsinks, hturn⟩ := Prod.mk.inj hend
  have hchecked : Run.Along Graph.step (fun g op => g.isCareful op) new detached := by decide
  obtain ⟨hintact, hnext⟩ := nothing_dangles detached (hchecked.mono fun _ _ => careful_of_isCareful) hrun
  exact ⟨answers, g, hrun, hintact, hsinks, hnext .turn (careful_of_isCareful hturn)⟩

-- a value behind a buffer is dropped while it holds the later insertion point, and another one is armed
example : (Run.exec Graph.step (new : Graph Nat)
      [.ofResult (.value 1), .buffer 2 1, .dropHandle 2, .ofResult (.value 2)]).map (fun r =>
    (match r.2.perform (.buffer 5 1) with
      | .error fault => some fault
      | .ok _ => none)) = some (some .dangling) := by decide

-- a merge node that is attached to itself is owned by nobody else
example : (Run.exec Graph.step (new : Graph Nat) [.newConveyorAndFeeder, .merge 3, .mergeAttach 6 3]).map
    (fun r => (r.2.cells.keys, r.2.handles.keys, r.2.sinkNodes)) = some ([4, 7, 2, 5], [6], []) := by decide

end

end Graph

end Forstio
