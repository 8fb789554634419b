import Forstio.GraphRuns

/-!
# What goes with a handle

A destructor that starts at a root stays within its tree: it changes no node outside,
tells the feeders of the nodes inside and takes these nodes from the event queue. With
what is known of runs, all of the tree is gone afterwards.
-/

namespace Forstio

namespace Graph

variable {α : Type}

/-- A set of nodes that a destructor of one of them does not leave. -/
structure Closed (S : Nat → Prop) (g : Graph α) : Prop where
  owned : ∀ i n, S i → g.cells.lookup i = some n → ∀ c ∈ n.body.owned, S c
  parent : ∀ i n p, S i → g.cells.lookup i = some n → n.parent = some p → S p
  feeder : ∀ i n f, S i → g.cells.lookup i = some n → n.feeder = some f → g.feeders.lookup f = some (some i)

structure Outside (S : Nat → Prop) (g g' : Graph α) : Prop where
  cells : ∀ i, ¬ S i → g'.cells.lookup i = g.cells.lookup i
  feeders : ∀ f, g'.feeders.lookup f = g.feeders.lookup f ∨
    g'.feeders.lookup f = some none ∧ ∃ i, S i ∧ g.feeders.lookup f = some (some i)
  sinkNodes : g'.sinkNodes = g.sinkNodes

section
variable {S : Nat → Prop} {g g' g'' : Graph α} {i : Nat} {n : Cell α} {bad : Fault}

theorem Outside.refl (S : Nat → Prop) (g : Graph α) : Outside S g g :=
  ⟨fun _ _ => rfl, fun _ => Or.inl rfl, rfl⟩

theorem Outside.trans (h : Outside S g g') (h' : Outside S g' g'') : Outside S g g'' := by
  refine ⟨fun i hi => (h'.cells i hi).trans (h.cells i hi), fun f => ?_, h'.sinkNodes.trans h.sinkNodes⟩
  rcases h'.feeders f with heq | htold
  · rw [heq]
    exact h.feeders f
  · obtain ⟨hnone, j, hj, hf⟩ := htold
    rcases h.feeders f with heq | htold
    · rw [← heq]
      exact Or.inr ⟨hnone, j, hj, hf⟩
    · exact Or.inr ⟨hnone, htold.2⟩

/-! ## Inside the tree -/

theorem Closed.put (h : Closed S g) (hi : S i) (hn : g.cells.lookup i = some n) {n' : Cell α} (hsame : n.Same n')
    (hfeeder : n'.feeder = n.feeder) : Outside S g (g.put i n') ∧ Closed S (g.put i n') := by
  have hframe := Frame.put (fun _ => True) hn hsame
  refine ⟨⟨fun j hj => ?_, fun _ => Or.inl rfl, rfl⟩, ?_, ?_, ?_⟩
  · rw [lookup_put, if_neg]
    intro heq
    rw [heq] at hj
    exact hj hi
  · intro j nj' hj hnj' c hc
    obtain ⟨nj, hnj, hs⟩ := hframe.back j nj' hnj'
    rw [hs.body.owned] at hc
    exact h.owned j nj hj hnj c hc
  · intro j nj' p hj hnj' hp
    obtain ⟨nj, hnj, hs⟩ := hframe.back j nj' hnj'
    exact h.parent j nj p hj hnj (hs.parent.symm.trans hp)
  · intro j nj' f hj hnj' hf
    rw [lookup_put] at hnj'
    split at hnj'
    next heq =>
      subst heq
      obtain rfl := Option.some.inj hnj'
      exact h.feeder j n f hj hn (hfeeder.symm.trans hf)
    next => exact h.feeder j nj' f hj hnj' hf

theorem Closed.leaveFeeder (h : Closed S g) (hi : S i) (hn : g.cells.lookup i = some n) :
    Guard.Avoids bad (g.leaveFeeder i n) fun g' => Outside S g g' ∧ Closed S g' := by
  unfold Graph.leaveFeeder
  split
  next => exact ⟨.refl S g, h⟩
  next f hf =>
    have hfeeder := h.feeder i n f hi hn hf
    rw [hfeeder]
    have hframe := Frame.unfeed (fun _ => True) hn (g.feeders.insert f none)
    have hlookup (f' : Nat) := Heap.lookup_insert g.feeders f f' none
    refine ⟨⟨fun j hj => ?_, fun f' => ?_, rfl⟩, ?_, ?_, ?_⟩
    · show (g.put i _).cells.lookup j = _
      rw [lookup_put, if_neg]
      intro heq
      rw [heq] at hj
      exact hj hi
    · show (g.feeders.insert f none).lookup f' = _ ∨ (g.feeders.insert f none).lookup f' = _ ∧ _
      rw [hlookup]
      split
      next heq =>
        rw [heq]
        exact Or.inr ⟨rfl, i, hi, hfeeder⟩
      next => exact Or.inl rfl
    · intro j nj' hj hnj' c hc
      obtain ⟨nj, hnj, hs⟩ := hframe.back j nj' hnj'
      rw [hs.body.owned] at hc
      exact h.owned j nj hj hnj c hc
    · intro j nj' p hj hnj' hp
      obtain ⟨nj, hnj, hs⟩ := hframe.back j nj' hnj'
      exact h.parent j nj p hj hnj (hs.parent.symm.trans hp)
    · intro j nj' f' hj hnj' hf'
      change (g.put i _).cells.lookup j = some nj' at hnj'
      rw [lookup_put] at hnj'
      split at hnj'
      next =>
        obtain rfl := Option.some.inj hnj'
        cases hf'
      next hne =>
        have hother := h.feeder j nj' f' hj hnj' hf'
        show (g.feeders.insert f none).lookup f' = _
        rw [hlookup, if_neg, hother]
        intro heq
        rw [heq, hfeeder] at hother
        exact hne (Option.some.inj (Option.some.inj hother)).symm

theorem Closed.disarm (h : Closed S g) (hbad : Fault.dangling ≠ bad) (i : Nat) :
    Guard.Avoids bad (g.disarm i) fun g' => Outside S g g' ∧ Closed S g' := by
  unfold Graph.disarm Graph.enter
  refine Guard.Avoids.ite (fun _ => ?_) fun _ => Guard.Avoids.error hbad
  exact ⟨⟨fun _ _ => rfl, fun _ => Or.inl rfl, rfl⟩, ⟨h.owned, h.parent, h.feeder⟩⟩

theorem Closed.unlinkChild (h : Closed S g) (hbad : Fault.dangling ≠ bad) {p : Option Nat} (hp : ∀ u ∈ p, S u) :
    Guard.Avoids bad (g.unlinkChild p) fun g' => Outside S g g' ∧ Closed S g' := by
  cases p with
  | none => exact ⟨.refl S g, h⟩
  | some u =>
    show Guard.Avoids bad (g.clearChildStorage u) _
    rw [clearChildStorage, modify]
    cases hu : g.cells.lookup u with
    | none =>
      rw [get, hu]
      exact Guard.Avoids.error hbad
    | some nu =>
      rw [get_bind hu]
      exact h.put (hp u rfl) hu (same_clearChildStorage nu) rfl

theorem Closed.free (h : Closed S g) (hi : S i) : Outside S g { g with cells := g.cells.erase i } ∧
    Closed S { g with cells := g.cells.erase i } := by
  have hback {j : Nat} {nj : Cell α} (hj : (g.cells.erase i).lookup j = some nj) : g.cells.lookup j = some nj := by
    refine (AList.lookup_erase_ne fun heq => ?_).symm.trans hj
    rw [heq, AList.lookup_erase] at hj
    cases hj
  refine ⟨⟨fun j hj => AList.lookup_erase_ne fun heq => ?_, fun _ => Or.inl rfl, rfl⟩,
    fun j nj hj hnj => h.owned j nj hj (hback hnj), fun j nj p hj hnj => h.parent j nj p hj (hback hnj),
    fun j nj f hj hnj => h.feeder j nj f hj (hback hnj)⟩
  rw [heq] at hj
  exact hj hi

theorem Closed.destroy (hbad : Fault.dangling ≠ bad) : ∀ (fuel : Nat) {g : Graph α} {i : Nat}, Closed S g → S i →
    Guard.Avoids bad (destroy fuel g i) fun g' => Outside S g g' ∧ Closed S g'
  | 0, _, _, _, _ => Guard.Avoids.error hbad
  | fuel + 1, g, i, h, hi => by
    rw [Graph.destroy]
    cases hn : g.cells.lookup i with
    | none =>
      rw [get, hn]
      exact Guard.Avoids.error hbad
    | some n =>
      rw [get_bind hn]
      refine Guard.Avoids.bind (h.leaveFeeder hi hn) fun g₁ h₁ => ?_
      refine Guard.Avoids.bind (Guard.Avoids.foldlM (fun rest s => (Outside S g s ∧ Closed S s) ∧ ∀ c ∈ rest, S c) ?_ _ _
        ⟨h₁, h.owned i n hi hn⟩) fun g₂ h₂ => ?_
      · intro c rest s hs
        obtain ⟨⟨hout, hclosed⟩, hrest⟩ := hs
        refine (Closed.destroy hbad fuel hclosed (hrest c List.mem_cons_self)).mono fun s' hs' => ?_
        exact ⟨⟨hout.trans hs'.1, hs'.2⟩, fun c' hc' => hrest c' (List.mem_cons_of_mem c hc')⟩
      · obtain ⟨⟨hout₂, hclosed₂⟩, -⟩ := h₂
        refine Guard.Avoids.bind (hclosed₂.disarm hbad i) fun g₃ h₃ => ?_
        obtain ⟨hout₃, hclosed₃⟩ := h₃
        refine Guard.Avoids.bind (hclosed₃.unlinkChild hbad fun u hu => h.parent i n u hi hn hu) fun g₄ h₄ => ?_
        obtain ⟨hout₄, hclosed₄⟩ := h₄
        obtain ⟨hout₅, hclosed₅⟩ := hclosed₄.free hi
        exact ⟨((hout₂.trans hout₃).trans hout₄).trans hout₅, hclosed₅⟩

/-! ## All of the tree -/

/-- The tree of `r` is gone, its feeders know, and its events have left the queue. -/
structure Felled (g : Graph α) (r : Nat) (g' : Graph α) : Prop where
  aside : ∀ i, ¬ g.Below r i → g'.cells.lookup i = g.cells.lookup i
  below : ∀ i, g.Below r i → i ∉ g'.cells
  told : ∀ f i, g.feeders.lookup f = some (some i) → g.Below r i → g'.feeders.lookup f = some none
  fed : ∀ f, (∀ i, g.feeders.lookup f = some (some i) → ¬ g.Below r i) → g'.feeders.lookup f = g.feeders.lookup f
  armed : ∀ i, g'.loop.isArmed i ↔ g.loop.isArmed i ∧ ¬ g.Below r i
  sound : g'.loop.Sound
  sinkNodes : g'.sinkNodes = g.sinkNodes

theorem Safe.closed_below (h : Safe g 0 0) {r : Nat} (hr : r ∈ g.held) : Closed (g.Below r) g := by
  refine ⟨fun i n hi hn c hc => hi.tail ⟨n, hn, hc⟩, fun i n p hi hn hp => ?_, fun i n f _ hn hf => h.feeder i n f hn hf⟩
  obtain ⟨np, hnp, hown⟩ := h.parent hn hp
  exact h.below_of_owns (by rwa [zero_add]) hnp hown hi

theorem Safe.below_alive (h : Safe g 0 0) {r i : Nat} (hr : r ∈ g.held) (hbelow : g.Below r i) :
    ∃ n, g.cells.lookup i = some n := by
  rcases Relation.ReflTransGen.cases_tail hbelow with rfl | htail
  · exact h.alive (by simp [hr])
  · obtain ⟨w, -, n, hn, hown⟩ := htail
    exact h.owned_alive hn (Multiset.notMem_zero w) hown

theorem Safe.felled (h : Safe g 0 0) {r : Nat} (hr : r ∈ g.held) (h' : Sane g') (hout : Outside (g.Below r) g g')
    (hthin : Thinned g g') (hback : ∀ i n', g'.cells.lookup i = some n' → ∃ n, g.cells.lookup i = some n ∧ n.Same n')
    (hheld : ∀ i ∈ g'.held, i ∈ g.held ∧ i ≠ r) : Felled g r g' := by
  obtain ⟨hsafe', depth, hranked'⟩ := h'
  have hbelow {p c : Nat} (hpc : g'.Below p c) : g.Below p c := by
    induction hpc with
    | refl => exact .refl
    | tail _ howns ih =>
      obtain ⟨n', hn', hown⟩ := howns
      obtain ⟨n, hn, hsame⟩ := hback _ n' hn'
      rw [hsame.body.owned] at hown
      exact ih.tail ⟨n, hn, hown⟩
  have hgone : ∀ i, g.Below r i → i ∉ g'.cells := by
    intro i hi hmem
    obtain ⟨r', hr', hbelow'⟩ := hsafe'.reached hranked' hmem
    obtain ⟨hheld', hne⟩ := hheld r' hr'
    exact hne (h.root_below hheld' (h.below_meet hr (hbelow hbelow') hi)).symm
  refine ⟨hout.cells, hgone, fun f i hf hi => ?_, fun f hf => ?_, fun i => ?_, hsafe'.queue.sound, hout.sinkNodes⟩
  · rcases hout.feeders f with heq | htold
    · obtain ⟨n', hn', -⟩ := hsafe'.feedees f i (heq.trans hf)
      exact absurd (mem_of_lookup hn') (hgone i hi)
    · exact htold.1
  · rcases hout.feeders f with heq | htold
    · exact heq
    · obtain ⟨-, i, hi, hfi⟩ := htold
      exact absurd hi (hf i hfi)
  · constructor
    · intro hi
      rcases hsafe'.queue.alive i hi with hsinks | ⟨n', hn', -⟩
      · refine ⟨(hthin.armed i (Or.inl hsinks)).mp hi, fun hbelow => ?_⟩
        obtain ⟨n, hn⟩ := h.below_alive hr hbelow
        exact Nat.ne_of_gt (h.cells i (mem_of_lookup hn)).1 hsinks
      · have hmem := mem_of_lookup hn'
        exact ⟨(hthin.armed i (Or.inr hmem)).mp hi, fun hbelow => hgone i hbelow hmem⟩
    · rintro ⟨hi, hbelow⟩
      refine (hthin.armed i ((h.queue.alive i hi).imp_right fun ⟨n, hn, _⟩ => ?_)).mpr hi
      refine mem_of_lookup (n := n) ?_
      rw [hout.cells i hbelow, hn]

theorem held_release (h : Safe g 0 0) {k r : Nat} {hd : Handle α} (hk : g.handles.lookup k = some hd)
    (howned : hd.owned = {r}) {i : Nat} (hi : i ∈ (g.release k).held) : i ∈ g.held ∧ i ≠ r := by
  have hsafe := h.release hk
  have hsplit : g.held = {r} + (g.release k).held := by
    have herase := Heap.total_erase (fun _ (hd : Handle α) => hd.owned) hk
    rw [howned] at herase
    unfold held
    rw [herase, add_assoc]
    rfl
  refine ⟨hsplit ▸ Multiset.mem_add.mpr (Or.inr hi), fun heq => ?_⟩
  have hdisjoint := (Multiset.nodup_add.mp (Multiset.nodup_add.mp hsafe.nodup).1).2.2
  rw [heq] at hi
  refine Multiset.disjoint_left.mp hdisjoint ?_ hi
  rw [howned]
  simp

theorem Sane.drop_felled (h : Sane g) {k r : Nat} {hd : Handle α} (hk : g.handles.lookup k = some hd)
    (hroot : hd.root = some r) (hspared : g.Spared r) :
    ∃ g', (g.release k).drop r = .ok g' ∧ g'.handles = g.handles.erase k ∧ Felled g r g' := by
  obtain ⟨hsafe, depth, hranked⟩ := h
  have howned : hd.owned = {r} := by
    rw [Handle.owned, hroot]
    rfl
  have hr : r ∈ g.held := mem_held hk (howned ▸ Multiset.mem_singleton_self r)
  have hsafe₁ := hsafe.release hk
  rw [howned] at hsafe₁
  have hranked₁ : (g.release k).Ranked depth := hranked
  have hspared₁ : (g.release k).Spared r := hspared
  have hclosed : Closed (g.Below r) (g.release k) :=
    have hc := hsafe.closed_below hr
    ⟨hc.owned, hc.parent, hc.feeder⟩
  have hspec := hsafe₁.drop hranked₁ (.zero _ depth r) hspared₁
  cases hdrop : (g.release k).drop r with
  | error fault =>
    rw [hdrop] at hspec
    have hstop := hclosed.destroy (Ne.symm hspec) (g.release k).cells.keys.length .refl
    change Guard.Avoids fault ((g.release k).drop r) _ at hstop
    rw [hdrop] at hstop
    exact absurd rfl hstop
  | ok g' =>
    have hne : Fault.dangling ≠ .assertion := Fault.noConfusion
    have hstop := hclosed.destroy hne (g.release k).cells.keys.length .refl
    change Guard.Avoids .assertion ((g.release k).drop r) _ at hstop
    rw [hdrop] at hspec hstop
    obtain ⟨hsafe', hframe, hthin⟩ := hspec
    have hout : Outside (g.Below r) g g' := ⟨hstop.1.cells, hstop.1.feeders, hstop.1.sinkNodes⟩
    have hthin' : Thinned g g' := ⟨hthin.later, hthin.armed⟩
    refine ⟨g', rfl, hframe.handles,
      hsafe.felled hr ⟨hsafe', depth, hframe.ranked hranked₁⟩ hout hthin' hframe.back fun i hi => ?_⟩
    refine held_release hsafe hk howned ?_
    unfold held at hi ⊢
    rw [← hframe.handles, ← hframe.sinkNodes]
    exact hi

/-- **What goes with a handle**: dropping it destroys the tree below its node, all of it and nothing else, unless the
later insertion point is in the tree. -/
theorem dropHandle_fells (ops : List (Op α)) (hcareful : Run.Along Graph.step Careful new ops) {answers g}
    (hrun : Run.exec Graph.step new ops = some (answers, g)) {k r : Nat}
    (hk : (∃ c, g.handles.lookup k = some (.conveyor c) ∧ c.node.base = r) ∨ g.handles.lookup k = some (.sink r))
    (hspared : g.Spared r) :
    ∃ g', g.step (.dropHandle k) = some (.ok .done, g') ∧ g'.handles = g.handles.erase k ∧ Felled g r g' := by
  have hsane := run_sane hcareful hrun
  have hstep {hd : Handle α} (hk : g.handles.lookup k = some hd) (hroot : hd.root = some r)
      (hdo : g.dropHandle k = (g.release k).drop r) :
      ∃ g', g.step (.dropHandle k) = some (.ok .done, g') ∧ g'.handles = g.handles.erase k ∧ Felled g r g' := by
    obtain ⟨g', hdrop, hrest⟩ := hsane.drop_felled hk hroot hspared
    have hperform : g.perform (.dropHandle k) = .ok (.done, g') := by
      show (do return (Reply.done, ← g.dropHandle k)) = _
      rw [hdo, hdrop]
      rfl
    refine ⟨g', ?_, hrest⟩
    unfold Graph.step
    rw [hperform]
  rcases hk with hconveyor | hsink
  · obtain ⟨c, hk, rfl⟩ := hconveyor
    refine hstep hk rfl ?_
    rw [dropHandle, hk]
  · refine hstep hsink rfl ?_
    rw [dropHandle, hsink]

/-- The merge goes with both feeders' nodes and its armed event; the value behind the buffer, which holds the later
insertion point, stays. -/
theorem dropHandle_fells_attached : ∃ answers g, Run.exec Graph.step new attached = some (answers, g) ∧
    g.loop.laterInsertPoint = .next 11 ∧ g.loop.isArmed 7 = true ∧
    ∃ g', g.step (.dropHandle 3) = some (.ok .done, g') ∧ g'.handles = g.handles.erase 3 ∧ Felled g 7 g' := by
  have hend : (Run.exec Graph.step new attached).map (fun r => (r.2.loop.laterInsertPoint, r.2.loop.isArmed 7,
      (r.2.handles.lookup 3).bind Handle.root, r.2.isAside 7 11)) = some (.next 11, true, some 7, true) := by decide
  obtain ⟨⟨answers, g⟩, hrun, hend⟩ := Option.map_eq_some_iff.mp hend
  obtain ⟨hlater, hend⟩ := Prod.mk.inj hend
  obtain ⟨harmed, hend⟩ := Prod.mk.inj hend
  obtain ⟨hroot, haside⟩ := Prod.mk.inj hend
  have hchecked : Run.Along Graph.step (fun g op => g.isCareful op) new attached := by decide
  have hspared : g.Spared 7 := by
    intro e he
    obtain rfl := Slot.next.inj (hlater.symm.trans he)
    exact not_below_of_isAside haside
  have hk : (∃ c, g.handles.lookup 3 = some (.conveyor c) ∧ c.node.base = 7) ∨ g.handles.lookup 3 = some (.sink 7) := by
    obtain ⟨hd, hlookup, hroot⟩ := Option.bind_eq_some_iff.mp hroot
    cases hd with
    | conveyor c => exact Or.inl ⟨c, hlookup, Option.some.inj hroot⟩
    | sink i => exact Or.inr (hlookup.trans (congrArg (fun i => some (Handle.sink i)) (Option.some.inj hroot)))
    | merger m => cases hroot
  exact ⟨answers, g, hrun, hlater, harmed,
    dropHandle_fells attached (hchecked.mono fun _ _ => careful_of_isCareful) hrun hk hspared⟩

end

end Graph

end Forstio
