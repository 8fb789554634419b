import Forstio.MergeTurn

/-!
# What a merge node lets through

The results of a source stand in the queues on its path, from its slot back to
its feeder's node. `Logged s fed`: what came out of the merge node can be
attributed to the sources such that each one's share, followed by what is still
on its path, is all that was fed to it.
-/

namespace Forstio

namespace Net

variable {α : Type}

/-- The nodes of the source with feeder node `f`, the outermost first. -/
def path (s : Net α) (f : Nat) : List Nat :=
  match s.role f with
  | .feeder none => [f]
  | .feeder (some p) =>
    match s.role p with
    | .buffer _ _ (some a) => [a, p, f]
    | _ => [p, f]
  | _ => []

def held (s : Net α) (f : Nat) : List (ErrorOr α) := (s.path f).flatMap s.queue

def source (s : Net α) (j : Nat) : Nat :=
  match s.role j with
  | .buffer c _ _ => c
  | .slot c =>
    match s.role c with
    | .buffer f _ _ => f
    | _ => c
  | _ => j

/-- What the merge node gave to a buffer behind it. -/
def passed (s : Net α) : List (ErrorOr α) :=
  match s.outlet with
  | none => []
  | some o => s.queue o

end Net

def share {α : Type} (log : List (Nat × α)) (f : Nat) : List α := (log.filter (·.1 = f)).map Prod.snd

namespace Net

variable {α : Type}

def Logged (s : Net α) (fed : Nat → List (ErrorOr α)) : Prop :=
  ∃ log : List (Nat × ErrorOr α), log.map Prod.snd = s.delivered ++ s.passed ∧ ∀ f, share log f ++ s.held f = fed f

theorem share_append_self (log : List (Nat × α)) (f : Nat) (x : α) : share (log ++ [(f, x)]) f = share log f ++ [x] := by
  simp [share]

theorem share_append_ne {f g : Nat} (h : g ≠ f) (log : List (Nat × α)) (x : α) :
    share (log ++ [(f, x)]) g = share log g := by
  simp [share, Ne.symm h]

section
variable {s t : Net α} {i : Nat}

/-! ## Paths -/

theorem path_loose (h : s.role i = .feeder none) : s.path i = [i] := by
  simp only [path, h]

theorem path_buffer {p c l : Nat} (h : s.role i = .feeder (some p)) (hp : s.role p = .buffer c l none) :
    s.path i = [p, i] := by
  simp only [path, h, hp]

theorem path_slot {p c : Nat} (h : s.role i = .feeder (some p)) (hp : s.role p = .slot c) : s.path i = [p, i] := by
  simp only [path, h, hp]

theorem path_attached {p c l a : Nat} (h : s.role i = .feeder (some p)) (hp : s.role p = .buffer c l (some a)) :
    s.path i = [a, p, i] := by
  simp only [path, h, hp]

theorem Wired.path_cases (h : Wired s) (f : Nat) :
    s.path f = [] ∨ s.role f = .feeder none ∧ s.path f = [f] ∨
    (∃ p l, s.role f = .feeder (some p) ∧ s.role p = .buffer f l none ∧ s.path f = [p, f]) ∨
    (∃ a, s.role f = .feeder (some a) ∧ s.role a = .slot f ∧ s.path f = [a, f]) ∨
    (∃ a p l, s.role f = .feeder (some p) ∧ s.role p = .buffer f l (some a) ∧ s.role a = .slot p ∧
      s.path f = [a, p, f]) := by
  cases hrole : s.role f with
  | feeder p =>
    cases p with
    | none => exact Or.inr (Or.inl ⟨rfl, path_loose hrole⟩)
    | some p =>
      rcases h.feeder f p hrole with ⟨l, a, hp⟩ | hp
      · cases a with
        | none => exact Or.inr (Or.inr (Or.inl ⟨p, l, rfl, hp, path_buffer hrole hp⟩))
        | some a =>
          obtain ⟨-, -, ⟨-, hslot⟩ | ⟨-, -, hnone⟩⟩ := h.buffer p f l (some a) hp
          · exact Or.inr (Or.inr (Or.inr (Or.inr ⟨a, p, l, rfl, hp, hslot a rfl, path_attached hrole hp⟩)))
          · cases hnone
      · exact Or.inr (Or.inr (Or.inr (Or.inl ⟨p, rfl, hp, path_slot hrole hp⟩)))
  | _ => exact Or.inl (by simp only [path, hrole])

theorem Wired.source_path (h : Wired s) {f j : Nat} (hj : j ∈ s.path f) : s.source j = f := by
  rcases h.path_cases f with hpath | ⟨hf, hpath⟩ | ⟨p, l, hf, hp, hpath⟩ | ⟨a, hf, ha, hpath⟩ |
    ⟨a, p, l, hf, hp, ha, hpath⟩
  · rw [hpath] at hj
    cases hj
  · rw [hpath, List.mem_singleton] at hj
    subst hj
    simp only [source, hf]
  · rw [hpath, List.mem_pair] at hj
    rcases hj with rfl | rfl
    · simp only [source, hp]
    · simp only [source, hf]
  · rw [hpath, List.mem_pair] at hj
    rcases hj with rfl | rfl
    · simp only [source, ha, hf]
    · simp only [source, hf]
  · simp only [hpath, List.mem_cons, List.not_mem_nil, or_false] at hj
    rcases hj with rfl | rfl | rfl
    · simp only [source, ha, hp]
    · simp only [source, hp]
    · simp only [source, hf]

theorem Wired.nodup_path (h : Wired s) (f : Nat) : (s.path f).Nodup := by
  rcases h.path_cases f with hpath | ⟨hf, hpath⟩ | ⟨p, l, hf, hp, hpath⟩ | ⟨a, hf, ha, hpath⟩ |
    ⟨a, p, l, hf, hp, ha, hpath⟩
  · rw [hpath]
    exact List.nodup_nil
  · rw [hpath]
    exact List.nodup_singleton f
  · rw [hpath]
    refine List.nodup_cons.mpr ⟨fun hmem => ?_, List.nodup_singleton f⟩
    rw [List.mem_singleton.mp hmem, hf] at hp
    cases hp
  · rw [hpath]
    refine List.nodup_cons.mpr ⟨fun hmem => ?_, List.nodup_singleton f⟩
    rw [List.mem_singleton.mp hmem, hf] at ha
    cases ha
  · rw [hpath]
    refine List.nodup_cons.mpr ⟨fun hmem => ?_, List.nodup_cons.mpr ⟨fun hmem => ?_, List.nodup_singleton f⟩⟩
    · rcases List.mem_pair.mp hmem with rfl | rfl
      · rw [hp] at ha
        cases ha
      · rw [hf] at ha
        cases ha
    · rw [List.mem_singleton.mp hmem, hf] at hp
      cases hp

/-! ## What is held -/

theorem flatMap_update {q : Nat → List (ErrorOr α)} {j : Nat} {xs : List (ErrorOr α)} {js : List Nat} (hj : j ∉ js) :
    js.flatMap (Function.update q j xs) = js.flatMap q := by
  refine List.flatMap_congr fun a ha => Function.update_of_ne ?_ _ _
  rintro rfl
  exact hj ha

theorem held_setQueue {f : Nat} (hi : i ∉ s.path f) (xs : List (ErrorOr α)) : (s.setQueue i xs).held f = s.held f :=
  flatMap_update hi

theorem Wired.held_hop (h : Wired s) {p f : Nat} {as bs : List Nat} (hpath : s.path f = as ++ p :: i :: bs)
    {x : ErrorOr α} {xs : List (ErrorOr α)} (hq : s.queue i = x :: xs) (g : Nat) :
    (s.hop i p x xs).held g = s.held g := by
  have hnd := h.nodup_path f
  rw [hpath] at hnd
  obtain ⟨-, htail, hdisjoint⟩ := List.nodup_append.mp hnd
  obtain ⟨hp, htail⟩ := List.nodup_cons.mp htail
  obtain ⟨hi, -⟩ := List.nodup_cons.mp htail
  rw [List.mem_cons, not_or] at hp
  by_cases hg : g = f
  · subst hg
    have hpa : p ∉ as := fun ha => hdisjoint p ha p (List.mem_cons_self ..) rfl
    have hia : i ∉ as := fun ha => hdisjoint i ha i (List.mem_cons_of_mem _ (List.mem_cons_self ..)) rfl
    have hqi : (s.hop i p x xs).queue i = xs := queue_hop (Ne.symm hp.1) x xs
    have hqp : (s.hop i p x xs).queue p = s.queue p ++ [x] := queue_setQueue_self _
    have has : as.flatMap (s.hop i p x xs).queue = as.flatMap s.queue := (flatMap_update hpa).trans (flatMap_update hia)
    have hbs : bs.flatMap (s.hop i p x xs).queue = bs.flatMap s.queue := (flatMap_update hp.2).trans (flatMap_update hi)
    calc (s.hop i p x xs).held g = (as ++ p :: i :: bs).flatMap (s.hop i p x xs).queue := by
          rw [← hpath]
          rfl
      _ = as.flatMap s.queue ++ (s.queue p ++ [x] ++ (xs ++ bs.flatMap s.queue)) := by
          rw [List.flatMap_append, List.flatMap_cons, List.flatMap_cons, has, hbs, hqi, hqp]
      _ = as.flatMap s.queue ++ (s.queue p ++ (x :: xs ++ bs.flatMap s.queue)) := by
          simp only [List.append_assoc, List.cons_append, List.nil_append]
      _ = s.held g := by
          rw [held, hpath, List.flatMap_append, List.flatMap_cons, List.flatMap_cons, hq]
  · have hmem : ∀ j, j ∈ s.path f → j ∉ s.path g := fun j hj hj' => hg ((h.source_path hj').symm.trans (h.source_path hj))
    have hi' : i ∉ s.path g := hmem i (by rw [hpath]; simp)
    have hp' : p ∉ s.path g := hmem p (by rw [hpath]; simp)
    exact (flatMap_update hp').trans (flatMap_update hi')

theorem Wired.slot_path (h : Wired s) {a : Nat} (ha : a ∈ s.slots) : ∃ f js, s.path f = a :: js := by
  obtain ⟨c, hslot⟩ := h.slots a ha
  obtain ⟨-, -, -, hc | ⟨f, l, hc⟩⟩ := h.slot a c hslot
  · exact ⟨c, [c], path_slot hc hslot⟩
  · obtain ⟨-, -, ⟨hf, -⟩ | ⟨-, -, hnone⟩⟩ := h.buffer c f l (some a) hc
    · exact ⟨f, [c, f], path_attached hf hc⟩
    · cases hnone

theorem Wired.held_unslot (h : Wired s) {a k : Nat} (ha : a ∈ s.slots) {x : ErrorOr α} (hq : s.queue a = [x]) :
    ∃ f, s.held f = x :: (s.unslot a k).held f ∧ ∀ g, g ≠ f → (s.unslot a k).held g = s.held g := by
  obtain ⟨f, js, hpath⟩ := h.slot_path ha
  refine ⟨f, ?_, fun g hg => ?_⟩
  · have hjs : a ∉ js := (List.nodup_cons.mp (hpath ▸ h.nodup_path f)).1
    have hqa : (s.unslot a k).queue a = [] := queue_setQueue_self []
    have hrest : js.flatMap (s.unslot a k).queue = js.flatMap s.queue := flatMap_update hjs
    have hpath' : (s.unslot a k).path f = a :: js := hpath
    rw [held, held, hpath, hpath', List.flatMap_cons, List.flatMap_cons, hq, hqa, hrest]
    rfl
  · refine held_setQueue (s := { s with cursor := k }) ?_ []
    exact fun hmem => hg ((h.source_path hmem).symm.trans (h.source_path (hpath ▸ List.mem_cons_self ..)))

/-! ## Logging -/

variable {fed : Nat → List (ErrorOr α)}

theorem Logged.same (h : Logged s fed) (hdelivered : t.delivered ++ t.passed = s.delivered ++ s.passed)
    (hheld : ∀ f, t.held f = s.held f) : Logged t fed := by
  obtain ⟨log, hlog, hfed⟩ := h
  refine ⟨log, hlog.trans hdelivered.symm, fun f => ?_⟩
  rw [hheld]
  exact hfed f

theorem Logged.leave (h : Logged s fed) {x : ErrorOr α} {f : Nat}
    (hdelivered : t.delivered ++ t.passed = s.delivered ++ s.passed ++ [x]) (hf : s.held f = x :: t.held f)
    (hrest : ∀ g, g ≠ f → t.held g = s.held g) : Logged t fed := by
  obtain ⟨log, hlog, hfed⟩ := h
  refine ⟨log ++ [(f, x)], ?_, fun g => ?_⟩
  · rw [hdelivered, ← hlog, List.map_append]
    rfl
  · rw [← hfed g]
    by_cases hg : g = f
    · subst hg
      rw [share_append_self, hf, List.append_assoc]
      rfl
    · rw [share_append_ne hg, hrest g hg]

theorem Wired.outlet_path (h : Wired s) {o : Nat} (ho : s.outlet = some o) (f : Nat) : o ∉ s.path f := by
  intro hmem
  obtain ⟨m, hm, hrole⟩ := h.outlet o ho
  have hmr : s.role m = .merger := (h.merger m).mpr hm
  have hsource := h.source_path hmem
  rcases hrole with hsink | ⟨l, hbuffer⟩
  · simp only [source, hsink] at hsource
    subst hsource
    simp only [path, hsink, List.not_mem_nil] at hmem
  · simp only [source, hbuffer] at hsource
    subst hsource
    simp only [path, hmr, List.not_mem_nil] at hmem

theorem passed_congr (houtlet : t.outlet = s.outlet) (hqueue : ∀ o, s.outlet = some o → t.queue o = s.queue o) :
    t.passed = s.passed := by
  unfold passed
  rw [houtlet]
  cases ho : s.outlet with
  | none => rfl
  | some o => exact hqueue o ho

theorem Wired.passed_hop (h : Wired s) {p f : Nat} {as bs : List Nat} (hpath : s.path f = as ++ p :: i :: bs)
    (x : ErrorOr α) (xs : List (ErrorOr α)) : (s.hop i p x xs).passed = s.passed := by
  refine passed_congr rfl fun o ho => ?_
  have hout : o ∉ s.path f := h.outlet_path ho f
  have hop : o ≠ p := by
    rintro rfl
    exact hout (by rw [hpath]; simp)
  have hoi : o ≠ i := by
    rintro rfl
    exact hout (by rw [hpath]; simp)
  rw [Net.hop, queue_setQueue hop, queue_setQueue hoi]

theorem Logged.hop (h : Logged s fed) (hw : Wired s) {p f : Nat} {as bs : List Nat}
    (hpath : s.path f = as ++ p :: i :: bs) {x : ErrorOr α} {xs : List (ErrorOr α)} (hq : s.queue i = x :: xs) :
    Logged (s.hop i p x xs) fed := by
  refine h.same ?_ (hw.held_hop hpath hq)
  rw [hw.passed_hop hpath]
  rfl

theorem Logged.armLater (h : Logged s fed) (j : Nat) : Logged (s.armLater j) fed := h

/-- **Firing** loses nothing and makes nothing up. -/
theorem Fires.logged (hf : Fires s i t) (hw : Wired s) (h : Logged s fed) : Logged t fed := by
  cases hf with
  | idle => exact h
  | retry => exact h.armLater i
  | store p l a x xs t hrole hp hq hroom ht =>
    have hpath : ∃ as, s.path i = as ++ p :: i :: [] := by
      cases a with
      | none => exact ⟨[], path_buffer hrole hp⟩
      | some a => exact ⟨[a], path_attached hrole hp⟩
    obtain ⟨as, hpath⟩ := hpath
    have hlogged : Logged t fed := by
      rw [ht]
      exact (h.hop hw hpath hq).armLater p
    by_cases hxs : xs = []
    · rwa [if_pos hxs]
    · rw [if_neg hxs]
      exact hlogged.armLater i
  | offer p x xs t hrole hp hq hempty ht =>
    have hpath : s.path i = [] ++ p :: i :: [] := path_slot hrole hp
    have hlogged : Logged t fed := by
      rw [ht]
      exact (h.hop hw hpath hq).armLater s.hub
    by_cases hxs : xs = []
    · rwa [if_pos hxs]
    · rw [if_neg hxs]
      exact hlogged.armLater i
  | release p c l x xs hrole hp hq hempty =>
    obtain ⟨-, -, ⟨hc, -⟩ | ⟨-, -, hnone⟩⟩ := hw.buffer i c l (some p) hrole
    · have hpath : s.path c = [] ++ p :: i :: [c] := path_attached hc hrole
      exact (h.hop hw hpath hq).armLater s.hub
    · cases hnone
  | deliver o a k x t u hrole ho hsink ha hqa ht hu =>
    obtain ⟨f, hf, hrest⟩ := hw.held_unslot (k := k) ha hqa
    have hempty : s.queue o = [] := hw.empty o (Or.inr (Or.inl hsink))
    have hoa : o ≠ a := by
      rintro rfl
      rw [hempty] at hqa
      cases hqa
    have hlogged : Logged t fed := by
      rw [ht]
      refine h.leave ?_ hf hrest
      simp only [passed, Net.unslot, Net.setQueue, ho, Function.update_of_ne hoa, hempty, List.append_nil]
    rcases hu with ⟨-, rfl⟩ | ⟨-, rfl⟩
    · exact hlogged.armLater i
    · exact hlogged
  | pass o l a k x t u hrole ho hbuffer ha hqa hroom ht hu =>
    obtain ⟨f, hf, hrest⟩ := hw.held_unslot (k := k) ha hqa
    have hheld : ∀ g, ((s.unslot a k).setQueue o (s.queue o ++ [x])).held g = (s.unslot a k).held g :=
      fun g => held_setQueue (s := s.unslot a k) (hw.outlet_path ho g) _
    have hlogged : Logged t fed := by
      rw [ht]
      refine Logged.armLater (s := (s.unslot a k).setQueue o (s.queue o ++ [x])) ?_ o
      refine h.leave (x := x) (f := f) ?_ ?_ fun g hg => ?_
      · have hpassed : ((s.unslot a k).setQueue o (s.queue o ++ [x])).passed = s.queue o ++ [x] := by
          simp only [passed, Net.unslot, Net.setQueue, ho, Function.update_self]
        rw [hpassed, List.append_assoc]
        simp only [passed, ho]
        rfl
      · rw [hheld]
        exact hf
      · rw [hheld]
        exact hrest g hg
    rcases hu with ⟨-, rfl⟩ | rfl
    · exact hlogged.armLater i
    · exact hlogged

theorem Turns.logged (ht : Turns s t) (hw : Wired s) (h : Logged s fed) : Logged t fed := by
  cases ht with
  | rest => exact h
  | fire i loop t hturn hi hf =>
    exact hf.logged ⟨hw.fresh, hw.feeder, hw.buffer, hw.slot, hw.slots, hw.merger, hw.outlet, hw.sink, hw.empty, hw.calm⟩ h

end

end Net

end Forstio
