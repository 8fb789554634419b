import Forstio.MergeGrow
import Forstio.Lib.Run

/-!
# Merging sources

Any number of feeders, each possibly with a buffer in front, are attached to one
merge node at any time, between feeding, turning and taking; the merged conveyor
may end in a sink or in a buffer. Unless a turn fires a source into a slot that
is still occupied, or the merge node while all slots are empty, every result
that was fed is delivered or still on its way, each source's in order.
-/

namespace Forstio

/-- A feeder with its conveyor, until that is attached. -/
structure Source (α : Type) where
  feeder : Nat
  conveyor : Option (Conveyor α)

/-- `outer` is the merged conveyor until a sink owns it; `fed` logs what each feeder was given. -/
structure Merging (α : Type) where
  world : World α
  sources : List (Source α)
  merger : Option Nat
  outer : Option (Conveyor α)
  fed : Nat → List (ErrorOr α)

namespace World

variable {α : Type}

/-- What a source still has to hand out: at most a buffer and a slot are in front of its feeder. -/
def held (w : World α) (feeder : Nat) : List (ErrorOr α) :=
  match (w.nodes feeder).bind (·.parent) with
  | none => w.queueAt feeder
  | some p =>
    match (w.nodes p).bind (·.parent) with
    | none => w.queueAt p ++ w.queueAt feeder
    | some a => w.queueAt a ++ w.queueAt p ++ w.queueAt feeder

end World

namespace Merging

variable {α : Type}

/-- Limits are `size_t` values, and nobody fails critically. -/
inductive Call (α : Type) where
  | source (limit : Option (Fin (2 ^ 64)))
  | feed (k : Nat) (v : α)
  | fail (k : Nat) (e : Error) (recoverable : e.isCritical = false)
  | attach (k : Nat)
  | buffer (limit : Fin (2 ^ 64))
  | sink
  | turn
  | take

def start : Merging α := ⟨World.new, [], none, none, fun _ => []⟩

def give (m : Merging α) (k : Nat) (x : ErrorOr α) : Merging α :=
  match m.sources[k]? with
  | none => m
  | some src => { m with
      world := m.world.feedResult src.feeder x
      fed := Function.update m.fed src.feeder (m.fed src.feeder ++ [x]) }

def bare (m : Merging α) : Option (Conveyor α) := m.outer.filter fun c => m.merger = some c.storage

def step (m : Merging α) : Call α → Option (Option (ErrorOr α) × Merging α)
  | .source none =>
    let (feeder, conveyor, w) := Conveyor.newConveyorAndFeeder m.world
    return (none, { m with world := w, sources := m.sources ++ [⟨feeder, some conveyor⟩] })
  | .source (some limit) => do
    let (feeder, conveyor, w) := Conveyor.newConveyorAndFeeder m.world
    let (conveyor, w) ← conveyor.buffer w limit.val
    return (none, { m with world := w, sources := m.sources ++ [⟨feeder, some conveyor⟩] })
  | .feed k v => return (none, m.give k (.value v))
  | .fail k e _ => return (none, m.give k (.error e))
  | .attach k =>
    match m.sources[k]? with
    | some ⟨feeder, some conveyor⟩ =>
      match m.merger with
      | none => do
        let (merged, merger, w) ← conveyor.merge m.world
        return (none, { m with
          world := w, sources := m.sources.set k ⟨feeder, none⟩, merger := some merger, outer := some merged })
      | some merger => do
        let w ← conveyor.attach m.world merger
        return (none, { m with world := w, sources := m.sources.set k ⟨feeder, none⟩ })
    | _ => return (none, m)
  | .buffer limit =>
    match m.bare with
    | none => return (none, m)
    | some merged => do
      let (conveyor, w) ← merged.buffer m.world limit.val
      return (none, { m with world := w, outer := some conveyor })
  | .sink =>
    match m.bare with
    | none => return (none, m)
    | some merged => do
      let (_, w) ← merged.sink m.world
      return (none, { m with world := w, outer := none })
  | .turn => do
    let (_, w) ← m.world.turn
    return (none, { m with world := w })
  | .take =>
    match m.outer with
    | none => return (none, m)
    | some conveyor => do
      let (x, w) ← conveyor.take m.world
      return (some x, { m with world := w })

/-- What a buffer behind the merge node holds. -/
def passed (m : Merging α) : List (ErrorOr α) :=
  match m.outer with
  | none => []
  | some conveyor => m.world.queueAt conveyor.storage

/-- What came out of the merge can be attributed to the sources, so that each one's share, followed by
what it still has to hand out, is all that was fed to it. -/
def Conserved (m : Merging α) : Prop :=
  ∃ log : List (Nat × ErrorOr α), log.map Prod.snd = m.world.delivered ++ m.passed ∧
    ∀ src ∈ m.sources, share log src.feeder ++ m.world.held src.feeder = m.fed src.feeder

def Clear (m : Merging α) : Call α → Prop
  | .turn => m.world.Clear
  | _ => True

instance (m : Merging α) : ∀ call : Call α, Decidable (m.Clear call)
  | .turn => inferInstanceAs (Decidable m.world.Clear)
  | .source _ => isTrue trivial
  | .feed _ _ => isTrue trivial
  | .fail _ _ _ => isTrue trivial
  | .attach _ => isTrue trivial
  | .buffer _ => isTrue trivial
  | .sink => isTrue trivial
  | .take => isTrue trivial

end Merging

namespace Net

variable {α : Type}

def outer (s : Net α) : Option (Conveyor α) :=
  match s.outlet with
  | none => s.merger.map fun m => ⟨.storage m, m⟩
  | some o =>
    match s.role o with
    | .sink => none
    | _ => some ⟨.storage o, o⟩

def Sourced (s : Net α) (src : Source α) : Prop :=
  (∃ p, s.role src.feeder = .feeder p) ∧
    match src.conveyor with
    | none => ∃ a ∈ s.slots, ∃ js, s.path src.feeder = a :: js
    | some conveyor => ∃ j, conveyor = ⟨.storage j, j⟩ ∧ s.Loose j ∧ s.source j = src.feeder

section
variable {s t : Net α} {src : Source α} {i : Nat}

theorem Sourced.same (h : s.Sourced src) (ht : Same s t) : t.Sourced src := by
  obtain ⟨hf, hrest⟩ := h
  have hpath : t.path src.feeder = s.path src.feeder := path_congr (by rw [ht.role]) fun p _ => by rw [ht.role]
  refine ⟨by rw [ht.role]; exact hf, ?_⟩
  cases hc : src.conveyor with
  | none =>
    rw [hc] at hrest
    obtain ⟨a, ha, js, hjs⟩ := hrest
    exact ⟨a, by rw [ht.slots]; exact ha, js, hpath.trans hjs⟩
  | some conveyor =>
    rw [hc] at hrest
    obtain ⟨j, hj, hloose, hsource⟩ := hrest
    refine ⟨j, hj, ?_, ?_⟩
    · unfold Loose
      rw [ht.role]
      exact hloose
    · unfold source
      rw [ht.role]
      exact hsource

theorem outer_congr (houtlet : t.outlet = s.outlet) (hmerger : t.merger = s.merger)
    (hrole : ∀ o, s.outlet = some o → t.role o = s.role o) : t.outer = s.outer := by
  unfold outer
  rw [houtlet, hmerger]
  cases ho : s.outlet with
  | none => rfl
  | some o => simp only [hrole o ho]

theorem Same.outer (ht : Same s t) : t.outer = s.outer :=
  outer_congr ht.outlet ht.merger fun _ _ => by rw [ht.role]

theorem Wired.outlet_ne_free (h : Wired s) {o : Nat} (ho : s.outlet = some o) : s.role o ≠ .free := by
  obtain ⟨m, -, hsink | ⟨l, hbuffer⟩⟩ := h.outlet o ho
  · rw [hsink]
    exact Role.noConfusion
  · rw [hbuffer]
    exact Role.noConfusion

theorem Wired.outlet_ne_loose (h : Wired s) {o : Nat} (ho : s.outlet = some o) (hi : s.Loose i) : o ≠ i := by
  rintro rfl
  obtain ⟨m, hm, hrole⟩ := h.outlet o ho
  rcases hi with hi | ⟨f, l, hi, hf⟩
  · rcases hrole with hsink | ⟨l, hbuffer⟩
    · rw [hi] at hsink
      cases hsink
    · rw [hi] at hbuffer
      cases hbuffer
  · rcases hrole with hsink | ⟨l', hbuffer⟩
    · rw [hi] at hsink
      cases hsink
    · rw [hi] at hbuffer
      cases hbuffer
      rw [(h.merger m).mpr hm] at hf
      cases hf

theorem Sourced.alloc (h : s.Sourced src) (hw : Wired s) {r : Role} (hrole : t.role = (s.alloc r).role)
    (hslots : t.slots = s.slots) : t.Sourced src := by
  obtain ⟨⟨p, hf⟩, hrest⟩ := h
  have hkeep : ∀ {j r'}, s.role j = r' → r' ≠ .free → t.role j = r' := by
    intro j r' hj hr'
    rw [hrole]
    exact hw.alloc_keeps hj hr'
  have hpath : t.path src.feeder = s.path src.feeder := by
    rw [path_congr (s := s.alloc r) (by rw [hrole]) fun p _ => by rw [hrole]]
    exact hw.path_alloc (hw.ne_size (by rw [hf]; exact Role.noConfusion))
  refine ⟨⟨p, hkeep hf Role.noConfusion⟩, ?_⟩
  cases hc : src.conveyor with
  | none =>
    rw [hc] at hrest
    obtain ⟨a, ha, js, hjs⟩ := hrest
    exact ⟨a, by rw [hslots]; exact ha, js, hpath.trans hjs⟩
  | some conveyor =>
    rw [hc] at hrest
    obtain ⟨j, hj, hloose, hsource⟩ := hrest
    refine ⟨j, hj, ?_, ?_⟩
    · rcases hloose with hj | ⟨f, l, hj, hf⟩
      · exact Or.inl (hkeep hj Role.noConfusion)
      · exact Or.inr ⟨f, l, hkeep hj Role.noConfusion, hkeep hf Role.noConfusion⟩
    · rw [← hsource]
      rcases hloose with hj | ⟨f, l, hj, hf⟩
      · simp only [source, hj, hkeep hj Role.noConfusion]
      · simp only [source, hj, hkeep hj Role.noConfusion]

theorem Sourced.link (h : s.Sourced src) (hw : Wired s) (hi : s.Loose i) (hne : src.feeder ≠ s.source i) {r : Role}
    (hr : r = .slot i ∨ ∃ l, r = .buffer i l none) (hrole : t.role = (s.link i r).role)
    (hslots : ∀ a ∈ s.slots, a ∈ t.slots) : t.Sourced src := by
  obtain ⟨⟨p, hf⟩, hrest⟩ := h
  have hfi : src.feeder ≠ i := by
    rintro rfl
    refine hne ?_
    simp only [source, hf]
  have hkeep : ∀ {j r'}, s.role j = r' → r' ≠ .free → j ≠ i → t.role j = r' := by
    intro j r' hj hr' hji
    rw [hrole]
    exact (role_link_ne hji (hw.ne_size (hj ▸ hr'))).trans hj
  have hpath : t.path src.feeder = s.path src.feeder := by
    rw [path_congr (s := s.link i r) (by rw [hrole]) fun p _ => by rw [hrole]]
    exact hw.path_link_ne hi hr hne
  refine ⟨⟨p, hkeep hf Role.noConfusion hfi⟩, ?_⟩
  cases hc : src.conveyor with
  | none =>
    rw [hc] at hrest
    obtain ⟨a, ha, js, hjs⟩ := hrest
    exact ⟨a, hslots a ha, js, hpath.trans hjs⟩
  | some conveyor =>
    rw [hc] at hrest
    obtain ⟨j, hj, hloose, hsource⟩ := hrest
    have hji : j ≠ i := by
      rintro rfl
      exact hne hsource.symm
    refine ⟨j, hj, ?_, ?_⟩
    · rcases hloose with hj | ⟨f, l, hj, hf⟩
      · exact Or.inl (hkeep hj Role.noConfusion hji)
      · refine Or.inr ⟨f, l, hkeep hj Role.noConfusion hji, hkeep hf Role.noConfusion ?_⟩
        rintro rfl
        rcases hi with hi | ⟨f', l', hi, -⟩
        · rw [hi] at hf
          cases hf
        · rw [hi] at hf
          cases hf
    · rw [← hsource]
      rcases hloose with hj | ⟨f, l, hj, hf⟩
      · simp only [source, hj, hkeep hj Role.noConfusion hji]
      · simp only [source, hj, hkeep hj Role.noConfusion hji]

end

end Net

namespace Merging

variable {α : Type} {s : Net α} {m : Merging α}

/-- The invariant: the machine's world is a network that is awake. -/
structure Merged (s : Net α) (m : Merging α) : Prop where
  world : m.world = s.world
  merger : m.merger = s.merger
  outer : m.outer = s.outer
  awake : Net.Awake s
  distinct : (m.sources.map Source.feeder).Nodup
  sourced : ∀ src ∈ m.sources, s.Sourced src
  logged : s.Logged m.fed

/-! ## Sources -/

theorem Merged.fresh (h : Merged s m) : ∀ f ∈ m.sources.map Source.feeder, f ≠ s.size := by
  intro f hf
  obtain ⟨src, hsrc, rfl⟩ := List.mem_map.mp hf
  obtain ⟨p, hp⟩ := (h.sourced src hsrc).1
  refine h.awake.ne_size ?_
  rw [hp]
  exact Role.noConfusion

theorem nodup_new {fs : List Nat} {f : Nat} (h : fs.Nodup) (hf : ∀ g ∈ fs, g ≠ f) : (fs ++ [f]).Nodup :=
  List.nodup_append.mpr ⟨h, List.nodup_singleton f, fun g hg f' hf' => by
    rw [List.mem_singleton.mp hf']
    exact hf g hg⟩

theorem Merged.grown {t : Net α} (h : Merged s m) (hawake : Net.Awake t) (hlogged : t.Logged m.fed)
    (hmerger : t.merger = s.merger) (houter : t.outer = s.outer) (hold : ∀ src ∈ m.sources, t.Sourced src)
    (conveyor : Conveyor α) (hnew : t.Sourced ⟨s.size, some conveyor⟩) :
    Merged t { m with world := t.world, sources := m.sources ++ [⟨s.size, some conveyor⟩] } := by
  refine ⟨rfl, h.merger.trans hmerger.symm, h.outer.trans houter.symm, hawake, ?_, fun src hsrc => ?_,
    hlogged⟩
  · rw [List.map_append]
    exact nodup_new h.distinct h.fresh
  · rcases List.mem_append.mp hsrc with hsrc | hsrc
    · exact hold src hsrc
    · rw [List.mem_singleton.mp hsrc]
      exact hnew

theorem Merged.source (h : Merged s m) : ∃ m' t, m.step (.source none) = some (none, m') ∧ Merged t m' ∧
    Net.Grows s t := by
  obtain ⟨hnew, hawake, hext⟩ := h.awake.newConveyorAndFeeder
  have hw := h.awake.toWired
  have hrole : (s.alloc (.feeder none)).role s.size = .feeder none := Net.role_alloc _
  have houter : (s.alloc (.feeder none)).outer = s.outer :=
    Net.outer_congr rfl rfl fun o ho => Net.role_alloc_ne (hw.ne_size (hw.outlet_ne_free ho))
  refine ⟨_, _, ?_, h.grown hawake (hext.logged h.logged) rfl houter (fun src hsrc => (h.sourced src hsrc).alloc hw rfl rfl)
    ⟨.storage s.size, s.size⟩ ⟨⟨none, hrole⟩, s.size, rfl, Or.inl hrole, ?_⟩, .feeder s⟩
  · simp only [step, h.world, hnew, Option.pure_def]
  · simp only [Net.source, hrole]

theorem Merged.bufferedSource (h : Merged s m) (limit : Fin (2 ^ 64)) : ∃ m' t,
    m.step (.source (some limit)) = some (none, m') ∧ Merged t m' ∧ Net.Grows s t := by
  obtain ⟨hnew, hawake, hext⟩ := h.awake.newConveyorAndFeeder
  have hw := h.awake.toWired
  obtain ⟨u, hu⟩ : ∃ u, u = s.alloc (.feeder none) := ⟨_, rfl⟩
  have hfeeder : u.role s.size = .feeder none := by
    rw [hu]
    exact Net.role_alloc _
  rw [← hu] at hnew hawake hext
  obtain ⟨loop, hbuffer, hawake', hext', k, hwoken⟩ := hawake.buffered hfeeder limit.isLt
  have hsource : u.source s.size = s.size := by simp only [Net.source, hfeeder]
  have hsize : s.size ≠ u.size := hawake.ne_size (by rw [hfeeder]; exact Role.noConfusion)
  have hloose : u.Loose s.size := Or.inl hfeeder
  have hrole : (u.bufferAdded s.size limit.val loop).role s.size = .feeder (some u.size) := by
    refine (Net.role_link _).trans ?_
    rw [hfeeder]
    rfl
  have hend : (u.bufferAdded s.size limit.val loop).role u.size = .buffer s.size limit.val none :=
    Net.role_link_new hsize
  have houter : (u.bufferAdded s.size limit.val loop).outer = s.outer := by
    refine Net.outer_congr (by rw [hu]; rfl) (by rw [hu]; rfl) fun o ho => ?_
    have ho' : u.outlet = some o := by
      rw [hu]
      exact ho
    refine (Net.role_link_ne (hawake.toWired.outlet_ne_loose ho' hloose)
      (hawake.ne_size (hawake.toWired.outlet_ne_free ho'))).trans ?_
    rw [hu]
    exact Net.role_alloc_ne (hw.ne_size (hw.outlet_ne_free ho))
  refine ⟨_, _, ?_, h.grown hawake' (hext'.logged (hext.logged h.logged)) (by rw [hu]; rfl) houter (fun src hsrc => ?_)
    ⟨.storage u.size, u.size⟩ ⟨⟨_, hrole⟩, u.size, rfl, Or.inr ⟨_, _, hend, hrole⟩, ?_⟩, ?_⟩
  · simp only [step, h.world, hnew, hbuffer, Option.bind_eq_bind, Option.bind_some, Option.pure_def]
  · have hmid : u.Sourced src := by
      rw [hu]
      exact (h.sourced src hsrc).alloc hw rfl rfl
    refine hmid.link hawake.toWired hloose ?_ (Or.inr ⟨_, rfl⟩) rfl fun _ => id
    rw [hsource]
    exact h.fresh src.feeder (List.mem_map_of_mem hsrc)
  · simp only [Net.source, hend]
  · have hempty : u.queue s.size = [] := by
      rw [hu]
      exact hw.empty_size
    have hgrows : Net.Grows s u := by
      rw [hu]
      exact .feeder s
    rcases hwoken with ⟨⟨hq, -⟩, -⟩ | ⟨-, rfl⟩
    · exact absurd hempty hq
    · exact .trans hgrows hawake (.buffer limit.val hloose hempty)

/-! ## Feeding -/

theorem Merged.give (h : Merged s m) (k : Nat) {x : ErrorOr α} (hx : x.isCritical = false) :
    ∃ t, Merged t (m.give k x) ∧ (t = s ∨ ∃ src p, m.sources[k]? = some src ∧ s.role src.feeder = .feeder p ∧
      t = s.given src.feeder x) := by
  unfold Merging.give
  cases hk : m.sources[k]? with
  | none => exact ⟨s, h, Or.inl rfl⟩
  | some src =>
    obtain ⟨p, hf⟩ := (h.sourced src (List.mem_of_getElem? hk)).1
    obtain ⟨hworld, hawake⟩ := h.awake.feed hf hx
    have hsame : Net.Same s (s.given src.feeder x) := ⟨rfl, rfl, rfl, rfl⟩
    refine ⟨s.given src.feeder x, ⟨?_, h.merger, h.outer.trans hsame.outer.symm, hawake, h.distinct,
      fun src' hsrc' => (h.sourced src' hsrc').same hsame, h.logged.feed h.awake.toWired hf x⟩,
      Or.inr ⟨src, p, rfl, hf, rfl⟩⟩
    rw [← hworld, h.world]

/-! ## Attaching -/

theorem attached_sourced {f j : Nat} (hw : Net.Wired s) (hloose : s.Loose j) (hsource : s.source j = f)
    (hf : ∃ p, s.role f = .feeder p) {loop : EventLoop Nat} : (s.slotAdded j loop).Sourced ⟨f, none⟩ := by
  have hpath : (s.slotAdded j loop).path f = s.size :: s.path f := by
    subst hsource
    exact hw.path_link_source hloose (Or.inl rfl)
  refine ⟨?_, s.size, List.mem_append_right _ (List.mem_singleton_self _), _, hpath⟩
  obtain ⟨p, hf⟩ := hf
  by_cases hfj : f = j
  · subst hfj
    refine ⟨some s.size, (Net.role_link _).trans ?_⟩
    rw [hf]
    rfl
  · exact ⟨p, (Net.role_link_ne hfj (hw.ne_size (by rw [hf]; exact Role.noConfusion))).trans hf⟩

theorem mem_set_distinct {sources : List (Source α)} (hnd : (sources.map Source.feeder).Nodup) {k : Nat}
    {src src' x : Source α} (hk : sources[k]? = some src) (hx : x ∈ sources.set k src') :
    x = src' ∨ x ∈ sources ∧ x.feeder ≠ src.feeder := by
  obtain ⟨hlt, -⟩ := List.getElem?_eq_some_iff.mp hk
  obtain ⟨k', hk'⟩ := List.mem_iff_getElem?.mp hx
  by_cases hkk : k = k'
  · subst hkk
    rw [List.getElem?_set_self hlt] at hk'
    exact Or.inl (Option.some.inj hk').symm
  · rw [List.getElem?_set_ne hkk] at hk'
    refine Or.inr ⟨List.mem_of_getElem? hk', fun hsame => hkk ?_⟩
    have hlt' : k < (sources.map Source.feeder).length := by rwa [List.length_map]
    refine (List.getElem?_inj hlt' hnd).mp ?_
    rw [List.getElem?_map, List.getElem?_map, hk, hk', Option.map_some, Option.map_some, hsame]

theorem Merged.attached (h : Merged s m) {k f j : Nat} (hk : m.sources[k]? = some ⟨f, some ⟨.storage j, j⟩⟩)
    (hloose : s.Loose j) (hsource : s.source j = f) {loop : EventLoop Nat} (hawake : Net.Awake (s.slotAdded j loop))
    (hext : Net.Extends s (s.slotAdded j loop)) : Merged (s.slotAdded j loop)
      { m with world := (s.slotAdded j loop).world, sources := m.sources.set k ⟨f, none⟩ } := by
  have hw := h.awake.toWired
  have hfeeders : (m.sources.set k ⟨f, none⟩).map Source.feeder = m.sources.map Source.feeder := by
    obtain ⟨hlt, hget⟩ := List.getElem?_eq_some_iff.mp hk
    refine List.map_set.trans ?_
    have hlt' : k < (m.sources.map Source.feeder).length := by rwa [List.length_map]
    have hf : (m.sources.map Source.feeder)[k] = f := by rw [List.getElem_map, hget]
    rw [← hf]
    exact List.set_getElem_self hlt'
  have houter : (s.slotAdded j loop).outer = s.outer := by
    refine Net.outer_congr rfl rfl fun o ho => ?_
    exact Net.role_link_ne (hw.outlet_ne_loose ho hloose) (hw.ne_size (hw.outlet_ne_free ho))
  refine ⟨rfl, h.merger, h.outer.trans houter.symm, hawake, by rw [hfeeders]; exact h.distinct, fun src hsrc => ?_,
    hext.logged h.logged⟩
  rcases mem_set_distinct h.distinct hk hsrc with rfl | ⟨hsrc, hne⟩
  · exact attached_sourced hw hloose hsource (h.sourced _ (List.mem_of_getElem? hk)).1
  · refine (h.sourced src hsrc).link hw hloose ?_ (Or.inl rfl) rfl fun a => List.mem_append_left _
    rwa [hsource]

theorem Merged.mergerAdded (h : Merged s m) (hm : s.merger = none) : Merged s.mergerAdded
    { m with world := s.mergerAdded.world, merger := some s.size, outer := some ⟨.storage s.size, s.size⟩ } := by
  obtain ⟨hawake, hext⟩ := h.awake.mergerAdded hm
  refine ⟨rfl, rfl, ?_, hawake, h.distinct, fun src hsrc => ?_, hext.logged h.logged⟩
  · unfold Net.outer
    rw [show s.mergerAdded.outlet = none from (h.awake.toWired.unmerged hm).2]
    rfl
  · exact (h.sourced src hsrc).alloc h.awake.toWired (r := .merger) rfl rfl

theorem Merged.attach (h : Merged s m) (k : Nat) : ∃ m' t, m.step (.attach k) = some (none, m') ∧ Merged t m' ∧
    Net.Grows s t := by
  cases hk : m.sources[k]? with
  | none => exact ⟨m, s, by simp only [step, hk, Option.pure_def], h, .refl s⟩
  | some src =>
    obtain ⟨f, conveyor⟩ := src
    cases conveyor with
    | none => exact ⟨m, s, by simp only [step, hk, Option.pure_def], h, .refl s⟩
    | some conveyor =>
      obtain ⟨-, j, rfl, hloose, hsource⟩ := h.sourced _ (List.mem_of_getElem? hk)
      cases hm : s.merger with
      | none =>
        have hmerged := h.mergerAdded hm
        obtain ⟨-, j', hj', hloose', hsource'⟩ := hmerged.sourced _ (List.mem_of_getElem? hk)
        cases hj'
        obtain ⟨loop, hattach, hawake, hext, hwoken⟩ := hmerged.awake.attach hloose' (m := s.size) rfl
        refine ⟨_, _, ?_, hmerged.attached hk hloose' hsource' hawake hext,
          .trans (.merger hm) hmerged.awake (.slot hloose' hwoken)⟩
        · have halloc : s.world.alloc ⟨none, none, .merge [] 0⟩ = (s.size, s.mergerAdded.world) :=
            Prod.ext rfl (h.awake.toWired.alloc_merger hm)
          simp only [step, hk, h.merger, hm, h.world, Conveyor.merge, halloc, hattach, Option.bind_eq_bind,
            Option.bind_some, Option.pure_def]
      | some merger =>
        obtain ⟨loop, hattach, hawake, hext, hwoken⟩ := h.awake.attach hloose hm
        refine ⟨_, _, ?_, h.attached hk hloose hsource hawake hext, .slot hloose hwoken⟩
        · simp only [step, hk, h.merger, hm, h.world, hattach, Option.bind_eq_bind, Option.bind_some, Option.pure_def]

/-! ## The outlet -/

theorem Merged.bare (h : Merged s m) : m.bare = none ∨
    ∃ merger, s.merger = some merger ∧ s.outlet = none ∧ m.bare = some ⟨.storage merger, merger⟩ := by
  unfold Merging.bare
  rw [h.outer, h.merger]
  unfold Net.outer
  cases ho : s.outlet with
  | none =>
    cases hm : s.merger with
    | none => exact Or.inl rfl
    | some merger => exact Or.inr ⟨merger, rfl, rfl, by simp⟩
  | some o =>
    left
    obtain ⟨merger, hm, hrole⟩ := h.awake.outlet o ho
    have hne : merger ≠ o := by
      rintro rfl
      rw [(h.awake.merger merger).mpr hm] at hrole
      rcases hrole with hrole | ⟨l, hrole⟩ <;> cases hrole
    rcases hrole with hrole | ⟨l, hrole⟩
    · simp only [hrole, Option.filter_none]
    · simp [hrole, hm, hne]

theorem Merged.outletAdded (h : Merged s m) {r : Role} {loop : EventLoop Nat} (hawake : Net.Awake (s.outletAdded r loop))
    (hext : Net.Extends s (s.outletAdded r loop)) (outer : Option (Conveyor α))
    (houter : outer = (s.outletAdded r loop).outer) :
    Merged (s.outletAdded r loop) { m with world := (s.outletAdded r loop).world, outer := outer } :=
  ⟨rfl, h.merger, houter, hawake, h.distinct, fun src hsrc => (h.sourced src hsrc).alloc h.awake.toWired (r := r) rfl rfl,
    hext.logged h.logged⟩

theorem Merged.buffer (h : Merged s m) (limit : Fin (2 ^ 64)) : ∃ m' t, m.step (.buffer limit) = some (none, m') ∧
    Merged t m' ∧ Net.Grows s t := by
  rcases h.bare with hbare | ⟨merger, hm, ho, hbare⟩
  · exact ⟨m, s, by simp only [step, hbare, Option.pure_def], h, .refl s⟩
  · have hn : (s.alloc (.buffer merger limit.val none)).node s.size =
        some ⟨none, some merger, .queueBuffer (some (.storage merger)) [] limit.val⟩ := by
      rw [Net.node_buffer (Net.role_alloc _),
        show (s.alloc (.buffer merger limit.val none)).queue s.size = [] from h.awake.empty_size]
    have hr : Net.Outlet merger (.buffer merger limit.val none) := Or.inr ⟨limit.val, limit.isLt, rfl⟩
    obtain ⟨loop, hparent, hawake, hext, hwoken⟩ := h.awake.outletAdded hm ho hr hn
    refine ⟨_, _, ?_, h.outletAdded hawake hext (some ⟨.storage s.size, s.size⟩) ?_,
      .outlet hm hr (fun hsink => by cases hsink) hwoken⟩
    · have halloc : (s.world.alloc ⟨none, some merger, .queueBuffer (some (.storage merger)) [] limit.val⟩).1 = s.size :=
        rfl
      simp only [step, hbare, Conveyor.buffer, h.world, halloc, hparent, Option.bind_eq_bind, Option.bind_some,
        Option.pure_def]
    · simp only [Net.outer, Net.outletAdded, Net.role_alloc]

theorem Merged.sink (h : Merged s m) : ∃ m' t, m.step .sink = some (none, m') ∧ Merged t m' ∧
    Net.Grows s t := by
  rcases h.bare with hbare | ⟨merger, hm, ho, hbare⟩
  · exact ⟨m, s, by simp only [step, hbare, Option.pure_def], h, .refl s⟩
  · have hhub : s.hub = merger := by
      rw [Net.hub, hm]
      rfl
    have hn : (s.alloc .sink).node s.size = some ⟨none, some merger, .sink (some (.storage merger))⟩ := by
      rw [Net.node_sink (Net.role_alloc _), show (s.alloc .sink).hub = merger from hhub]
    have hr : Net.Outlet merger .sink := Or.inl rfl
    obtain ⟨loop, hparent, hawake, hext, hwoken⟩ := h.awake.outletAdded hm ho hr hn
    refine ⟨_, _, ?_, h.outletAdded hawake hext none ?_,
      .outlet hm hr (fun _ => Nat.one_pos) hwoken⟩
    · have halloc : (s.world.alloc ⟨none, some merger, .sink (some (.storage merger))⟩).1 = s.size := rfl
      simp only [step, hbare, Conveyor.sink, h.world, halloc, hparent, Option.bind_eq_bind, Option.bind_some,
        Option.pure_def]
    · simp only [Net.outer, Net.outletAdded, Net.role_alloc]

/-! ## Turning and taking -/

theorem Merged.turn (h : Merged s m) (hclear : m.world.Clear) :
    ∃ m' t, m.step .turn = some (none, m') ∧ Merged t m' ∧ Net.Turns s t := by
  rw [h.world] at hclear
  obtain ⟨fired, t, hturn, hawake, hturns⟩ := h.awake.turn hclear
  have hsame := hturns.same
  refine ⟨{ m with world := t.world }, t, ?_, ⟨rfl, h.merger.trans hsame.merger.symm, h.outer.trans hsame.outer.symm,
    hawake, h.distinct, fun src hsrc => (h.sourced src hsrc).same hsame, hturns.logged h.awake.toWired h.logged⟩, hturns⟩
  simp only [step, h.world, hturn, Option.bind_eq_bind, Option.bind_some, Option.pure_def]

theorem Merged.turn_blocked (h : Merged s m) (hclear : ¬ m.world.Clear) : m.step .turn = none := by
  rw [h.world] at hclear
  simp only [step, h.world, h.awake.turn_blocked hclear, Option.bind_eq_bind, Option.bind_none]

theorem outer_cases (h : Net.Awake s) {conveyor : Conveyor α} (ho : s.outer = some conveyor) :
    ∃ i, conveyor = ⟨.storage i, i⟩ ∧ (s.role i = .merger ∧ s.outlet = none ∨
      s.outlet = some i ∧ ∃ m l, s.merger = some m ∧ s.role i = .buffer m l none) := by
  unfold Net.outer at ho
  cases hout : s.outlet with
  | none =>
    rw [hout] at ho
    obtain ⟨m, hm, rfl⟩ := Option.map_eq_some_iff.mp ho
    exact ⟨m, rfl, Or.inl ⟨(h.merger m).mpr hm, rfl⟩⟩
  | some o =>
    rw [hout] at ho
    obtain ⟨m, hm, hrole | ⟨l, hrole⟩⟩ := h.outlet o hout
    · simp only [hrole] at ho
      cases ho
    · simp only [hrole] at ho
      obtain rfl := Option.some.inj ho
      exact ⟨o, rfl, Or.inr ⟨rfl, m, l, hm, hrole⟩⟩

theorem Merged.take (h : Merged s m) : ∃ result m' t, m.step .take = some (result, m') ∧ Merged t m' ∧
    Net.Takes s t := by
  cases ho : m.outer with
  | none => exact ⟨none, m, s, by simp only [step, ho, Option.pure_def], h, .nothing⟩
  | some conveyor =>
    have hout : s.outer = some conveyor := h.outer.symm.trans ho
    obtain ⟨x, t, htake, hawake, hsame, hlogged, htakes⟩ : ∃ x t, conveyor.take s.world = some (x, t.world) ∧
        Net.Awake t ∧ Net.Same s t ∧ (∀ fed, s.Logged fed → t.Logged fed) ∧ Net.Takes s t := by
      obtain ⟨i, rfl, ⟨hrole, hnone⟩ | ⟨hsome, merger, l, hm, hrole⟩⟩ := outer_cases h.awake hout
      · exact h.awake.take_merger hrole hnone
      · exact h.awake.take_buffer hsome hm hrole
    refine ⟨some x, { m with world := t.world }, t, ?_, ⟨rfl, h.merger.trans hsame.merger.symm,
      h.outer.trans hsame.outer.symm, hawake, h.distinct, fun src hsrc => (h.sourced src hsrc).same hsame,
      hlogged _ h.logged⟩, htakes⟩
    simp only [step, ho, h.world, htake, Option.bind_eq_bind, Option.bind_some, Option.pure_def]

/-! ## Runs -/

/-- What a call does to the network of the machine. -/
inductive Moves (s : Net α) (m : Merging α) : Call α → Net α → Prop where
  | build (call : Call α) (t : Net α) : Net.Grows s t → Moves s m call t
  | feed (k : Nat) (v : α) (src : Source α) (p : Option Nat) : m.sources[k]? = some src →
      s.role src.feeder = .feeder p → Moves s m (.feed k v) (s.given src.feeder (.value v))
  | fail (k : Nat) (e : Error) (recoverable : e.isCritical = false) (src : Source α) (p : Option Nat) :
      m.sources[k]? = some src → s.role src.feeder = .feeder p →
      Moves s m (.fail k e recoverable) (s.given src.feeder (.error e))
  | turn (t : Net α) : Net.Turns s t → Moves s m .turn t
  | take (t : Net α) : Net.Takes s t → Moves s m .take t

theorem Merged.step (h : Merged s m) {call : Call α} (hclear : m.Clear call) :
    ∃ result m' t, m.step call = some (result, m') ∧ Merged t m' ∧ Moves s m call t := by
  cases call with
  | source limit =>
    cases limit with
    | none =>
      obtain ⟨m', t, hstep, h', hgrows⟩ := h.source
      exact ⟨none, m', t, hstep, h', .build _ t hgrows⟩
    | some limit =>
      obtain ⟨m', t, hstep, h', hgrows⟩ := h.bufferedSource limit
      exact ⟨none, m', t, hstep, h', .build _ t hgrows⟩
  | feed k v =>
    obtain ⟨t, h', rfl | ⟨src, p, hk, hf, rfl⟩⟩ := h.give k (x := .value v) rfl
    · exact ⟨none, _, t, rfl, h', .build _ t (.refl t)⟩
    · exact ⟨none, _, _, rfl, h', .feed k v src p hk hf⟩
  | fail k e recoverable =>
    obtain ⟨t, h', rfl | ⟨src, p, hk, hf, rfl⟩⟩ := h.give k (x := .error e) recoverable
    · exact ⟨none, _, t, rfl, h', .build _ t (.refl t)⟩
    · exact ⟨none, _, _, rfl, h', .fail k e recoverable src p hk hf⟩
  | attach k =>
    obtain ⟨m', t, hstep, h', hgrows⟩ := h.attach k
    exact ⟨none, m', t, hstep, h', .build _ t hgrows⟩
  | buffer limit =>
    obtain ⟨m', t, hstep, h', hgrows⟩ := h.buffer limit
    exact ⟨none, m', t, hstep, h', .build _ t hgrows⟩
  | sink =>
    obtain ⟨m', t, hstep, h', hgrows⟩ := h.sink
    exact ⟨none, m', t, hstep, h', .build _ t hgrows⟩
  | turn =>
    obtain ⟨m', t, hstep, h', hturns⟩ := h.turn hclear
    exact ⟨none, m', t, hstep, h', .turn t hturns⟩
  | take =>
    obtain ⟨result, m', t, hstep, h', htakes⟩ := h.take
    exact ⟨result, m', t, hstep, h', .take t htakes⟩

theorem Merged.step_blocked (h : Merged s m) {call : Call α} (hclear : ¬ m.Clear call) : m.step call = none := by
  cases call with
  | turn => exact h.turn_blocked hclear
  | _ => exact absurd trivial hclear

theorem merged_start : Merged (Net.new : Net α) start := by
  have hfree : ∀ i, (Net.new : Net α).role i = .free := fun _ => rfl
  have hwired : Net.Wired (Net.new : Net α) := by
    refine ⟨fun i _ => hfree i, fun i p hi => ?_, fun i c l p hi => ?_, fun a c ha => ?_, fun a ha => ?_,
      fun i => ⟨fun hi => ?_, fun hi => ?_⟩, fun o ho => ?_, fun i hi => ?_, fun _ _ => rfl, fun i x hx => ?_⟩
    · cases (hfree i).symm.trans hi
    · cases (hfree i).symm.trans hi
    · cases (hfree a).symm.trans ha
    · cases ha
    · cases (hfree i).symm.trans hi
    · cases hi
    · cases ho
    · cases (hfree i).symm.trans hi
    · cases hx
  refine ⟨rfl, rfl, rfl, ⟨hwired, EventLoop.sound_new, fun i hi => ?_⟩, List.nodup_nil, fun src hsrc => ?_, [], rfl,
    fun f => rfl⟩
  · exact absurd hi (EventLoop.not_isArmed_new i)
  · cases hsrc

/-! ## What is where -/

theorem held_world (hw : Net.Wired s) {f : Nat} (hf : ∃ p, s.role f = .feeder p) : s.world.held f = s.held f := by
  have hq : s.world.queueAt = s.queue := hw.queueAt
  unfold World.held
  rw [hq]
  rcases hw.path_cases f with hpath | ⟨hf, hpath⟩ | ⟨p, l, hf, hp, hpath⟩ | ⟨a, hf, ha, hpath⟩ |
    ⟨a, p, l, hf, hp, ha, hpath⟩
  · obtain ⟨p, hf⟩ := hf
    obtain ⟨js, hjs⟩ := hw.path_feeder hf
    rw [hjs] at hpath
    cases js <;> cases hpath
  · rw [Net.held, hpath, show s.world.nodes f = _ from Net.node_feeder hf]
    simp
  · rw [Net.held, hpath, show s.world.nodes f = _ from Net.node_feeder hf]
    dsimp only [Option.bind_some]
    rw [show s.world.nodes p = _ from Net.node_buffer hp]
    simp
  · rw [Net.held, hpath, show s.world.nodes f = _ from Net.node_feeder hf]
    dsimp only [Option.bind_some]
    rw [show s.world.nodes a = _ from Net.node_slot ha]
    simp
  · rw [Net.held, hpath, show s.world.nodes f = _ from Net.node_feeder hf]
    dsimp only [Option.bind_some]
    rw [show s.world.nodes p = _ from Net.node_buffer hp]
    simp

theorem Merged.passed (h : Merged s m) : m.passed = s.passed := by
  have hq : s.world.queueAt = s.queue := h.awake.toWired.queueAt
  unfold Merging.passed Net.passed
  rw [h.outer, h.world, hq]
  unfold Net.outer
  cases ho : s.outlet with
  | none =>
    cases hm : s.merger with
    | none => rfl
    | some merger => exact h.awake.empty merger (Or.inl ((h.awake.merger merger).mpr hm))
  | some o =>
    obtain ⟨merger, hm, hrole | ⟨l, hrole⟩⟩ := h.awake.outlet o ho
    · simp only [hrole]
      exact (h.awake.empty o (Or.inr (Or.inl hrole))).symm
    · simp only [hrole]

theorem Merged.conserved (h : Merged s m) : m.Conserved := by
  obtain ⟨log, hlog, hfed⟩ := h.logged
  refine ⟨log, ?_, fun src hsrc => ?_⟩
  · rw [h.passed, h.world]
    exact hlog
  · rw [h.world, held_world h.awake.toWired (h.sourced src hsrc).1]
    exact hfed src.feeder

/-- A run meets no failing assertion exactly if no turn is blocked, and then every source's results are
delivered or still on their way, in order. -/
theorem merges_iff (calls : List (Call α)) :
    (∃ results m, Run.exec step start calls = some (results, m) ∧ m.Conserved) ↔ Run.Along step Clear start calls := by
  have hgood : ∀ (m : Merging α) call, (∃ s, Merged s m) → m.Clear call →
      ∃ result m', m.step call = some (result, m') ∧ ∃ s, Merged s m' := by
    intro m call ⟨s, h⟩ hclear
    obtain ⟨result, m', t, hstep, h', -⟩ := h.step hclear
    exact ⟨result, m', hstep, t, h'⟩
  have hbad : ∀ (m : Merging α) call, (∃ s, Merged s m) → ¬ m.Clear call → m.step call = none := by
    intro m call ⟨s, h⟩ hclear
    exact h.step_blocked hclear
  constructor
  · rintro ⟨results, m, hrun, -⟩
    exact (Run.exec_iff _ hgood hbad calls start ⟨_, merged_start⟩).mp ⟨results, m, hrun⟩
  · intro hall
    obtain ⟨results, m, hrun, s, h⟩ := Run.exec_invariant _ Clear hgood calls start ⟨_, merged_start⟩ hall
    exact ⟨results, m, hrun, h.conserved⟩

end Merging

end Forstio
