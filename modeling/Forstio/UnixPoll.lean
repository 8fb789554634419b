import Forstio.UnixOwners

/-!
# Polling

What `pollImpl` does from one call of `poll` or `wait` on, as long as nothing else
happens: the events that are there are reported in batches and handled one by one.
-/

namespace Forstio.Unix

/-- The signal descriptor is in hand: reported, or being read. -/
def Phase.drains : Phase → Bool
  | dispatching _ _ events => events.any fun e => e.1 = .signals
  | draining _ _ _ => true
  | _ => false

namespace Driver

variable {own : PortDescriptors}

def signalEvent : EventData × Mask := (.signals, signalMask)

/-- What is still to be reported. -/
def outstanding (s : Driver own) : List (EventData × Mask) :=
  s.ready.filterMap s.resolve ++ if s.pending = [] ∨ s.phase.drains then [] else [signalEvent]

/-- `rest` events are left of `n` after a batch of `nfds`. -/
def Remains (nfds rest n : Nat) : Prop :=
  nfds = maxEpollEvents ∧ rest % maxEpollEvents = n % maxEpollEvents ∨
    rest = 0 ∧ nfds = n % maxEpollEvents ∧ 0 < nfds

def Batch (s : Driver own) (time : Time) (n : Nat) : Prop :=
  match s.phase with
  | .idle => s.outstanding = [] ∧ (time ≠ .forever ∨ n % maxEpollEvents ≠ 0)
  | .waiting t => t = time ∧ s.outstanding.length % maxEpollEvents = n % maxEpollEvents
  | .dispatching t nfds _ => t = time ∧ Remains nfds s.outstanding.length n
  | .draining t nfds _ => t = time ∧ Remains nfds s.outstanding.length n

/-- A poll that began in `s₀` has come to `s`. -/
structure Polled (s₀ : Driver own) (time : Time) (s : Driver own) : Prop where
  owned : Owned s 0 0
  events : (s.notified ++ s.phase.events ++ s.outstanding).Perm (s₀.notified ++ s₀.outstanding)
  signals : s.consumed ++ s.pending = s₀.consumed ++ s₀.pending
  batch : s.Batch time s₀.outstanding.length

/-- The number of system calls ahead, if no event comes. -/
def rank (s : Driver own) : Nat :=
  match s.phase with
  | .idle => 0
  | .waiting time =>
    if time = .forever ∧ s.outstanding = [] then 0 else 4 * s.outstanding.length + s.pending.length + 1
  | .dispatching _ _ events => 4 * s.outstanding.length + 2 * events.length + s.pending.length + 2
  | .draining _ _ events => 4 * s.outstanding.length + 2 * events.length + s.pending.length + 3

/-! ## What a notification leaves alone -/

/-- The events that are left are the same, and so are the logs. -/
structure Quiet (s s' : Driver own) : Prop where
  ready : s'.ready.filterMap s'.resolve = s.ready.filterMap s.resolve
  pending : s'.pending = s.pending
  phase : s'.phase = s.phase
  notified : s'.notified = s.notified
  consumed : s'.consumed = s.consumed

theorem Quiet.outstanding {s s' : Driver own} (h : Quiet s s') : s'.outstanding = s.outstanding := by
  unfold Driver.outstanding
  rw [h.ready, h.pending, h.phase]

theorem Quiet.trans {s s' s'' : Driver own} (h : Quiet s s') (h' : Quiet s' s'') : Quiet s s'' :=
  ⟨h'.ready.trans h.ready, h'.pending.trans h.pending, h'.phase.trans h.phase, h'.notified.trans h.notified,
    h'.consumed.trans h.consumed⟩

section
variable {s : Driver own} {L F : Multiset Nat} {p fd : Nat}

theorem quiet_feed (s : Driver own) (feeder : Option Nat) : Quiet s (s.feed feeder) := by
  unfold feed
  split
  · exact ⟨rfl, rfl, rfl, rfl, rfl⟩
  · split
    · exact ⟨rfl, rfl, rfl, rfl, rfl⟩
    · exact ⟨rfl, rfl, rfl, rfl, rfl⟩

theorem quiet_feedIf (s : Driver own) (bit : Bool) (feeder : Option Nat) : Quiet s (s.feedIf bit feeder) := by
  unfold feedIf
  split
  · exact quiet_feed s feeder
  · exact ⟨rfl, rfl, rfl, rfl, rfl⟩

theorem quiet_notifySignalListener (s : Driver own) (sig : UnixSignal) : Quiet s (s.notifySignalListener sig) := by
  unfold notifySignalListener
  generalize s.signalConveyors = listeners
  induction listeners generalizing s with
  | nil => exact ⟨rfl, rfl, rfl, rfl, rfl⟩
  | cons listener listeners ih =>
    rw [List.foldl_cons]
    unfold tell
    split
    · exact (quiet_feed s (some listener.2)).trans (ih _)
    · exact ih s

theorem Owned.open_of_registered (h : Owned s L F) {e : EventData × Mask} (he : s.interest.lookup fd = some e) :
    fd ∈ s.descriptors := by
  rw [← Multiset.mem_coe, h.descriptors]
  have hreg := h.subscribed.registered fd e he
  cases hdata : e.1 with
  | signals =>
    rw [hdata] at hreg
    rw [show fd = own.signalFd from hreg]
    simp [PortDescriptors.toList]
  | wake =>
    rw [hdata] at hreg
    rw [show fd = own.pipefds.1 from hreg]
    simp [PortDescriptors.toList]
  | owner q =>
    rw [hdata] at hreg
    obtain ⟨o, ho, rfl⟩ := hreg
    exact Multiset.mem_add.mpr (Or.inr (mem_fileDescriptors ho))

theorem Owned.ready_ne (h : Owned s L F) (hfd : fd ∉ s.descriptors) : ∀ e ∈ s.ready, e.1 ≠ fd := by
  intro e he heq
  obtain ⟨q, mask, hq⟩ := h.subscribed.ready e he
  exact hfd (heq ▸ h.open_of_registered hq)

theorem quiet_accept (h : Owned s L F) (hfd : fd ∉ s.descriptors) {alloc : Alloc} {mask : Mask} {feeders : Feeders}
    {c : Nat} {s' : Driver own}
    (hs' : ((s.opened fd).newOwner alloc fd mask feeders).feedStream c alloc.address = some s') : Quiet s s' := by
  have hne := h.ready_ne hfd
  have hnew : ∃ interest, (s.opened fd).newOwner alloc fd mask feeders = { s with
      descriptors := fd :: s.descriptors
      owners := s.owners.insert alloc.address ⟨fd, mask, feeders⟩
      interest } ∧ ∀ e ∈ s.ready, interest.lookup e.1 = s.interest.lookup e.1 := by
    unfold newOwner subscribe
    split
    · exact ⟨_, rfl, fun e he => AList.lookup_insert_ne (hne e he)⟩
    · exact ⟨_, rfl, fun e he => rfl⟩
  obtain ⟨interest, hnew, hsame⟩ := hnew
  rw [hnew] at hs'
  unfold feedStream at hs'
  split at hs'
  · unfold destroyOwner at hs'
    obtain ⟨o, ho, hs'⟩ := Option.bind_eq_some_iff.mp hs'
    obtain rfl : (⟨fd, mask, feeders⟩ : IFdOwner) = o :=
      Option.some.inj ((AList.lookup_insert s.owners).symm.trans ho)
    obtain ⟨s₁, hclose, hs'⟩ := Option.bind_eq_some_iff.mp hs'
    obtain ⟨_, _, hclosed⟩ := Option.bind_eq_some_iff.mp hclose
    obtain rfl := Option.some.inj hclosed
    obtain rfl := Option.some.inj hs'
    refine ⟨?_, rfl, rfl, rfl, rfl⟩
    have hall : s.ready.filter (·.1 ≠ fd) = s.ready :=
      List.filter_eq_self.mpr fun e he => decide_eq_true (hne e he)
    show (s.ready.filter (·.1 ≠ fd)).filterMap _ = _
    rw [hall]
    apply List.filterMap_congr
    intro e he
    show ((interest.erase fd).lookup e.1).map _ = (s.interest.lookup e.1).map _
    rw [AList.lookup_erase_ne (hne e he), hsame e he]
  · obtain rfl := Option.some.inj hs'
    refine ⟨?_, rfl, rfl, rfl, rfl⟩
    apply List.filterMap_congr
    intro e he
    show (interest.lookup e.1).map _ = (s.interest.lookup e.1).map _
    rw [hsame e he]

theorem quiet_notify (h : Owned s L F) {mask : Mask} {accepted : Option (Nat × Alloc)}
    (hfresh : ∀ a ∈ accepted, s.Fresh a.1 a.2) {s' : Driver own} (hs' : s.notify p mask accepted = some s') :
    Quiet s s' := by
  obtain ⟨o, -, hs'⟩ := Option.bind_eq_some_iff.mp hs'
  cases hfeeders : o.feeders with
  | stream readReady onReadDisconnect writeReady =>
    rw [hfeeders] at hs'
    obtain rfl := Option.some.inj hs'
    exact ((quiet_feedIf s _ _).trans (quiet_feedIf _ _ _)).trans (quiet_feedIf _ _ _)
  | datagram readReady writeReady =>
    rw [hfeeders] at hs'
    obtain rfl := Option.some.inj hs'
    exact (quiet_feedIf s _ _).trans (quiet_feedIf _ _ _)
  | server acceptFeeder =>
    rw [hfeeders] at hs'
    simp only [UnixServer.notify] at hs'
    split at hs'
    · split at hs'
      next c fd alloc => exact quiet_accept h (hfresh _ rfl).1 hs'
      next =>
        obtain rfl := Option.some.inj hs'
        exact ⟨rfl, rfl, rfl, rfl, rfl⟩
    · obtain rfl := Option.some.inj hs'
      exact ⟨rfl, rfl, rfl, rfl, rfl⟩

end

/-! ## Reports -/

section
variable {s : Driver own} {L F : Multiset Nat}

theorem filterMap_of_map {α β : Type} {f : α → Option β} : ∀ {l : List α} {l' : List β}, l.map f = l'.map some →
    l.filterMap f = l'
  | [], [], _ => rfl
  | [], _ :: _, h => nomatch h
  | _ :: _, [], h => nomatch h
  | a :: l, b :: l', h => by
    obtain ⟨hhead, htail⟩ := List.cons.inj h
    rw [List.filterMap_cons_some hhead, filterMap_of_map htail]

theorem resolve_signal (h : Owned s L F) : s.resolve (own.signalFd, signalMask) = some signalEvent := by
  unfold resolve
  rw [h.subscribed.signals]
  rfl

theorem Owned.signalFd_not_ready (h : Owned s L F) : ∀ e ∈ s.ready, e.1 ≠ own.signalFd := by
  intro e he heq
  obtain ⟨p, mask, hp⟩ := h.subscribed.ready e he
  rw [heq, h.subscribed.signals] at hp
  cases hp

theorem Owned.nodup_reportable (h : Owned s L F) : s.reportable.Nodup := by
  have hready : s.ready.Nodup := List.Nodup.of_map Prod.fst h.subscribed.edges
  unfold reportable
  split
  · rw [List.append_nil]
    exact hready
  · refine List.nodup_append.mpr ⟨hready, List.nodup_singleton _, fun e he b hb heq => ?_⟩
    apply h.signalFd_not_ready e he
    rw [heq, List.mem_singleton.mp hb]

/-- Before `epoll_wait` everything that is left may be reported. -/
theorem outstanding_waiting (h : Owned s L F) (hphase : s.phase.drains = false) :
    s.outstanding = s.reportable.filterMap s.resolve := by
  unfold outstanding reportable
  rw [hphase, List.filterMap_append]
  by_cases hpending : s.pending = []
  · simp [hpending]
  · simp [hpending, resolve_signal h]

theorem length_outstanding (h : Owned s L F) (hphase : s.phase.drains = false) :
    s.outstanding.length = s.reportable.length := by
  obtain ⟨data, -, hmap, -⟩ := h.report (List.Subset.refl s.reportable)
  rw [outstanding_waiting h hphase, filterMap_of_map hmap]
  have hlength := congrArg List.length hmap
  rw [List.length_map, List.length_map] at hlength
  exact hlength.symm

/-- The signal descriptor is in hand once it was reported. -/
theorem signals_reported (h : Owned s L F) {events : List (Nat × Mask)} (hsub : events ⊆ s.reportable)
    {data : List (EventData × Mask)} (hmap : events.map s.resolve = data.map some) :
    (data.any fun e => e.1 = .signals) = decide ((own.signalFd, signalMask) ∈ events) := by
  rw [Bool.eq_iff_iff, List.any_eq_true, decide_eq_true_iff]
  constructor
  · intro hany
    obtain ⟨d, hd, hsignals⟩ := hany
    have hmem : some d ∈ data.map some := List.mem_map.mpr ⟨d, hd, rfl⟩
    rw [← hmap] at hmem
    obtain ⟨e, he, hresolve⟩ := List.mem_map.mp hmem
    unfold reportable at hsub
    rcases List.mem_append.mp (hsub he) with hready | hlast
    · obtain ⟨p, mask, hp⟩ := h.subscribed.ready e hready
      rw [resolve, hp] at hresolve
      obtain rfl := Option.some.inj hresolve
      exact absurd (of_decide_eq_true hsignals) nofun
    · split at hlast
      · cases hlast
      · rw [← List.mem_singleton.mp hlast]
        exact he
  · intro he
    have hmem : s.resolve (own.signalFd, signalMask) ∈ events.map s.resolve := List.mem_map.mpr ⟨_, he, rfl⟩
    rw [resolve_signal h, hmap] at hmem
    obtain ⟨d, hd, heq⟩ := List.mem_map.mp hmem
    refine ⟨d, hd, ?_⟩
    rw [Option.some.inj heq]
    rfl

/-- A report splits what is left in two. -/
theorem outstanding_report (h : Owned s L F) {time : Time} (hphase : s.phase = .waiting time)
    {events : List (Nat × Mask)} (hreports : s.Reports events) {data : List (EventData × Mask)}
    (hmap : events.map s.resolve = data.map some) :
    (data ++ (s.reported time events data).outstanding).Perm s.outstanding := by
  obtain ⟨hnodup, hsub, -⟩ := hreports
  have hrest : (s.reported time events data).outstanding =
      (s.reportable.filter (· ∉ events)).filterMap s.resolve := by
    have hdrains : (s.reported time events data).phase.drains = decide ((own.signalFd, signalMask) ∈ events) :=
      signals_reported h hsub hmap
    unfold outstanding reportable
    rw [hdrains, List.filter_append, List.filterMap_append]
    refine congrArg (_ ++ ·) ?_
    show (if s.pending = [] ∨ _ then [] else [signalEvent]) = _
    by_cases hpending : s.pending = []
    · simp [hpending]
    · by_cases hmem : (own.signalFd, signalMask) ∈ events
      · simp [hpending, hmem]
      · simp [hpending, hmem, resolve_signal h]
  have hperm : (events ++ s.reportable.filter (· ∉ events)).Perm s.reportable := by
    have hsplit : (events ++ s.reportable.filter (· ∉ events)).Nodup := by
      refine List.nodup_append.mpr ⟨hnodup, h.nodup_reportable.filter _, fun a ha b hb heq => ?_⟩
      exact of_decide_eq_true (List.mem_filter.mp hb).2 (heq ▸ ha)
    rw [List.perm_ext_iff_of_nodup hsplit h.nodup_reportable]
    intro e
    rw [List.mem_append, List.mem_filter]
    constructor
    · intro he
      rcases he with he | he
      · exact hsub he
      · exact he.1
    · intro he
      by_cases hmem : e ∈ events
      · exact Or.inl hmem
      · exact Or.inr ⟨he, decide_eq_true hmem⟩
  rw [outstanding_waiting h (by rw [hphase]; rfl), hrest, ← filterMap_of_map hmap, ← List.filterMap_append]
  exact hperm.filterMap _

end

/-! ## Steps of a poll -/

theorem outstanding_rephase (s : Driver own) (phase : Phase) (notified : List (EventData × Mask))
    (hdrains : phase.drains = s.phase.drains) :
    outstanding ({ s with phase, notified } : Driver own) = s.outstanding := by
  show _ ++ (if s.pending = [] ∨ phase.drains then [] else _) = _
  rw [hdrains]
  rfl

section
variable {s₀ s : Driver own} {time : Time} {nfds : Nat} {events : List (EventData × Mask)}

theorem Polled.waiting (h : Polled s₀ time s) {t : Time} (hphase : s.phase = .waiting t) :
    t = time ∧ s.outstanding.length % maxEpollEvents = s₀.outstanding.length % maxEpollEvents ∧
      (s.notified ++ s.outstanding).Perm (s₀.notified ++ s₀.outstanding) := by
  have hbatch := h.batch
  have hevents := h.events
  unfold Batch at hbatch
  rw [hphase] at hbatch hevents
  rw [show Phase.events (.waiting t) = [] from rfl, List.append_nil] at hevents
  exact ⟨hbatch.1, hbatch.2, hevents⟩

theorem Polled.step_waiting (h : Polled s₀ time s) {t : Time} (hphase : s.phase = .waiting t)
    {events : List (Nat × Mask)} (hreports : s.Reports events) (accepted : Option (Nat × Alloc)) :
    ∃ s', s.advance events accepted = some s' ∧ Polled s₀ time s' ∧ s'.rank ≤ s.rank - 1 := by
  obtain ⟨rfl, hmod, hperm⟩ := h.waiting hphase
  have hdrains : s.phase.drains = false := by rw [hphase]; rfl
  have hlength := length_outstanding h.owned hdrains
  have hrank : s.rank = if t = .forever ∧ s.outstanding = [] then 0
      else 4 * s.outstanding.length + s.pending.length + 1 := by
    unfold rank
    rw [hphase]
  unfold advance
  rw [hphase]
  by_cases hnone : s.reportable = []
  · have hempty : s.outstanding = [] := by
      apply List.eq_nil_of_length_eq_zero
      rw [hlength, hnone]
      rfl
    by_cases htime : t = .forever
    · refine ⟨s, by simp [hnone, htime], h, ?_⟩
      rw [hrank, if_pos ⟨htime, hempty⟩]
    · refine ⟨{ s with phase := .idle }, by simp [hnone, htime], ?_, Nat.zero_le _⟩
      have hsame : outstanding ({ s with phase := .idle } : Driver own) = s.outstanding :=
        outstanding_rephase s _ s.notified hdrains.symm
      refine ⟨h.owned.rephase .idle s.notified nofun, ?_, h.signals, ?_⟩
      · rw [hsame]
        show (s.notified ++ [] ++ s.outstanding).Perm _
        rw [List.append_nil]
        exact hperm
      · exact ⟨hsame.trans hempty, Or.inl htime⟩
  · obtain ⟨data, hdata, hmap, hlive⟩ := h.owned.report hreports.2.1
    have hdatalen : data.length = events.length := by
      have := congrArg List.length hmap
      rw [List.length_map, List.length_map] at this
      exact this.symm
    have hsplit := outstanding_report h.owned hphase hreports hmap
    have hsum : data.length + (s.reported t events data).outstanding.length = s.outstanding.length := by
      rw [← List.length_append]
      exact hsplit.length_eq
    have hcount : events.length = min maxEpollEvents s.reportable.length := hreports.2.2
    have hpos : 0 < s.reportable.length := List.length_pos_of_ne_nil hnone
    rw [show maxEpollEvents = 256 from rfl] at hcount hmod
    refine ⟨s.reported t events data, by simp [hnone, hdata], ?_, ?_⟩
    · have howned := h.owned
      refine ⟨⟨howned.descriptors, howned.nodup, howned.holders, howned.created, howned.subscribed.signals,
        howned.subscribed.registered, howned.subscribed.edges.sublist (List.filter_sublist.map _),
        fun e he => howned.subscribed.ready e (List.mem_filter.mp he).1, hlive⟩, ?_, h.signals, ?_⟩
      · show (s.notified ++ data ++ (s.reported t events data).outstanding).Perm _
        rw [List.append_assoc]
        exact (hsplit.append_left s.notified).trans hperm
      · refine ⟨rfl, ?_⟩
        unfold Remains
        rw [show maxEpollEvents = 256 from rfl]
        omega
    · have hrank' : (s.reported t events data).rank = 4 * (s.reported t events data).outstanding.length +
          2 * data.length + s.pending.length + 2 := rfl
      have hne : s.outstanding ≠ [] := by
        intro hempty
        rw [← hlength, hempty] at hpos
        exact Nat.lt_irrefl 0 hpos
      rw [hrank', hrank, if_neg fun hboth => hne hboth.2]
      omega

theorem Polled.step_batch (h : Polled s₀ time s) {t : Time} (hphase : s.phase = .dispatching t nfds []) :
    ∃ s', (if nfds = maxEpollEvents then some { s with phase := .waiting t } else some { s with phase := .idle }) = some s' ∧
      Polled s₀ time s' ∧ s'.rank ≤ s.rank - 1 := by
  have hbatch := h.batch
  have hevents := h.events
  unfold Batch at hbatch
  rw [hphase] at hbatch hevents
  rw [show Phase.events (.dispatching t nfds []) = [] from rfl, List.append_nil] at hevents
  obtain ⟨rfl, hremains⟩ := hbatch
  have hrank : s.rank = 4 * s.outstanding.length + s.pending.length + 2 := by
    unfold rank
    rw [hphase]
    rfl
  have hdrains : s.phase.drains = false := by rw [hphase]; rfl
  by_cases hfull : nfds = maxEpollEvents
  · have hsame : outstanding ({ s with phase := .waiting t } : Driver own) = s.outstanding :=
      outstanding_rephase s _ s.notified hdrains.symm
    refine ⟨{ s with phase := .waiting t }, if_pos hfull, ⟨h.owned.rephase _ s.notified nofun, ?_, h.signals, ?_⟩, ?_⟩
    · rw [hsame]
      show (s.notified ++ [] ++ s.outstanding).Perm _
      rw [List.append_nil]
      exact hevents
    · refine ⟨rfl, ?_⟩
      rw [hsame]
      rcases hremains with ⟨-, hmod⟩ | ⟨-, hmod, -⟩
      · exact hmod
      · exact absurd (hmod ▸ hfull) (Nat.ne_of_lt (Nat.mod_lt _ (by decide)))
    · show (if _ ∧ outstanding ({ s with phase := .waiting t } : Driver own) = [] then 0 else
        4 * (outstanding ({ s with phase := .waiting t } : Driver own)).length + s.pending.length + 1) ≤ _
      rw [hsame, hrank]
      split <;> omega
  · have hsame : outstanding ({ s with phase := .idle } : Driver own) = s.outstanding :=
      outstanding_rephase s _ s.notified hdrains.symm
    refine ⟨{ s with phase := .idle }, if_neg hfull, ⟨h.owned.rephase _ s.notified nofun, ?_, h.signals, ?_⟩,
      Nat.zero_le _⟩
    · rw [hsame]
      show (s.notified ++ [] ++ s.outstanding).Perm _
      rw [List.append_nil]
      exact hevents
    · obtain ⟨hrest, hmod, hpos⟩ := hremains.resolve_left fun hleft => hfull hleft.1
      refine ⟨hsame.trans (List.eq_nil_of_length_eq_zero hrest), Or.inr ?_⟩
      rw [← hmod]
      exact Nat.pos_iff_ne_zero.mp hpos

theorem Polled.step_event (h : Polled s₀ time s) {t : Time} {e : EventData × Mask}
    (hphase : s.phase = .dispatching t nfds (e :: events)) {accepted : Option (Nat × Alloc)}
    (hfresh : ∀ a ∈ accepted, s.Fresh a.1 a.2) :
    ∃ s', s.handle t nfds e events accepted = some s' ∧ Polled s₀ time s' ∧ s'.rank ≤ s.rank - 1 := by
  obtain ⟨data, mask⟩ := e
  have hbatch := h.batch
  have hevents := h.events
  have hlive := h.owned.subscribed.events
  unfold Batch at hbatch
  rw [hphase] at hbatch hevents hlive
  obtain ⟨rfl, hremains⟩ := hbatch
  have hrank : s.rank = 4 * s.outstanding.length + 2 * (events.length + 1) + s.pending.length + 2 := by
    unfold rank
    rw [hphase]
    rfl
  have hmoved (phase : Phase) (hp : phase.events = events) (hdrains : phase.drains = s.phase.drains) :
      Owned ({ s with phase, notified := s.notified ++ [(data, mask)] } : Driver own) 0 0 ∧
      outstanding ({ s with phase, notified := s.notified ++ [(data, mask)] } : Driver own) = s.outstanding ∧
      (s.notified ++ [(data, mask)] ++ phase.events ++ s.outstanding).Perm (s₀.notified ++ s₀.outstanding) := by
    refine ⟨h.owned.rephase _ _ fun e he => hlive e ?_, outstanding_rephase s _ _ hdrains, ?_⟩
    · rw [hp] at he
      exact List.mem_cons_of_mem _ he
    · rw [hp, List.append_assoc s.notified]
      exact hevents
  unfold handle
  cases data with
  | signals =>
    obtain ⟨howned, hsame, hperm⟩ := hmoved (.draining t nfds events) rfl (by rw [hphase]; rfl)
    refine ⟨_, rfl, ⟨howned, ?_, h.signals, rfl, ?_⟩, ?_⟩
    · rw [hsame]
      exact hperm
    · rw [hsame]
      exact hremains
    · unfold rank at hrank ⊢
      rw [hsame]
      simp only
      omega
  | wake =>
    obtain ⟨howned, hsame, hperm⟩ := hmoved (.dispatching t nfds events) rfl (by rw [hphase]; simp [Phase.drains])
    refine ⟨_, rfl, ⟨howned, ?_, h.signals, rfl, ?_⟩, ?_⟩
    · rw [hsame]
      exact hperm
    · rw [hsame]
      exact hremains
    · unfold rank at hrank ⊢
      rw [hsame]
      simp only
      omega
  | owner p =>
    obtain ⟨howned, hsame, hperm⟩ := hmoved (.dispatching t nfds events) rfl (by rw [hphase]; simp [Phase.drains])
    obtain ⟨s', hs', howned', -⟩ := howned.notify (hlive _ List.mem_cons_self p rfl) mask hfresh
    have hquiet := quiet_notify howned hfresh hs'
    refine ⟨s', hs', ⟨howned', ?_, ?_, ?_⟩, ?_⟩
    · rw [hquiet.notified, hquiet.phase, hquiet.outstanding, hsame]
      exact hperm
    · rw [hquiet.consumed, hquiet.pending]
      exact h.signals
    · unfold Batch
      rw [hquiet.phase, hquiet.outstanding, hsame]
      exact ⟨rfl, hremains⟩
    · unfold rank at hrank ⊢
      rw [hquiet.phase, hquiet.outstanding, hquiet.pending, hsame]
      simp only
      omega

theorem Polled.step_draining (h : Polled s₀ time s) {t : Time} (hphase : s.phase = .draining t nfds events) :
    ∃ s', s.readSignal t nfds events = some s' ∧ Polled s₀ time s' ∧ s'.rank ≤ s.rank - 1 := by
  have hbatch := h.batch
  have hevents := h.events
  have hlive := h.owned.subscribed.events
  have hsignals := h.signals
  unfold Batch at hbatch
  rw [hphase] at hbatch hevents hlive
  obtain ⟨rfl, hremains⟩ := hbatch
  have hrank : s.rank = 4 * s.outstanding.length + 2 * events.length + s.pending.length + 3 := by
    unfold rank
    rw [hphase]
  have hout : s.outstanding = s.ready.filterMap s.resolve := by
    unfold outstanding
    rw [hphase]
    simp [Phase.drains]
  unfold readSignal
  split
  next hpending =>
    have hsame : outstanding ({ s with phase := .dispatching t nfds events } : Driver own) = s.outstanding := by
      rw [hout]
      show _ ++ (if s.pending = [] ∨ _ then [] else _) = _
      rw [if_pos (Or.inl hpending), List.append_nil]
      rfl
    refine ⟨_, rfl, ⟨h.owned.rephase _ s.notified hlive, ?_, h.signals, rfl, ?_⟩, ?_⟩
    · rw [hsame]
      exact hevents
    · rw [hsame]
      exact hremains
    · unfold rank at hrank ⊢
      rw [hsame]
      simp only
      omega
  next sig pending hpending =>
    let s₁ := s.consume sig pending
    have hquiet : Quiet s₁ (s₁.notifySignalListener sig) := quiet_notifySignalListener s₁ sig
    have howned : Owned s₁ 0 0 :=
      ⟨h.owned.descriptors, h.owned.nodup, h.owned.holders, h.owned.created, h.owned.subscribed⟩
    have hsame : s₁.outstanding = s.outstanding := by
      rw [hout]
      show _ ++ (if pending = [] ∨ s.phase.drains then [] else _) = _
      rw [hphase, show (Phase.draining t nfds events).drains = true from rfl, if_pos (Or.inr rfl), List.append_nil]
      rfl
    refine ⟨s₁.notifySignalListener sig, rfl, ⟨(howned.notifySignalListener sig).1, ?_, ?_, ?_⟩, ?_⟩
    · rw [hquiet.notified, hquiet.phase, hquiet.outstanding, hsame]
      show (s.notified ++ s.phase.events ++ _).Perm _
      rw [hphase]
      exact hevents
    · rw [hquiet.consumed, hquiet.pending, ← hsignals, hpending]
      exact List.append_assoc s.consumed [sig] pending
    · unfold Batch
      rw [hquiet.phase, hquiet.outstanding, hsame, show s₁.phase = .draining t nfds events from hphase]
      exact ⟨rfl, hremains⟩
    · rw [hrank]
      unfold rank
      rw [hquiet.phase, hquiet.outstanding, hquiet.pending, hsame, show s₁.pending = pending from rfl,
        show s₁.phase = .draining t nfds events from hphase, hpending]
      simp only [List.length_cons]
      omega

theorem Polled.step (h : Polled s₀ time s) {events : List (Nat × Mask)} {accepted : Option (Nat × Alloc)}
    (hok : s.Allowed (.advance events accepted)) :
    ∃ s', s.advance events accepted = some s' ∧ Polled s₀ time s' ∧ s'.rank ≤ s.rank - 1 := by
  obtain ⟨hreports, hfresh⟩ := hok
  cases hphase : s.phase with
  | idle =>
    refine ⟨s, by rw [advance, hphase], h, ?_⟩
    have hrank : s.rank = 0 := by
      unfold rank
      rw [hphase]
    rw [hrank]
  | waiting t => exact h.step_waiting hphase (hreports (by rw [hphase]; rfl)) accepted
  | dispatching t nfds rest =>
    cases rest with
    | nil =>
      obtain ⟨s', hs', h'⟩ := h.step_batch hphase
      exact ⟨s', by rw [advance, hphase]; exact hs', h'⟩
    | cons e rest =>
      obtain ⟨s', hs', h'⟩ := h.step_event hphase hfresh
      exact ⟨s', by rw [advance, hphase]; exact hs', h'⟩
  | draining t nfds rest =>
    obtain ⟨s', hs', h'⟩ := h.step_draining hphase
    exact ⟨s', by rw [advance, hphase]; exact hs', h'⟩

/-- A poll that has come to rest has returned, or it is blocked with nothing left. -/
theorem Polled.settled (h : Polled s₀ time s) (hrank : s.rank = 0) : s.notified.Perm (s₀.notified ++ s₀.outstanding) ∧
    s.consumed = s₀.consumed ++ s₀.pending ∧ s.reportable = [] ∧
    s.phase = if time = .forever ∧ s₀.outstanding.length % maxEpollEvents = 0 then .waiting .forever else .idle := by
  have hevents := h.events
  have hsignals := h.signals
  have hbatch := h.batch
  have hcases : (s.phase = .idle ∨ s.phase = .waiting .forever ∧ time = .forever ∧
      s₀.outstanding.length % maxEpollEvents = 0) ∧ s.outstanding = [] := by
    unfold rank at hrank
    unfold Batch at hbatch
    split at hrank
    next hphase =>
      rw [hphase] at hbatch
      exact ⟨Or.inl hphase, hbatch.1⟩
    next t hphase =>
      rw [hphase] at hbatch
      split at hrank
      next hboth =>
        obtain ⟨rfl, hnone⟩ := hboth
        obtain ⟨htime, hmod⟩ := hbatch
        rw [hnone] at hmod
        exact ⟨Or.inr ⟨hphase, htime.symm, hmod.symm⟩, hnone⟩
      next => omega
    next => omega
    next => omega
  obtain ⟨hphase, hnone⟩ := hcases
  have hdrains : s.phase.drains = false := by
    rcases hphase with hidle | ⟨hwaiting, -, -⟩
    · rw [hidle]; rfl
    · rw [hwaiting]; rfl
  have hdone : s.phase.events = [] := by
    rcases hphase with hidle | ⟨hwaiting, -, -⟩
    · rw [hidle]; rfl
    · rw [hwaiting]; rfl
  have hreportable : s.reportable = [] := by
    apply List.eq_nil_of_length_eq_zero
    rw [← length_outstanding h.owned hdrains, hnone]
    rfl
  have hpending : s.pending = [] := by
    by_contra hsome
    rw [reportable, if_neg hsome] at hreportable
    exact absurd hreportable (by simp)
  rw [hdone, hnone, List.append_nil, List.append_nil] at hevents
  rw [hpending, List.append_nil] at hsignals
  refine ⟨hevents, hsignals, hreportable, ?_⟩
  rcases hphase with hidle | ⟨hwaiting, hboth⟩
  · rw [hidle, if_neg]
    intro hboth
    unfold Batch at hbatch
    rw [hidle] at hbatch
    rcases hbatch.2 with htime | hmod
    · exact htime hboth.1
    · exact hmod hboth.2
  · rw [hwaiting, if_pos hboth]

end

/-- **A poll handles what is there**, each event once and in finitely many system calls, and reads every signal;
`wait` does not return, though, if the number of events is a multiple of 256. -/
theorem poll_handles (own : PortDescriptors) (ops : List DriverOp) (time : Time)
    (calls : List (List (Nat × Mask) × Option (Nat × Alloc)))
    (hok : Run.Along step Allowed (new own) (ops ++ .poll time :: calls.map fun call => .advance call.1 call.2)) :
    ∃ answers s, Run.exec step (new own) ops = some (answers, s) ∧
      (4 * s.reportable.length + s.pending.length + 1 ≤ calls.length →
        ∃ answers' s', Run.exec step s (.poll time :: calls.map fun call => .advance call.1 call.2) =
            some (answers', s') ∧
          s'.notified.Perm (s.notified ++ s.reportable.filterMap s.resolve) ∧
          s'.consumed = s.consumed ++ s.pending ∧ s'.reportable = [] ∧
          s'.phase = if time = .forever ∧ s.reportable.length % maxEpollEvents = 0 then .waiting .forever else .idle) := by
  obtain ⟨answers, s, hrun, h⟩ := Run.exec_invariant (fun s => Owned s 0 0) Allowed (fun s op h hop => h.step hop)
    ops (new own) owned_new (hok.initial (List.prefix_append ops _))
  refine ⟨answers, s, hrun, fun hlong => ?_⟩
  obtain ⟨hidle, hrest⟩ := hok.of_append hrun
  have hidle : s.phase = .idle := hidle
  let s₁ : Driver own := { s with phase := .waiting time }
  have hdrains : s.phase.drains = false := by rw [hidle]; rfl
  have hsame : s₁.outstanding = s.outstanding := outstanding_rephase s _ s.notified hdrains.symm
  have hpolled : Polled s time s₁ := by
    refine ⟨h.rephase _ s.notified nofun, ?_, rfl, rfl, by rw [hsame]⟩
    rw [hsame]
    show (s.notified ++ [] ++ s.outstanding).Perm _
    rw [List.append_nil]
  have hpoll : ∀ op ∈ calls.map (fun call => DriverOp.advance call.1 call.2),
      ∃ events accepted, op = .advance events accepted := by
    intro op hop
    obtain ⟨call, -, rfl⟩ := List.mem_map.mp hop
    exact ⟨call.1, call.2, rfl⟩
  have hadvance := (hrest .unit s₁ rfl).and (Run.along_of_forall _ s₁ hpoll)
  obtain ⟨answers', s', hrun', hpolled', hrank⟩ := Run.exec_settles (Polled s time) rank (by
    intro t op ht hop
    obtain ⟨hop, events, accepted, rfl⟩ := hop
    obtain ⟨t', ht', hstep⟩ := ht.step hop
    exact ⟨.unit, t', by rw [Driver.step, ht']; rfl, hstep⟩) _ s₁ hpolled hadvance
  have hlength := length_outstanding h hdrains
  have hzero : s'.rank = 0 := by
    have hle : s₁.rank ≤ 4 * s.outstanding.length + s.pending.length + 1 := by
      show (if _ ∧ s₁.outstanding = [] then 0 else 4 * s₁.outstanding.length + s.pending.length + 1) ≤ _
      rw [hsame]
      split <;> omega
    rw [List.length_map] at hrank
    omega
  obtain ⟨hnotified, hconsumed, hnone, hphase⟩ := hpolled'.settled hzero
  refine ⟨.unit :: answers', s', ?_, ?_, hconsumed, hnone, by rw [← hlength]; exact hphase⟩
  · rw [Run.exec_cons (show step s (.poll time) = some (.unit, s₁) from rfl), hrun']
    rfl
  · rw [← outstanding_waiting h hdrains]
    exact hnotified

def readyOps : List DriverOp :=
  [.connect [.inProgress] (some 7) ⟨100, true⟩, .conveyor .readReady 100, .onSignal .user1, .raise 7 ioMask,
    .raiseSignal .sigusr1]

def readyCalls : List (List (Nat × Mask) × Option (Nat × Alloc)) :=
  ([(4, signalMask), (7, ioMask)], none) :: List.replicate 9 ([], none)

theorem poll_handles_ready : Run.Along step Allowed (new firstPort)
      (readyOps ++ .poll .now :: readyCalls.map fun call => .advance call.1 call.2) ∧
    ∃ answers s, Run.exec step (new firstPort) readyOps = some (answers, s) ∧
      ∃ answers' s', Run.exec step s (.poll .now :: readyCalls.map fun call => .advance call.1 call.2) =
          some (answers', s') ∧
        s'.notified.Perm (s.notified ++ s.reportable.filterMap s.resolve) ∧ s'.consumed = s.consumed ++ s.pending ∧
        s'.reportable = [] ∧ s'.phase = .idle := by
  have hok : Run.Along step Allowed (new firstPort)
      (readyOps ++ .poll .now :: readyCalls.map fun call => .advance call.1 call.2) := by decide
  obtain ⟨answers, s, hrun, hhandles⟩ := poll_handles firstPort readyOps .now readyCalls hok
  have hlong : (Run.exec step (new firstPort) readyOps).map (fun r => 4 * r.2.reportable.length + r.2.pending.length + 1) =
      some 10 := by decide
  rw [hrun] at hlong
  obtain ⟨answers', s', hrun', hnotified, hconsumed, hnone, hphase⟩ :=
    hhandles (Nat.le_of_eq (Option.some.inj hlong))
  exact ⟨hok, answers, s, hrun, answers', s', hrun', hnotified, hconsumed, hnone, hphase⟩

end Driver

end Forstio.Unix
