import Forstio.UnixOwners

/-!
# Signals

Who listens to a signal gets one element for each signal of that kind that is read
from then on. Owners feed conveyors of their own, which the frame of most steps
tells apart from those of the listeners.
-/

namespace Forstio.Unix

def Feeders.numbers : Feeders → List Nat
  | stream readReady onReadDisconnect writeReady => readReady.toList ++ onReadDisconnect.toList ++ writeReady.toList
  | server acceptFeeder => acceptFeeder.toList
  | datagram readReady writeReady => readReady.toList ++ writeReady.toList

namespace Driver

variable {own : PortDescriptors}

/-- Some owner has a feeder of the conveyor. -/
def Feeds (s : Driver own) (c : Nat) : Prop := ∃ p o, s.owners.lookup p = some o ∧ c ∈ o.feeders.numbers

/-- Nothing changes but owners, and the conveyors that they feed or that are new. -/
structure Frame (s s' : Driver own) : Prop where
  created : s.created ≤ s'.created
  feeds : ∀ c, s'.Feeds c → s.Feeds c ∨ s.created ≤ c ∧ c < s'.created
  inbox : ∀ c, c < s.created → ¬ s.Feeds c → s'.conveyors.lookup c = s.conveyors.lookup c
  listeners : s'.signalConveyors = s.signalConveyors
  consumed : s'.consumed = s.consumed

section
variable {s s' s'' : Driver own} {p fd c : Nat}

/-- Owners, conveyors and listeners are left alone. -/
theorem Frame.of_same (howners : s'.owners = s.owners) (hconveyors : s'.conveyors = s.conveyors)
    (hcreated : s'.created = s.created) (hlisteners : s'.signalConveyors = s.signalConveyors)
    (hconsumed : s'.consumed = s.consumed) : Frame s s' := by
  refine ⟨Nat.le_of_eq hcreated.symm, fun c hc => Or.inl ?_, fun c _ _ => by rw [hconveyors], hlisteners, hconsumed⟩
  unfold Feeds at hc ⊢
  rw [howners] at hc
  exact hc

theorem Frame.refl (s : Driver own) : Frame s s := .of_same rfl rfl rfl rfl rfl

theorem Frame.trans (h : Frame s s') (h' : Frame s' s'') : Frame s s'' := by
  refine ⟨Nat.le_trans h.created h'.created, fun c hc => ?_, fun c hlt hno => ?_, h'.listeners.trans h.listeners,
    h'.consumed.trans h.consumed⟩
  · rcases h'.feeds c hc with hbefore | ⟨hle, hlt⟩
    · rcases h.feeds c hbefore with hfirst | ⟨hle, hlt⟩
      · exact Or.inl hfirst
      · exact Or.inr ⟨hle, Nat.lt_of_lt_of_le hlt h'.created⟩
    · exact Or.inr ⟨Nat.le_trans h.created hle, hlt⟩
  · refine (h'.inbox c (Nat.lt_of_lt_of_le hlt h.created) fun hfeeds => ?_).trans (h.inbox c hlt hno)
    rcases h.feeds c hfeeds with hfirst | ⟨hle, -⟩
    · exact hno hfirst
    · exact Nat.not_lt.mpr hle hlt

theorem frame_opened (s : Driver own) (fd : Nat) : Frame s (s.opened fd) := .of_same rfl rfl rfl rfl rfl

theorem frame_newOwner (alloc : Alloc) (mask : Mask) {feeders : Feeders} (hnone : feeders.numbers = []) :
    Frame s (s.newOwner alloc fd mask feeders) := by
  have hplain : Frame s ({ s with owners := s.owners.insert alloc.address ⟨fd, mask, feeders⟩ } : Driver own) := by
    refine ⟨Nat.le_refl _, fun c hc => Or.inl ?_, fun c _ _ => rfl, rfl, rfl⟩
    obtain ⟨q, o, ho, hmem⟩ := hc
    by_cases hq : q = alloc.address
    · subst hq
      obtain rfl := Option.some.inj ((AList.lookup_insert _).symm.trans ho)
      rw [show Feeders.numbers feeders = [] from hnone] at hmem
      cases hmem
    · exact ⟨q, o, (AList.lookup_insert_ne hq).symm.trans ho, hmem⟩
  unfold newOwner subscribe
  split
  · exact hplain.trans (.of_same rfl rfl rfl rfl rfl)
  · exact hplain

theorem frame_close (h : s.close fd = some s') : Frame s s' := by
  obtain ⟨_, _, heq⟩ := Option.bind_eq_some_iff.mp h
  obtain rfl := Option.some.inj heq
  exact .of_same rfl rfl rfl rfl rfl

theorem frame_destroyOwner (h : s.destroyOwner p = some s') : Frame s s' := by
  obtain ⟨o, _, h⟩ := Option.bind_eq_some_iff.mp h
  obtain ⟨s₁, hclose, heq⟩ := Option.bind_eq_some_iff.mp h
  obtain rfl := Option.some.inj heq
  have hunsubscribed : Frame s (s.unsubscribe o.fileDescriptor) := .of_same rfl rfl rfl rfl rfl
  have hfirst : Frame s s₁ := hunsubscribed.trans (frame_close hclose)
  refine hfirst.trans ⟨Nat.le_refl _, fun c hc => Or.inl ?_, fun c _ _ => rfl, rfl, rfl⟩
  obtain ⟨q, o', ho', hmem⟩ := hc
  have hq : q ≠ p := by
    intro heq
    subst heq
    exact absurd ((AList.lookup_erase _ _).symm.trans ho') nofun
  exact ⟨q, o', (AList.lookup_erase_ne hq).symm.trans ho', hmem⟩

theorem frame_destroyAll : ∀ {ps : List Nat} {s : Driver own}, s.destroyAll ps = some s' → Frame s s'
  | [], s, h => by
    obtain rfl := Option.some.inj h
    exact .refl s
  | p :: ps, s, h => by
    obtain ⟨s₁, h₁, hrest⟩ := Option.bind_eq_some_iff.mp h
    exact (frame_destroyOwner h₁).trans (frame_destroyAll hrest)

theorem frame_newConveyor (s : Driver own) : Frame s s.newConveyor.2 :=
  ⟨Nat.le_succ _, fun _ hc => Or.inl hc, fun _ hlt _ => AList.lookup_insert_ne (Nat.ne_of_lt hlt), rfl, rfl⟩

theorem Frame.feed (h : Frame s s') {feeder : Option Nat} (hfeeds : ∀ c ∈ feeder, s.Feeds c) :
    Frame s (s'.feed feeder) := by
  unfold Driver.feed
  split
  · exact h
  next c =>
    split
    · exact h
    · refine ⟨h.created, h.feeds, fun d hlt hno => ?_, h.listeners, h.consumed⟩
      refine Eq.trans (AList.lookup_insert_ne fun heq => hno ?_) (h.inbox d hlt hno)
      rw [heq]
      exact hfeeds c rfl

theorem Frame.feedIf (h : Frame s s') (bit : Bool) {feeder : Option Nat} (hfeeds : ∀ c ∈ feeder, s.Feeds c) :
    Frame s (s'.feedIf bit feeder) := by
  unfold Driver.feedIf
  split
  · exact h.feed hfeeds
  · exact h

theorem Frame.feedStream (h : Frame s s') (hfeeds : s.Feeds c) (hfed : s'.feedStream c p = some s'') :
    Frame s s'' := by
  unfold Driver.feedStream at hfed
  split at hfed
  · exact h.trans (frame_destroyOwner hfed)
  · obtain rfl := Option.some.inj hfed
    refine ⟨h.created, h.feeds, fun d hlt hno => ?_, h.listeners, h.consumed⟩
    refine Eq.trans (AList.lookup_insert_ne fun heq => hno ?_) (h.inbox d hlt hno)
    rw [heq]
    exact hfeeds

theorem frame_notify {mask : Mask} {accepted : Option (Nat × Alloc)} (h : s.notify p mask accepted = some s') :
    Frame s s' := by
  obtain ⟨o, ho, h⟩ := Option.bind_eq_some_iff.mp h
  cases hfeeders : o.feeders with
  | stream readReady onReadDisconnect writeReady =>
    rw [hfeeders] at h
    obtain rfl := Option.some.inj h
    have hfeeds : ∀ c ∈ readReady.toList ++ onReadDisconnect.toList ++ writeReady.toList, s.Feeds c :=
      fun c hc => ⟨p, o, ho, by rw [hfeeders]; exact hc⟩
    refine (((Frame.refl s).feedIf _ fun c hc => ?_).feedIf _ fun c hc => ?_).feedIf _ fun c hc => ?_
    · exact hfeeds c (by simp [Option.mem_def.mp hc])
    · exact hfeeds c (by simp [Option.mem_def.mp hc])
    · exact hfeeds c (by simp [Option.mem_def.mp hc])
  | datagram readReady writeReady =>
    rw [hfeeders] at h
    obtain rfl := Option.some.inj h
    have hfeeds : ∀ c ∈ readReady.toList ++ writeReady.toList, s.Feeds c :=
      fun c hc => ⟨p, o, ho, by rw [hfeeders]; exact hc⟩
    refine ((Frame.refl s).feedIf _ fun c hc => ?_).feedIf _ fun c hc => ?_
    · exact hfeeds c (by simp [Option.mem_def.mp hc])
    · exact hfeeds c (by simp [Option.mem_def.mp hc])
  | server acceptFeeder =>
    rw [hfeeders] at h
    simp only [UnixServer.notify] at h
    split at h
    · have hnew (fd : Nat) (alloc : Alloc) :
          Frame s ((s.opened fd).newOwner alloc fd (streamMask ioMask) (.stream none none none)) :=
        (frame_opened s fd).trans (frame_newOwner alloc _ rfl)
      split at h
      next => exact (hnew _ _).feedStream ⟨p, o, ho, by rw [hfeeders]; exact List.mem_singleton_self _⟩ h
      next =>
        obtain rfl := Option.some.inj h
        exact .refl s
    · obtain rfl := Option.some.inj h
      exact .refl s

/-! ## Steps that do not concern listeners -/

theorem frame_bound {setsockopt bind : Bool} {mask : Mask} {feeders : Feeders} (hnone : feeders.numbers = [])
    {alloc : Alloc} {q : Option Nat} (h : UnixNetwork.bound s fd setsockopt bind mask feeders alloc = some (q, s')) :
    Frame s s' := by
  have hopened := frame_opened s fd
  unfold UnixNetwork.bound at h
  split at h
  · obtain ⟨s₁, hclose, heq⟩ := Option.bind_eq_some_iff.mp h
    obtain ⟨-, rfl⟩ := Prod.mk.inj (Option.some.inj heq)
    exact hopened.trans (frame_close hclose)
  · simp only [Option.pure_def, Option.bind_eq_bind] at h
    split at h
    · obtain ⟨s₁, hclose, heq⟩ := Option.bind_eq_some_iff.mp h
      obtain ⟨-, rfl⟩ := Prod.mk.inj (Option.some.inj heq)
      exact hopened.trans (frame_close hclose)
    · obtain ⟨-, rfl⟩ := Prod.mk.inj (Option.some.inj h)
      exact (hopened.trans (frame_newOwner alloc mask hnone)).trans (.of_same rfl rfl rfl rfl rfl)

theorem frame_listen {addresses : Nat} {socket : Option Nat} {setsockopt bind : Bool} {alloc : Alloc} {q : Option Nat}
    (h : UnixNetwork.listen s addresses socket setsockopt bind alloc = some (q, s')) : Frame s s' := by
  obtain ⟨_, _, h⟩ := Option.bind_eq_some_iff.mp h
  cases socket with
  | none =>
    obtain ⟨-, rfl⟩ := Prod.mk.inj (Option.some.inj h)
    exact .refl s
  | some fd => exact frame_bound rfl h

theorem frame_datagram {addresses : Nat} {socket : Option Nat} {setsockopt bind : Bool} {alloc : Alloc} {q : Option Nat}
    (h : UnixNetwork.datagram s addresses socket setsockopt bind alloc = some (q, s')) : Frame s s' := by
  obtain ⟨_, _, h⟩ := Option.bind_eq_some_iff.mp h
  cases socket with
  | none =>
    obtain ⟨-, rfl⟩ := Prod.mk.inj (Option.some.inj h)
    exact .refl s
  | some fd => exact frame_bound rfl h

theorem frame_connect {results : List ConnectResult} {socket : Option Nat} {alloc : Alloc} {result : ErrorOr Nat}
    (h : UnixNetwork.connect s results socket alloc = some (result, s')) : Frame s s' := by
  obtain ⟨_, _, h⟩ := Option.bind_eq_some_iff.mp h
  cases socket with
  | none =>
    obtain ⟨-, rfl⟩ := Prod.mk.inj (Option.some.inj h)
    exact .refl s
  | some fd =>
    have hnew : Frame s ((s.opened fd).newOwner alloc fd (streamMask ioMask) (.stream none none none)) :=
      (frame_opened s fd).trans (frame_newOwner alloc _ rfl)
    simp only at h
    split at h
    · obtain ⟨-, rfl⟩ := Prod.mk.inj (Option.some.inj h)
      exact hnew.trans (.of_same rfl rfl rfl rfl rfl)
    · obtain ⟨s₁, hdestroyed, heq⟩ := Option.bind_eq_some_iff.mp h
      obtain ⟨-, rfl⟩ := Prod.mk.inj (Option.some.inj heq)
      exact hnew.trans (frame_destroyOwner hdestroyed)

theorem numbers_install {slot : Slot} {feeders feeders' : Feeders} {new : Nat}
    (h : install slot feeders new = some feeders') : ∀ c ∈ feeders'.numbers, c ∈ feeders.numbers ∨ c = new := by
  intro c hc
  unfold install at h
  split at h
  case h_7 => cases h
  all_goals
    obtain rfl := Option.some.inj h
    simp only [Feeders.numbers, Option.toList_some, List.mem_append, List.mem_singleton] at hc ⊢
    tauto

theorem frame_conveyor {slot : Slot} {new : Nat} (h : s.conveyor slot p = some (new, s')) : Frame s s' := by
  obtain ⟨o, ho, h⟩ := Option.bind_eq_some_iff.mp h
  obtain ⟨feeders, hfeeders, heq⟩ := Option.bind_eq_some_iff.mp h
  obtain ⟨-, rfl⟩ := Prod.mk.inj (Option.some.inj heq)
  have hnew := frame_newConveyor s
  refine ⟨hnew.created, fun c hc => ?_, hnew.inbox, rfl, rfl⟩
  obtain ⟨q, o', ho', hmem⟩ := hc
  by_cases hq : q = p
  · subst hq
    obtain rfl := Option.some.inj ((AList.lookup_insert _).symm.trans ho')
    rcases numbers_install hfeeders c hmem with hbefore | rfl
    · exact Or.inl ⟨q, o, ho, hbefore⟩
    · exact Or.inr ⟨Nat.le_refl _, Nat.lt_succ_self _⟩
  · exact Or.inl ⟨q, o', (AList.lookup_insert_ne hq).symm.trans ho', hmem⟩

theorem frame_dropOwner (h : s.dropOwner p = some s') : Frame s s' := by
  have hreleased : Frame s ({ s with held := s.held.erase p } : Driver own) := .of_same rfl rfl rfl rfl rfl
  exact hreleased.trans (frame_destroyOwner h)

theorem frame_wrapInputFd (s : Driver own) (fd : Nat) (alloc : Alloc) :
    Frame s (UnixIoProvider.wrapInputFd s fd alloc) := by
  have hmoved : Frame s ({ s with foreign := s.foreign.erase fd } : Driver own) := .of_same rfl rfl rfl rfl rfl
  exact (hmoved.trans (frame_newOwner alloc _ rfl)).trans (.of_same rfl rfl rfl rfl rfl)

theorem frame_raise (s : Driver own) (fd : Nat) (mask : Mask) : Frame s (s.raise fd mask) := by
  unfold raise
  split
  · split <;> exact .of_same rfl rfl rfl rfl rfl
  · exact .refl s

theorem frame_advance {events : List (Nat × Mask)} {accepted : Option (Nat × Alloc)}
    (h : s.advance events accepted = some s') : Frame s s' ∨
      ∃ sig pending, s.pending = sig :: pending ∧ s' = (s.consume sig pending).notifySignalListener sig := by
  unfold advance at h
  split at h
  next =>
    obtain rfl := Option.some.inj h
    exact Or.inl (.refl s)
  next =>
    left
    split at h
    · split at h
      · obtain rfl := Option.some.inj h
        exact .refl s
      · obtain rfl := Option.some.inj h
        exact .of_same rfl rfl rfl rfl rfl
    · obtain ⟨data, -, heq⟩ := Option.bind_eq_some_iff.mp h
      obtain rfl := Option.some.inj heq
      exact .of_same rfl rfl rfl rfl rfl
  next =>
    left
    split at h
    · obtain rfl := Option.some.inj h
      exact .of_same rfl rfl rfl rfl rfl
    · obtain rfl := Option.some.inj h
      exact .of_same rfl rfl rfl rfl rfl
  next time nfds e rest _ =>
    left
    have hnoted : Frame s ({ s with
        notified := s.notified ++ [e], phase := .dispatching time nfds rest } : Driver own) :=
      .of_same rfl rfl rfl rfl rfl
    unfold handle at h
    split at h
    · obtain rfl := Option.some.inj h
      exact .of_same rfl rfl rfl rfl rfl
    · obtain rfl := Option.some.inj h
      exact hnoted
    · exact hnoted.trans (frame_notify h)
  next =>
    unfold readSignal at h
    split at h
    next =>
      obtain rfl := Option.some.inj h
      exact Or.inl (.of_same rfl rfl rfl rfl rfl)
    next sig pending hpending => exact Or.inr ⟨sig, pending, hpending, (Option.some.inj h).symm⟩

/-! ## Listeners -/

/-- A conveyor that was made for `signal` when `n` signals had been read. Its feeder belongs to the port. -/
structure Listens (signal : Signal) (c n : Nat) (s : Driver own) : Prop where
  older : c < s.created
  unfed : ¬ s.Feeds c
  listed : s.signalConveyors.filter (·.2 = c) = [(signal, c)]
  read : n ≤ s.consumed.length
  count : s.consumed.length < 2 ^ 64 → ∀ inbox ∈ s.conveyors.lookup c,
    inbox.taken + inbox.storage.length = (s.consumed.drop n).countP fun sig => fromUnixSignal sig = signal

theorem Frame.listens {signal : Signal} {n : Nat} (h : Frame s s') (hl : Listens signal c n s) : Listens signal c n s' := by
  refine ⟨Nat.lt_of_lt_of_le hl.older h.created, fun hfeeds => ?_, ?_, ?_, ?_⟩
  · rcases h.feeds c hfeeds with hbefore | ⟨hle, -⟩
    · exact hl.unfed hbefore
    · exact Nat.not_lt.mpr hle hl.older
  · rw [h.listeners]
    exact hl.listed
  · rw [h.consumed]
    exact hl.read
  · rw [h.consumed, h.inbox c hl.older hl.unfed]
    exact hl.count

theorem tell_same (sig : UnixSignal) {listener : Signal × Nat} (h : listener.2 ≠ c) :
    (s.tell sig listener).conveyors.lookup c = s.conveyors.lookup c := by
  unfold tell feed
  split
  · split
    next heq => cases heq
    next d heq =>
      obtain rfl := Option.some.inj heq
      split
      · rfl
      · exact AList.lookup_insert_ne (Ne.symm h)
  · rfl

theorem tells_same (sig : UnixSignal) : ∀ {listeners : List (Signal × Nat)} {s : Driver own},
    listeners.filter (·.2 = c) = [] → (listeners.foldl (tell sig) s).conveyors.lookup c = s.conveyors.lookup c
  | [], _, _ => rfl
  | listener :: listeners, s, h => by
    have hne : listener.2 ≠ c := fun heq => by simp [heq] at h
    rw [List.filter_cons_of_neg (by simpa using hne)] at h
    rw [List.foldl_cons, tells_same sig h, tell_same sig hne]

/-- The listener is told of a signal of its kind, once. -/
theorem tells_listener (sig : UnixSignal) {signal : Signal} : ∀ {listeners : List (Signal × Nat)} {s : Driver own},
    listeners.filter (·.2 = c) = [(signal, c)] → ∀ {inbox' : Inbox},
    (listeners.foldl (tell sig) s).conveyors.lookup c = some inbox' →
    ∃ inbox, s.conveyors.lookup c = some inbox ∧ (inbox.storage.length < 2 ^ 64 - 1 →
      inbox'.taken + inbox'.storage.length =
        inbox.taken + inbox.storage.length + (decide (fromUnixSignal sig = signal)).toNat)
  | [], _, h, _, _ => nomatch h
  | listener :: listeners, s, h, inbox', hlast => by
    by_cases hc : listener.2 = c
    · rw [List.filter_cons_of_pos (by simpa using hc)] at h
      obtain ⟨rfl, hrest⟩ := List.cons.inj h
      rw [List.foldl_cons, tells_same sig hrest] at hlast
      unfold tell feed at hlast
      simp only at hlast
      cases hinbox : s.conveyors.lookup c with
      | none =>
        simp only [hinbox, ite_self] at hlast
        cases hlast
      | some inbox =>
        refine ⟨inbox, rfl, fun hroom => ?_⟩
        have hspace : 0 < s.space c := by
          unfold space
          rw [hinbox]
          exact Nat.sub_pos_of_lt hroom
        by_cases hkind : fromUnixSignal sig = signal
        · rw [if_pos ⟨hkind.symm, hspace⟩] at hlast
          simp only [hinbox] at hlast
          obtain rfl := Option.some.inj ((AList.lookup_insert _).symm.trans hlast)
          simp [hkind, Nat.add_assoc]
        · rw [if_neg fun hboth => hkind hboth.1.symm, hinbox] at hlast
          obtain rfl := Option.some.inj hlast
          simp [hkind]
    · rw [List.filter_cons_of_neg (by simpa using hc)] at h
      rw [List.foldl_cons] at hlast
      obtain ⟨inbox, hinbox, hcount⟩ := tells_listener sig h hlast
      exact ⟨inbox, (tell_same sig hc).symm.trans hinbox, hcount⟩

theorem tells_fields (sig : UnixSignal) (listeners : List (Signal × Nat)) (s : Driver own) :
    ∃ conveyors, listeners.foldl (tell sig) s = { s with conveyors } := by
  induction listeners generalizing s with
  | nil => exact ⟨s.conveyors, rfl⟩
  | cons listener listeners ih =>
    have hfirst : ∃ conveyors, s.tell sig listener = { s with conveyors } := by
      unfold tell feed
      split
      · split
        · exact ⟨s.conveyors, rfl⟩
        · split
          · exact ⟨s.conveyors, rfl⟩
          · exact ⟨_, rfl⟩
      · exact ⟨s.conveyors, rfl⟩
    obtain ⟨conveyors, hfirst⟩ := hfirst
    obtain ⟨conveyors', hrest⟩ := ih { s with conveyors }
    exact ⟨conveyors', by rw [List.foldl_cons, hfirst, hrest]⟩

theorem Listens.notify {signal : Signal} {n : Nat} (h : Listens signal c n s) (sig : UnixSignal)
    (pending : List UnixSignal) : Listens signal c n ((s.consume sig pending).notifySignalListener sig) := by
  obtain ⟨conveyors, hfields⟩ := tells_fields sig s.signalConveyors (s.consume sig pending)
  have hsame : (s.consume sig pending).notifySignalListener sig = { s.consume sig pending with conveyors } := hfields
  rw [hsame]
  refine ⟨h.older, h.unfed, h.listed, ?_, fun hlt inbox' hinbox' => ?_⟩
  · show n ≤ (s.consumed ++ [sig]).length
    rw [List.length_append]
    exact Nat.le_add_right_of_le h.read
  · have hlast : (s.signalConveyors.foldl (tell sig) (s.consume sig pending)).conveyors.lookup c = some inbox' := by
      rw [hfields]
      exact hinbox'
    obtain ⟨inbox, hinbox, hcount⟩ := tells_listener sig h.listed hlast
    have hlt : (s.consumed ++ [sig]).length < 2 ^ 64 := hlt
    rw [List.length_append, List.length_singleton] at hlt
    have hbefore := h.count (by omega) inbox hinbox
    have hle : (s.consumed.drop n).countP (fun sig => fromUnixSignal sig = signal) ≤ s.consumed.length :=
      Nat.le_trans List.countP_le_length (by rw [List.length_drop]; exact Nat.sub_le _ _)
    show _ = ((s.consumed ++ [sig]).drop n).countP _
    rw [hcount (by omega), List.drop_append_of_le_length h.read, List.countP_append, hbefore]
    by_cases hkind : fromUnixSignal sig = signal <;> simp [hkind]

/-! ## Runs -/

/-- Conveyors are numbered in the order in which they are made. -/
structure Numbered (s : Driver own) : Prop where
  feeds : ∀ c, s.Feeds c → c < s.created
  listeners : ∀ listener ∈ s.signalConveyors, listener.2 < s.created

theorem Frame.numbered (h : Frame s s') (hs : s.Numbered) : s'.Numbered := by
  refine ⟨fun c hc => ?_, fun listener hmem => ?_⟩
  · rcases h.feeds c hc with hbefore | ⟨-, hlt⟩
    · exact Nat.lt_of_lt_of_le (hs.feeds c hbefore) h.created
    · exact hlt
  · rw [h.listeners] at hmem
    exact Nat.lt_of_lt_of_le (hs.listeners listener hmem) h.created

/-- What keeps `I` across frames and the steps that deal with listeners or their conveyors is kept by all steps. -/
theorem step_keeps {I : Driver own → Prop} (hframe : ∀ {s s'}, Frame s s' → I s → I s')
    (hsignal : ∀ {s} signal, I s → I (s.onSignal signal).2)
    (herase : ∀ {s : Driver own} c, I s → I { s with conveyors := s.conveyors.erase c })
    (htake : ∀ {s : Driver own} c x storage taken held, s.conveyors.lookup c = some ⟨x :: storage, taken⟩ → I s →
      I { s with conveyors := s.conveyors.insert c ⟨storage, taken + 1⟩, held })
    (hnotify : ∀ {s : Driver own} sig pending, I s → I ((s.consume sig pending).notifySignalListener sig))
    {op : DriverOp} {answer : DriverAnswer} (h : s.step op = some (answer, s')) (hs : I s) : I s' := by
  cases op with
  | listen addresses socket setsockopt bind alloc =>
    obtain ⟨⟨q, s₁⟩, h₁, heq⟩ := Option.bind_eq_some_iff.mp h
    obtain ⟨-, rfl⟩ := Prod.mk.inj (Option.some.inj heq)
    exact hframe (frame_listen h₁) hs
  | datagram addresses socket setsockopt bind alloc =>
    obtain ⟨⟨q, s₁⟩, h₁, heq⟩ := Option.bind_eq_some_iff.mp h
    obtain ⟨-, rfl⟩ := Prod.mk.inj (Option.some.inj heq)
    exact hframe (frame_datagram h₁) hs
  | connect results socket alloc =>
    obtain ⟨⟨result, s₁⟩, h₁, heq⟩ := Option.bind_eq_some_iff.mp h
    obtain ⟨-, rfl⟩ := Prod.mk.inj (Option.some.inj heq)
    exact hframe (frame_connect h₁) hs
  | openForeign fd =>
    obtain ⟨-, rfl⟩ := Prod.mk.inj (Option.some.inj h)
    exact hframe (s := s) (.of_same rfl rfl rfl rfl rfl) hs
  | wrapInputFd fd alloc =>
    obtain ⟨-, rfl⟩ := Prod.mk.inj (Option.some.inj h)
    exact hframe (frame_wrapInputFd s fd alloc) hs
  | conveyor slot p =>
    obtain ⟨⟨new, s₁⟩, h₁, heq⟩ := Option.bind_eq_some_iff.mp h
    obtain ⟨-, rfl⟩ := Prod.mk.inj (Option.some.inj heq)
    exact hframe (frame_conveyor h₁) hs
  | onSignal signal =>
    obtain ⟨-, rfl⟩ := Prod.mk.inj (Option.some.inj h)
    exact hsignal signal hs
  | take c =>
    obtain ⟨⟨x, s₁⟩, h₁, heq⟩ := Option.bind_eq_some_iff.mp h
    obtain ⟨-, rfl⟩ := Prod.mk.inj (Option.some.inj heq)
    obtain ⟨⟨storage, taken⟩, hinbox, h₁⟩ := Option.bind_eq_some_iff.mp h₁
    cases storage with
    | nil =>
      obtain ⟨-, rfl⟩ := Prod.mk.inj (Option.some.inj h₁)
      exact hs
    | cons y storage =>
      obtain ⟨-, rfl⟩ := Prod.mk.inj (Option.some.inj h₁)
      exact htake c y storage taken _ hinbox hs
  | dropConveyor c =>
    obtain ⟨s₁, h₁, heq⟩ := Option.bind_eq_some_iff.mp h
    obtain ⟨-, rfl⟩ := Prod.mk.inj (Option.some.inj heq)
    obtain ⟨inbox, -, h₁⟩ := Option.bind_eq_some_iff.mp h₁
    exact hframe (frame_destroyAll h₁) (herase c hs)
  | dropOwner p =>
    obtain ⟨s₁, h₁, heq⟩ := Option.bind_eq_some_iff.mp h
    obtain ⟨-, rfl⟩ := Prod.mk.inj (Option.some.inj heq)
    exact hframe (frame_dropOwner h₁) hs
  | poll time =>
    obtain ⟨-, rfl⟩ := Prod.mk.inj (Option.some.inj h)
    exact hframe (s := s) (.of_same rfl rfl rfl rfl rfl) hs
  | advance events accepted =>
    obtain ⟨s₁, h₁, heq⟩ := Option.bind_eq_some_iff.mp h
    obtain ⟨-, rfl⟩ := Prod.mk.inj (Option.some.inj heq)
    rcases frame_advance h₁ with hf | ⟨sig, pending, -, rfl⟩
    · exact hframe hf hs
    · exact hnotify sig pending hs
  | interrupt =>
    obtain ⟨-, rfl⟩ := Prod.mk.inj (Option.some.inj h)
    refine hframe ?_ hs
    split
    · exact .of_same rfl rfl rfl rfl rfl
    · exact .refl s
  | raise fd mask =>
    obtain ⟨-, rfl⟩ := Prod.mk.inj (Option.some.inj h)
    exact hframe (frame_raise s fd mask) hs
  | raiseSignal sig =>
    obtain ⟨-, rfl⟩ := Prod.mk.inj (Option.some.inj h)
    refine hframe ?_ hs
    unfold raiseSignal
    split
    · exact .refl s
    · exact .of_same rfl rfl rfl rfl rfl

theorem step_numbered {op : DriverOp} {answer : DriverAnswer} (h : s.step op = some (answer, s')) (hs : s.Numbered) :
    s'.Numbered := by
  refine step_keeps (I := Numbered) (fun hf => hf.numbered) (fun {s} signal hs => ?_) (fun c hs => ⟨hs.feeds, hs.listeners⟩)
    (fun c x storage taken held _ hs => ⟨hs.feeds, hs.listeners⟩) (fun {s} sig pending hs => ?_) h hs
  · refine ⟨fun c hc => Nat.lt_succ_of_lt (hs.feeds c hc), fun listener hmem => ?_⟩
    rcases List.mem_append.mp hmem with hbefore | hlast
    · exact Nat.lt_succ_of_lt (hs.listeners listener hbefore)
    · rw [List.mem_singleton.mp hlast]
      exact Nat.lt_succ_self _
  · obtain ⟨conveyors, hfields⟩ := tells_fields sig s.signalConveyors (s.consume sig pending)
    have hsame : (s.consume sig pending).notifySignalListener sig = { s.consume sig pending with conveyors } := hfields
    rw [hsame]
    exact ⟨hs.feeds, hs.listeners⟩

theorem step_listens {op : DriverOp} {answer : DriverAnswer} (h : s.step op = some (answer, s')) {signal : Signal}
    {n : Nat} (hs : Listens signal c n s) : Listens signal c n s' := by
  refine step_keeps (I := Listens signal c n) (fun hf => hf.listens) (fun {s} signal' hs => ?_) (fun {s} d hs => ?_)
    (fun {s} d x storage taken held hd hs => ?_) (fun sig pending hs => hs.notify sig pending) h hs
  · have hne : s.created ≠ c := Nat.ne_of_gt hs.older
    refine ⟨Nat.lt_succ_of_lt hs.older, hs.unfed, ?_, hs.read, fun hlt inbox hinbox => ?_⟩
    · show (s.signalConveyors ++ [(signal', s.created)]).filter _ = _
      rw [List.filter_append, hs.listed, List.filter_cons_of_neg (by simpa using hne)]
      rfl
    · exact hs.count hlt inbox ((AList.lookup_insert_ne (Ne.symm hne)).symm.trans hinbox)
  · refine ⟨hs.older, hs.unfed, hs.listed, hs.read, fun hlt inbox hinbox => ?_⟩
    by_cases hd : c = d
    · subst hd
      exact absurd ((AList.lookup_erase _ _).symm.trans hinbox) nofun
    · exact hs.count hlt inbox ((AList.lookup_erase_ne hd).symm.trans hinbox)
  · refine ⟨hs.older, hs.unfed, hs.listed, hs.read, fun hlt inbox hinbox => ?_⟩
    by_cases hc : c = d
    · subst hc
      obtain rfl := Option.some.inj ((AList.lookup_insert _).symm.trans hinbox)
      have hbefore := hs.count hlt _ hd
      rw [← hbefore, List.length_cons]
      exact Nat.add_right_comm taken 1 storage.length
    · exact hs.count hlt inbox ((AList.lookup_insert_ne hc).symm.trans hinbox)

end

/-- **Signals reach who listens.** Whatever the program does meanwhile, a conveyor that `onSignal` hands out has
got one element for each signal of its kind that was read since, and no other. -/
theorem signals_reach_listeners (own : PortDescriptors) (ops : List DriverOp) (signal : Signal) (ops' : List DriverOp)
    (hok : Run.Along step Allowed (new own) (ops ++ .onSignal signal :: ops')) :
    ∃ answers s answers' s', Run.exec step (new own) ops = some (answers, s) ∧
      Run.exec step s (.onSignal signal :: ops') = some (.conveyor s.created :: answers', s') ∧
      (s'.consumed.length < 2 ^ 64 → ∀ inbox ∈ s'.conveyors.lookup s.created,
        inbox.taken + inbox.storage.length =
          (s'.consumed.drop s.consumed.length).countP fun sig => fromUnixSignal sig = signal) := by
  obtain ⟨answers, s, hrun, h⟩ := Run.exec_invariant (fun s => Owned s 0 0) Allowed (fun s op h hop => h.step hop)
    ops (new own) owned_new (hok.initial (List.prefix_append ops _))
  have hnumbered : s.Numbered := by
    refine Run.exec_preserves Numbered (fun _ _ => True) (fun s op answer s' hs _ h => step_numbered h hs) ops _ _ _
      hrun (Run.along_true ops _) ⟨fun c hc => ?_, nofun⟩
    obtain ⟨p, o, ho, -⟩ := hc
    exact absurd ho (by simp [new])
  obtain ⟨hidle, hrest⟩ := hok.of_append hrun
  have hfirst : step s (.onSignal signal) = some (.conveyor s.created, (s.onSignal signal).2) := rfl
  have hallowed : s.Allowed (.onSignal signal) := hidle
  obtain ⟨answer, s₁, h₁, howned⟩ := h.step hallowed
  obtain ⟨rfl, rfl⟩ := Prod.mk.inj (Option.some.inj (hfirst.symm.trans h₁))
  obtain ⟨answers', s', hrun', -⟩ := Run.exec_invariant (fun s => Owned s 0 0) Allowed (fun s op h hop => h.step hop)
    ops' _ howned (hrest _ _ hfirst)
  refine ⟨answers, s, answers', s', hrun, ?_, ?_⟩
  · rw [Run.exec_cons hfirst, hrun']
    rfl
  · have hstart : Listens signal s.created s.consumed.length (s.onSignal signal).2 := by
      refine ⟨Nat.lt_succ_self _, fun hfeeds => Nat.lt_irrefl _ (hnumbered.feeds _ hfeeds), ?_, Nat.le_refl _, ?_⟩
      · show (s.signalConveyors ++ [(signal, s.created)]).filter _ = _
        have hnone : s.signalConveyors.filter (·.2 = s.created) = [] := by
          apply List.filter_eq_nil_iff.mpr
          intro listener hmem
          simpa using Nat.ne_of_lt (hnumbered.listeners listener hmem)
        rw [List.filter_append, hnone, List.filter_cons_of_pos (by simp)]
        rfl
      · intro _ inbox hinbox
        obtain rfl := Option.some.inj ((AList.lookup_insert _).symm.trans hinbox)
        show 0 = (s.consumed.drop s.consumed.length).countP _
        rw [List.drop_length]
        rfl
    exact (Run.exec_preserves (Listens signal s.created s.consumed.length) (fun _ _ => True)
      (fun s op answer s' hs _ h => step_listens h hs) ops' _ _ _ hrun' (Run.along_true ops' _) hstart).count

def terminateOps : List DriverOp :=
  [.raiseSignal .sigterm, .raiseSignal .sigint, .poll .now, .advance [(4, signalMask)] none, .advance [] none,
    .advance [] none, .advance [] none, .advance [] none, .advance [] none, .take 0]

theorem signals_reach_listeners_twice :
    Run.Along step Allowed (new firstPort) ([] ++ .onSignal .terminate :: terminateOps) ∧
    ∃ s', (∃ answers', Run.exec step (new firstPort) (.onSignal .terminate :: terminateOps) = some (answers', s')) ∧
      s'.consumed = [.sigterm, .sigint] ∧
      ∀ inbox ∈ s'.conveyors.lookup 0, inbox.taken + inbox.storage.length = 2 := by
  have hok : Run.Along step Allowed (new firstPort) ([] ++ .onSignal .terminate :: terminateOps) := by decide
  obtain ⟨answers, s, answers', s', hrun, hrun', hcount⟩ :=
    signals_reach_listeners firstPort [] .terminate terminateOps hok
  obtain ⟨-, rfl⟩ := Prod.mk.inj (Option.some.inj hrun)
  have hread : (Run.exec step (new firstPort) (.onSignal .terminate :: terminateOps)).map (fun r => r.2.consumed) =
      some [.sigterm, .sigint] := by decide
  rw [hrun'] at hread
  have hread : s'.consumed = [.sigterm, .sigint] := Option.some.inj hread
  refine ⟨hok, s', ⟨_, hrun'⟩, hread, fun inbox hinbox => ?_⟩
  rw [hcount (by rw [hread]; decide) inbox hinbox, hread]
  decide

end Driver

end Forstio.Unix
