import Forstio.UnixDriver
import Forstio.Lib.Run
import Mathlib.Algebra.Order.Group.Multiset
import Mathlib.Tactic.Abel

/-!
# Owners and descriptors

Every open descriptor has one owner, and every owner one holder: the program, or a
conveyor with the stream in it. While a call is running some of them are in its
local variables; the invariant counts these along, and each primitive moves what
it deals with from one place to another.
-/

namespace Forstio.Unix

def fileDescriptors (owners : Heap Nat IFdOwner) : Multiset Nat := Heap.total (fun _ o => {o.fileDescriptor}) owners

def queuedStreams (conveyors : Heap Nat Inbox) : Multiset Nat :=
  Heap.total (fun _ inbox => (inbox.streams : Multiset Nat)) conveyors

namespace Driver

variable {own : PortDescriptors}

/-- What a descriptor is registered with belongs to it. -/
def Registered (own : PortDescriptors) (owners : Heap Nat IFdOwner) (fd : Nat) : EventData → Prop
  | .signals => fd = own.signalFd
  | .wake => fd = own.pipefds.1
  | .owner p => ∃ o, owners.lookup p = some o ∧ o.fileDescriptor = fd

/-- The owners that `epoll_wait` knows or has reported are alive. -/
structure Subscribed (own : PortDescriptors) (interest : Heap Nat (EventData × Mask)) (ready : List (Nat × Mask))
    (owners : Heap Nat IFdOwner) (events : List (EventData × Mask)) : Prop where
  signals : interest.lookup own.signalFd = some (.signals, signalMask)
  registered : ∀ fd e, interest.lookup fd = some e → Registered own owners fd e.1
  edges : (ready.map Prod.fst).Nodup
  ready : ∀ e ∈ ready, ∃ p mask, interest.lookup e.1 = some (.owner p, mask)
  events : ∀ e ∈ events, ∀ p, e.1 = .owner p → p ∈ owners

/-- A call in progress has the owners `locals` and the descriptors `fds` in its hands. -/
structure Owned (s : Driver own) (locals fds : Multiset Nat) : Prop where
  descriptors : (s.descriptors : Multiset Nat) = own.toList + s.foreign + fds + fileDescriptors s.owners
  nodup : s.descriptors.Nodup
  holders : locals + s.held + queuedStreams s.conveyors = Heap.addresses s.owners
  created : ∀ c ∈ s.conveyors, c < s.created
  subscribed : Subscribed own s.interest s.ready s.owners s.phase.events

theorem interest_new (fd : Nat) : (new own).interest.lookup fd =
    if fd = own.pipefds.1 then some (.wake, signalMask)
    else if fd = own.signalFd then some (.signals, signalMask) else none := by
  show AList.lookup fd (AList.insert _ _ _) = _
  by_cases hp : fd = own.pipefds.1
  · subst hp
    rw [AList.lookup_insert, if_pos rfl]
  · rw [AList.lookup_insert_ne hp, if_neg hp, ← AList.insert_empty]
    by_cases hs : fd = own.signalFd
    · subst hs
      rw [AList.lookup_insert, if_pos rfl]
    · rw [AList.lookup_insert_ne hs, if_neg hs]
      exact AList.lookup_empty fd

theorem owned_new : Owned (new own) 0 0 := by
  have hpipe : own.signalFd ≠ own.pipefds.1 := by
    have := own.distinct
    simp only [List.nodup_cons, List.mem_cons, List.not_mem_nil, or_false, not_or] at this
    exact this.2.1.1
  refine ⟨?_, own.distinct, rfl, fun c hc => absurd hc (AList.notMem_empty c), ?_, ?_, List.nodup_nil, nofun, nofun⟩
  · simp [new, fileDescriptors]
  · rw [interest_new, if_neg hpipe, if_pos rfl]
  · intro fd e hfd
    rw [interest_new] at hfd
    split at hfd
    next heq =>
      cases hfd
      exact heq
    next =>
      split at hfd
      next heq =>
        cases hfd
        exact heq
      next => cases hfd

section
variable {s : Driver own} {L F : Multiset Nat} {p fd : Nat}

theorem Owned.mem_owners (h : Owned s ({p} + L) F) : p ∈ s.owners := by
  rw [← Heap.mem_addresses, ← h.holders]
  simp

theorem Owned.lookup_owner (h : Owned s ({p} + L) F) : ∃ o, s.owners.lookup p = some o :=
  Option.isSome_iff_exists.mp (AList.lookup_isSome.mpr h.mem_owners)

theorem Owned.opened (h : Owned s L F) (hfd : fd ∉ s.descriptors) : Owned (s.opened fd) L ({fd} + F) := by
  refine ⟨?_, List.nodup_cons.mpr ⟨hfd, h.nodup⟩, h.holders, h.created, h.subscribed⟩
  show ((fd :: s.descriptors : List Nat) : Multiset Nat) = own.toList + s.foreign + ({fd} + F) + fileDescriptors s.owners
  rw [← Multiset.cons_coe, h.descriptors, ← Multiset.singleton_add]
  abel

theorem Owned.close (h : Owned s L ({fd} + F)) : ∃ s', s.close fd = some s' ∧ Owned s' L F ∧ s'.owners = s.owners ∧
    s'.phase = s.phase := by
  have hmem : fd ∈ s.descriptors := by
    rw [← Multiset.mem_coe, h.descriptors]
    simp
  refine ⟨{ s with descriptors := s.descriptors.erase fd }, ?_, ?_, rfl, rfl⟩
  · unfold Driver.close
    rw [assert_pos hmem]
    rfl
  · refine ⟨?_, h.nodup.erase fd, h.holders, h.created, h.subscribed⟩
    have hcons : fd ::ₘ ((s.descriptors.erase fd : List Nat) : Multiset Nat) = s.descriptors := by
      rw [← Multiset.coe_erase]
      exact Multiset.cons_erase hmem
    apply (Multiset.cons_inj_right fd).mp
    show fd ::ₘ ((s.descriptors.erase fd : List Nat) : Multiset Nat) = _
    rw [hcons, h.descriptors, ← Multiset.singleton_add]
    show _ = {fd} + (↑own.toList + ↑s.foreign + F + fileDescriptors s.owners)
    abel

theorem signalFd_mem (own : PortDescriptors) : own.signalFd ∈ own.toList := by simp [PortDescriptors.toList]

/-- The signal descriptor is neither in a local variable nor an owner's. -/
theorem Owned.ne_signalFd (h : Owned s L F) (hfd : fd ∈ F + fileDescriptors s.owners) : own.signalFd ≠ fd := by
  intro heq
  have hsum : (s.descriptors : Multiset Nat) = own.toList + (s.foreign + (F + fileDescriptors s.owners)) := by
    rw [h.descriptors]
    abel
  have hnodup := Multiset.coe_nodup.mpr h.nodup
  rw [hsum] at hnodup
  apply Multiset.disjoint_left.mp (Multiset.nodup_add.mp hnodup).2.2 (Multiset.mem_coe.mpr (signalFd_mem own))
  rw [heq]
  exact Multiset.mem_add.mpr (Or.inr hfd)

theorem mem_fileDescriptors {owners : Heap Nat IFdOwner} {o : IFdOwner} (ho : owners.lookup p = some o) :
    o.fileDescriptor ∈ fileDescriptors owners := Heap.mem_total.mpr ⟨p, o, ho, Multiset.mem_singleton_self _⟩

theorem Owned.newOwner (h : Owned s L ({fd} + F)) {alloc : Alloc} (hp : alloc.address ∉ s.owners) (mask : Mask)
    (feeders : Feeders) : Owned (s.newOwner alloc fd mask feeders) ({alloc.address} + L) F := by
  have hold (q : Nat) (hq : q ∈ s.owners) :
      (s.owners.insert alloc.address ⟨fd, mask, feeders⟩).lookup q = s.owners.lookup q := by
    apply AList.lookup_insert_ne
    intro heq
    exact hp (heq ▸ hq)
  have hsignal : own.signalFd ≠ fd := h.ne_signalFd (by simp)
  have hplain : Owned ({ s with owners := s.owners.insert alloc.address ⟨fd, mask, feeders⟩ } : Driver own)
      ({alloc.address} + L) F := by
    refine ⟨?_, h.nodup, ?_, h.created, h.subscribed.signals, fun fd' e he => ?_, h.subscribed.edges, h.subscribed.ready,
      fun e he q hq => ?_⟩
    · show (s.descriptors : Multiset Nat) = own.toList + s.foreign + F + fileDescriptors (AList.insert _ _ _)
      rw [h.descriptors, fileDescriptors, fileDescriptors, Heap.total_insert _ hp]
      abel
    · show {alloc.address} + L + s.held + queuedStreams s.conveyors = Heap.addresses (s.owners.insert _ _)
      rw [Heap.addresses_insert hp, ← h.holders]
      abel
    · have hreg := h.subscribed.registered fd' e he
      cases hdata : e.1 with
      | signals => rwa [hdata] at hreg
      | wake => rwa [hdata] at hreg
      | owner q =>
        rw [hdata] at hreg
        obtain ⟨o, ho, heq⟩ := hreg
        exact ⟨o, (hold q (AList.lookup_isSome.mp (by rw [ho]; rfl))).trans ho, heq⟩
    · exact (AList.mem_insert _).mpr (Or.inr (h.subscribed.events e he q hq))
  unfold Driver.newOwner subscribe
  split
  · refine ⟨hplain.descriptors, hplain.nodup, hplain.holders, hplain.created, ?_, fun fd' e he => ?_,
      hplain.subscribed.edges, fun e he => ?_, hplain.subscribed.events⟩
    · exact (AList.lookup_insert_ne hsignal).trans h.subscribed.signals
    · by_cases hsame : fd' = fd
      · subst hsame
        have hentry := (AList.lookup_insert _).symm.trans he
        cases hentry
        exact ⟨_, AList.lookup_insert _, rfl⟩
      · exact hplain.subscribed.registered fd' e ((AList.lookup_insert_ne hsame).symm.trans he)
    · by_cases hsame : e.1 = fd
      · exact ⟨alloc.address, mask, by rw [hsame]; exact AList.lookup_insert _⟩
      · obtain ⟨q, mask', hq⟩ := h.subscribed.ready e he
        exact ⟨q, mask', (AList.lookup_insert_ne hsame).trans hq⟩
  · exact hplain

theorem Owned.destroyOwner (h : Owned s ({p} + L) F) (hp : ∀ e ∈ s.phase.events, e.1 ≠ .owner p) :
    ∃ s', s.destroyOwner p = some s' ∧ Owned s' L F ∧ s'.phase = s.phase := by
  obtain ⟨o, ho⟩ := h.lookup_owner
  have hsignal : own.signalFd ≠ o.fileDescriptor :=
    h.ne_signalFd (Multiset.mem_add.mpr (Or.inr (mem_fileDescriptors ho)))
  have hmem : o.fileDescriptor ∈ s.descriptors := by
    rw [← Multiset.mem_coe, h.descriptors]
    exact Multiset.mem_add.mpr (Or.inr (mem_fileDescriptors ho))
  refine ⟨{ s.unsubscribe o.fileDescriptor with
    descriptors := s.descriptors.erase o.fileDescriptor, owners := s.owners.erase p }, ?_, ?_, rfl⟩
  · unfold Driver.destroyOwner Driver.close
    rw [ho]
    simp only [Option.bind_eq_bind, Option.bind_some]
    rw [assert_pos (by exact hmem)]
    rfl
  · refine ⟨?_, h.nodup.erase _, ?_, h.created, ?_, ?_, ?_, ?_, ?_⟩
    · have hcons : o.fileDescriptor ::ₘ ((s.descriptors.erase o.fileDescriptor : List Nat) : Multiset Nat) =
          s.descriptors := by
        rw [← Multiset.coe_erase]
        exact Multiset.cons_erase hmem
      apply (Multiset.cons_inj_right o.fileDescriptor).mp
      show o.fileDescriptor ::ₘ ((s.descriptors.erase _ : List Nat) : Multiset Nat) =
        o.fileDescriptor ::ₘ (own.toList + s.foreign + F + fileDescriptors (s.owners.erase p))
      rw [hcons, h.descriptors, fileDescriptors, Heap.total_erase _ ho, ← fileDescriptors, ← Multiset.singleton_add]
      abel
    · apply add_left_cancel (a := {p})
      show {p} + (L + s.held + queuedStreams s.conveyors) = {p} + Heap.addresses (s.owners.erase p)
      rw [← Heap.addresses_erase ho, ← h.holders]
      abel
    · exact (AList.lookup_erase_ne hsignal).trans h.subscribed.signals
    · intro fd e he
      have hne : fd ≠ o.fileDescriptor := by
        intro heq
        subst heq
        have hnone := (AList.lookup_erase _ _).symm.trans he
        cases hnone
      have hreg := h.subscribed.registered fd e ((AList.lookup_erase_ne hne).symm.trans he)
      cases hdata : e.1 with
      | signals => rwa [hdata] at hreg
      | wake => rwa [hdata] at hreg
      | owner q =>
        rw [hdata] at hreg
        obtain ⟨o', ho', heq⟩ := hreg
        refine ⟨o', (AList.lookup_erase_ne fun hq => hne ?_).trans ho', heq⟩
        subst hq
        obtain rfl := Option.some.inj (ho.symm.trans ho')
        exact heq.symm
    · exact h.subscribed.edges.sublist (List.filter_sublist.map _)
    · intro e he
      obtain ⟨hready, hne⟩ := List.mem_filter.mp he
      obtain ⟨q, mask, hq⟩ := h.subscribed.ready e hready
      exact ⟨q, mask, (AList.lookup_erase_ne (of_decide_eq_true hne)).trans hq⟩
    · intro e he q hq
      refine AList.mem_erase.mpr ⟨fun heq => hp e he ?_, h.subscribed.events e he q hq⟩
      rw [hq, heq]

theorem Owned.hold (h : Owned s ({p} + L) F) : Owned (s.hold p) L F := by
  refine ⟨h.descriptors, h.nodup, ?_, h.created, h.subscribed⟩
  show L + ((s.held ++ [p] : List Nat) : Multiset Nat) + queuedStreams s.conveyors = Heap.addresses s.owners
  rw [← h.holders, ← Multiset.coe_add, Multiset.coe_singleton]
  abel

theorem Owned.release (h : Owned s L F) (hp : p ∈ s.held) :
    Owned ({ s with held := s.held.erase p } : Driver own) ({p} + L) F := by
  refine ⟨h.descriptors, h.nodup, ?_, h.created, h.subscribed⟩
  have hcons : ({p} + ((s.held.erase p : List Nat) : Multiset Nat)) = s.held := by
    rw [← Multiset.coe_erase, Multiset.singleton_add]
    exact Multiset.cons_erase hp
  show {p} + L + ((s.held.erase p : List Nat) : Multiset Nat) + queuedStreams s.conveyors = Heap.addresses s.owners
  rw [← h.holders, ← hcons]
  abel

/-! ## Conveyors -/

theorem streams_push (inbox : Inbox) (x : Item) :
    Inbox.streams { inbox with storage := inbox.storage ++ [x] } = inbox.streams ++ x.address.toList := by
  unfold Inbox.streams
  rw [List.filterMap_append]
  cases x <;> rfl

theorem streams_pop {inbox : Inbox} {x : Item} {storage : List Item} (h : inbox.storage = x :: storage) (taken : Nat) :
    inbox.streams = x.address.toList ++ Inbox.streams ⟨storage, taken⟩ := by
  unfold Inbox.streams
  rw [h]
  cases x <;> rfl

theorem Owned.refill (h : Owned s L F) {c : Nat} {inbox inbox' : Inbox} (hc : s.conveyors.lookup c = some inbox)
    {L' : Multiset Nat} (hL : L' + inbox'.streams = L + inbox.streams) :
    Owned ({ s with conveyors := s.conveyors.insert c inbox' } : Driver own) L' F := by
  refine ⟨h.descriptors, h.nodup, ?_, ?_, h.subscribed⟩
  · have hupdate := Heap.total_update (fun _ i => (i.streams : Multiset Nat)) hc inbox'
    apply add_right_cancel (b := (inbox.streams : Multiset Nat))
    show L' + s.held + queuedStreams (s.conveyors.insert c inbox') + inbox.streams = Heap.addresses s.owners + inbox.streams
    rw [add_assoc, queuedStreams, hupdate, ← queuedStreams, ← h.holders]
    calc L' + s.held + (inbox'.streams + queuedStreams s.conveyors)
        = L' + inbox'.streams + (s.held + queuedStreams s.conveyors) := by abel
      _ = L + inbox.streams + (s.held + queuedStreams s.conveyors) := by rw [hL]
      _ = L + s.held + queuedStreams s.conveyors + inbox.streams := by abel
  · intro d hd
    rcases (AList.mem_insert _).mp hd with rfl | hmem
    · exact h.created _ (AList.lookup_isSome.mp (by rw [hc]; rfl))
    · exact h.created d hmem

theorem Owned.feed (h : Owned s L F) (feeder : Option Nat) : Owned (s.feed feeder) L F ∧
    (s.feed feeder).phase = s.phase := by
  unfold Driver.feed
  cases feeder with
  | none => exact ⟨h, rfl⟩
  | some c =>
    cases hc : s.conveyors.lookup c with
    | none => exact ⟨by simpa only [hc] using h, by simp only [hc]⟩
    | some inbox =>
      simp only [hc]
      refine ⟨h.refill hc ?_, trivial⟩
      rw [streams_push]
      simp [Item.address]

theorem Owned.feedIf (h : Owned s L F) (bit : Bool) (feeder : Option Nat) : Owned (s.feedIf bit feeder) L F ∧
    (s.feedIf bit feeder).phase = s.phase := by
  unfold Driver.feedIf
  split
  · exact h.feed feeder
  · exact ⟨h, rfl⟩

theorem Owned.feedStream (h : Owned s ({p} + L) F) (hp : ∀ e ∈ s.phase.events, e.1 ≠ .owner p) (c : Nat) :
    ∃ s', s.feedStream c p = some s' ∧ Owned s' L F ∧ s'.phase = s.phase := by
  unfold Driver.feedStream
  cases hc : s.conveyors.lookup c with
  | none => exact h.destroyOwner hp
  | some inbox =>
    refine ⟨_, rfl, h.refill hc ?_, rfl⟩
    rw [streams_push, ← Multiset.coe_add]
    show L + (inbox.streams + {p}) = {p} + L + inbox.streams
    abel

theorem Owned.newConveyor (h : Owned s L F) : Owned s.newConveyor.2 L F := by
  have hfresh : s.created ∉ s.conveyors := fun hmem => Nat.lt_irrefl _ (h.created _ hmem)
  refine ⟨h.descriptors, h.nodup, ?_, ?_, h.subscribed⟩
  · show L + s.held + queuedStreams (s.conveyors.insert s.created ⟨[], 0⟩) = Heap.addresses s.owners
    rw [queuedStreams, Heap.total_insert _ hfresh, ← queuedStreams, ← h.holders]
    simp [Inbox.streams]
  · intro c hc
    rcases (AList.mem_insert _).mp hc with rfl | hmem
    · exact Nat.lt_succ_self _
    · exact Nat.lt_succ_of_lt (h.created c hmem)

theorem Owned.conveyor (h : Owned s L F) {slot : Slot} {o : IFdOwner} (ho : s.owners.lookup p = some o)
    (hslot : (install slot o.feeders s.created).isSome) :
    ∃ c s', s.conveyor slot p = some (c, s') ∧ Owned s' L F := by
  obtain ⟨feeders, hfeeders⟩ := Option.isSome_iff_exists.mp hslot
  have hnew := h.newConveyor
  refine ⟨s.created, { s.newConveyor.2 with owners := s.owners.insert p { o with feeders } }, ?_, ?_⟩
  · unfold Driver.conveyor
    rw [ho]
    simp only [Option.bind_eq_bind, Option.bind_some, Driver.newConveyor, hfeeders]
    rfl
  · refine ⟨?_, h.nodup, ?_, hnew.created, h.subscribed.signals, ?_, h.subscribed.edges, h.subscribed.ready, ?_⟩
    · show (s.descriptors : Multiset Nat) = own.toList + s.foreign + F + fileDescriptors (AList.insert _ _ _)
      rw [h.descriptors, fileDescriptors, fileDescriptors, Heap.total_update_same (y := { o with feeders }) _ ho rfl]
    · show L + s.held + queuedStreams s.newConveyor.2.conveyors = Heap.addresses (s.owners.insert _ _)
      rw [Heap.addresses_update ho]
      exact hnew.holders
    · intro fd e he
      have hreg := h.subscribed.registered fd e he
      cases hdata : e.1 with
      | signals => rwa [hdata] at hreg
      | wake => rwa [hdata] at hreg
      | owner q =>
        rw [hdata] at hreg
        obtain ⟨o', ho', heq⟩ := hreg
        by_cases hq : q = p
        · subst hq
          obtain rfl := Option.some.inj (ho.symm.trans ho')
          exact ⟨_, AList.lookup_insert _, heq⟩
        · exact ⟨o', (AList.lookup_insert_ne hq).trans ho', heq⟩
    · intro e he q hq
      exact (AList.mem_insert _).mpr (Or.inr (h.subscribed.events e he q hq))

theorem Owned.destroyAll : ∀ {ps : List Nat} {s : Driver own}, Owned s (ps + L) F → s.phase.events = [] →
    ∃ s', s.destroyAll ps = some s' ∧ Owned s' L F
  | [], s, h, _ => ⟨s, rfl, by simpa using h⟩
  | p :: ps, s, h, hidle => by
    have hcons : ((p :: ps : List Nat) : Multiset Nat) + L = {p} + (ps + L) := by
      rw [← Multiset.cons_coe, ← Multiset.singleton_add, add_assoc]
    rw [hcons] at h
    obtain ⟨s₁, h₁, howned, hphase⟩ := h.destroyOwner (by rw [hidle]; nofun)
    obtain ⟨s₂, h₂, hlast⟩ := Owned.destroyAll howned (by rw [hphase, hidle])
    refine ⟨s₂, ?_, hlast⟩
    unfold Driver.destroyAll
    rw [h₁]
    exact h₂

theorem Owned.dropConveyor (h : Owned s L F) (hidle : s.phase.events = []) {c : Nat} (hc : c ∈ s.conveyors) :
    ∃ s', s.dropConveyor c = some s' ∧ Owned s' L F := by
  obtain ⟨inbox, hinbox⟩ := Option.isSome_iff_exists.mp (AList.lookup_isSome.mpr hc)
  have herased : Owned ({ s with conveyors := s.conveyors.erase c } : Driver own) (inbox.streams + L) F := by
    refine ⟨h.descriptors, h.nodup, ?_, ?_, h.subscribed⟩
    · show inbox.streams + L + s.held + queuedStreams (s.conveyors.erase c) = Heap.addresses s.owners
      rw [← h.holders, queuedStreams, queuedStreams, Heap.total_erase _ hinbox]
      abel
    · intro d hd
      exact h.created d (AList.mem_erase.mp hd).2
  unfold Driver.dropConveyor
  rw [hinbox]
  exact herased.destroyAll hidle

theorem Owned.take (h : Owned s L F) {c : Nat} (hc : c ∈ s.conveyors) :
    ∃ x s', s.take c = some (x, s') ∧ Owned s' L F := by
  obtain ⟨inbox, hinbox⟩ := Option.isSome_iff_exists.mp (AList.lookup_isSome.mpr hc)
  unfold Driver.take
  rw [hinbox]
  simp only [Option.bind_eq_bind, Option.bind_some]
  cases hstorage : inbox.storage with
  | nil => exact ⟨none, s, rfl, h⟩
  | cons x storage =>
    refine ⟨some x, _, rfl, ?_⟩
    have hmoved : Owned ({ s with conveyors := s.conveyors.insert c ⟨storage, inbox.taken + 1⟩ } : Driver own)
        (x.address.toList + L) F := by
      refine h.refill hinbox ?_
      rw [streams_pop hstorage (inbox.taken + 1), ← Multiset.coe_add]
      abel
    refine ⟨hmoved.descriptors, hmoved.nodup, ?_, hmoved.created, hmoved.subscribed⟩
    show L + ((s.held ++ x.address.toList : List Nat) : Multiset Nat) +
      queuedStreams (s.conveyors.insert c ⟨storage, inbox.taken + 1⟩) = Heap.addresses s.owners
    have hholders : x.address.toList + L + s.held + queuedStreams (s.conveyors.insert c ⟨storage, inbox.taken + 1⟩) =
      Heap.addresses s.owners := hmoved.holders
    rw [← hholders, ← Multiset.coe_add]
    abel

/-! ## Notifications -/

theorem newOwner_phase (s : Driver own) (alloc : Alloc) (fd : Nat) (mask : Mask) (feeders : Feeders) :
    (s.newOwner alloc fd mask feeders).phase = s.phase := by
  unfold Driver.newOwner subscribe
  split <;> rfl

/-- What a call gets from the kernel and the allocator was not in use. -/
def Fresh (s : Driver own) (fd : Nat) (alloc : Alloc) : Prop := fd ∉ s.descriptors ∧ alloc.address ∉ s.owners

theorem Owned.events_ne (h : Owned s L F) {q : Nat} (hq : q ∉ s.owners) : ∀ e ∈ s.phase.events, e.1 ≠ .owner q :=
  fun e he heq => hq (h.subscribed.events e he q heq)

theorem Owned.notify (h : Owned s L F) (hp : p ∈ s.owners) (mask : Mask) {accepted : Option (Nat × Alloc)}
    (hfresh : ∀ a ∈ accepted, s.Fresh a.1 a.2) :
    ∃ s', s.notify p mask accepted = some s' ∧ Owned s' L F ∧ s'.phase = s.phase := by
  obtain ⟨o, ho⟩ := Option.isSome_iff_exists.mp (AList.lookup_isSome.mpr hp)
  unfold Driver.notify
  rw [ho]
  simp only [Option.bind_eq_bind, Option.bind_some]
  cases o.feeders with
  | stream readReady onReadDisconnect writeReady =>
    obtain ⟨h₁, hp₁⟩ := h.feedIf mask.epollout writeReady
    obtain ⟨h₂, hp₂⟩ := h₁.feedIf mask.epollin readReady
    obtain ⟨h₃, hp₃⟩ := h₂.feedIf mask.epollrdhup onReadDisconnect
    exact ⟨_, rfl, h₃, hp₃.trans (hp₂.trans hp₁)⟩
  | datagram readReady writeReady =>
    obtain ⟨h₁, hp₁⟩ := h.feedIf mask.epollout writeReady
    obtain ⟨h₂, hp₂⟩ := h₁.feedIf mask.epollin readReady
    exact ⟨_, rfl, h₂, hp₂.trans hp₁⟩
  | server acceptFeeder =>
    simp only [UnixServer.notify]
    split
    · cases acceptFeeder with
      | none => exact ⟨s, rfl, h, rfl⟩
      | some c =>
        cases accepted with
        | none => exact ⟨s, rfl, h, rfl⟩
        | some a =>
          obtain ⟨hfd, haddress⟩ := hfresh a rfl
          have hnew := (h.opened hfd).newOwner haddress (streamMask ioMask) (.stream none none none)
          have hphase := newOwner_phase (s.opened a.1) a.2 a.1 (streamMask ioMask) (.stream none none none)
          obtain ⟨s', hs', howned, hp'⟩ := hnew.feedStream (by
            rw [hphase]
            exact h.events_ne haddress) c
          exact ⟨s', hs', howned, hp'.trans hphase⟩
    · exact ⟨s, rfl, h, rfl⟩

/-- Feeding the listeners leaves everything but conveyors alone. -/
theorem Owned.notifySignalListener (h : Owned s L F) (sig : UnixSignal) :
    Owned (s.notifySignalListener sig) L F ∧ (s.notifySignalListener sig).phase = s.phase := by
  unfold Driver.notifySignalListener
  generalize s.signalConveyors = listeners
  induction listeners generalizing s with
  | nil => exact ⟨h, rfl⟩
  | cons listener listeners ih =>
    rw [List.foldl_cons]
    unfold tell
    split
    · obtain ⟨hfed, hphase⟩ := h.feed (some listener.2)
      obtain ⟨hlast, hsame⟩ := ih hfed
      exact ⟨hlast, hsame.trans hphase⟩
    · exact ih h

/-! ## Polling -/

theorem mapM_option {α β : Type} {f : α → Option β} : ∀ {l : List α}, (∀ a ∈ l, (f a).isSome) →
    ∃ l', l.mapM f = some l' ∧ l.map f = l'.map some
  | [], _ => ⟨[], rfl, rfl⟩
  | a :: l, h => by
    obtain ⟨b, hb⟩ := Option.isSome_iff_exists.mp (h a List.mem_cons_self)
    obtain ⟨l', hl', hmap⟩ := mapM_option fun x hx => h x (List.mem_cons_of_mem a hx)
    refine ⟨b :: l', ?_, ?_⟩
    · rw [List.mapM_cons, hb, hl']
      rfl
    · rw [List.map_cons, List.map_cons, hb, hmap]

/-- What `epoll_wait` answers: as many events as it may report, each once. -/
def Reports (s : Driver own) (events : List (Nat × Mask)) : Prop :=
  events.Nodup ∧ events ⊆ s.reportable ∧ events.length = min maxEpollEvents s.reportable.length

theorem Owned.mem_interest (h : Owned s L F) {e : Nat × Mask} (he : e ∈ s.reportable) : e.1 ∈ s.interest := by
  unfold reportable at he
  rcases List.mem_append.mp he with hready | hsignals
  · obtain ⟨p, mask, hp⟩ := h.subscribed.ready e hready
    exact AList.lookup_isSome.mp (by rw [hp]; rfl)
  · split at hsignals
    · cases hsignals
    · rw [List.mem_singleton.mp hsignals]
      exact AList.lookup_isSome.mp (by rw [h.subscribed.signals]; rfl)

/-- Everything that changes the phase only. -/
theorem Owned.rephase (h : Owned s L F) (phase : Phase) (notified : List (EventData × Mask))
    (hevents : ∀ e ∈ phase.events, ∀ p, e.1 = .owner p → p ∈ s.owners) :
    Owned ({ s with phase, notified } : Driver own) L F :=
  ⟨h.descriptors, h.nodup, h.holders, h.created, h.subscribed.signals, h.subscribed.registered, h.subscribed.edges,
    h.subscribed.ready, hevents⟩

theorem Owned.report (h : Owned s L F) {events : List (Nat × Mask)} (hsub : events ⊆ s.reportable) :
    ∃ data, events.mapM s.resolve = some data ∧ events.map s.resolve = data.map some ∧
      ∀ d ∈ data, ∀ p, d.1 = .owner p → p ∈ s.owners := by
  obtain ⟨data, hdata, hmap⟩ := mapM_option (f := s.resolve) (l := events) (by
    intro e he
    unfold resolve
    rw [Option.isSome_map]
    exact AList.lookup_isSome.mpr (h.mem_interest (hsub he)))
  refine ⟨data, hdata, hmap, fun d hd q hq => ?_⟩
  have hmem : some d ∈ data.map some := List.mem_map.mpr ⟨d, hd, rfl⟩
  rw [← hmap] at hmem
  obtain ⟨e, -, he⟩ := List.mem_map.mp hmem
  obtain ⟨registered, hlookup, rfl⟩ := Option.map_eq_some_iff.mp he
  have hreg := h.subscribed.registered e.1 registered hlookup
  have hq : registered.1 = .owner q := hq
  rw [hq] at hreg
  obtain ⟨o, ho, -⟩ := hreg
  exact AList.lookup_isSome.mp (by rw [ho]; rfl)

theorem Owned.advance (h : Owned s L F) {events : List (Nat × Mask)} {accepted : Option (Nat × Alloc)}
    (hreports : s.phase.isWaiting → s.Reports events) (hfresh : ∀ a ∈ accepted, s.Fresh a.1 a.2) :
    ∃ s', s.advance events accepted = some s' ∧ Owned s' L F := by
  unfold Driver.advance
  split
  next => exact ⟨s, rfl, h⟩
  next time hphase =>
    split
    · split
      · exact ⟨s, rfl, h⟩
      · exact ⟨_, rfl, h.rephase _ s.notified nofun⟩
    · obtain ⟨data, hdata, -, hlive⟩ := h.report (hreports (by rw [hphase]; rfl)).2.1
      refine ⟨_, by rw [hdata]; rfl, ?_⟩
      exact ⟨h.descriptors, h.nodup, h.holders, h.created, h.subscribed.signals, h.subscribed.registered,
        h.subscribed.edges.sublist (List.filter_sublist.map _),
        fun e he => h.subscribed.ready e (List.mem_filter.mp he).1, hlive⟩
  next time nfds hphase =>
    split
    · exact ⟨_, rfl, h.rephase _ s.notified nofun⟩
    · exact ⟨_, rfl, h.rephase _ s.notified nofun⟩
  next time nfds e events hphase =>
    have hlive := h.subscribed.events
    rw [hphase] at hlive
    have hrest (phase : Phase) (hp : phase.events = events) :
        Owned ({ s with phase, notified := s.notified ++ [e] } : Driver own) L F := by
      refine h.rephase _ _ fun e he => hlive e ?_
      rw [hp] at he
      exact List.mem_cons_of_mem _ he
    unfold Driver.handle
    split
    next => exact ⟨_, rfl, hrest (.draining time nfds events) rfl⟩
    next => exact ⟨_, rfl, hrest (.dispatching time nfds events) rfl⟩
    next p hp =>
      obtain ⟨s', hs', howned, -⟩ := (hrest (.dispatching time nfds events) rfl).notify
        (hlive _ List.mem_cons_self p hp) e.2 hfresh
      exact ⟨s', hs', howned⟩
  next time nfds events hphase =>
    have hlive := h.subscribed.events
    rw [hphase] at hlive
    unfold Driver.readSignal
    split
    · exact ⟨_, rfl, h.rephase _ s.notified hlive⟩
    next sig pending _ =>
      refine ⟨_, rfl, (Owned.notifySignalListener ?_ sig).1⟩
      exact ⟨h.descriptors, h.nodup, h.holders, h.created, h.subscribed⟩

theorem Owned.raise (h : Owned s L F) (fd : Nat) (mask : Mask) : Owned (s.raise fd mask) L F := by
  unfold Driver.raise
  split
  next p registered hlookup =>
    split
    · exact h
    · refine ⟨h.descriptors, h.nodup, h.holders, h.created, h.subscribed.signals, h.subscribed.registered, ?_, ?_,
        h.subscribed.events⟩
      · have hrest := h.subscribed.edges.sublist ((List.filter_sublist (p := fun e => e.1 ≠ fd)).map Prod.fst)
        rw [List.map_append]
        refine List.nodup_append.mpr ⟨hrest, List.nodup_singleton _, fun a ha b hb => ?_⟩
        obtain ⟨e, he, rfl⟩ := List.mem_map.mp ha
        rw [List.mem_singleton.mp hb]
        exact of_decide_eq_true (List.mem_filter.mp he).2
      · intro e he
        rcases List.mem_append.mp he with hmem | hlast
        · exact h.subscribed.ready e (List.mem_filter.mp hmem).1
        · rw [List.mem_singleton.mp hlast]
          exact ⟨p, registered, hlookup⟩
  next => exact h

/-! ## The network -/

theorem Owned.bound (h : Owned s L F) {alloc : Alloc} (hfresh : s.Fresh fd alloc) (setsockopt bind : Bool) (mask : Mask)
    (feeders : Feeders) :
    ∃ p s', UnixNetwork.bound s fd setsockopt bind mask feeders alloc = some (p, s') ∧ Owned s' L F := by
  have hopened := h.opened hfresh.1
  obtain ⟨s₁, hclose, hclosed, -, -⟩ := hopened.close
  unfold UnixNetwork.bound
  cases setsockopt with
  | false => exact ⟨none, s₁, by simp [hclose], hclosed⟩
  | true =>
    cases bind with
    | false => exact ⟨none, s₁, by simp [hclose], hclosed⟩
    | true =>
      refine ⟨some alloc.address, _, by simp; rfl, ?_⟩
      exact (hopened.newOwner hfresh.2 mask feeders).hold

theorem Owned.listen (h : Owned s L F) {addresses : Nat} (hpos : 0 < addresses) {socket : Option Nat} {alloc : Alloc}
    (hfresh : ∀ fd ∈ socket, s.Fresh fd alloc) (setsockopt bind : Bool) :
    ∃ p s', UnixNetwork.listen s addresses socket setsockopt bind alloc = some (p, s') ∧ Owned s' L F := by
  unfold UnixNetwork.listen
  rw [assert_pos hpos]
  cases socket with
  | none => exact ⟨none, s, rfl, h⟩
  | some fd => exact h.bound (hfresh fd rfl) setsockopt bind signalMask (.server none)

theorem Owned.datagram (h : Owned s L F) {addresses : Nat} (hpos : 0 < addresses) {socket : Option Nat} {alloc : Alloc}
    (hfresh : ∀ fd ∈ socket, s.Fresh fd alloc) (setsockopt bind : Bool) :
    ∃ p s', UnixNetwork.datagram s addresses socket setsockopt bind alloc = some (p, s') ∧ Owned s' L F := by
  unfold UnixNetwork.datagram
  rw [assert_pos hpos]
  cases socket with
  | none => exact ⟨none, s, rfl, h⟩
  | some fd => exact h.bound (hfresh fd rfl) setsockopt bind ioMask (.datagram none none)

theorem Owned.connect (h : Owned s L F) {results : List ConnectResult} (hpos : 0 < results.length)
    {socket : Option Nat} {alloc : Alloc} (hfresh : ∀ fd ∈ socket, s.Fresh fd alloc) :
    ∃ result s', UnixNetwork.connect s results socket alloc = some (result, s') ∧ Owned s' L F := by
  unfold UnixNetwork.connect
  rw [assert_pos hpos]
  cases socket with
  | none => exact ⟨_, s, rfl, h⟩
  | some fd =>
    obtain ⟨hfd, haddress⟩ := hfresh fd rfl
    have hnew := (h.opened hfd).newOwner haddress (streamMask ioMask) (.stream none none none)
    have hphase := newOwner_phase (s.opened fd) alloc fd (streamMask ioMask) (.stream none none none)
    obtain ⟨s', hs', howned, -⟩ := hnew.destroyOwner (by
      rw [hphase]
      exact h.events_ne haddress)
    by_cases hloop : UnixNetwork.connectLoop results
    · exact ⟨.value alloc.address, _, by simp only [Option.bind_eq_bind, Option.bind_some, hloop]; rfl, hnew.hold⟩
    · refine ⟨.error (criticalError "Couldn't connect"), s', ?_, howned⟩
      simp only [Option.bind_eq_bind, Option.bind_some, hloop, hs']
      rfl

theorem Owned.wrapInputFd (h : Owned s L F) (hfd : fd ∈ s.foreign) {alloc : Alloc} (hp : alloc.address ∉ s.owners) :
    Owned (UnixIoProvider.wrapInputFd s fd alloc) L F := by
  have hmoved : Owned ({ s with foreign := s.foreign.erase fd } : Driver own) L ({fd} + F) := by
    refine ⟨?_, h.nodup, h.holders, h.created, h.subscribed⟩
    have hcons : ({fd} + ((s.foreign.erase fd : List Nat) : Multiset Nat)) = s.foreign := by
      rw [← Multiset.coe_erase, Multiset.singleton_add]
      exact Multiset.cons_erase hfd
    show (s.descriptors : Multiset Nat) =
      own.toList + ((s.foreign.erase fd : List Nat) : Multiset Nat) + ({fd} + F) + fileDescriptors s.owners
    rw [h.descriptors, ← hcons]
    abel
  exact (hmoved.newOwner hp (streamMask signalMask) (.stream none none none)).hold

end

/-! ## Runs -/

/-- The program has a single thread, so nothing of it runs within `pollImpl`; it uses what it holds, on
addresses that were found, and what the kernel and the allocator hand out was not in use. A signal that
nobody listens to ends the process. -/
def Allowed (s : Driver own) : DriverOp → Prop
  | .listen addresses socket _ _ alloc => s.phase = .idle ∧ 0 < addresses ∧ ∀ fd ∈ socket, s.Fresh fd alloc
  | .datagram addresses socket _ _ alloc => s.phase = .idle ∧ 0 < addresses ∧ ∀ fd ∈ socket, s.Fresh fd alloc
  | .connect results socket alloc => s.phase = .idle ∧ 0 < results.length ∧ ∀ fd ∈ socket, s.Fresh fd alloc
  | .openForeign fd => s.phase = .idle ∧ fd ∉ s.descriptors
  | .wrapInputFd fd alloc => s.phase = .idle ∧ fd ∈ s.foreign ∧ alloc.address ∉ s.owners
  | .conveyor slot p => s.phase = .idle ∧ p ∈ s.held ∧
    ∀ o ∈ s.owners.lookup p, (install slot o.feeders s.created).isSome
  | .onSignal _ => s.phase = .idle
  | .take c => s.phase = .idle ∧ c ∈ s.conveyors
  | .dropConveyor c => s.phase = .idle ∧ c ∈ s.conveyors
  | .dropOwner p => s.phase = .idle ∧ p ∈ s.held
  | .poll _ => s.phase = .idle
  | .advance events accepted => (s.phase.isWaiting → s.Reports events) ∧ ∀ a ∈ accepted, s.Fresh a.1 a.2
  | .interrupt => True
  | .raise _ _ => True
  | .raiseSignal sig => sig ∈ s.signalFdSet

instance (s : Driver own) (events : List (Nat × Mask)) : Decidable (s.Reports events) :=
  inferInstanceAs (Decidable (_ ∧ _ ∧ _))

instance (s : Driver own) (fd : Nat) (alloc : Alloc) : Decidable (s.Fresh fd alloc) :=
  inferInstanceAs (Decidable (_ ∧ _))

instance (s : Driver own) : (op : DriverOp) → Decidable (s.Allowed op)
  | .listen addresses socket _ _ alloc =>
    inferInstanceAs (Decidable (s.phase = .idle ∧ 0 < addresses ∧ ∀ fd ∈ socket, s.Fresh fd alloc))
  | .datagram addresses socket _ _ alloc =>
    inferInstanceAs (Decidable (s.phase = .idle ∧ 0 < addresses ∧ ∀ fd ∈ socket, s.Fresh fd alloc))
  | .connect results socket alloc =>
    inferInstanceAs (Decidable (s.phase = .idle ∧ 0 < results.length ∧ ∀ fd ∈ socket, s.Fresh fd alloc))
  | .openForeign fd => inferInstanceAs (Decidable (s.phase = .idle ∧ fd ∉ s.descriptors))
  | .wrapInputFd fd alloc =>
    inferInstanceAs (Decidable (s.phase = .idle ∧ fd ∈ s.foreign ∧ alloc.address ∉ s.owners))
  | .conveyor slot p => inferInstanceAs (Decidable (s.phase = .idle ∧ p ∈ s.held ∧
    ∀ o ∈ s.owners.lookup p, (install slot o.feeders s.created).isSome))
  | .onSignal _ => inferInstanceAs (Decidable (s.phase = .idle))
  | .take c => inferInstanceAs (Decidable (s.phase = .idle ∧ c ∈ s.conveyors))
  | .dropConveyor c => inferInstanceAs (Decidable (s.phase = .idle ∧ c ∈ s.conveyors))
  | .dropOwner p => inferInstanceAs (Decidable (s.phase = .idle ∧ p ∈ s.held))
  | .poll _ => inferInstanceAs (Decidable (s.phase = .idle))
  | .advance events accepted => inferInstanceAs (Decidable ((s.phase.isWaiting → s.Reports events) ∧
    ∀ a ∈ accepted, s.Fresh a.1 a.2))
  | .interrupt => isTrue trivial
  | .raise _ _ => isTrue trivial
  | .raiseSignal sig => inferInstanceAs (Decidable (sig ∈ s.signalFdSet))

theorem Owned.step {s : Driver own} (h : Owned s 0 0) {op : DriverOp} (hok : s.Allowed op) :
    ∃ answer s', s.step op = some (answer, s') ∧ Owned s' 0 0 := by
  cases op with
  | listen addresses socket setsockopt bind alloc =>
    obtain ⟨p, s', hs', h'⟩ := h.listen hok.2.1 hok.2.2 setsockopt bind
    exact ⟨_, s', by rw [Driver.step, hs']; rfl, h'⟩
  | datagram addresses socket setsockopt bind alloc =>
    obtain ⟨p, s', hs', h'⟩ := h.datagram hok.2.1 hok.2.2 setsockopt bind
    exact ⟨_, s', by rw [Driver.step, hs']; rfl, h'⟩
  | connect results socket alloc =>
    obtain ⟨result, s', hs', h'⟩ := h.connect hok.2.1 hok.2.2
    exact ⟨_, s', by rw [Driver.step, hs']; rfl, h'⟩
  | openForeign fd =>
    refine ⟨_, _, rfl, ?_⟩
    have hopened := h.opened hok.2
    refine ⟨?_, hopened.nodup, h.holders, h.created, h.subscribed⟩
    show ((fd :: s.descriptors : List Nat) : Multiset Nat) =
      own.toList + ((fd :: s.foreign : List Nat) : Multiset Nat) + 0 + fileDescriptors s.owners
    rw [← Multiset.cons_coe, ← Multiset.cons_coe, h.descriptors, ← Multiset.singleton_add, ← Multiset.singleton_add]
    abel
  | wrapInputFd fd alloc => exact ⟨_, _, rfl, h.wrapInputFd hok.2.1 hok.2.2⟩
  | conveyor slot p =>
    have hheld : p ∈ s.owners := by
      rw [← Heap.mem_addresses, ← h.holders]
      simp [hok.2.1]
    obtain ⟨o, ho⟩ := Option.isSome_iff_exists.mp (AList.lookup_isSome.mpr hheld)
    obtain ⟨c, s', hs', h'⟩ := h.conveyor ho (hok.2.2 o ho)
    exact ⟨_, s', by rw [Driver.step, hs']; rfl, h'⟩
  | onSignal signal =>
    have hnew := h.newConveyor
    exact ⟨_, _, rfl, hnew.descriptors, hnew.nodup, hnew.holders, hnew.created, hnew.subscribed⟩
  | take c =>
    obtain ⟨x, s', hs', h'⟩ := h.take hok.2
    exact ⟨_, s', by rw [Driver.step, hs']; rfl, h'⟩
  | dropConveyor c =>
    obtain ⟨s', hs', h'⟩ := h.dropConveyor (by rw [hok.1]; rfl) hok.2
    exact ⟨_, s', by rw [Driver.step, hs']; rfl, h'⟩
  | dropOwner p =>
    obtain ⟨s', hs', h', -⟩ := (h.release hok.2).destroyOwner (by
      rw [show ({ s with held := s.held.erase p } : Driver own).phase = .idle from hok.1]
      nofun)
    exact ⟨_, s', by rw [Driver.step, dropOwner, hs']; rfl, h'⟩
  | poll time => exact ⟨_, _, rfl, h.rephase _ s.notified nofun⟩
  | advance events accepted =>
    obtain ⟨s', hs', h'⟩ := h.advance hok.1 hok.2
    exact ⟨_, s', by rw [Driver.step, hs']; rfl, h'⟩
  | interrupt =>
    refine ⟨_, _, rfl, ?_⟩
    split
    · exact h.rephase _ s.notified nofun
    · exact h
  | raise fd mask => exact ⟨_, _, rfl, h.raise fd mask⟩
  | raiseSignal sig =>
    refine ⟨_, _, rfl, ?_⟩
    unfold Driver.raiseSignal
    split
    · exact h
    · exact ⟨h.descriptors, h.nodup, h.holders, h.created, h.subscribed⟩

/-- **Nothing leaks and nothing dangles.** In every run the open descriptors are the port's own, those of
the program and one for each owner; each owner is held once, by the program or by a conveyor; and what is
subscribed or still to be notified is an owner that is alive. -/
theorem descriptors_are_owned (own : PortDescriptors) (ops : List DriverOp)
    (hok : Run.Along step Allowed (new own) ops) :
    ∃ answers s, Run.exec step (new own) ops = some (answers, s) ∧ s.descriptors.Nodup ∧
      s.descriptors.Perm (own.toList ++ s.foreign ++ s.owners.entries.map fun e => e.2.fileDescriptor) ∧
      s.owners.keys.Perm (s.held ++ s.conveyors.entries.flatMap fun e => e.2.streams) ∧
      (∀ fd p mask, s.interest.lookup fd = some (.owner p, mask) →
        ∃ o, s.owners.lookup p = some o ∧ o.fileDescriptor = fd) ∧
      ∀ e ∈ s.phase.events, ∀ p, e.1 = .owner p → p ∈ s.owners := by
  obtain ⟨answers, s, hrun, h⟩ := Run.exec_invariant (fun s => Owned s 0 0) Allowed (fun s op h hop => h.step hop)
    ops (new own) owned_new hok
  refine ⟨answers, s, hrun, h.nodup, ?_, ?_, fun fd p mask hfd => h.subscribed.registered fd _ hfd, h.subscribed.events⟩
  · apply Multiset.coe_eq_coe.mp
    rw [h.descriptors, add_zero, ← Multiset.coe_add, ← Multiset.coe_add]
    exact congrArg _ (Heap.total_singleton (fun _ => IFdOwner.fileDescriptor) s.owners)
  · apply Multiset.coe_eq_coe.mp
    rw [← Heap.addresses_eq s.owners, ← h.holders, zero_add, ← Multiset.coe_add]
    exact congrArg _ (Heap.total_coe (fun _ => Inbox.streams) s.conveyors)

def firstPort : PortDescriptors := ⟨3, 4, (5, 6), by decide⟩

def lateOps : List DriverOp :=
  [.listen 1 (some 7) true true ⟨100, true⟩, .conveyor .accept 100, .dropConveyor 0, .raise 7 signalMask, .poll .now,
    .advance [(7, signalMask)] none, .advance [] (some (8, ⟨101, true⟩)), .advance [] none]

theorem descriptors_are_owned_late : Run.Along step Allowed (new firstPort) lateOps ∧
    ∃ answers s, Run.exec step (new firstPort) lateOps = some (answers, s) ∧ s.descriptors.Nodup ∧
      s.descriptors.Perm (firstPort.toList ++ s.foreign ++ s.owners.entries.map fun e => e.2.fileDescriptor) ∧
      s.owners.keys.Perm (s.held ++ s.conveyors.entries.flatMap fun e => e.2.streams) ∧
      (∀ fd p mask, s.interest.lookup fd = some (.owner p, mask) →
        ∃ o, s.owners.lookup p = some o ∧ o.fileDescriptor = fd) ∧
      ∀ e ∈ s.phase.events, ∀ p, e.1 = .owner p → p ∈ s.owners := by
  have hok : Run.Along step Allowed (new firstPort) lateOps := by decide
  exact ⟨hok, descriptors_are_owned firstPort lateOps hok⟩

end Driver

end Forstio.Unix
