import Forstio.Lib.Run
import Mathlib.Data.List.Nodup

/-!
# Accepting connections

The listening socket is subscribed with `EPOLLET`: connections that arrive
before the next `epoll_wait` raise one event together. `UnixServer::notify`
accepts one connection for it, so a second one stays in the backlog with
nothing to tell of it.

A step is as small as the interleaving needs: a connection may arrive between
any two calls that `pollImpl` makes.
-/

namespace Forstio

def maxEpollEvents : Nat := 256

inductive IFdOwner where
  | server
  | other (id : Nat)
  deriving DecidableEq

/-- `epoll_wait` and its caller: the owners with an edge that was not reported yet, and within
`pollImpl` the number of events reported last and those that are still to be notified. -/
structure UnixEventPort where
  edges : List IFdOwner
  polling : Option (Nat × List IFdOwner)

namespace UnixEventPort

def raise (port : UnixEventPort) (owner : IFdOwner) : UnixEventPort :=
  if owner ∈ port.edges then port else { port with edges := port.edges ++ [owner] }

def epollWait (port : UnixEventPort) : UnixEventPort :=
  let events := port.edges.take maxEpollEvents
  { edges := port.edges.drop maxEpollEvents, polling := some (events.length, events) }

def pending (port : UnixEventPort) (owner : IFdOwner) : Prop :=
  owner ∈ port.edges ∨ ∃ poll ∈ port.polling, owner ∈ poll.2

end UnixEventPort

/-! ## Edges -/

namespace UnixEventPort

variable {port : UnixEventPort} {owner : IFdOwner}

theorem raise_polling : (port.raise owner).polling = port.polling := by
  unfold raise
  split <;> rfl

theorem mem_raise {o : IFdOwner} : o ∈ (port.raise owner).edges ↔ o ∈ port.edges ∨ o = owner := by
  unfold raise
  split
  next hmem =>
    refine ⟨Or.inl, fun h => ?_⟩
    rcases h with h | rfl
    · exact h
    · exact hmem
  next => simp

theorem pending_raise {o : IFdOwner} : (port.raise owner).pending o ↔ port.pending o ∨ o = owner := by
  unfold pending
  rw [mem_raise, raise_polling, or_right_comm]

theorem nodup_raise (h : port.edges.Nodup) : (port.raise owner).edges.Nodup := by
  unfold raise
  split
  · exact h
  next hmem =>
    refine List.nodup_append.mpr ⟨h, List.nodup_singleton _, fun a ha b hb => ?_⟩
    rw [List.mem_singleton.mp hb]
    exact ne_of_mem_of_not_mem ha hmem

theorem pending_epollWait {o : IFdOwner} : port.epollWait.pending o ↔ o ∈ port.edges := by
  have hmem : o ∈ port.edges.take maxEpollEvents ++ port.edges.drop maxEpollEvents ↔ o ∈ port.edges := by
    rw [List.take_append_drop]
  rw [← hmem, List.mem_append, or_comm]
  simp [pending, epollWait]

theorem pending_of_polling {nfds : Nat} {events : List IFdOwner} (h : port.polling = some (nfds, events))
    {o : IFdOwner} : port.pending o ↔ o ∈ port.edges ∨ o ∈ events := by
  simp [pending, h]

theorem pending_of_idle (h : port.polling = none) {o : IFdOwner} : port.pending o ↔ o ∈ port.edges := by
  simp [pending, h]

end UnixEventPort

/-! ## The server -/

/-- A listening server: the kernel's backlog, and what `accept_feeder` was fed if there is one.
`arrived` keeps all connections that ever entered the backlog. -/
structure UnixServer (α : Type) where
  port : UnixEventPort
  backlog : List α
  acceptFeeder : Option (List α)
  arrived : List α

inductive ServerOp (α : Type) where
  | arrive (connection : α)
  | raise (id : Nat)
  | poll
  | advance

namespace UnixServer

variable {α : Type}

def new : UnixServer α := ⟨⟨[], none⟩, [], some [], []⟩

def accept4 (s : UnixServer α) : Option α × UnixServer α :=
  match s.backlog with
  | [] => (none, s)
  | connection :: backlog => (some connection, { s with backlog })

def notify (s : UnixServer α) : UnixServer α :=
  match s.acceptFeeder with
  | none => s
  | some fed =>
    match s.accept4 with
    | (none, s) => s
    | (some connection, s) => { s with acceptFeeder := some (fed ++ [connection]) }

/-- `pollImpl` up to its next call: the next event, the next round or the end. -/
def advance (s : UnixServer α) : UnixServer α :=
  match s.port.polling with
  | none => s
  | some (nfds, []) =>
    if nfds = maxEpollEvents then { s with port := s.port.epollWait } else { s with port.polling := none }
  | some (nfds, .server :: events) => { s with port.polling := some (nfds, events) }.notify
  | some (nfds, .other _ :: events) => { s with port.polling := some (nfds, events) }

def step (s : UnixServer α) : ServerOp α → Option (Unit × UnixServer α)
  | .arrive connection => some ((), { s with
      port := s.port.raise .server
      backlog := s.backlog ++ [connection]
      arrived := s.arrived ++ [connection] })
  | .raise id => some ((), { s with port := s.port.raise (.other id) })
  | .poll => some ((), if s.port.polling.isNone then { s with port := s.port.epollWait } else s)
  | .advance => some ((), s.advance)

/-- No connection is forgotten: without a pending edge all that arrived were fed, in order. -/
def Served (s : UnixServer α) : Prop :=
  ¬ s.port.pending .server → s.backlog = [] ∧ s.acceptFeeder = some s.arrived

/-- When the server is notified, one connection at most is waiting, or a further edge came after the
one it is notified for. -/
def Single (s : UnixServer α) : ServerOp α → Prop
  | .advance => ∀ nfds events, s.port.polling = some (nfds, .server :: events) →
      s.backlog.length ≤ 1 ∨ .server ∈ s.port.edges
  | _ => True

structure Good (s : UnixServer α) : Prop where
  fed : ∃ fed, s.acceptFeeder = some fed ∧ fed ++ s.backlog = s.arrived
  idle : ¬ s.port.pending .server → s.backlog = []
  edges : s.port.edges.Nodup
  events : ∀ poll ∈ s.port.polling, poll.2.Nodup

theorem Good.served {s : UnixServer α} (h : s.Good) : s.Served := by
  intro hidle
  obtain ⟨fed, hfed, hall⟩ := h.fed
  have hempty := h.idle hidle
  rw [hempty, List.append_nil] at hall
  exact ⟨hempty, hall ▸ hfed⟩

section
variable {s : UnixServer α} (h : s.Good)
include h

theorem Good.arrive (connection : α) : Good { s with
    port := s.port.raise .server
    backlog := s.backlog ++ [connection]
    arrived := s.arrived ++ [connection] } := by
  obtain ⟨fed, hfed, hall⟩ := h.fed
  refine ⟨⟨fed, hfed, ?_⟩, fun hidle => ?_, UnixEventPort.nodup_raise h.edges, ?_⟩
  · rw [← List.append_assoc, hall]
  · exact absurd (UnixEventPort.pending_raise.mpr (Or.inr rfl)) hidle
  · rw [UnixEventPort.raise_polling]
    exact h.events

theorem Good.raise (id : Nat) : Good { s with port := s.port.raise (.other id) } := by
  refine ⟨h.fed, fun hidle => h.idle fun hpending => ?_, UnixEventPort.nodup_raise h.edges, ?_⟩
  · exact hidle (UnixEventPort.pending_raise.mpr (Or.inl hpending))
  · rw [UnixEventPort.raise_polling]
    exact h.events

theorem Good.epollWait (hrest : ∀ poll ∈ s.port.polling, poll.2 = []) : Good { s with port := s.port.epollWait } := by
  refine ⟨h.fed, fun hidle => h.idle fun hpending => ?_, h.edges.sublist (List.drop_sublist _ _), ?_⟩
  · rw [UnixEventPort.pending_epollWait] at hidle
    rcases hpending with hmem | ⟨poll, hpoll, hmem⟩
    · exact hidle hmem
    · rw [hrest poll hpoll] at hmem
      cases hmem
  · intro poll hpoll
    obtain rfl := Option.some.inj hpoll
    exact h.edges.sublist (List.take_sublist _ _)

theorem Good.notify {nfds : Nat} {events : List IFdOwner} (hpoll : s.port.polling = some (nfds, .server :: events)) :
    (s.backlog.length ≤ 1 ∨ .server ∈ s.port.edges → Good { s with port.polling := some (nfds, events) }.notify) ∧
    (¬ (s.backlog.length ≤ 1 ∨ .server ∈ s.port.edges) →
      ¬ Served { s with port.polling := some (nfds, events) }.notify) := by
  obtain ⟨fed, hfed, hall⟩ := h.fed
  obtain ⟨hserver, hnodup⟩ := List.nodup_cons.mp (h.events _ hpoll)
  have hevents : ∀ poll ∈ some (nfds, events), poll.2.Nodup := by
    intro poll hp
    obtain rfl := Option.some.inj hp
    exact hnodup
  have hpending : UnixEventPort.pending ⟨s.port.edges, some (nfds, events)⟩ .server ↔ .server ∈ s.port.edges := by
    rw [UnixEventPort.pending_of_polling rfl]
    exact or_iff_left hserver
  by_cases hbacklog : s.backlog = []
  · have hnotify : UnixServer.notify { s with port.polling := some (nfds, events) } =
        { s with port.polling := some (nfds, events) } := by
      simp only [UnixServer.notify, hfed, accept4, hbacklog]
    rw [hnotify]
    have hok : s.backlog.length ≤ 1 := by simp [hbacklog]
    exact ⟨fun _ => ⟨h.fed, fun _ => hbacklog, h.edges, hevents⟩, fun hno => absurd (Or.inl hok) hno⟩
  · obtain ⟨connection, backlog, hcons⟩ := List.exists_cons_of_ne_nil hbacklog
    have hnotify : UnixServer.notify { s with port.polling := some (nfds, events) } = { s with
        port.polling := some (nfds, events)
        backlog
        acceptFeeder := some (fed ++ [connection]) } := by
      simp only [UnixServer.notify, hfed, accept4, hcons]
    rw [hnotify]
    refine ⟨fun hok => ⟨⟨_, rfl, ?_⟩, fun hidle => ?_, h.edges, hevents⟩, fun hno hserved => ?_⟩
    · rw [List.append_assoc, ← hall, hcons]
      rfl
    · have hlen := hok.resolve_right fun hmem => hidle (hpending.mpr hmem)
      rw [hcons] at hlen
      exact List.eq_nil_of_length_eq_zero (Nat.le_zero.mp (Nat.le_of_succ_le_succ hlen))
    · obtain ⟨hlong, hmem⟩ := not_or.mp hno
      obtain ⟨hempty, -⟩ := hserved fun hp => hmem (hpending.mp hp)
      have hempty : backlog = [] := hempty
      rw [hcons, hempty] at hlong
      exact hlong (Nat.le_refl 1)

theorem Good.step_spec (op : ServerOp α) :
    ∃ s', s.step op = some ((), s') ∧ (s.Single op → Good s') ∧ (¬ s.Single op → ¬ Served s') := by
  cases op with
  | arrive connection => exact ⟨_, rfl, fun _ => h.arrive connection, fun hno => absurd trivial hno⟩
  | raise id => exact ⟨_, rfl, fun _ => h.raise id, fun hno => absurd trivial hno⟩
  | poll =>
    refine ⟨_, rfl, fun _ => ?_, fun hno => absurd trivial hno⟩
    cases hpoll : s.port.polling with
    | none => exact h.epollWait fun poll hp => absurd (hpoll.symm.trans hp) (Option.some_ne_none poll).symm
    | some poll => exact h
  | advance =>
    refine ⟨_, rfl, ?_⟩
    unfold UnixServer.advance
    split
    next hpoll =>
      have hok : s.Single .advance := fun n events hp => absurd (hpoll.symm.trans hp) nofun
      exact ⟨fun _ => h, fun hno => absurd hok hno⟩
    next nfds hpoll =>
      have hok : s.Single .advance := fun n events hp => absurd (hpoll.symm.trans hp) (by simp)
      refine ⟨fun _ => ?_, fun hno => absurd hok hno⟩
      split
      · refine h.epollWait fun poll hp => ?_
        obtain rfl := Option.some.inj (hpoll.symm.trans hp)
        rfl
      · refine ⟨h.fed, fun hidle => h.idle fun hpending => hidle ?_, h.edges, nofun⟩
        rw [UnixEventPort.pending_of_idle rfl]
        exact ((UnixEventPort.pending_of_polling hpoll).mp hpending).resolve_right List.not_mem_nil
    next nfds events hpoll =>
      obtain ⟨hgood, hbad⟩ := h.notify hpoll
      refine ⟨fun hok => hgood (hok nfds events hpoll), fun hno => hbad fun hok => hno fun n es hp => ?_⟩
      exact hok
    next nfds id events hpoll =>
      have hok : s.Single .advance := fun n es hp => absurd (hpoll.symm.trans hp) (by simp)
      refine ⟨fun _ => ⟨h.fed, fun hidle => h.idle fun hpending => hidle ?_, h.edges, ?_⟩, fun hno => absurd hok hno⟩
      · rw [UnixEventPort.pending_of_polling rfl]
        simpa [UnixEventPort.pending_of_polling hpoll] using hpending
      · intro poll hp
        obtain rfl := Option.some.inj hp
        exact (List.nodup_cons.mp (h.events _ hpoll)).2

end

/-- **Connections are served** in every state of a run exactly when the server is never notified
for the last edge while several connections are waiting. -/
theorem served_iff (ops : List (ServerOp α)) :
    (∀ bs, bs <+: ops → ∃ os s, Run.exec step (new : UnixServer α) bs = some (os, s) ∧ s.Served) ↔
      Run.Along step Single (new : UnixServer α) ops := by
  refine Run.exec_invariant_iff Served Good (fun s hs => hs.served) ?_ ?_ ops new
    ⟨⟨[], rfl, rfl⟩, fun _ => rfl, List.nodup_nil, nofun⟩
  · intro s op hs hok
    obtain ⟨s', hstep, hgood, -⟩ := hs.step_spec op
    exact ⟨(), s', hstep, hgood hok⟩
  · intro s op hs hno
    obtain ⟨s', hstep, -, hbad⟩ := hs.step_spec op
    exact ⟨(), s', hstep, hbad hno⟩

/-- Two connections before a poll: the second one stays in the backlog, and no edge is pending. -/
theorem served_fails : ∃ os s, Run.exec step (new : UnixServer Nat) [.arrive 1, .arrive 2, .poll, .advance, .advance] =
      some (os, s) ∧ s.backlog = [2] ∧ s.acceptFeeder = some [1] ∧ ¬ s.port.pending .server ∧ ¬ s.Served := by
  have hidle : ¬ UnixEventPort.pending ⟨[], none⟩ .server := by
    rw [UnixEventPort.pending_of_idle rfl]
    exact List.not_mem_nil
  refine ⟨_, ⟨⟨[], none⟩, [2], some [1], [1, 2]⟩, rfl, rfl, rfl, hidle, fun hserved => ?_⟩
  exact absurd (hserved hidle).1 (by decide)

end UnixServer

end Forstio
