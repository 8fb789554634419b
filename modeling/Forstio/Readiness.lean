import Forstio.Conveyor
import Forstio.EventQueue

/-!
# Readiness signals

`AsyncIoStream` listens to its stream on three conveyors, each a feeder, a
callback and a sink. A signal is fed when the stream gets ready and its callback
runs in a turn of the event loop. The values are void in the source; here each
names its conveyor, so that the log of delivered results is the list of the
callbacks in the order in which they ran.

Of all this only the numbers of waiting signals matter: `Wired` says that the
nodes hold them and that exactly the feeders with a signal are armed.
-/

namespace Forstio

inductive Signal where
  | readReady
  | writeReady
  | readDisconnected
  deriving DecidableEq, Repr

namespace Signal

def feeder : Signal → Nat
  | readReady => 0
  | writeReady => 2
  | readDisconnected => 4

theorem feeder_inj {s t : Signal} (h : s.feeder = t.feeder) : s = t := by
  cases s <;> cases t <;> first | rfl | cases h

theorem feeder_ne_sink (s t : Signal) : t.feeder + 1 ≠ s.feeder := by
  cases s <;> cases t <;> decide

end Signal

/-- `stream->readReady().then(...).sink()` and its like, with the feeder the stream keeps. -/
def listen (w : World Signal) : Option (Nat × World Signal) := do
  let (feeder, conveyor, w) := Conveyor.newConveyorAndFeeder w
  let (_, w) ← (conveyor.then ErrorOr.value).sink w
  return (feeder, w)

theorem listen_eq (w : World Signal) : listen w = some (w.size, { w with
    nodes := Function.update (Function.update (Function.update w.nodes w.size (some ⟨none, none, .adapt []⟩))
      (w.size + 1)
      (some ⟨none, some w.size, .sink (some (.convert (.storage w.size) ErrorOr.value propagateError))⟩)) w.size
      (some ⟨some (w.size + 1), none, .adapt []⟩)
    size := w.size + 2 }) := by
  have hne : w.size ≠ w.size + 1 := Nat.ne_of_lt (Nat.lt_succ_self _)
  simp only [listen, Conveyor.newConveyorAndFeeder, Conveyor.then, Conveyor.sink, World.alloc, World.setParent,
    World.queued, Function.update_of_ne hne, Function.update_self, Option.bind_eq_bind, Option.bind_some,
    StorageBody.queued, List.length_nil, lt_irrefl, and_false, if_false, World.modify, Option.pure_def]

/-- `counts s` signals of kind `s` are waiting. -/
structure Wired (w : World Signal) (counts : Signal → Nat) : Prop where
  loop : w.loop.Sound
  feeder : ∀ s : Signal, w.nodes s.feeder =
    some ⟨some (s.feeder + 1), none, .adapt (List.replicate (counts s) (.value s))⟩
  sink : ∀ s : Signal, w.nodes (s.feeder + 1) =
    some ⟨none, some s.feeder, .sink (some (.convert (.storage s.feeder) ErrorOr.value propagateError))⟩
  armed : ∀ i, w.loop.isArmed i ↔ ∃ s : Signal, i = s.feeder ∧ 0 < counts s

namespace Wired

variable {w : World Signal} {counts : Signal → Nat}

theorem setQueue (h : Wired w counts) (s : Signal) (n : Nat) (loop : EventLoop Nat) (hloop : loop.Sound)
    (harmed : ∀ i, loop.isArmed i ↔ (i = s.feeder ∧ 0 < n) ∨ i ≠ s.feeder ∧ w.loop.isArmed i)
    (delivered : List (ErrorOr Signal)) : Wired { w with
      loop
      nodes := Function.update w.nodes s.feeder
        (some ⟨some (s.feeder + 1), none, .adapt (List.replicate n (.value s))⟩)
      delivered } (Function.update counts s n) where
  loop := hloop
  feeder t := by
    by_cases ht : t = s
    · subst ht
      simp only [Function.update_self]
    · have hne : t.feeder ≠ s.feeder := fun heq => ht (Signal.feeder_inj heq)
      simp only [Function.update_of_ne hne, Function.update_of_ne ht, h.feeder t]
  sink t := by
    simp only [Function.update_of_ne (Signal.feeder_ne_sink s t), h.sink t]
  armed i := by
    rw [harmed, h.armed]
    constructor
    · rintro (⟨rfl, hn⟩ | ⟨hi, t, rfl, ht⟩)
      · exact ⟨s, rfl, by rw [Function.update_self]; exact hn⟩
      · have hts : t ≠ s := fun heq => hi (heq ▸ rfl)
        exact ⟨t, rfl, by rw [Function.update_of_ne hts]; exact ht⟩
    · rintro ⟨t, rfl, ht⟩
      by_cases hts : t = s
      · subst hts
        rw [Function.update_self] at ht
        exact Or.inl ⟨rfl, ht⟩
      · rw [Function.update_of_ne hts] at ht
        exact Or.inr ⟨fun heq => hts (Signal.feeder_inj heq), t, rfl, ht⟩

theorem feed (h : Wired w counts) (s : Signal) :
    Wired (w.feed s.feeder s) (Function.update counts s (counts s + 1)) := by
  have hset : w.setBody s.feeder (.push (.value s)) = some { w with
      nodes := Function.update w.nodes s.feeder
        (some ⟨some (s.feeder + 1), none, .adapt (List.replicate (counts s + 1) (.value s))⟩) } := by
    simp only [World.setBody, World.modify, h.feeder s, Option.bind_eq_bind, Option.bind_some, Option.pure_def,
      StorageBody.push, ← List.replicate_succ']
  rw [World.feed, World.feedResult, hset]
  refine h.setQueue s (counts s + 1) _ (h.loop.armNext _) (fun i => ?_) w.delivered
  rw [h.loop.isArmed_armNext]
  by_cases hi : i = s.feeder
  · simp [hi]
  · simp [hi]

theorem fire (h : Wired w counts) {s : Signal} {n : Nat} (hs : counts s = n + 1) (loop : EventLoop Nat) :
    ({ w with loop } : World Signal).fire s.feeder = some { w with
      loop := if 0 < n then loop.armLater s.feeder else loop
      nodes := Function.update w.nodes s.feeder
        (some ⟨some (s.feeder + 1), none, .adapt (List.replicate n (.value s))⟩)
      delivered := w.delivered ++ [.value s] } := by
  have hfeeder := h.feeder s
  rw [hs, List.replicate_succ] at hfeeder
  have hget : ({ w with loop } : World Signal).getResult (.convert (.storage s.feeder) ErrorOr.value propagateError) =
      some (.value s, { w with
        loop
        nodes := Function.update w.nodes s.feeder
          (some ⟨some (s.feeder + 1), none, .adapt (List.replicate n (.value s))⟩) }) := by
    simp only [World.getResult, hfeeder, World.setBody, World.modify, Option.bind_eq_bind, Option.bind_some,
      Option.pure_def]
  simp only [World.fire, hfeeder, World.Adapt.fire, World.childHasFired, h.sink s, hget, Option.bind_eq_bind,
    Option.bind_some, Option.pure_def, World.deliver, ErrorOr.isCritical, Bool.false_eq_true, false_and, if_false,
    World.queued, Function.update_self, StorageBody.queued, List.length_replicate, World.armLater]
  split <;> rfl

theorem turn (h : Wired w counts) : (w.turn = some (false, w) ∧ ∀ s, counts s = 0) ∨
    ∃ s n w', counts s = n + 1 ∧ w.turn = some (true, w') ∧ w'.delivered = w.delivered ++ [.value s] ∧
      Wired w' (Function.update counts s n) := by
  rcases ht : w.loop.turn with ⟨_ | i, loop⟩
  · refine Or.inl ⟨by simp only [World.turn, ht, Option.pure_def], fun s => ?_⟩
    have hidle := h.loop.not_isArmed (EventLoop.head_of_turn ht) s.feeder
    rw [h.armed] at hidle
    exact Nat.eq_zero_of_not_pos fun hpos => hidle ⟨s, rfl, hpos⟩
  · have hturn := h.loop.turn (e := i) (by rw [ht])
    rw [ht] at hturn
    obtain ⟨hi, hsound, harmed⟩ := hturn
    obtain ⟨s, rfl, hs⟩ := (h.armed i).mp hi
    obtain ⟨n, hn⟩ := Nat.exists_eq_add_of_lt hs
    have hn : counts s = n + 1 := by omega
    have hunarmed : ∀ i, loop.isArmed i ↔ i ≠ s.feeder ∧ w.loop.isArmed i := harmed
    refine Or.inr ⟨s, n, _, hn, ?_, ?_, h.setQueue s n (if 0 < n then loop.armLater s.feeder else loop) ?_ ?_
      (w.delivered ++ [.value s])⟩
    · simp only [World.turn, ht, h.fire hn loop, Option.bind_eq_bind, Option.bind_some, Option.pure_def]
    · rfl
    · split
      · exact hsound.armLater _
      · exact hsound
    · intro i
      split
      next hpos =>
        rw [hsound.isArmed_armLater, hunarmed]
        simp [hpos]
      next hzero =>
        rw [hunarmed]
        simp [hzero]

end Wired

end Forstio
