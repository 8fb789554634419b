import Forstio.ChainRun
import Forstio.Growth

/-!
# Runs that use no destroyed event

A turn that destroys the node whose event holds the later insertion point leaves
that pointer at a slot that is gone, and the next `armLater` or `armLast` writes
through it. A chain that was built completely is a growing chain to which nothing
is added, so its runs go through as long as no turn does that.
-/

namespace Forstio

namespace World

variable {α : Type} {w : World α}

/-- The call leaves no insertion point in a destroyed event. -/
def SparesAt (w : World α) : Call α → Prop
  | .turn => w.Spares
  | _ => True

instance : ∀ call : Call α, Decidable (w.SparesAt call)
  | .feed _ => isTrue trivial
  | .fail _ => isTrue trivial
  | .turn => inferInstanceAs (Decidable w.Spares)
  | .take => isTrue trivial

end World

def Call.grow {α : Type} : Call α → Growing.Call α
  | feed v => .feed v
  | fail e => .fail e
  | turn => .turn
  | take => .take

namespace Growing

variable {α : Type} {c : Chain α} {sunk : Bool} {fed : List (ErrorOr α)} {w : World α}

/-! ## Building -/

theorem unspent_built {g : Growing α} (h : g.world = Pipe.empty.world c sunk) : g.Unspent := by
  intro conveyor _ harmed
  rw [h] at harmed
  exact absurd harmed (EventLoop.not_isArmed_new _)

theorem grown_built : ∀ {c : Chain α}, c.Roomy →
    Grown (c, false) [] ⟨Pipe.empty.world c false, some ⟨c.node, c.top⟩⟩
  | .feeder, _ => by
    have hbuild := (Chain.feeder : Chain α).build_world
    have hstart : (start : Growing α) =
        ⟨Pipe.empty.world .feeder false, some ⟨(Chain.feeder : Chain α).node, (Chain.feeder : Chain α).top⟩⟩ := by
      obtain ⟨hconveyor, hworld⟩ := Prod.mk.inj (Option.some.inj hbuild)
      rw [← hconveyor, ← hworld]
      rfl
    rw [← hstart]
    exact grown_start
  | .then c func, hroomy => by
    have h := grown_built (c := c) hroomy
    have hbuild := (c.then func).build_world
    rw [Chain.build, c.build_world] at hbuild
    obtain ⟨-, hworld⟩ := Prod.mk.inj (Option.some.inj hbuild)
    rw [← hworld]
    exact ⟨h.chained.then func, rfl, h.roomy, h.feeder, h.traced.then func⟩
  | .buffer c limit, hroomy => by
    obtain ⟨g, hstep, hg⟩ := (grown_built hroomy.1).buffer hroomy.2 (unspent_built rfl)
    have hbuild := (c.buffer limit).build_world
    rw [Chain.build, c.build_world] at hbuild
    have hbuffer : Conveyor.buffer ⟨c.node, c.top⟩ (Pipe.empty.world c false) limit = _ := hbuild
    simp only [Growing.step, hbuffer, Option.bind_eq_bind, Option.bind_some, Option.pure_def] at hstep
    obtain ⟨-, rfl⟩ := Prod.mk.inj (Option.some.inj hstep)
    exact hg

theorem grown_finished (hroomy : c.Roomy) (sunk : Bool) :
    Grown (c, sunk) [] ⟨Pipe.empty.world c sunk, if sunk then none else some ⟨c.node, c.top⟩⟩ := by
  cases sunk with
  | false => exact grown_built hroomy
  | true =>
    obtain ⟨g, hstep, hg⟩ := (grown_built hroomy).sink (unspent_built rfl)
    have hfinish := c.finish_world true
    simp only [Chain.finish, c.build_world, Option.bind_eq_bind, Option.bind_some, if_true] at hfinish
    obtain ⟨⟨sink, w⟩, hsink, hworld⟩ := Option.bind_eq_some_iff.mp hfinish
    obtain ⟨-, rfl⟩ := Prod.mk.inj (Option.some.inj hworld)
    simp only [Growing.step, hsink, Option.bind_eq_bind, Option.bind_some, Option.pure_def] at hstep
    obtain ⟨-, rfl⟩ := Prod.mk.inj (Option.some.inj hstep)
    exact hg

/-! ## Running -/

theorem step_grow (taker : Option (Conveyor α)) (w : World α) (call : Forstio.Call α) :
    step ⟨w, taker⟩ call.grow = (World.step taker w call).map fun r => (r.1, ⟨r.2, taker⟩) := by
  cases call with
  | feed v => rfl
  | fail e => rfl
  | turn =>
    cases hturn : w.turn with
    | none => simp [Forstio.Call.grow, step, World.step, hturn]
    | some r => simp [Forstio.Call.grow, step, World.step, hturn]
  | take =>
    cases taker with
    | none => rfl
    | some conveyor =>
      cases htake : conveyor.take w with
      | none => simp [Forstio.Call.grow, step, World.step, htake]
      | some r => simp [Forstio.Call.grow, step, World.step, htake]

/-- **A call that spares the events** goes through. -/
theorem Grown.spared {taker : Option (Conveyor α)} (h : Grown (c, sunk) fed ⟨w, taker⟩) {call : Forstio.Call α}
    (hspare : w.SparesAt call) : ∃ result w' fed', World.step taker w call = some (result, w') ∧
      Grown (c, sunk) fed' ⟨w', taker⟩ := by
  have hroomy : call.grow.Roomy := by
    cases call with
    | _ => trivial
  have hcareful : Careful ⟨w, taker⟩ call.grow := by
    cases call with
    | turn => exact hspare
    | _ => trivial
  have hextend : call.grow.extend (c, sunk) = (c, sunk) := by
    cases call with
    | _ => cases sunk <;> rfl
  obtain ⟨result, g, hstep, hg⟩ := h.step hroomy hcareful
  rw [step_grow] at hstep
  obtain ⟨⟨result, w'⟩, hw, heq⟩ := Option.map_eq_some_iff.mp hstep
  obtain ⟨rfl, rfl⟩ := Prod.mk.inj heq
  rw [hextend] at hg
  exact ⟨_, w', _, hw, hg⟩

end Growing

end Forstio
