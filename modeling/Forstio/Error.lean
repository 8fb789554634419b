/-!
# Errors and aborting runs

`Error` carries a code and a message; a negative code is critical, a positive
one recoverable, zero is success. A run of the library is an `Option`: `none`
stands for a failed assert, a memory access outside its vector, or a loop that
never ends.
-/

namespace Forstio

structure Error where
  message : String
  code : Int
  deriving DecidableEq, Repr

namespace Error

def failed (e : Error) : Bool := e.code ≠ 0
def isCritical (e : Error) : Bool := e.code < 0
def isRecoverable (e : Error) : Bool := e.code > 0

def genericCritical : Int := -1
def genericRecoverable : Int := 1
def disconnected : Int := -99
def exhausted : Int := -98

end Error

def makeError (generic : String) (code : Int) : Error := ⟨generic, code⟩

def criticalError (generic : String) : Error := makeError generic Error.genericCritical

def recoverableError (generic : String) : Error := makeError generic Error.genericRecoverable

def noError : Error := ⟨"", 0⟩

/-- `std::variant<Error, T>`: the error alternative comes first. -/
inductive ErrorOr (α : Type) where
  | error (e : Error)
  | value (v : α)
  deriving DecidableEq, Repr

namespace ErrorOr

variable {α : Type}

def isCritical : ErrorOr α → Bool
  | error e => e.isCritical
  | value _ => false

end ErrorOr

/-- `assert(p)`: the run ends here when `p` is false. -/
def assert (p : Prop) [Decidable p] : Option Unit := if p then some () else none

/-! ## Evaluating codes -/

@[simp] theorem noError_failed : noError.failed = false := rfl
@[simp] theorem recoverableError_failed (s : String) : (recoverableError s).failed = true := rfl
@[simp] theorem criticalError_failed (s : String) : (criticalError s).failed = true := rfl
@[simp] theorem recoverableError_isCritical (s : String) : (recoverableError s).isCritical = false := rfl
@[simp] theorem criticalError_isCritical (s : String) : (criticalError s).isCritical = true := rfl
@[simp] theorem recoverableError_isRecoverable (s : String) : (recoverableError s).isRecoverable = true := rfl
@[simp] theorem criticalError_isRecoverable (s : String) : (criticalError s).isRecoverable = false := rfl
@[simp] theorem noError_isCritical : noError.isCritical = false := rfl
@[simp] theorem noError_isRecoverable : noError.isRecoverable = false := rfl

theorem assert_pos {p : Prop} [Decidable p] (h : p) : assert p = some () := by simp [assert, h]

theorem of_assert {p : Prop} [Decidable p] {u : Unit} (h : assert p = some u) : p := by
  unfold assert at h
  split at h
  · assumption
  · cases h

end Forstio
