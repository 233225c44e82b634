import Durability.Program.Basic

namespace Durability

/-- A promise of the caller that an operation found broken. -/
inductive Fault
  | outOfRange
  | unsuited
  | functionOpen
  | bodyPresent
  | noFunctionOpen
  | noBlockSelected
  | blockTerminated (b : BlockId)
  | noBlocks (function : String)
  | noTerminator (b : BlockId) (function : String)
  | notABug (index : Nat)
  | lineSizeNotPowerOfTwo
  | detached
  | endless
deriving DecidableEq

namespace Fault

def message? : Fault → Option String
  | .functionOpen =>
    some "Should have called \x60end_function\x60 before calling \x60begin_function\x60 again"
  | .bodyPresent => some "Body already added"
  | .noFunctionOpen => some "No function being built"
  | .noBlockSelected => some "No block selected"
  | .blockTerminated b => some s!"Block {b} is already terminated"
  | .noBlocks function => some s!"Function {function} has no blocks"
  | .noTerminator b function => some s!"Block {b} of {function} does not end in a terminator"
  | .notABug index => some s!"Trace event {index} is not a bug"
  | .lineSizeNotPowerOfTwo => some "Cache line size must be a power of two"
  | .detached => some "detached"
  | .outOfRange | .unsuited | .endless => none

variable {α : Type}

def lookup (l : List α) (k : Nat) : Except Fault α :=
  match l[k]? with
  | some a => .ok a
  | none => .error .outOfRange

theorem lookup_eq_ok_iff {l : List α} {k : Nat} {a : α} :
    lookup l k = .ok a ↔ l[k]? = some a := by
  rw [lookup]
  split <;> simp_all

def demand (f : Fault) : Option α → Except Fault α
  | some a => .ok a
  | none => .error f

def require (f : Fault) (b : Bool) : Except Fault Unit := if b then .ok () else .error f

end Fault

/-- Why an operation has no result: a cause that belongs to its answers, or a broken contract. -/
inductive Failure (ε : Type)
  | refused (cause : ε)
  | fault (f : Fault)
deriving DecidableEq

namespace Failure

variable {ε ε' α : Type}

def mapCause (g : ε → ε') : Failure ε → Failure ε'
  | refused cause => refused (g cause)
  | fault f => fault f

end Failure

abbrev Attempt (ε : Type) := Except (Failure ε)

namespace Attempt

variable {ε ε' α : Type}

def refuse (cause : ε) : Attempt ε α := .error (.refused cause)

def refuseIf (b : Bool) (cause : ε) : Attempt ε Unit := if b then refuse cause else .ok ()

def ofExcept : Except ε α → Attempt ε α
  | .ok a => .ok a
  | .error cause => .error (.refused cause)

def lift : Except Fault α → Attempt ε α
  | .ok a => .ok a
  | .error f => .error (.fault f)

instance : MonadLift (Except Fault) (Attempt ε) := ⟨lift⟩

def mapCause (g : ε → ε') : Attempt ε α → Attempt ε' α
  | .ok a => .ok a
  | .error e => .error (e.mapCause g)

end Attempt

/-- An attempt on a state in `σ`, which keeps what has been done before it fails. -/
abbrev Stateful (σ ε : Type) := ExceptT (Failure ε) (StateM σ)

namespace Stateful

variable {σ ε ε' α : Type}

instance : MonadLift (Attempt ε) (Stateful σ ε) := ⟨fun r s ↦ (r, s)⟩

instance : MonadLift (Except Fault) (Stateful σ ε) := ⟨fun r s ↦ (Attempt.lift r, s)⟩

def mapCause (g : ε → ε') (x : Stateful σ ε α) : Stateful σ ε' α := fun s ↦
  let (r, t) := x s
  (Attempt.mapCause g r, t)

/-- The result together with the state it comes with. What has been done in vain is forgotten. -/
def attempt (x : Stateful σ ε α) (s : σ) : Attempt ε (α × σ) :=
  match x s with
  | (.ok a, t) => .ok (a, t)
  | (.error e, _) => .error e

end Stateful

end Durability
