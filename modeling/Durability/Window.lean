import Durability.Context.Table

namespace Durability

/-- Instructions that execute one after the other in one context, up to a terminator or a call of a
defined function. -/
structure Window where
  context : ContextId
  first : InstrId
  /-- The last instruction still belongs to the window. -/
  last : InstrId
  anchor : InstrId
deriving DecidableEq

/-- Where a window begins: a context and an instruction. -/
abbrev WindowKey := ContextId × InstrId

namespace WindowKey

def major (k : WindowKey) : Nat := k.1.index

def minor (k : WindowKey) : Nat := k.2.index

instance : Ord WindowKey := ⟨compareLex (compareOn major) (compareOn minor)⟩

instance : Std.TransOrd WindowKey :=
  inferInstanceAs (Std.TransCmp (compareLex (compareOn major) (compareOn minor)))

instance : Std.LawfulEqOrd WindowKey where
  compare_self {k} := by
    change compareLex (compareOn major) (compareOn minor) k k = .eq
    simp [compareLex_eq_eq, compareOn]
  eq_of_compare {k l} h := by
    have h : compareLex (compareOn major) (compareOn minor) k l = .eq := h
    simp only [compareLex_eq_eq, compareOn, Nat.compare_eq_eq] at h
    obtain ⟨⟨c⟩, ⟨i⟩⟩ := k
    obtain ⟨⟨d⟩, ⟨j⟩⟩ := l
    simp_all [major, minor]

end WindowKey

namespace Program

variable (p : Program)

def endsWindow (i : InstrId) : Except Fault Bool := do
  if (← p.instr i).op.isTerminator then return true
  p.isDefinedCall i

def scanForward : Nat → InstrId → Except Fault InstrId
  | 0, _ => .error .endless
  | steps + 1, i => do
    if ← p.endsWindow i then return i
    match ← p.nextInBlock i with
    | none => return i
    | some j => scanForward steps j

def scanBackward : Nat → InstrId → Except Fault InstrId
  | 0, _ => .error .endless
  | steps + 1, i => do
    match ← p.prevInBlock i with
    | none => return i
    | some j => if ← p.isDefinedCall j then return i else scanBackward steps j

def scanTo (last : InstrId) : Nat → InstrId → Except Fault (List InstrId)
  | 0, _ => .error .endless
  | steps + 1, i => do
    if i = last then return [i]
    match ← p.nextInBlock i with
    | none => return [i]
    | some j => return i :: (← scanTo last steps j)

def walkBound : Nat := p.instructions.length + 1

end Program

namespace Window

def startingAt (p : Program) (c : ContextId) (first : InstrId) : Except Fault Window := do
  return ⟨c, first, ← p.scanForward p.walkBound first, first⟩

def around (p : Program) (c : ContextId) (anchor : InstrId) : Except Fault Window := do
  let w ← startingAt p c (← p.scanBackward p.walkBound anchor)
  return { w with anchor := anchor }

def key (w : Window) : WindowKey := (w.context, w.first)

def same (w v : Window) : Bool := w.context = v.context && w.first = v.first

def instrs (w : Window) (p : Program) : Except Fault (List InstrId) :=
  p.scanTo w.last p.walkBound w.first

end Window

structure Surroundings where
  program : Program
  index : LocationIndex
  settings : Settings

namespace Window

def rooted (p : Program) (i : InstrId) (window : ContextId → Except Fault Window) :
    InContexts Window := do
  match ← p.functionOf i with
  | none => throw (.fault .detached)
  | some f => window (← InContexts.root f)

variable (env : Surroundings)

def callAt (frame : Location) : Attempt RepairError InstrId :=
  match env.index.uniqueWhere frame env.program.isDefinedCall with
  | .error (.refused (.unmapped loc)) => Attempt.refuse (.notACallSite loc)
  | r => r

def callerOf (c? : Option ContextId) (call : InstrId) : InContexts ContextId := do
  match c? with
  | some c => return c
  | none =>
    match ← env.program.functionOf call with
    | some f => InContexts.root f
    | none => throw (.refused (.detachedInstr call))

/-- Enters the call of one frame. A frame that is not known is passed over. -/
def enterFrame (c? : Option ContextId) (frame : Location) : InContexts (Option ContextId) := do
  if frame.isValid && env.index.contains frame then
    let call ← callAt env frame
    return some (← InContexts.call env.program (← callerOf env c? call) call)
  else return c?

/-- The context for an event in `f` below a chain of calls. A chain that does not lead to `f` is given
up for an outermost context. -/
def contextFor (c? : Option ContextId) (f : FunctionId) : InContexts ContextId := do
  match c? with
  | some c => if (← (← get).get c).function = f then return c else InContexts.root f
  | none => InContexts.root f

/-- The window that an event happened in. The calls of its frames are entered outermost first. -/
def ofEvent (e : Event) : InContexts Window := do
  let c? ← e.callers.foldlM (enterFrame env) none
  let i ← env.index.uniqueFor e.anchor env.settings env.program e.kind
  match ← env.program.functionOf i with
  | none => throw (.refused (.detachedInstr i))
  | some f => around env.program (← contextFor c? f) i

end Window

end Durability
