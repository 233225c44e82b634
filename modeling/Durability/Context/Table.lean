import Durability.Context.PmFacts
import Durability.LocationIndex

namespace Durability

structure ContextId where
  index : Nat
deriving DecidableEq

instance : ToString ContextId := ⟨fun c ↦ "ctx" ++ toString c.index⟩

/-- A chain of call sites under an outermost function, with the storage that is known to be persistent
there. -/
structure Context where
  parent : Option ContextId
  /-- Call sites, outermost first. -/
  callStack : List InstrId
  function : FunctionId
  pm : PmFacts
deriving DecidableEq

structure ContextTable where
  contexts : List Context
deriving DecidableEq

namespace ContextTable

instance : EmptyCollection ContextTable := ⟨⟨[]⟩⟩

variable (t : ContextTable)

def size : Nat := t.contexts.length

def isEmpty : Bool := t.contexts.isEmpty

def get (c : ContextId) : Except Fault Context := Fault.lookup t.contexts c.index

def update (c : ContextId) (f : PmFacts → PmFacts) : ContextTable :=
  ⟨t.contexts.modify c.index fun x ↦ { x with pm := f x.pm }⟩

/-- The context that satisfies `same`, which is `x` at the end of the table if there is none yet.
Tells whether it is new. -/
def intern (same : Context → Bool) (x : Context) : (ContextId × Bool) × ContextTable :=
  match t.contexts.findIdx? same with
  | some k => ((⟨k⟩, false), t)
  | none => ((⟨t.contexts.length⟩, true), ⟨t.contexts ++ [x]⟩)

def root (f : FunctionId) : ContextId × ContextTable :=
  let ((c, _), t) := t.intern (fun x ↦ x.parent = none ∧ x.function = f) ⟨none, [], f, ∅⟩
  (c, t)

/-- The function of the context at `k` and those of its callers, innermost first. A parent stands
before its children in the table. -/
def activeFrom (k : Nat) : List FunctionId :=
  match t.contexts[k]? with
  | none => []
  | some x =>
    match x.parent with
    | none => [x.function]
    | some c => if c.index < k then x.function :: activeFrom c.index else [x.function]
termination_by k

def activeFunctions (c : ContextId) : Except Fault (List FunctionId) := do
  let _ ← t.get c
  return t.activeFrom c.index

def callee (p : Program) (i : InstrId) : Attempt RepairError FunctionId := do
  match (← p.instr i).op with
  | .call f =>
    if (← p.function f).kind = .defined then return f
    else Attempt.refuse (.notACallSite (← p.locationOf i))
  | _ => Attempt.refuse (.notACallSite (← p.locationOf i))

/-- The function that `call` leads to from `c`. One that is active already is not entered again. -/
def callable (p : Program) (c : ContextId) (call : InstrId) : Attempt RepairError FunctionId := do
  let f ← callee p call
  if (← t.activeFunctions c).contains f then
    Attempt.refuse (.recursion (← p.function f).name call)
  return f

end ContextTable

/-- A computation that enters contexts. They stay in the table when it fails. -/
abbrev InContexts := Stateful ContextTable RepairError

namespace InContexts

def root (f : FunctionId) : InContexts ContextId := modifyGet (·.root f)

/-- The context that `call` leads to from `c`, a new one in `f` if there is none yet. It knows all that
`c` knows. -/
def enter (c : ContextId) (call : InstrId) (f : FunctionId) : InContexts ContextId := do
  let caller ← (← get).get c
  let same (x : Context) : Bool := x.parent = some c ∧ x.callStack.getLast? = some call
  let (d, isNew) ←
    modifyGet (·.intern same ⟨some c, caller.callStack ++ [call], f, caller.pm⟩)
  let pm := (← (← get).get c).pm
  unless isNew || pm.isSubset (← (← get).get d).pm do
    modify (·.update d (·.join pm))
  return d

def call (p : Program) (c : ContextId) (i : InstrId) : InContexts ContextId := do
  enter c i (← (← get).callable p c i)

end InContexts

namespace ContextTable

variable (t : ContextTable)

def doCall (p : Program) (c : ContextId) (call : InstrId) :
    Attempt RepairError (ContextId × ContextTable) := (InContexts.call p c call).attempt t

/-- Goes back from `c` to its caller through the return `ret`, none if `c` is a root. The caller
learns all that the callee knows, and the result of the call if persistent storage is returned. -/
def doReturn (p : Program) (pts : PointsTo) (c : ContextId) (ret : InstrId) :
    Except Fault (Option ContextId × ContextTable) := do
  let x ← t.get c
  match x.parent, x.callStack.getLast? with
  | some parent, some call =>
    let returnsPm := (← p.instr ret).inputs.head?.any (x.pm.reaches pts)
    let _ ← t.get parent
    let learnt (pm : PmFacts) := if returnsPm then pm.learn pts (.instr call) else pm
    return (some parent, t.update parent fun pm ↦ (learnt pm).join x.pm)
  | _, _ => return (none, t)

end ContextTable

end Durability
