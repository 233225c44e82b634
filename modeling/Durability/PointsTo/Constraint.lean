import Durability.PointsTo.Storage
import Durability.Program.Query

namespace Durability

inductive Constraint
  | address (v : Value) (s : Storage)
  | copy (dst src : Value)
  /-- `dst` points wherever the contents of what `ptr` points to do. -/
  | load (dst ptr : Value)
  /-- What `ptr` points to holds whatever `src` points to. -/
  | store (ptr src : Value)
deriving DecidableEq

namespace Constraint

/-- Constants point nowhere, so that nothing follows from copying or storing one. -/
def isIdle : Constraint → Bool
  | copy _ (.const _) | store _ (.const _) => true
  | _ => false

end Constraint

namespace Program

variable (p : Program)

def operand (ins : Instruction) (k : Nat) : Except Fault Value := Fault.lookup ins.inputs k

/-- A call binds arguments to parameters and hands the returned values to its result. -/
def callConstraints (i : InstrId) (ins : Instruction) (f : FunctionId) :
    Except Fault (List Constraint) := do
  match (← p.function f).kind with
  | .defined =>
    let bound := ins.inputs.mapIdx fun n src ↦ Constraint.copy (.arg f n) src
    let returned := (← p.returnedValues f).map (Constraint.copy (.instr i))
    return bound ++ returned
  | .declaration => return [.address (.instr i) (.heap i)]
  | .intrinsic => return []

def instrConstraints (i : InstrId) : Except Fault (List Constraint) := do
  let ins ← p.instr i
  match ins.op with
  | .alloca => return [.address (.instr i) (.stack i)]
  | .ptrOffset | .copy | .phi => return ins.inputs.map (.copy (.instr i))
  | .load => return [.load (.instr i) (← operand ins 0)]
  | .store => return [.store (← operand ins 0) (← operand ins 1)]
  | .call f => p.callConstraints i ins f
  | _ => return []

def globalConstraints : List Constraint :=
  (List.range p.globals.length).map fun k ↦ .address (.global ⟨k⟩) (.global ⟨k⟩)

/-- What the globals and the instructions of a list ask for. -/
def constraintsOf (is : List InstrId) : Except Fault (List Constraint) := do
  let instrs ← is.mapM p.instrConstraints
  return (p.globalConstraints ++ instrs.flatten).filter (!·.isIdle)

def constraints : Except Fault (List Constraint) := do p.constraintsOf (← p.attached)

end Program

end Durability
