import Durability.Fault

namespace Durability.Program

variable (p : Program)

def instr (i : InstrId) : Except Fault Instruction := Fault.lookup p.instructions i.index

def block (b : BlockId) : Except Fault Block := Fault.lookup p.blocks b.index

def function (f : FunctionId) : Except Fault Function := Fault.lookup p.functions f.index

def functionNamed? (name : String) : Option FunctionId :=
  (p.functions.findIdx? (·.name = name)).map FunctionId.mk

def blockOf (i : InstrId) : Except Fault (Option BlockId) := do
  return (← p.instr i).block

def functionOf (i : InstrId) : Except Fault (Option FunctionId) := do
  match ← p.blockOf i with
  | none => return none
  | some b => return some (← p.block b).function

/-- The first position of `i` in its block, with the instructions of that block. -/
def position? (i : InstrId) : Except Fault (Option (Nat × List InstrId)) := do
  match ← p.blockOf i with
  | none => return none
  | some b =>
    let instrs := (← p.block b).instrs
    return (instrs.idxOf? i).map (·, instrs)

def prevInBlock (i : InstrId) : Except Fault (Option InstrId) := do
  match ← p.position? i with
  | some (k + 1, instrs) => return instrs[k]?
  | _ => return none

def nextInBlock (i : InstrId) : Except Fault (Option InstrId) := do
  match ← p.position? i with
  | some (k, instrs) => return instrs[k + 1]?
  | none => return none

def firstInBlock (b : BlockId) : Except Fault (Option InstrId) := do
  return (← p.block b).instrs.head?

def terminator (b : BlockId) : Except Fault (Option InstrId) := do
  match (← p.block b).instrs.getLast? with
  | none => return none
  | some i => return if (← p.instr i).op.isTerminator then some i else none

def successors (b : BlockId) : Except Fault (List BlockId) := do
  match ← p.terminator b with
  | none => return []
  | some t => return (← p.instr t).op.targets

def entry (f : FunctionId) : Except Fault (Option InstrId) := do
  match (← p.function f).blocks.head? with
  | none => return none
  | some b => p.firstInBlock b

def calledFunction (i : InstrId) : Except Fault (Option FunctionId) := do
  match (← p.instr i).op with
  | .call f => return some f
  | _ => return none

def isDefinedCall (i : InstrId) : Except Fault Bool := do
  match ← p.calledFunction i with
  | none => return false
  | some f => return (← p.function f).kind = .defined

def sourceOf (i : InstrId) : Except Fault (Option (String × SourceLine)) := do
  match ← p.functionOf i with
  | none => return none
  | some f =>
    match (← p.instr i).loc with
    | none => return none
    | some loc => return some ((← p.function f).name, loc)

def functionNameOf (i : InstrId) : Except Fault (Option String) := do
  match ← p.functionOf i with
  | none => return none
  | some f => return some (← p.function f).name

/-- The instructions that the blocks of the functions list, in their order. -/
def attached : Except Fault (List InstrId) := do
  let blocks ← p.functions.flatMap (·.blocks) |>.mapM p.block
  return blocks.flatMap (·.instrs)

def returnedValues (f : FunctionId) : Except Fault (List Value) := do
  let values ← (← p.function f).blocks.mapM fun b ↦ do
    match ← p.terminator b with
    | none => return none
    | some t =>
      let ins ← p.instr t
      return if ins.op = .ret then ins.inputs.head? else none
  return values.filterMap id

end Durability.Program
