import Durability.Program.Names
import Durability.Program.Query

namespace Durability

inductive OperandError
  | count (op : Op) (inputs : List Value)
  | constantAddress (op : Op) (address : Value)
deriving DecidableEq

def OperandError.message : OperandError → String
  | .count op inputs =>
    s!"Got {inputs.length} inputs for operation {op.render}: {Value.renderList inputs}"
  | .constantAddress op address =>
    s!"Operation {op.render} expects a pointer operand, got {address.render}"

def Op.takes (op : Op) (n : Nat) : Bool :=
  match op with
  | .alloca | .fence _ | .branch _ | .unreachable => n == 0
  | .load | .flush _ | .ptrOffset | .copy | .condBranch _ _ => n == 1
  | .store => n == 2
  | .phi => 1 ≤ n
  | .ret => n ≤ 1
  | .call _ | .other => true

def Instruction.checkOperands (ins : Instruction) : Except OperandError Unit :=
  if ins.op.takes ins.inputs.length then
    match ins.pointer? with
    | some (.const n) => .error (.constantAddress ins.op (.const n))
    | _ => .ok ()
  else .error (.count ins.op ins.inputs)

inductive ProgramError
  | mismatchedBody (function : String)
  | foreignBlock (b : BlockId) (function : String)
  | unterminated (b : BlockId)
  | danglingInstr (b : BlockId) (i : InstrId)
  | notMarked (i : InstrId) (b : BlockId)
  | terminatorInside (i : InstrId) (b : BlockId)
  | operands (cause : OperandError)
  | danglingValue (v : Value)
  | unknownCallee (i : InstrId) (f : FunctionId)
  | escapingBranch (i : InstrId)
deriving DecidableEq

def ProgramError.message : ProgramError → String
  | .mismatchedBody function => s!"Function {function} has a mismatched body"
  | .foreignBlock b function => s!"Block {b} does not belong to {function}"
  | .unterminated b => s!"Block {b} does not end in a terminator"
  | .danglingInstr b i => s!"Block {b} holds dangling {i}"
  | .notMarked i b => s!"{i} is not marked as part of {b}"
  | .terminatorInside i b => s!"Terminator {i} in the middle of {b}"
  | .operands cause => cause.message
  | .danglingValue (.instr i) => s!"Dangling instruction {i}"
  | .danglingValue (.arg f n) => s!"Dangling argument {f}/{n}"
  | .danglingValue (.global g) => s!"Dangling global {g}"
  | .danglingValue (.const _) => "Dangling constant"
  | .unknownCallee i f => s!"{i} calls unknown function {f}"
  | .escapingBranch i => s!"{i} branches outside its function"

namespace Program

variable (p : Program)

def hasValue : Value → Bool
  | .instr i => i.index < p.instructions.length
  | .arg f n => match p.functions[f.index]? with
    | some function => n < function.numArgs
    | none => false
  | .global g => g.index < p.globals.length
  | .const _ => true

def owns (f : FunctionId) (b : BlockId) : Bool :=
  match p.blocks[b.index]? with
  | some block => block.function = f
  | none => false

def validateFunction (f : FunctionId) (function : Function) : Attempt ProgramError Unit := do
  Attempt.refuseIf ((function.kind == .defined) == function.blocks.isEmpty)
    (.mismatchedBody function.name)
  function.blocks.forM fun b ↦
    Attempt.refuseIf (!p.owns f b) (.foreignBlock b function.name)

def validateTargets (f : FunctionId) (i : InstrId) (op : Op) : Attempt ProgramError Unit :=
  match op with
  | .call callee => Attempt.refuseIf (p.functions.length ≤ callee.index) (.unknownCallee i callee)
  | op => Attempt.refuseIf (op.targets.any (!p.owns f ·)) (.escapingBranch i)

def validateInstr (f : FunctionId) (b : BlockId) (length position : Nat) (i : InstrId) :
    Attempt ProgramError Unit :=
  match p.instructions[i.index]? with
  | none => Attempt.refuse (.danglingInstr b i)
  | some ins => do
    Attempt.refuseIf (ins.block != some b) (.notMarked i b)
    Attempt.refuseIf (ins.op.isTerminator && position + 1 != length) (.terminatorInside i b)
    Attempt.ofExcept (ins.checkOperands.mapError .operands)
    ins.inputs.forM fun v ↦ Attempt.refuseIf (!p.hasValue v) (.danglingValue v)
    p.validateTargets f i ins.op

def validateBlock (b : BlockId) (block : Block) : Attempt ProgramError Unit := do
  Attempt.refuseIf (← p.terminator b).isNone (.unterminated b)
  block.instrs.zipIdx.forM fun (i, position) ↦
    p.validateInstr block.function b block.instrs.length position i

/-- Looks at functions first, then at blocks in order, and names the first thing that is wrong. -/
def validate : Attempt ProgramError Unit := do
  p.functions.zipIdx.forM fun (function, k) ↦ p.validateFunction ⟨k⟩ function
  p.blocks.zipIdx.forM fun (block, k) ↦ p.validateBlock ⟨k⟩ block

end Program

end Durability
