import Durability.Program.Edit

namespace Durability

/-- A program, with the function that is being built and the block that takes instructions. -/
structure Builder where
  program : Program
  cursor : Option (FunctionId × Option BlockId)
deriving DecidableEq

/-- Work on a builder. A call that fails keeps what it has done before. -/
abbrev Building := Stateful Builder EditError

namespace Builder

def empty : Builder := ⟨∅, none⟩

def edit {α : Type} (x : Editing EditError α) : Building α := fun s ↦
  let (r, p) := x s.program
  (r, { s with program := p })

def addGlobal (name : String) : Building GlobalId := do
  edit (modify fun p ↦ { p with globals := p.globals ++ [name] })
  return ⟨(← get).program.globals.length - 1⟩

def addFunction (function : Function) : Building FunctionId := do
  edit (modify fun p ↦ { p with functions := p.functions ++ [function] })
  return ⟨(← get).program.functions.length - 1⟩

def declare (name : String) (kind : FunctionKind) (numArgs : Nat) : Building FunctionId := do
  Fault.require .unsuited (kind != .defined)
  addFunction ⟨name, kind, numArgs, []⟩

def reserve (name : String) (numArgs : Nat) : Building FunctionId :=
  addFunction ⟨name, .defined, numArgs, []⟩

def setCursor (cursor : Option (FunctionId × Option BlockId)) : Building Unit :=
  modify ({ · with cursor := cursor })

def beginFunction (f : FunctionId) : Building Unit := do
  let s ← get
  Fault.require .functionOpen s.cursor.isNone
  let function ← s.program.function f
  Fault.require .unsuited (function.kind == .defined)
  Fault.require .bodyPresent function.blocks.isEmpty
  setCursor (some (f, none))

/-- The block comes first, then the function that it is put in. -/
def addBlock : Building BlockId := do
  let s ← get
  let (f, _) ← Fault.demand .noFunctionOpen s.cursor
  let b : BlockId := ⟨s.program.blocks.length⟩
  edit (modify fun p ↦ { p with blocks := p.blocks ++ [⟨f, []⟩] })
  edit (Editing.editFunction f fun function ↦ { function with blocks := function.blocks ++ [b] })
  return b

def selectBlock (b : BlockId) : Building Unit := do
  let s ← get
  let (f, _) ← Fault.demand .noFunctionOpen s.cursor
  Fault.require .unsuited ((← s.program.block b).function == f)
  setCursor (some (f, some b))

def addInstr (op : Op) (inputs : List Value) (loc : Option SourceLine) : Building InstrId := do
  let s ← get
  let (_, b?) ← Fault.demand .noFunctionOpen s.cursor
  let b ← Fault.demand .noBlockSelected b?
  checkOpen s.program b
  let ins : Instruction := ⟨op, inputs, loc, some b⟩
  Fault.require .unsuited ins.checkOperands.isOk
  edit (Editing.enter b ins fun new instrs ↦ instrs ++ [new])
where
  /-- Nothing comes behind a terminator. -/
  checkOpen (p : Program) (b : BlockId) : Except Fault Unit := do
    match (← p.block b).instrs.getLast? with
    | none => return
    | some last => Fault.require (.blockTerminated b) (!(← p.instr last).op.isTerminator)

def checkBody (p : Program) (f : FunctionId) : Except Fault Unit := do
  let function ← p.function f
  Fault.require (.noBlocks function.name) (!function.blocks.isEmpty)
  function.blocks.forM fun b ↦ do
    Fault.require (.noTerminator b function.name) (← p.terminator b).isSome

/-- Closes the open function, complete or not. -/
def endFunction : Building Unit := do
  let s ← get
  setCursor none
  let (f, _) ← Fault.demand .noFunctionOpen s.cursor
  checkBody s.program f

end Builder

inductive BuildStep
  | addGlobal (name : String)
  | declare (name : String) (kind : FunctionKind) (numArgs : Nat)
  | reserve (name : String) (numArgs : Nat)
  | beginFunction (f : FunctionId)
  | addBlock
  | selectBlock (b : BlockId)
  | addInstr (op : Op) (inputs : List Value) (loc : Option SourceLine)
  | endFunction
  | insertAfter (i : InstrId) (ins : Instruction)
  | detach (i : InstrId)
deriving DecidableEq

inductive BuildAnswer
  | done
  | global (g : GlobalId)
  | function (f : FunctionId)
  | block (b : BlockId)
  | instr (i : InstrId)
deriving DecidableEq

namespace Builder

def call : BuildStep → Building BuildAnswer
  | .addGlobal name => .global <$> addGlobal name
  | .declare name kind numArgs => .function <$> declare name kind numArgs
  | .reserve name numArgs => .function <$> reserve name numArgs
  | .beginFunction f => (fun _ ↦ .done) <$> beginFunction f
  | .addBlock => .block <$> addBlock
  | .selectBlock b => (fun _ ↦ .done) <$> selectBlock b
  | .addInstr op inputs loc => .instr <$> addInstr op inputs loc
  | .endFunction => (fun _ ↦ .done) <$> endFunction
  | .insertAfter i ins => .instr <$> edit (Editing.insertAfter i ins)
  | .detach i => (fun _ ↦ .done) <$> edit (Editing.detach i)

def step (s : Builder) (c : BuildStep) : Attempt EditError BuildAnswer × Builder := (call c).run s

def run (s : Builder) (steps : List BuildStep) : Builder :=
  steps.foldl (fun s b ↦ (s.step b).2) s

end Builder

end Durability
