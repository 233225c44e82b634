import Durability.Program.Validate

namespace Durability

inductive EditError
  | notInABlock (i : InstrId)
  | insertAfterTerminator (i : InstrId)
  | detachTerminator (i : InstrId)
  | operands (cause : OperandError)
deriving DecidableEq

def EditError.message : EditError → String
  | .notInABlock i => s!"{i} is not part of any block"
  | .insertAfterTerminator i => s!"Cannot insert after terminator {i}"
  | .detachTerminator i => s!"Cannot detach terminator {i}"
  | .operands cause => cause.message

def Instruction.accept (ins : Instruction) : Attempt EditError Unit :=
  Attempt.ofExcept (ins.checkOperands.mapError .operands)

namespace Program

variable (p : Program)

def setInstrs (b : BlockId) (instrs : List InstrId) : Program :=
  { p with blocks := p.blocks.modify b.index ({ · with instrs := instrs }) }

def allocate (ins : Instruction) : InstrId × Program :=
  (⟨p.instructions.length⟩, { p with instructions := p.instructions ++ [ins] })

/-- The block that holds `i`. An edit at a terminator is refused. -/
def editableBlock (i : InstrId) (terminator : EditError) : Attempt EditError BlockId := do
  match ← p.blockOf i with
  | none => Attempt.refuse (.notInABlock i)
  | some b =>
    Attempt.refuseIf (← p.instr i).op.isTerminator terminator
    return b

end Program

/-- Work on a program. What has been done before it fails stays done. -/
abbrev Editing := Stateful Program

namespace Editing

variable {ε : Type}

def editBlock (b : BlockId) (f : List InstrId → List InstrId) : Editing ε Unit := do
  let block ← (← get).block b
  modify (·.setInstrs b (f block.instrs))

def editInstr (i : InstrId) (f : Instruction → Instruction) : Editing ε Unit := do
  let _ ← (← get).instr i
  modify fun p ↦ { p with instructions := p.instructions.modify i.index f }

/-- Puts `ins` in `b`, at the place in its list that `put` chooses for the new id. -/
def enter (b : BlockId) (ins : Instruction) (put : InstrId → List InstrId → List InstrId) :
    Editing ε InstrId := do
  let new ← modifyGet (·.allocate { ins with block := some b })
  editBlock b (put new)
  return new

def editFunction (f : FunctionId) (g : Function → Function) : Editing ε Unit := do
  let _ ← (← get).function f
  modify fun p ↦ { p with functions := p.functions.modify f.index g }

def insertAfter (i : InstrId) (ins : Instruction) : Editing EditError InstrId := do
  let b ← (← get).editableBlock i (.insertAfterTerminator i)
  let _ ← ins.accept
  let (k, _) ← Fault.demand .unsuited (← (← get).position? i)
  enter b ins fun new instrs ↦ instrs.insertIdx (k + 1) new

/-- Takes `i` out of its block. Its id stays taken. -/
def detach (i : InstrId) : Editing EditError Unit := do
  let b ← (← get).editableBlock i (.detachTerminator i)
  let (k, _) ← Fault.demand .unsuited (← (← get).position? i)
  editBlock b (·.eraseIdx k)
  editInstr i ({ · with block := none })

end Editing

namespace Program

variable (p : Program)

def insertAfter (i : InstrId) (ins : Instruction) : Attempt EditError (InstrId × Program) :=
  (Editing.insertAfter i ins).attempt p

def detach (i : InstrId) : Attempt EditError Program := Prod.snd <$> (Editing.detach i).attempt p

end Program

end Durability
