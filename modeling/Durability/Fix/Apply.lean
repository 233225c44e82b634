import Durability.Fix.Order

namespace Durability

namespace Source

def flushPrimitive : Source → FlushPrimitive
  | pmTest => .pmTestFlush
  | generic => .clwb

def fencePrimitive : Source → FencePrimitive
  | pmTest => .pmTestFence
  | generic => .sfence

end Source

def Instruction.flushAddress (ins : Instruction) (i : InstrId) : Attempt CapabilityError Value :=
  match ins.op with
  | .store | .flush _ =>
    match ins.pointer? with
    | some v => .ok v
    | none => Attempt.refuse (.noAddress i)
  | op => Attempt.refuse (.noFlushAddress op)

namespace Editing

def insertFlush (how : FlushPrimitive) (i : InstrId) : Editing CapabilityError InstrId := do
  let ins ← (← get).instr i
  let address ← ins.flushAddress i
  Stateful.mapCause .edit (insertAfter i ⟨.flush how, [address], ins.loc, none⟩)

def insertFence (how : FencePrimitive) (i : InstrId) : Editing CapabilityError InstrId := do
  let ins ← (← get).instr i
  Stateful.mapCause .edit (insertAfter i ⟨.fence how, [], ins.loc, none⟩)

def removeFlush (i : InstrId) : Editing CapabilityError Unit := do
  match (← (← get).instr i).op with
  | .flush _ => Stateful.mapCause .edit (detach i)
  | op => throw (.refused (.notAFlush op))

end Editing

namespace Program

variable (p : Program)

def insertFlush (how : FlushPrimitive) (i : InstrId) :
    Attempt CapabilityError (InstrId × Program) := (Editing.insertFlush how i).attempt p

def insertFence (how : FencePrimitive) (i : InstrId) :
    Attempt CapabilityError (InstrId × Program) := (Editing.insertFence how i).attempt p

def removeFlush (i : InstrId) : Attempt CapabilityError Program :=
  Prod.snd <$> (Editing.removeFlush i).attempt p

end Program

namespace Fix

/-- The edits of one fix, which blame the fix for what goes wrong. -/
def apply (source : Source) (i : InstrId) (fix : Fix) : Editing RepairError Unit :=
  match fix.kind with
  | .addFlush => discard (flush i)
  | .addFence => fence i
  | .addFlushAndFence => flush i >>= fence
  | .removeFlush => blame (Editing.removeFlush i)
  | .addFlushIf | .removeFlushIf => throw (.refused (.unsupportedFix fix.kind))
where
  blame {α : Type} : Editing CapabilityError α → Editing RepairError α :=
    Stateful.mapCause (.capability fix.kind i)
  flush (j : InstrId) : Editing RepairError InstrId :=
    blame (Editing.insertFlush source.flushPrimitive j)
  fence (j : InstrId) : Editing RepairError Unit :=
    discard (blame (Editing.insertFence source.fencePrimitive j))

end Fix

namespace FixMap

/-- Carries out all fixes, up to the first that fails. Tells whether any has been carried out. -/
def apply (m : FixMap) (source : Source) : Editing RepairError Bool :=
  m.applicationOrder.foldlM (fun _ (i, fix) ↦ do
    fix.apply source i
    return true) false

end FixMap

end Durability
