import Durability.Program.Names
import Durability.Program.Query

namespace Durability.Program

variable (p : Program)

def summary : String :=
  Text.record "Program"
    [s!"functions: {p.functions.length}", s!"basic_blocks: {p.blocks.length}",
      s!"instructions: {p.instructions.length}", ".."]

def listBlock (located : Bool) (b : BlockId) : Except Fault String := do
  let lines ← (← p.block b).instrs.mapM fun i ↦ do
    return s!"    {i} = " ++ (← p.instr i).render located ++ "\n"
  return s!"  {b}:\n" ++ String.join lines

def listFunction (located : Bool) (f : FunctionId) (function : Function) : Except Fault String :=
  match function.kind with
  | .defined => do
    return s!"{f} {function.name}:\n" ++ String.join (← function.blocks.mapM (p.listBlock located))
  | kind => return s!"{f} {function.name} ({kind.name})\n"

/-- All functions, the defined ones with their code; with source lines if `located`. -/
def listing (located : Bool) : Except Fault String := do
  let parts ← p.functions.zipIdx.mapM fun (function, k) ↦ p.listFunction located ⟨k⟩ function
  return String.join parts

end Durability.Program
