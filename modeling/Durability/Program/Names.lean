import Durability.Program.Basic

namespace Durability

def FlushPrimitive.name : FlushPrimitive → String
  | .clflush => "Clflush"
  | .clflushopt => "Clflushopt"
  | .clwb => "Clwb"
  | .pmTestFlush => "PmTestFlush"

def FencePrimitive.name : FencePrimitive → String
  | .sfence => "Sfence"
  | .mfence => "Mfence"
  | .pmTestFence => "PmTestFence"

def FunctionKind.name : FunctionKind → String
  | .defined => "Defined"
  | .declaration => "Declaration"
  | .intrinsic => "Intrinsic"

def Op.render : Op → String
  | .alloca => "Alloca"
  | .load => "Load"
  | .store => "Store"
  | .flush how => s!"Flush({how.name})"
  | .fence how => s!"Fence({how.name})"
  | .ptrOffset => "PtrOffset"
  | .copy => "Copy"
  | .phi => "Phi"
  | .call f => s!"Call({f})"
  | .other => "Other"
  | .ret => "Return"
  | .branch b => s!"Branch({b})"
  | .condBranch b c => s!"CondBranch({b}, {c})"
  | .unreachable => "Unreachable"

def Value.render : Value → String
  | .instr i => s!"Insn({i})"
  | .arg f n => s!"Arg({f}, {n})"
  | .global g => s!"Global({g})"
  | .const n => s!"Const({n.toNat})"

def Value.renderList (vs : List Value) : String := Text.brackets (vs.map Value.render)

def Instruction.render (ins : Instruction) (located : Bool) : String :=
  let bare := s!"{ins.op.render} {Value.renderList ins.inputs}"
  match located, ins.loc with
  | true, some loc => s!"{bare} !{loc.file}:{loc.line.toInt}"
  | _, _ => bare

end Durability
