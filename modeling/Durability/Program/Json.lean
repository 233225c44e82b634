import Durability.Json.Parser
import Durability.Json.Printer
import Durability.Program.Validate

namespace Durability

def FlushPrimitive.tag : FlushPrimitive → String
  | .clflush => "clflush"
  | .clflushopt => "clflushopt"
  | .clwb => "clwb"
  | .pmTestFlush => "pm_test_flush"

def FlushPrimitive.ofTag? : String → Option FlushPrimitive
  | "clflush" => some .clflush
  | "clflushopt" => some .clflushopt
  | "clwb" => some .clwb
  | "pm_test_flush" => some .pmTestFlush
  | _ => none

def FlushPrimitive.ofJson? (j : Json) : Option FlushPrimitive := j.tag?.bind ofTag?

def FencePrimitive.tag : FencePrimitive → String
  | .sfence => "sfence"
  | .mfence => "mfence"
  | .pmTestFence => "pm_test_fence"

def FencePrimitive.ofTag? : String → Option FencePrimitive
  | "sfence" => some .sfence
  | "mfence" => some .mfence
  | "pm_test_fence" => some .pmTestFence
  | _ => none

def FencePrimitive.ofJson? (j : Json) : Option FencePrimitive := j.tag?.bind ofTag?

def InstrId.toJson (i : InstrId) : Json := .nat i.index

def InstrId.ofJson? (j : Json) : Option InstrId := j.word?.map InstrId.mk

def BlockId.toJson (b : BlockId) : Json := .nat b.index

def BlockId.ofJson? (j : Json) : Option BlockId := j.word?.map BlockId.mk

def FunctionId.toJson (f : FunctionId) : Json := .nat f.index

def FunctionId.ofJson? (j : Json) : Option FunctionId := j.word?.map FunctionId.mk

def GlobalId.toJson (g : GlobalId) : Json := .nat g.index

def GlobalId.ofJson? (j : Json) : Option GlobalId := j.word?.map GlobalId.mk

/-- An operation is a name, or an object whose one member says what it refers to. -/
def Op.toJson : Op → Json
  | .alloca => .str "alloca"
  | .load => .str "load"
  | .store => .str "store"
  | .flush how => .obj [("flush", .str how.tag)]
  | .fence how => .obj [("fence", .str how.tag)]
  | .ptrOffset => .str "ptr_offset"
  | .copy => .str "copy"
  | .phi => .str "phi"
  | .call f => .obj [("call", f.toJson)]
  | .other => .str "other"
  | .ret => .str "return"
  | .branch b => .obj [("branch", b.toJson)]
  | .condBranch b c => .obj [("cond_branch", .arr [b.toJson, c.toJson])]
  | .unreachable => .str "unreachable"

/-- The operation with this name, if it refers to nothing. -/
def Op.ofTag? : String → Option Op
  | "alloca" => some .alloca
  | "load" => some .load
  | "store" => some .store
  | "ptr_offset" => some .ptrOffset
  | "copy" => some .copy
  | "phi" => some .phi
  | "other" => some .other
  | "return" => some .ret
  | "unreachable" => some .unreachable
  | _ => none

/-- The operation whose name is the one member of the object, with what it refers to. -/
def Op.referring? : Json → Option Op
  | .obj [("flush", j)] => (FlushPrimitive.ofJson? j).map .flush
  | .obj [("fence", j)] => (FencePrimitive.ofJson? j).map .fence
  | .obj [("call", j)] => (FunctionId.ofJson? j).map .call
  | .obj [("branch", j)] => (BlockId.ofJson? j).map .branch
  | .obj [("cond_branch", .arr [j, k])] => do
    return .condBranch (← BlockId.ofJson? j) (← BlockId.ofJson? k)
  | _ => none

def Op.ofJson? (j : Json) : Option Op := j.tag?.bind ofTag? <|> referring? j

def Value.toJson : Value → Json
  | .instr i => .obj [("insn", i.toJson)]
  | .arg f n => .obj [("arg", .arr [f.toJson, .nat n])]
  | .global g => .obj [("global", g.toJson)]
  | .const n => .obj [("const", .nat n.toNat)]

def Value.ofJson? : Json → Option Value
  | .obj [("insn", j)] => (InstrId.ofJson? j).map .instr
  | .obj [("arg", .arr [j, k])] => do return .arg (← FunctionId.ofJson? j) (← k.word?)
  | .obj [("global", j)] => (GlobalId.ofJson? j).map .global
  | .obj [("const", j)] => j.uint64?.map .const
  | _ => none

def SourceLine.toJson (loc : SourceLine) : Json :=
  .obj [("file", .str loc.file), ("line", .int loc.line.toInt)]

def SourceLine.ofJson? (j : Json) : Option SourceLine := do
  let ms ← j.members? ["file", "line"]
  return ⟨← Json.required ms "file" Json.str?, ← Json.required ms "line" Json.int64?⟩

def Instruction.toJson (ins : Instruction) : Json :=
  .obj [("op", ins.op.toJson), ("inputs", .list Value.toJson ins.inputs),
    ("loc", .optional SourceLine.toJson ins.loc), ("block", .optional BlockId.toJson ins.block)]

def Instruction.ofJson? (j : Json) : Option Instruction := do
  let ms ← j.members? ["op", "inputs", "loc", "block"]
  return {
    op := ← Json.required ms "op" Op.ofJson?
    inputs := ← Json.orElse ms "inputs" [] (Json.list? Value.ofJson?)
    loc := ← Json.nullable ms "loc" SourceLine.ofJson?
    block := ← Json.nullable ms "block" BlockId.ofJson? }

def FunctionKind.tag : FunctionKind → String
  | .defined => "defined"
  | .declaration => "declaration"
  | .intrinsic => "intrinsic"

def FunctionKind.ofTag? : String → Option FunctionKind
  | "defined" => some .defined
  | "declaration" => some .declaration
  | "intrinsic" => some .intrinsic
  | _ => none

def FunctionKind.ofJson? (j : Json) : Option FunctionKind := j.tag?.bind ofTag?

def Function.toJson (f : Function) : Json :=
  .obj [("name", .str f.name), ("kind", .str f.kind.tag), ("num_args", .nat f.numArgs),
    ("blocks", .list BlockId.toJson f.blocks)]

def Function.ofJson? (j : Json) : Option Function := do
  let ms ← j.members? ["name", "kind", "num_args", "blocks"]
  return {
    name := ← Json.required ms "name" Json.str?
    kind := ← Json.required ms "kind" FunctionKind.ofJson?
    numArgs := ← Json.orElse ms "num_args" 0 Json.word?
    blocks := ← Json.orElse ms "blocks" [] (Json.list? BlockId.ofJson?) }

def Block.toJson (b : Block) : Json :=
  .obj [("function", b.function.toJson), ("insns", .list InstrId.toJson b.instrs)]

def Block.ofJson? (j : Json) : Option Block := do
  let ms ← j.members? ["function", "insns"]
  return {
    function := ← Json.required ms "function" FunctionId.ofJson?
    instrs := ← Json.required ms "insns" (Json.list? InstrId.ofJson?) }

namespace Program

def globalToJson (name : String) : Json := .obj [("name", .str name)]

def globalOfJson? (j : Json) : Option String := do
  Json.required (← j.members? ["name"]) "name" Json.str?

def toJson (p : Program) : Json :=
  .obj [("globals", .list globalToJson p.globals),
    ("functions", .list Function.toJson p.functions),
    ("basic_blocks", .list Block.toJson p.blocks),
    ("instructions", .list Instruction.toJson p.instructions)]

/-- Reading is strict about the fields it knows and blind to all others. -/
def ofJson? (j : Json) : Option Program := do
  let ms ← j.members? ["globals", "functions", "basic_blocks", "instructions"]
  return {
    globals := ← Json.orElse ms "globals" [] (Json.list? globalOfJson?)
    functions := ← Json.required ms "functions" (Json.list? Function.ofJson?)
    blocks := ← Json.required ms "basic_blocks" (Json.list? Block.ofJson?)
    instructions := ← Json.required ms "instructions" (Json.list? Instruction.ofJson?) }

def print (p : Program) : String := p.toJson.pretty 0

end Program

inductive LoadError
  | unreadable
  | invalid (cause : ProgramError)
deriving DecidableEq

namespace Program

def load (j : Json) : Attempt LoadError Program :=
  match ofJson? j with
  | none => Attempt.refuse .unreadable
  | some p => (Attempt.mapCause .invalid p.validate).map fun _ ↦ p

def parse (text : String) : Attempt LoadError Program :=
  match Json.parse? text with
  | none => Attempt.refuse .unreadable
  | some j => load j

end Program

end Durability
