import Durability.Program.Json
import Durability.Proofs.Json.Parser

namespace Durability

namespace Json

section Fields

variable {α : Type} {members : List (String × Json)} {name : String} {j : Json} {a : α}
  {read : Json → Option α}

theorem required_eq_some (h : field? members name = some (some j)) (hr : read j = some a) :
    required members name read = some a := by
  rw [required, h]
  exact hr

theorem orElse_eq_some {default : α} (h : field? members name = some (some j))
    (hr : read j = some a) : orElse members name default read = some a := by
  rw [orElse, h]
  exact hr

theorem nullable_eq_some {json : α → Json} {o : Option α}
    (h : field? members name = some (some (optional json o)))
    (hr : ∀ a ∈ o, json a ≠ null ∧ read (json a) = some a) :
    nullable members name read = some o := by
  refine orElse_eq_some h ?_
  cases o with
  | none => rfl
  | some a =>
    obtain ⟨hn, ha⟩ := hr a rfl
    simp only [optional, ha, Option.map_some]

theorem list?_list {json : α → Json} {l : List α} (h : ∀ a ∈ l, read (json a) = some a) :
    list? read (list json l) = some l := by
  change (l.map json).mapM read = some l
  induction l with
  | nil => rfl
  | cons a l ih =>
    have ha := h a (List.mem_cons_self ..)
    have hl := ih fun b hb ↦ h b (List.mem_cons_of_mem a hb)
    simp only [List.map_cons, List.mapM_cons, ha, hl, Option.bind_eq_bind, Option.bind_some, Option.pure_def]

end Fields

theorem word?_nat {n : Nat} (h : n < UInt64.size) : (nat n).word? = some n := if_pos h

theorem uint64?_toNat (n : UInt64) : (nat n.toNat).uint64? = some n := by
  rw [uint64?, word?_nat n.toNat_lt, Option.map_some, UInt64.ofNat_toNat]

theorem int64?_toInt (n : Int64) : (int n.toInt).int64? = some n := by
  rw [int64?, if_pos ⟨n.minValue_le_toInt, n.toInt_le⟩, Int64.ofInt_toInt]

end Json

def Op.numbers : Op → List Nat
  | .call f => [f.index]
  | .branch b => [b.index]
  | .condBranch b c => [b.index, c.index]
  | _ => []

def Value.numbers : Value → List Nat
  | .instr i => [i.index]
  | .arg f n => [f.index, n]
  | .global g => [g.index]
  | .const _ => []

def Instruction.numbers (ins : Instruction) : List Nat :=
  ins.op.numbers ++ ins.inputs.flatMap Value.numbers ++ ins.block.toList.map BlockId.index

def Function.numbers (f : Function) : List Nat := f.numArgs :: f.blocks.map BlockId.index

def Block.numbers (b : Block) : List Nat := b.function.index :: b.instrs.map InstrId.index

/-- Every id, every position of an argument and every number of arguments; lines and constants have
types of their own. -/
def Program.numbers (p : Program) : List Nat :=
  p.functions.flatMap Function.numbers ++ p.blocks.flatMap Block.numbers
    ++ p.instructions.flatMap Instruction.numbers

abbrev AreWords (ns : List Nat) : Prop := ∀ n ∈ ns, n < UInt64.size

theorem AreWords.of_flatMap {α : Type} {numbers : α → List Nat} {l : List α} {a : α}
    (h : AreWords (l.flatMap numbers)) (ha : a ∈ l) : AreWords (numbers a) :=
  fun n hn ↦ h n (List.mem_flatMap.mpr ⟨a, ha, hn⟩)

theorem AreWords.of_map {α : Type} {number : α → Nat} {l : List α} {a : α}
    (h : AreWords (l.map number)) (ha : a ∈ l) : number a < UInt64.size :=
  h _ (List.mem_map_of_mem ha)

theorem areWords_append {ns ms : List Nat} : AreWords (ns ++ ms) ↔ AreWords ns ∧ AreWords ms :=
  List.forall_mem_append

theorem areWords_cons {n : Nat} {ns : List Nat} :
    AreWords (n :: ns) ↔ n < UInt64.size ∧ AreWords ns := List.forall_mem_cons

/-- Every number in the program is a word of 64 bits. -/
def Program.InWords (p : Program) : Prop := AreWords p.numbers

instance (p : Program) : Decidable p.InWords := inferInstanceAs (Decidable (AreWords p.numbers))

theorem InstrId.ofJson?_toJson {i : InstrId} (h : i.index < UInt64.size) :
    InstrId.ofJson? i.toJson = some i := by
  rw [ofJson?, toJson, Json.word?_nat h, Option.map_some]

theorem BlockId.ofJson?_toJson {b : BlockId} (h : b.index < UInt64.size) :
    BlockId.ofJson? b.toJson = some b := by
  rw [ofJson?, toJson, Json.word?_nat h, Option.map_some]

theorem FunctionId.ofJson?_toJson {f : FunctionId} (h : f.index < UInt64.size) :
    FunctionId.ofJson? f.toJson = some f := by
  rw [ofJson?, toJson, Json.word?_nat h, Option.map_some]

theorem GlobalId.ofJson?_toJson {g : GlobalId} (h : g.index < UInt64.size) :
    GlobalId.ofJson? g.toJson = some g := by
  rw [ofJson?, toJson, Json.word?_nat h, Option.map_some]

theorem Op.ofJson?_eq_some {j : Json} {op : Op} (htag : j.tag? = none) (h : referring? j = some op) :
    ofJson? j = some op := by
  rw [ofJson?, htag, Option.bind_none]
  exact h

theorem Op.ofJson?_toJson {op : Op} (h : AreWords op.numbers) : Op.ofJson? op.toJson = some op := by
  cases op with
  | flush how => cases how <;> rfl
  | fence how => cases how <;> rfl
  | call f =>
    refine ofJson?_eq_some rfl ?_
    have hf := FunctionId.ofJson?_toJson (areWords_cons.mp h).1
    simp only [toJson, referring?, hf, Option.map_some]
  | branch b =>
    refine ofJson?_eq_some rfl ?_
    have hb := BlockId.ofJson?_toJson (areWords_cons.mp h).1
    simp only [toJson, referring?, hb, Option.map_some]
  | condBranch b c =>
    refine ofJson?_eq_some rfl ?_
    obtain ⟨hb, hc⟩ := areWords_cons.mp h
    have hb := BlockId.ofJson?_toJson hb
    have hc := BlockId.ofJson?_toJson (areWords_cons.mp hc).1
    simp only [toJson, referring?, hb, hc]
    rfl
  | _ => rfl

theorem Value.ofJson?_toJson {v : Value} (h : AreWords v.numbers) : ofJson? v.toJson = some v := by
  cases v with
  | instr i =>
    have hi := InstrId.ofJson?_toJson (areWords_cons.mp h).1
    simp only [toJson, ofJson?, hi, Option.map_some]
  | arg f n =>
    obtain ⟨hf, hn⟩ := areWords_cons.mp h
    have hf := FunctionId.ofJson?_toJson hf
    have hn := Json.word?_nat (areWords_cons.mp hn).1
    simp only [toJson, ofJson?, hf, hn]
    rfl
  | global g =>
    have hg := GlobalId.ofJson?_toJson (areWords_cons.mp h).1
    simp only [toJson, ofJson?, hg, Option.map_some]
  | const n => simp only [toJson, ofJson?, Json.uint64?_toNat, Option.map_some]

theorem SourceLine.ofJson?_toJson (loc : SourceLine) : SourceLine.ofJson? loc.toJson = some loc := by
  have read {ms : List (String × Json)} (hfile : Json.required ms "file" Json.str? = some loc.file)
      (hline : Json.required ms "line" Json.int64? = some loc.line) : ofJson? (.obj ms) = some loc := by
    simp only [ofJson?, Json.members?, hfile, hline, Option.bind_eq_bind, Option.bind_some, Option.pure_def]
  exact read (Json.required_eq_some rfl rfl) (Json.required_eq_some rfl (Json.int64?_toInt loc.line))

theorem Instruction.ofJson?_toJson {ins : Instruction} (h : AreWords ins.numbers) :
    Instruction.ofJson? ins.toJson = some ins := by
  obtain ⟨h, hblock⟩ := areWords_append.mp h
  obtain ⟨hop, hinputs⟩ := areWords_append.mp h
  have read {ms : List (String × Json)} (hop : Json.required ms "op" Op.ofJson? = some ins.op)
      (hinputs : Json.orElse ms "inputs" [] (Json.list? Value.ofJson?) = some ins.inputs)
      (hloc : Json.nullable ms "loc" SourceLine.ofJson? = some ins.loc)
      (hblock : Json.nullable ms "block" BlockId.ofJson? = some ins.block) :
      ofJson? (.obj ms) = some ins := by
    simp only [ofJson?, Json.members?, hop, hinputs, hloc, hblock, Option.bind_eq_bind, Option.bind_some,
      Option.pure_def]
  refine read (Json.required_eq_some rfl (Op.ofJson?_toJson hop)) (Json.orElse_eq_some rfl ?_)
    (Json.nullable_eq_some rfl ?_) (Json.nullable_eq_some rfl ?_)
  · exact Json.list?_list fun v hv ↦ Value.ofJson?_toJson (hinputs.of_flatMap hv)
  · exact fun loc _ ↦ ⟨nofun, loc.ofJson?_toJson⟩
  · exact fun b hb ↦ ⟨nofun, BlockId.ofJson?_toJson (hblock.of_map (Option.mem_toList.mpr hb))⟩

theorem FunctionKind.ofJson?_tag (kind : FunctionKind) : ofJson? (.str kind.tag) = some kind := by
  cases kind <;> rfl

theorem Function.ofJson?_toJson {f : Function} (h : AreWords f.numbers) :
    Function.ofJson? f.toJson = some f := by
  obtain ⟨hargs, hblocks⟩ := areWords_cons.mp h
  have read {ms : List (String × Json)} (hname : Json.required ms "name" Json.str? = some f.name)
      (hkind : Json.required ms "kind" FunctionKind.ofJson? = some f.kind)
      (hargs : Json.orElse ms "num_args" 0 Json.word? = some f.numArgs)
      (hblocks : Json.orElse ms "blocks" [] (Json.list? BlockId.ofJson?) = some f.blocks) :
      ofJson? (.obj ms) = some f := by
    simp only [ofJson?, Json.members?, hname, hkind, hargs, hblocks, Option.bind_eq_bind, Option.bind_some,
      Option.pure_def]
  refine read (Json.required_eq_some rfl rfl) (Json.required_eq_some rfl f.kind.ofJson?_tag)
    (Json.orElse_eq_some rfl (Json.word?_nat hargs)) (Json.orElse_eq_some rfl ?_)
  exact Json.list?_list fun b hb ↦ BlockId.ofJson?_toJson (hblocks.of_map hb)

theorem Block.ofJson?_toJson {b : Block} (h : AreWords b.numbers) :
    Block.ofJson? b.toJson = some b := by
  obtain ⟨hfunction, hinstrs⟩ := areWords_cons.mp h
  have read {ms : List (String × Json)}
      (hfunction : Json.required ms "function" FunctionId.ofJson? = some b.function)
      (hinstrs : Json.required ms "insns" (Json.list? InstrId.ofJson?) = some b.instrs) :
      ofJson? (.obj ms) = some b := by
    simp only [ofJson?, Json.members?, hfunction, hinstrs, Option.bind_eq_bind, Option.bind_some,
      Option.pure_def]
  refine read (Json.required_eq_some rfl (FunctionId.ofJson?_toJson hfunction))
    (Json.required_eq_some rfl ?_)
  exact Json.list?_list fun i hi ↦ InstrId.ofJson?_toJson (hinstrs.of_map hi)

theorem Program.globalOfJson?_globalToJson (name : String) :
    globalOfJson? (globalToJson name) = some name := by
  have h : Json.required [("name", .str name)] "name" Json.str? = some name :=
    Json.required_eq_some rfl rfl
  exact h

theorem Program.ofJson?_toJson {p : Program} (h : p.InWords) : ofJson? p.toJson = some p := by
  obtain ⟨h, hinstrs⟩ := areWords_append.mp h
  obtain ⟨hfunctions, hblocks⟩ := areWords_append.mp h
  have read {ms : List (String × Json)}
      (hglobals : Json.orElse ms "globals" [] (Json.list? globalOfJson?) = some p.globals)
      (hfunctions : Json.required ms "functions" (Json.list? Function.ofJson?) = some p.functions)
      (hblocks : Json.required ms "basic_blocks" (Json.list? Block.ofJson?) = some p.blocks)
      (hinstrs : Json.required ms "instructions" (Json.list? Instruction.ofJson?) = some p.instructions) :
      ofJson? (.obj ms) = some p := by
    simp only [ofJson?, Json.members?, hglobals, hfunctions, hblocks, hinstrs, Option.bind_eq_bind,
      Option.bind_some, Option.pure_def]
  refine read (Json.orElse_eq_some rfl ?_) (Json.required_eq_some rfl ?_)
    (Json.required_eq_some rfl ?_) (Json.required_eq_some rfl ?_)
  · exact Json.list?_list fun name _ ↦ globalOfJson?_globalToJson name
  · exact Json.list?_list fun f hf ↦ Function.ofJson?_toJson (hfunctions.of_flatMap hf)
  · exact Json.list?_list fun b hb ↦ Block.ofJson?_toJson (hblocks.of_flatMap hb)
  · exact Json.list?_list fun ins hi ↦ Instruction.ofJson?_toJson (hinstrs.of_flatMap hi)

namespace Json

attribute [simp] Whole.null Whole.bool Whole.int Whole.str

@[simp] theorem whole_nat (n : Nat) : Whole (nat n) := .int n

@[simp] theorem whole_arr_iff {items : List Json} : Whole (arr items) ↔ ∀ j ∈ items, Whole j :=
  ⟨fun h ↦ by cases h with | arr h => exact h, .arr⟩

@[simp] theorem whole_obj_iff {members : List (String × Json)} :
    Whole (obj members) ↔ ∀ m ∈ members, Whole m.2 :=
  ⟨fun h ↦ by cases h with | obj h => exact h, .obj⟩

theorem whole_list {α : Type} {json : α → Json} (h : ∀ a, Whole (json a)) (l : List α) :
    Whole (list json l) := by
  refine .arr fun j hj ↦ ?_
  obtain ⟨a, _, rfl⟩ := List.mem_map.mp hj
  exact h a

theorem whole_optional {α : Type} {json : α → Json} (h : ∀ a, Whole (json a)) (o : Option α) :
    Whole (optional json o) := by
  cases o with
  | none => exact .null
  | some a => exact h a

end Json

theorem InstrId.whole_toJson (i : InstrId) : i.toJson.Whole := .int i.index

theorem BlockId.whole_toJson (b : BlockId) : b.toJson.Whole := .int b.index

theorem FunctionId.whole_toJson (f : FunctionId) : f.toJson.Whole := .int f.index

theorem GlobalId.whole_toJson (g : GlobalId) : g.toJson.Whole := .int g.index

theorem Op.whole_toJson (op : Op) : op.toJson.Whole := by
  cases op <;> simp [toJson, FunctionId.whole_toJson, BlockId.whole_toJson]

theorem Value.whole_toJson (v : Value) : v.toJson.Whole := by
  cases v <;> simp [toJson, InstrId.whole_toJson, FunctionId.whole_toJson, GlobalId.whole_toJson]

theorem SourceLine.whole_toJson (loc : SourceLine) : loc.toJson.Whole := by
  simp [toJson]

theorem Instruction.whole_toJson (ins : Instruction) : ins.toJson.Whole := by
  have hinputs := Json.whole_list Value.whole_toJson ins.inputs
  have hloc := Json.whole_optional SourceLine.whole_toJson ins.loc
  have hblock := Json.whole_optional BlockId.whole_toJson ins.block
  simp [toJson, ins.op.whole_toJson, hinputs, hloc, hblock]

theorem Function.whole_toJson (f : Function) : f.toJson.Whole := by
  have hblocks := Json.whole_list BlockId.whole_toJson f.blocks
  simp [toJson, hblocks]

theorem Block.whole_toJson (b : Block) : b.toJson.Whole := by
  have hinstrs := Json.whole_list InstrId.whole_toJson b.instrs
  simp [toJson, b.function.whole_toJson, hinstrs]

namespace Program

theorem whole_globalToJson (name : String) : (globalToJson name).Whole := by
  simp [globalToJson]

theorem whole_toJson (p : Program) : p.toJson.Whole := by
  have hglobals := Json.whole_list whole_globalToJson p.globals
  have hfunctions := Json.whole_list Function.whole_toJson p.functions
  have hblocks := Json.whole_list Block.whole_toJson p.blocks
  have hinstrs := Json.whole_list Instruction.whole_toJson p.instructions
  simp [toJson, hglobals, hfunctions, hblocks, hinstrs]

variable {p : Program}

theorem parse_print_eq (h : p.InWords) :
    parse p.print = (Attempt.mapCause .invalid p.validate).map fun _ ↦ p := by
  rw [parse, print, Json.parse?_pretty p.whole_toJson]
  simp only [load, ofJson?_toJson h]

/-- A valid program loads from its own text, and nothing about it has changed. -/
theorem parse_print (h : p.InWords) (hv : p.validate = .ok ()) : parse p.print = .ok p := by
  rw [parse_print_eq h, hv]
  rfl

/-- Most operations and all kinds of operands, names that need escapes, lines and constants at the
ends of their ranges, and two instructions that no block holds. -/
def spelled : Program where
  globals := ["\"pool\"", "back\\slash", "tab\tbell\x07\x0c\x08\r\n\x00\x7f", "größe→𝕡"]
  functions := [⟨"main \"1\"", .defined, 2, [⟨0⟩, ⟨1⟩, ⟨2⟩]⟩, ⟨"ext", .declaration, 0, []⟩,
    ⟨"llvm.dbg", .intrinsic, 1, []⟩]
  blocks := [⟨⟨0⟩, [⟨0⟩, ⟨1⟩, ⟨2⟩, ⟨3⟩, ⟨4⟩, ⟨5⟩, ⟨6⟩, ⟨7⟩, ⟨8⟩]⟩, ⟨⟨0⟩, [⟨9⟩, ⟨10⟩]⟩, ⟨⟨0⟩, [⟨11⟩]⟩]
  instructions :=
    [⟨.alloca, [], some ⟨"/src/\\a\".c", Int64.minValue⟩, some ⟨0⟩⟩,
      ⟨.load, [.instr ⟨0⟩], some ⟨"", Int64.maxValue⟩, some ⟨0⟩⟩,
      ⟨.store, [.global ⟨3⟩, .const 0xFFFFFFFFFFFFFFFF], some ⟨"b.c", 0⟩, some ⟨0⟩⟩,
      ⟨.flush .pmTestFlush, [.arg ⟨0⟩ 1], none, some ⟨0⟩⟩,
      ⟨.fence .mfence, [], none, some ⟨0⟩⟩,
      ⟨.ptrOffset, [.instr ⟨0⟩], none, some ⟨0⟩⟩,
      ⟨.call ⟨1⟩, [.const 0, .global ⟨0⟩], none, some ⟨0⟩⟩,
      ⟨.phi, [.const 1, .instr ⟨11⟩], none, some ⟨0⟩⟩,
      ⟨.condBranch ⟨1⟩ ⟨2⟩, [.arg ⟨0⟩ 0], none, some ⟨0⟩⟩,
      ⟨.copy, [.const 7], none, some ⟨1⟩⟩,
      ⟨.branch ⟨2⟩, [], none, some ⟨1⟩⟩,
      ⟨.ret, [.const 7], none, some ⟨2⟩⟩,
      ⟨.other, [.const 3], none, none⟩,
      ⟨.flush .clflush, [], none, none⟩]

theorem parse_print_spelled :
    spelled.InWords ∧ spelled.validate = .ok () ∧ parse spelled.print = .ok spelled :=
  have hw : spelled.InWords := by decide +kernel
  have hv : spelled.validate = .ok () := by decide +kernel
  ⟨hw, hv, parse_print hw hv⟩

end Program

end Durability
