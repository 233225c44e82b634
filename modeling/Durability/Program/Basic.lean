import Durability.Text

namespace Durability

structure InstrId where
  index : Nat
deriving DecidableEq

structure BlockId where
  index : Nat
deriving DecidableEq

structure FunctionId where
  index : Nat
deriving DecidableEq

structure GlobalId where
  index : Nat
deriving DecidableEq

instance : ToString InstrId := ⟨fun i ↦ "i" ++ toString i.index⟩

instance : ToString BlockId := ⟨fun b ↦ "bb" ++ toString b.index⟩

instance : ToString FunctionId := ⟨fun f ↦ "fn" ++ toString f.index⟩

instance : ToString GlobalId := ⟨fun g ↦ "g" ++ toString g.index⟩

instance : Ord InstrId := ⟨compareOn InstrId.index⟩

instance : Std.TransOrd InstrId := inferInstanceAs (Std.TransCmp (compareOn InstrId.index))

instance : Std.LawfulEqOrd InstrId where
  compare_self {i} := show compare i.index i.index = .eq from Std.ReflCmp.compare_self
  eq_of_compare {i j} h := by
    have h : compare i.index j.index = .eq := h
    cases i; cases j
    exact congrArg InstrId.mk (Std.LawfulEqCmp.eq_of_compare h)

inductive FlushPrimitive
  | clflush
  | clflushopt
  | clwb
  | pmTestFlush
deriving DecidableEq

inductive FencePrimitive
  | sfence
  | mfence
  | pmTestFence
deriving DecidableEq

inductive Op
  | alloca
  | load
  /-- Writes the second operand to the address in the first. -/
  | store
  /-- Writes back the cache line that holds the address in the first operand. -/
  | flush (how : FlushPrimitive)
  | fence (how : FencePrimitive)
  | ptrOffset
  | copy
  | phi
  | call (callee : FunctionId)
  | other
  | ret
  | branch (target : BlockId)
  | condBranch (nonzero zero : BlockId)
  | unreachable
deriving DecidableEq

def Op.isTerminator : Op → Bool
  | .ret | .branch _ | .condBranch _ _ | .unreachable => true
  | _ => false

/-- The blocks that control may go to from a terminator, each once. -/
def Op.targets : Op → List BlockId
  | .branch b => [b]
  | .condBranch b c => if b = c then [b] else [b, c]
  | _ => []

inductive Value
  | instr (i : InstrId)
  | arg (f : FunctionId) (n : Nat)
  | global (g : GlobalId)
  | const (n : UInt64)
deriving DecidableEq

namespace Value

def rank : Value → Nat
  | instr _ => 0
  | arg _ _ => 1
  | global _ => 2
  | const _ => 3

def index : Value → Nat
  | instr i => i.index
  | arg f _ => f.index
  | global g => g.index
  | const n => n.toNat

def place : Value → Nat
  | arg _ n => n
  | _ => 0

/-- Results come first, then arguments, function by function, then globals and constants. -/
instance : Ord Value := ⟨compareLex (compareOn rank) (compareLex (compareOn index) (compareOn place))⟩

instance : Std.TransOrd Value := inferInstanceAs
  (Std.TransCmp (compareLex (compareOn rank) (compareLex (compareOn index) (compareOn place))))

instance : Std.LawfulEqOrd Value where
  compare_self {v} := by
    change compareLex (compareOn rank) (compareLex (compareOn index) (compareOn place)) v v = .eq
    simp [compareLex_eq_eq, compareOn]
  eq_of_compare {v w} h := by
    have h : compareLex (compareOn rank) (compareLex (compareOn index) (compareOn place)) v w = .eq := h
    simp only [compareLex_eq_eq, compareOn, Nat.compare_eq_eq] at h
    rcases v with ⟨⟨a⟩⟩ | ⟨⟨a⟩, m⟩ | ⟨⟨a⟩⟩ | n <;> rcases w with ⟨⟨b⟩⟩ | ⟨⟨b⟩, k⟩ | ⟨⟨b⟩⟩ | l <;>
      simp_all [rank, index, place, UInt64.toNat_inj]

end Value

structure SourceLine where
  file : String
  line : Int64
deriving DecidableEq

structure Instruction where
  op : Op
  inputs : List Value
  loc : Option SourceLine
  /-- The block that holds the instruction, none once it is detached. -/
  block : Option BlockId
deriving DecidableEq

inductive FunctionKind
  | defined
  | declaration
  | intrinsic
deriving DecidableEq

structure Function where
  name : String
  kind : FunctionKind
  numArgs : Nat
  /-- The first block is the entry. -/
  blocks : List BlockId
deriving DecidableEq

structure Block where
  function : FunctionId
  instrs : List InstrId
deriving DecidableEq

/-- Globals, functions, blocks and instructions are named by their positions, which stay fixed while
instructions are put in and taken out. -/
structure Program where
  globals : List String
  functions : List Function
  blocks : List Block
  instructions : List Instruction
deriving DecidableEq

instance : EmptyCollection Program := ⟨⟨[], [], [], []⟩⟩

instance : Inhabited Program := ⟨∅⟩

def Instruction.pointer? (ins : Instruction) : Option Value :=
  match ins.op with
  | .load | .store | .flush _ => ins.inputs.head?
  | _ => none

end Durability
