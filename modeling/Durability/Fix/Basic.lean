import Durability.Program.Basic

namespace Durability

inductive FixKind
  | addFlush
  | addFence
  | addFlushAndFence
  | removeFlush
  /-- Flush here, on those paths only where a later flush is deleted. -/
  | addFlushIf
  /-- Delete the flush, once the flushes that stand in for it are in place. -/
  | removeFlushIf
deriving DecidableEq

namespace FixKind

def isConditional : FixKind → Bool
  | addFlushIf | removeFlushIf => true
  | _ => false

def name : FixKind → String
  | addFlush => "AddFlushOnly"
  | addFence => "AddFenceOnly"
  | addFlushAndFence => "AddFlushAndFence"
  | removeFlush => "RemoveFlushOnly"
  | addFlushIf => "AddFlushCondition"
  | removeFlushIf => "RemoveFlushConditional"

def tag : FixKind → String
  | addFlush => "ADD_FLUSH_ONLY"
  | addFence => "ADD_FENCE_ONLY"
  | addFlushAndFence => "ADD_FLUSH_AND_FENCE"
  | removeFlush => "REMOVE_FLUSH_ONLY"
  | addFlushIf => "ADD_FLUSH_CONDITION"
  | removeFlushIf => "REMOVE_FLUSH_CONDITIONAL"

def all : List FixKind :=
  [addFlush, addFence, addFlushAndFence, removeFlush, addFlushIf, removeFlushIf]

def ofTag? (tag : String) : Option FixKind := all.find? (·.tag == tag)

end FixKind

/-- A fix, with the instruction whose fix it is chained to if it is conditional. -/
structure Fix where
  kind : FixKind
  dependent : Option InstrId
deriving DecidableEq

namespace Fix

def plain (kind : FixKind) : Fix := ⟨kind, none⟩

def onto (kind : FixKind) (i : InstrId) : Fix := ⟨kind, some i⟩

def render (fix : Fix) : String :=
  Text.record "FixDesc" [s!"fix_type: {fix.kind.name}",
    s!"dependent: {Text.optional toString fix.dependent}"]

end Fix

end Durability
