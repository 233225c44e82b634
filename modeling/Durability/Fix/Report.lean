import Durability.Fix.Order
import Durability.Program.Json

namespace Durability

structure ReportEntry where
  instr : InstrId
  fix : FixKind
  dependent : Option InstrId
  function : Option String
  file : Option String
  line : Option Int64
deriving DecidableEq

namespace ReportEntry

def ofFix (p : Program) (i : InstrId) (fix : Fix) : Except Fault ReportEntry := do
  match ← p.sourceOf i with
  | some (function, loc) =>
    return ⟨i, fix.kind, fix.dependent, some function, some loc.file, some loc.line⟩
  | none => return ⟨i, fix.kind, fix.dependent, ← p.functionNameOf i, none, none⟩

def toJson (e : ReportEntry) : Json :=
  .obj [("instruction", e.instr.toJson), ("fix", .str e.fix.tag),
    ("dependent", .optional InstrId.toJson e.dependent), ("function", .optional .str e.function),
    ("file", .optional .str e.file), ("line", .optional (fun n ↦ .int n.toInt) e.line)]

end ReportEntry

namespace FixMap

def report (m : FixMap) (p : Program) : Except Fault (List ReportEntry) :=
  m.applicationOrder.mapM fun (i, fix) ↦ ReportEntry.ofFix p i fix

end FixMap

def reportJson (entries : List ReportEntry) : Json := .list ReportEntry.toJson entries

end Durability
