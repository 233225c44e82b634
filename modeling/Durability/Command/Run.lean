import Durability.Command.Arguments
import Durability.Fix.Report
import Durability.Repair.Fixer
import Durability.Trace.Document

namespace Durability

inductive Effect
  | write (path text : String)
  | print (text : String)
deriving DecidableEq

inductive Ending
  | done
  | refused (cause : RepairError)
  | fault (f : Fault)
  | misuse
deriving DecidableEq

namespace Ending

def exitCode : Ending → Nat
  | done => 0
  | refused _ => 1
  | misuse => 2
  | fault _ => 101

def errorLine? : Ending → Option String
  | refused cause => some s!"error: {cause.message}"
  | _ => none

def ofFailure : Failure RepairError → Ending
  | .refused cause => refused cause
  | .fault f => fault f

end Ending

structure Plan where
  effects : List Effect
  ending : Ending
deriving DecidableEq

namespace Request

variable (r : Request)

def settings : Except Fault Settings := Settings.make r.cacheLineSize r.flags

def graphFiles (graphs : List String) : List Effect :=
  graphs.zipIdx.map fun (text, n) ↦ .write s!"context-graph-{n}.dot" text

def loadError : LoadError → RepairError
  | .unreadable => .unreadableProgram
  | .invalid cause => .invalidProgram cause

def load (program trace : Option String) : Attempt RepairError (Program × Trace) := do
  let some program := program | Attempt.refuse .fileNotFound
  let p ← Attempt.mapCause loadError (Program.parse program)
  let some trace := trace | Attempt.refuse .fileNotFound
  return (p, ← Attempt.ofExcept (Trace.parse trace))

def reportText (m : FixMap) (p : Program) : Except Fault String := do
  return (reportJson (← m.report p)).pretty 0

def deliver (text : String) : Option String → Effect
  | some path => .write path text
  | none => .print text

def reportEffects (o : Outcome) (p : Program) : Except Fault (List Effect) := do
  return [deliver (← reportText o.fixes p) r.report]

def repairEffects (o : Outcome) (p : Program) : Except Fault (List Effect) := do
  let report ← match r.report with
    | some path => do pure [Effect.write path (← reportText o.fixes p)]
    | none => pure []
  return report ++ [deliver p.print r.output]

def work (settings : Settings) (p : Program) (t : Trace) :
    Attempt RepairError (List Effect) × List String :=
  if r.reportOnly then
    let (o, graphs) := computeRepair settings p t
    (do r.reportEffects (← o) p, graphs)
  else
    let ((o, p), graphs) := repair settings p t
    (do r.repairEffects (← o) p, graphs)

def plan (program trace : Option String) : Plan :=
  match r.settings with
  | .error f => ⟨[], .fault f⟩
  | .ok settings =>
    match load program trace with
    | .error e => ⟨[], .ofFailure e⟩
    | .ok (p, t) =>
      let (effects, graphs) := r.work settings p t
      match effects with
      | .error e => ⟨graphFiles graphs, .ofFailure e⟩
      | .ok effects => ⟨graphFiles graphs ++ effects, .done⟩

end Request

end Durability
