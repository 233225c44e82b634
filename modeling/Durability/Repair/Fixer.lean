import Durability.Fix.Apply
import Durability.PointsTo.Solve
import Durability.Redundancy.Dot
import Durability.Repair.Localize

namespace Durability

structure Fixer where
  fixes : FixMap
  /-- Bugs whose handling changed the fixes, in the order of the trace. -/
  fixed : List Nat
  unfixed : List Nat
  /-- The graphs that were asked for, in the order of the analyses. -/
  graphs : List String

instance : EmptyCollection Fixer := ⟨⟨∅, [], [], []⟩⟩

structure RepairTask extends Surroundings where
  pts : PointsTo
  trace : Trace

abbrev Fixing := Stateful Fixer RepairError

namespace RepairTask

def make (settings : Settings) (program : Program) (trace : Trace) : Except Fault RepairTask := do
  let index ← LocationIndex.ofProgram program
  return { program, index, settings, pts := ← program.pointsTo, trace }

def addFix (i : InstrId) (fix : Fix) : Fixing Bool := fun s ↦
  let (r, m) := (FixMap.record i fix).run s.fixes
  (Attempt.ofExcept r, { s with fixes := m })

def addFixes : List (InstrId × Fix) → Fixing Bool
  | [] => return false
  | (i, fix) :: more => do
    let new ← addFix i fix
    let newer ← addFixes more
    return new || newer

variable (task : RepairTask)

def instrsOf (e : Event) : Attempt RepairError (List InstrId) :=
  task.index.instrsFor e.location task.settings task.program e.kind

def fixAt (e : Event) (kind : FixKind) : Fixing Bool := do
  let is ← task.instrsOf e
  addFixes (is.map (·, .plain kind))

def assertPersisted (bug : Nat) : Fixing Bool := do
  let (e, kind) ← task.trace.unpersisted task.settings bug
  task.fixAt e kind

/-- Assertions on order are known, but not mended. -/
def assertOrdered (_bug : Nat) : Fixing Bool := return false

/-- A conditional flush at each of `points`, chained from the first back to `i`, and the conditional
removal of `i` chained to the last. -/
def chain (i : InstrId) (points : List InstrId) : List (InstrId × Fix) :=
  let ends := i :: points
  (points.zip ends).map (fun (j, prev) ↦ (j, Fix.onto .addFlushIf prev))
    ++ [(i, Fix.onto .removeFlushIf (ends.getLastD i))]

/-- Whether the second of two flushes is always redundant, and otherwise from where on. -/
def judge (a : FlowProblem) : Analyzing (Bool × List InstrId) := do
  if ← a.alwaysRedundant then return (true, [])
  else return (false, ← a.redundantPaths)

def analyze (earlier redundant : Event) :
    Attempt RepairError ((Bool × List InstrId) × Option String) := do
  let a ← FlowProblem.between task.toSurroundings task.pts earlier redundant
  let (verdict, x) := (judge a).run (.initial a.graph)
  let verdict ← verdict
  if task.settings.dumpGraphs then return (verdict, some (← a.dot x))
  else return (verdict, none)

/-- Looks into the need for the second of two flushes and records what comes of it. -/
def unflush (earlier redundant : Event) : Fixing Bool := do
  let ((always, points), graph) ← task.analyze earlier redundant
  modify fun s ↦ { s with graphs := s.graphs ++ graph.toList }
  let is ← task.instrsOf redundant
  if always then addFixes (is.map (·, .plain .removeFlush))
  else if points.isEmpty then return false
  else addFixes (is.flatMap (chain · points))

def requiredFlush (bug : Nat) : Fixing Bool := do
  let (earlier, redundant) ← task.trace.redundantPair task.settings bug
  task.unflush earlier redundant

def handle (index : Nat) : Fixing Bool := do
  let e ← Fault.lookup task.trace.events index
  Fault.require (.notABug index) e.isBug
  match e.kind with
  | .assertPersisted => task.assertPersisted index
  | .assertOrdered => assertOrdered index
  | .requiredFlush => task.requiredFlush index
  | _ => return false

def file (bug : Nat) : Fixing Unit := do
  if ← task.handle bug then modify fun s ↦ { s with fixed := s.fixed ++ [bug] }
  else modify fun s ↦ { s with unfixed := s.unfixed ++ [bug] }

def handleAll : Fixing Unit := task.trace.bugs.forM task.file

/-- Improves on the fixes as a whole. Nothing is known to improve. -/
def optimize : Fixing Bool := return false

end RepairTask

structure Outcome where
  fixes : FixMap
  fixed : List Nat
  unfixed : List Nat
  modified : Bool
deriving DecidableEq

def Fixer.outcome (s : Fixer) : Outcome := ⟨s.fixes, s.fixed, s.unfixed, false⟩

def computeRepair (settings : Settings) (p : Program) (t : Trace) :
    Attempt RepairError Outcome × List String :=
  match RepairTask.make settings p t with
  | .error f => (.error (.fault f), [])
  | .ok task =>
    let (r, s) := task.handleAll.run ∅
    (r.map fun _ ↦ s.outcome, s.graphs)

def Outcome.apply (source : Source) (o : Outcome) : Editing RepairError Outcome := do
  return { o with modified := ← o.fixes.apply source }

/-- Repairs a program. With the outcome come the graphs and the program as it then is. -/
def repair (settings : Settings) (p : Program) (t : Trace) :
    (Attempt RepairError Outcome × Program) × List String :=
  match computeRepair settings p t with
  | (.error e, graphs) => ((.error e, p), graphs)
  | (.ok o, graphs) => ((o.apply t.source).run p, graphs)

end Durability
