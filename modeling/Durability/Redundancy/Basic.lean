import Durability.Collection.InsertionOrder
import Durability.PointsTo.Constraint
import Durability.Rounds
import Durability.Traversal
import Durability.WindowGraph

namespace Durability

structure Marks where
  spoils : Option Bool
  /-- No spoiling node is passed on the way from the root. -/
  inParents : Bool
  /-- No spoiling node follows. -/
  inChildren : Bool
deriving DecidableEq

namespace Marks

def none : Marks := ⟨.none, false, false⟩

def both (x : Marks) : Bool := x.inParents && x.inChildren

end Marks

structure Findings where
  marks : List Marks
  always : Option Bool
  /-- The nodes that the last search for redundant paths named. -/
  boundaries : List Nat

namespace Findings

def initial (g : WindowGraph) : Findings := ⟨g.nodes.map fun _ ↦ .none, none, []⟩

variable (x : Findings)

def mark (n : Nat) : Marks := x.marks[n]?.getD .none

def spoils (n : Nat) : Bool := (x.mark n).spoils == some true

def setSpoils (n : Nat) (b : Bool) : Findings :=
  { x with marks := x.marks.modify n ({ · with spoils := some b }) }

end Findings

namespace WindowGraph

variable (g : WindowGraph)

def children (n : Nat) : List Nat := (g.nodes[n]?.map (·.children.toList)).getD []

def parents (n : Nat) : List Nat := (g.nodes[n]?.map (·.parents.toList)).getD []

def nodeIds : List Nat := List.range g.nodes.length

def order : List Nat := Traversal.order g.children g.nodeIds [root]

/-- The instructions of a node between the two events: after the first one in the root, before the
second one where that is. A window where the second comes first is left and entered again, so all
that follows the first one counts. -/
def effectiveWindow (p : Program) (n : Nat) : Except Fault (List InstrId) := do
  let instrs ← (← g.node n).window.instrs p
  let after := if isRoot n then ((instrs.idxOf? g.start.anchor).map (· + 1)).getD 0 else 0
  let before :=
    if g.isStop n then (instrs.idxOf? g.stop.anchor).getD instrs.length else instrs.length
  return if after ≤ before then (instrs.take before).drop after else instrs.drop after

/-- The addresses of stores that wait for a flush, after one more instruction. -/
def pendingAfter (p : Program) (pts : PointsTo) (pm : PmFacts) (pending : List Value)
    (i : InstrId) : Except Fault (List Value) := do
  let ins ← p.instr i
  match ins.op with
  | .store =>
    let v ← Program.operand ins 0
    return if pm.reaches pts v then pending ++ [v] else pending
  | .flush _ =>
    let w ← Program.operand ins 0
    return pending.filter (!pts.mayAlias · w)
  | _ => return pending

def leavesUnflushed (p : Program) (pts : PointsTo) (n : Nat) : Except Fault Bool := do
  let pm := (← g.contexts.get (← g.node n).window.context).pm
  let pending ← (← g.effectiveWindow p n).foldlM (pendingAfter p pts pm) []
  return !pending.isEmpty

end WindowGraph

structure FlowProblem where
  program : Program
  pts : PointsTo
  graph : WindowGraph

abbrev Analyzing := Stateful Findings RepairError

namespace FlowProblem

def between (env : Surroundings) (pts : PointsTo) (first last : Event) :
    Attempt RepairError FlowProblem := do
  return ⟨env.program, pts, ← WindowGraph.construct env pts first last⟩

variable (a : FlowProblem)

def interpret (n : Nat) : Analyzing Bool := do
  match ((← get).mark n).spoils with
  | some b => return b
  | none =>
    let b ← a.graph.leavesUnflushed a.program a.pts n
    modify (·.setSpoils n b)
    return b

/-- Whether a spoiling node `n` lies on a path that goes on, or on the one to the second event. -/
def isRelevant (n : Nat) : Bool := !(a.graph.children n).isEmpty || a.graph.isStop n

def noneSpoils : List Nat → Analyzing Bool
  | [] => return true
  | n :: ns => do
    if a.isRelevant n then
      if ← a.interpret n then return false
    noneSpoils ns

/-- Whether no path between the events leaves a store to persistent storage without a flush. -/
def alwaysRedundant : Analyzing Bool := do
  match (← get).always with
  | some b => return b
  | none =>
    let b ← a.noneSpoils a.graph.order
    modify ({ · with always := some b })
    return b

variable (x : Findings)

def cleanBefore (flags : List Bool) (n : Nat) : Bool :=
  WindowGraph.isRoot n || (a.graph.parents n).all fun m ↦ !x.spoils m && flags.getD m false

def cleanAfter (flags : List Bool) (n : Nat) : Bool :=
  (a.graph.children n).all fun m ↦ !x.spoils m && flags.getD m false

/-- Puts the flag of `n` right by a test against all flags, none if it is right already. -/
def renew (test : List Bool → Nat → Bool) (flags : List Bool) (n : Nat) : Option (List Bool) :=
  if test flags n = flags.getD n false then none else some (flags.set n (test flags n))

/-- Flags every node that is met from the root, then sweeps through `nodes` and puts flags right until
all of them are. -/
def settleFlags (test : List Bool → Nat → Bool) (nodes : List Nat) : Except Fault (List Bool) :=
  Rounds.settle (renew test) nodes (a.graph.nodes.length + 1)
    (a.graph.nodeIds.map fun n ↦ a.graph.order.contains n)

def setFlags : Except Fault Findings := do
  let before ← a.settleFlags (a.cleanBefore x) a.graph.order
  let after ← a.settleFlags (a.cleanAfter x) a.graph.order.reverse
  return { x with marks := x.marks.mapIdx fun n m ↦
    { m with inParents := before.getD n false, inChildren := after.getD n false } }

def hasBoth (n : Nat) : Bool := (x.mark n).both

/-- The nodes with both flags that are met from the root before any other one is passed. -/
def candidates : List Nat :=
  (Traversal.order (fun n ↦ if hasBoth x n then [] else a.graph.children n) a.graph.nodeIds
    [WindowGraph.root]).filter (hasBoth x)

/-- Whether another node with both flags lies on a path from the root to `n` that has not been at
`n` before. -/
def hasRedundantAncestor (n : Nat) : Bool :=
  if WindowGraph.isRoot n then false
  else
    let before := Traversal.order a.graph.children (a.graph.nodeIds.erase n) [WindowGraph.root]
    (Traversal.order a.graph.parents before (a.graph.parents n)).any (hasBoth x)

/-- The earliest nodes from which on the second flush is redundant. -/
def boundaryNodes : List Nat := (a.candidates x).filter (!a.hasRedundantAncestor x ·)

def redundantPaths : Analyzing (List InstrId) := do
  a.graph.order.forM fun n ↦ discard (a.interpret n)
  let x ← a.setFlags (← get)
  set { x with boundaries := a.boundaryNodes x }
  (← get).boundaries.mapM fun n ↦ do
    return (← Fault.lookup a.graph.nodes n).window.anchor

end FlowProblem

end Durability
