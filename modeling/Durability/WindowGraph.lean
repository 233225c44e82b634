import Durability.Collection.SortedMap
import Durability.PointsTo.Storage
import Durability.Window

namespace Durability

structure WindowGraph.Node where
  window : Window
  children : SortedSet Nat
  parents : SortedSet Nat

structure WindowGraph where
  nodes : List WindowGraph.Node
  leaves : List Nat
  start : Window
  stop : Window
  /-- The node of the second event, if the search came upon it. -/
  stopNode : Option Nat
  contexts : ContextTable
  /-- The nodes by the beginnings of their windows. -/
  cache : SortedMap WindowKey Nat

namespace WindowGraph

variable (g : WindowGraph)

def node (n : Nat) : Except Fault Node := Fault.lookup g.nodes n

def root : Nat := 0

def isRoot (n : Nat) : Bool := n == root

def isStop (n : Nat) : Bool := g.stopNode == some n

def find? (c : ContextId) (i : InstrId) : Option Nat := g.cache.get? (c, i)

/-- The node of `w`, which is a new one if there is none yet. Tells whether it is new. -/
def insertNode (w : Window) : (Nat × Bool) × WindowGraph :=
  match g.cache.get? w.key with
  | some n => ((n, false), g)
  | none => ((g.nodes.length, true),
    { g with nodes := g.nodes ++ [⟨w, ∅, ∅⟩], cache := g.cache.insert w.key g.nodes.length })

def nodeAt (p : Program) (c : ContextId) (i : InstrId) :
    Except Fault ((Nat × Bool) × WindowGraph) := do
  match g.find? c i with
  | some n => return ((n, false), g)
  | none => return g.insertNode (← Window.startingAt p c i)

def addEdge (n m : Nat) : WindowGraph :=
  let nodes := g.nodes.modify n fun x ↦ { x with children := x.children.insert m }
  { g with nodes := nodes.modify m fun x ↦ { x with parents := x.parents.insert n } }

def targetsOf (p : Program) (i : InstrId) : Except Fault (List InstrId) := do
  match ← p.blockOf i with
  | none => return []
  | some b => return (← (← p.successors b).mapM p.firstInBlock).filterMap id

/-- The beginnings of the windows that may execute right after `w`. -/
def successors (p : Program) (pts : PointsTo) (t : ContextTable) (w : Window) :
    Attempt RepairError (List (ContextId × InstrId) × ContextTable) := do
  match (← p.instr w.last).op with
  | .call f =>
    if ← p.isDefinedCall w.last then
      let (c, t) ← t.doCall p w.context w.last
      match ← p.entry f with
      | some i => return ([(c, i)], t)
      | none => Attempt.refuse (.missingBody (← p.function f).name)
    else flow t
  | .ret =>
    let call ← (·.callStack.getLast?) <$> t.get w.context
    match ← t.doReturn p pts w.context w.last, call with
    | (some c, t), some call => return ((← p.nextInBlock call).toList.map (c, ·), t)
    | (_, t), _ => return ([], t)
  | _ => flow t
where
  flow (t : ContextTable) : Attempt RepairError (List (ContextId × InstrId) × ContextTable) := do
    return ((← targetsOf p w.last).map (w.context, ·), t)

def isTerminal (p : Program) (n : Nat) : Except Fault Bool := do
  let w := (← g.node n).window
  match (← p.instr w.last).op with
  | .unreachable => return true
  | .ret => return (← g.contexts.get w.context).parent.isNone
  | op =>
    if op.isTerminator then
      match ← p.blockOf w.last with
      | none => return true
      | some b => return (← p.successors b).isEmpty
    else return false

structure Search where
  graph : WindowGraph
  frontier : List Nat

namespace Search

def initial (start stop : Window) (t : ContextTable) : Search :=
  ⟨((⟨[], [], start, stop, none, t, ∅⟩ : WindowGraph).insertNode start).2, [root]⟩

variable (p : Program) (pts : PointsTo)

def link (n : Nat) (s : Search) (next : ContextId × InstrId) : Except Fault Search := do
  let ((m, isNew), g) ← s.graph.nodeAt p next.1 next.2
  return ⟨g.addEdge n m, if isNew then s.frontier ++ [m] else s.frontier⟩

def visit (g : WindowGraph) (frontier : List Nat) (n : Nat) : Attempt RepairError Search := do
  let w := (← g.node n).window
  if w.same g.stop then
    return ⟨{ g with stopNode := some n, leaves := g.leaves ++ [n] }, frontier⟩
  else
    let (next, t) ← successors p pts g.contexts w
    let g := { g with contexts := t }
    if next.isEmpty then return ⟨{ g with leaves := g.leaves ++ [n] }, frontier⟩
    else next.foldlM (fun s i ↦ Attempt.lift (link p n s i)) ⟨g, frontier⟩

def run : Nat → Search → Attempt RepairError WindowGraph
  | _, ⟨g, []⟩ => .ok g
  | 0, _ => .error (.fault .endless)
  | steps + 1, ⟨g, n :: frontier⟩ => do
    run steps (← visit p pts g frontier n)

end Search

/-- No more windows than this come up: a chain of calls enters no function twice, so it is shorter
than the number of functions. -/
def searchBound (p : Program) : Nat :=
  (p.functions.length + 1) * Nat.pow (p.instructions.length + 1) (p.functions.length + 1)
    * (p.instructions.length + 1)

def seed (p : Program) (pts : PointsTo) (start : Window) (t : ContextTable) :
    Except Fault ContextTable := do
  match (← p.instr start.anchor).pointer? with
  | none => return t
  | some v => return t.update start.context (·.learn pts v)

def checkLeaves (p : Program) (first last : Event) : Attempt RepairError Unit := do
  Attempt.refuseIf g.leaves.isEmpty (.noLeaves first.timestamp last.timestamp)
  g.leaves.forM fun n ↦ do
    if !g.isStop n then
      Attempt.refuseIf (!(← g.isTerminal p n)) (.invalidLeaf n)

def Search.ofEvents (env : Surroundings) (pts : PointsTo) (first last : Event) :
    Attempt RepairError Search := do
  let (start, t) := Window.ofEvent env first ∅
  let start ← start
  let (stop, t) := Window.ofEvent env last t
  let stop ← stop
  return .initial start stop (← seed env.program pts start t)

/-- The graph of what may execute between the events `first` and `last`. The search does not go beyond the
window of `last`, and a window that comes up again is the node it already has. -/
def construct (env : Surroundings) (pts : PointsTo) (first last : Event) :
    Attempt RepairError WindowGraph := do
  let s ← Search.ofEvents env pts first last
  let g ← Search.run env.program pts (searchBound env.program) s
  g.checkLeaves env.program first last
  return g

end WindowGraph

end Durability
