import Durability.Redundancy.Basic

namespace Durability

namespace Dot

/-- How a character stands in a label: the backslash is left to mark line ends, all else outside of
printable ASCII is escaped. -/
def escape (c : Char) : List Char :=
  if c = '\t' then ['\\', 't']
  else if c = '\n' then ['\\', 'n']
  else if c = '\r' then ['\\', 'r']
  else if c = '"' ∨ c = Char.ofNat 39 then ['\\', c]
  else if 0x20 ≤ c.toNat ∧ c.toNat < 0x7f then [c]
  else ("\\u\x7b" ++ Text.hex c.toNat ++ "\x7d").toList

def lineEnd : String := "\\l"

def label (text : String) : String := "\"" ++ String.ofList (text.toList.flatMap escape) ++ "\""

def nodeLine (n : Nat) (text shape : String) : String :=
  s!"    n{n}[label=" ++ label text ++ "][shape=" ++ label shape ++ "];\n"

def edgeLine (n m : Nat) : String := s!"    n{n} -> n{m}[label=" ++ label "" ++ "];\n"

def digraph (name : String) (lines : List String) : String :=
  s!"digraph {name} \x7b\n" ++ String.join lines ++ "\x7d\n"

end Dot

namespace FlowProblem

variable (a : FlowProblem) (x : Findings)

def instrLine (w : Window) (i : InstrId) : Except Fault String := do
  let star := if i = w.anchor then "*" else " "
  return s!"{star}{i} = " ++ (← a.program.instr i).render true ++ Dot.lineEnd

def marksLine (m : Marks) : String :=
  "spoils=" ++ Text.optional Text.bool m.spoils ++ " rip=" ++ Text.bool m.inParents
    ++ " ric=" ++ Text.bool m.inChildren ++ Dot.lineEnd

def nodeText (n : Nat) (w : Window) : Except Fault String := do
  let c ← a.graph.contexts.get w.context
  let function ← a.program.function c.function
  let head := s!"{w.context} {function.name} [depth {c.callStack.length}]" ++ Dot.lineEnd
  let lines ← (← w.instrs a.program).mapM (a.instrLine w)
  return head ++ String.join lines ++ marksLine (x.mark n)

/-- Boundaries stand out, and so do the two ends. -/
def shape (n : Nat) : String :=
  if x.boundaries.contains n then "doubleoctagon"
  else if WindowGraph.isRoot n || a.graph.isStop n then "note"
  else "box"

def dot : Except Fault String := do
  let nodes ← a.graph.nodes.zipIdx.mapM fun (node, n) ↦ do
    return Dot.nodeLine n (← a.nodeText x n node.window) (a.shape x n)
  let edges := a.graph.nodes.zipIdx.flatMap fun (node, n) ↦
    node.children.toList.map (Dot.edgeLine n)
  return Dot.digraph "ContextGraph" (nodes ++ edges)

end FlowProblem

end Durability
