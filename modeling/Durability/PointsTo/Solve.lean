import Durability.Collection.SortedMap
import Durability.PointsTo.Constraint
import Durability.Rounds

namespace Durability

/-- Where values point, and where what is stored in memory points. -/
structure Solution where
  points : SortedMap Value (SortedSet Storage)
  contents : SortedMap Storage (SortedSet Storage)

namespace Solution

instance : EmptyCollection Solution := ⟨⟨∅, ∅⟩⟩

variable (s : Solution)

def pointsTo (v : Value) : SortedSet Storage := (s.points.get? v).getD ∅

def holds (o : Storage) : SortedSet Storage := (s.contents.get? o).getD ∅

/-- All of `new` together with `old`, none if there is nothing new in it. -/
def widen (old new : SortedSet Storage) : Option (SortedSet Storage) :=
  if new.isSubset old then none else some (old ∪ new)

def point (v : Value) (new : SortedSet Storage) : Option Solution :=
  (widen (s.pointsTo v) new).map fun all ↦ { s with points := s.points.insert v all }

def hold (o : Storage) (new : SortedSet Storage) : Option Solution :=
  (widen (s.holds o) new).map fun all ↦ { s with contents := s.contents.insert o all }

/-- What is stored in all that a value points to. -/
def behind (v : Value) : SortedSet Storage :=
  .ofList ((s.pointsTo v).toList.flatMap fun o ↦ (s.holds o).toList)

/-- Adds what a constraint asks for, none if it has that already. -/
def apply (s : Solution) : Constraint → Option Solution
  | .address v o => s.point v (.ofList [o])
  | .copy dst src => s.point dst (s.pointsTo src)
  | .load dst ptr => s.point dst (s.behind ptr)
  | .store ptr src => Rounds.round (fun t o ↦ t.hold o (s.pointsTo src)) (s.pointsTo ptr).toList s

/-- Every round but the last finds where a value or a piece of memory points. There are no more values
and no more pieces of memory to find than constraints. -/
def roundBound (cs : List Constraint) : Nat := 2 * (cs.length * cs.length) + 1

/-- Each constraint is applied to what those before it have left, until a round of all of them adds
nothing. -/
def solve (cs : List Constraint) : Except Fault Solution :=
  Rounds.settle apply cs (roundBound cs) ∅

end Solution

def Program.pointsTo (p : Program) : Except Fault PointsTo := do
  return (← Solution.solve (← p.constraints)).pointsTo

end Durability
