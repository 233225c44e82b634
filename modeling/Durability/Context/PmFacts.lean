import Durability.PointsTo.Storage

namespace Durability

structure PmFacts where
  locals : SortedSet Storage
  globals : SortedSet Storage
deriving DecidableEq

namespace PmFacts

instance : EmptyCollection PmFacts := ⟨⟨∅, ∅⟩⟩

instance : Inhabited PmFacts := ⟨∅⟩

variable (pm : PmFacts)

def knows (s : Storage) : Bool := if s.isGlobal then pm.globals.contains s else pm.locals.contains s

def insert (s : Storage) : PmFacts :=
  if s.isGlobal then { pm with globals := pm.globals.insert s }
  else { pm with locals := pm.locals.insert s }

def insertAll (l : List Storage) : PmFacts := l.foldl insert pm

def toList : List Storage := pm.locals.toList ++ pm.globals.toList

def learn (pts : PointsTo) (v : Value) : PmFacts := pm.insertAll (pts v).toList

def join (other : PmFacts) : PmFacts := pm.insertAll other.toList

def lacks (l : List Storage) : Bool := l.any (!pm.knows ·)

def reaches (pts : PointsTo) (v : Value) : Bool :=
  (pts v).intersects pm.locals || (pts v).intersects pm.globals

def isSubset (other : PmFacts) : Bool :=
  pm.locals.isSubset other.locals && pm.globals.isSubset other.globals

def isEmpty : Bool := pm.locals.isEmpty && pm.globals.isEmpty

def render : String :=
  s!"PmDesc(locals={pm.locals.renderStorage}, globals={pm.globals.renderStorage})"

end PmFacts

end Durability
