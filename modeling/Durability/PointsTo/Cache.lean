import Durability.Collection.InsertionOrder
import Durability.PointsTo.Storage

namespace Durability

structure PointsTo.Cache where
  pts : PointsTo
  asked : InsertionOrder Value

namespace PointsTo.Cache

def ofPointsTo (pts : PointsTo) : Cache := ⟨pts, ∅⟩

def size (c : Cache) : Nat := c.asked.size

def get (c : Cache) (v : Value) : SortedSet Storage × Cache :=
  (c.pts v, { c with asked := c.asked.insert v })

def mayAlias (c : Cache) (v w : Value) : Bool × Cache :=
  let (s, c) := c.get v
  let (t, c) := c.get w
  (s.intersects t, c)

end PointsTo.Cache

end Durability
