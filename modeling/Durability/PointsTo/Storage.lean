import Durability.Collection.SortedSet
import Durability.Program.Names

namespace Durability

inductive Storage
  | global (g : GlobalId)
  | stack (i : InstrId)
  /-- Memory that a call outside the program handed out. -/
  | heap (i : InstrId)
deriving DecidableEq

namespace Storage

def rank : Storage → Nat
  | global _ => 0
  | stack _ => 1
  | heap _ => 2

def index : Storage → Nat
  | global g => g.index
  | stack i | heap i => i.index

def isGlobal (s : Storage) : Bool := s.rank == 0

def render : Storage → String
  | global g => s!"Global({g})"
  | stack i => s!"Stack({i})"
  | heap i => s!"Heap({i})"

/-- Globals come first, then stack slots, then the heap. -/
instance : Ord Storage := ⟨compareLex (compareOn rank) (compareOn index)⟩

instance : Std.TransOrd Storage :=
  inferInstanceAs (Std.TransCmp (compareLex (compareOn rank) (compareOn index)))

instance : Std.LawfulEqOrd Storage where
  compare_self {s} := by
    change compareLex (compareOn rank) (compareOn index) s s = .eq
    simp [compareLex_eq_eq, compareOn]
  eq_of_compare {s t} h := by
    have h : compareLex (compareOn rank) (compareOn index) s t = .eq := h
    simp only [compareLex_eq_eq, compareOn, Nat.compare_eq_eq] at h
    rcases s with ⟨⟨a⟩⟩ | ⟨⟨a⟩⟩ | ⟨⟨a⟩⟩ <;> rcases t with ⟨⟨b⟩⟩ | ⟨⟨b⟩⟩ | ⟨⟨b⟩⟩ <;>
      simp_all [rank, index]

end Storage

abbrev PointsTo := Value → SortedSet Storage

namespace PointsTo

def mayAlias (pts : PointsTo) (v w : Value) : Bool := (pts v).intersects (pts w)

end PointsTo

def SortedSet.renderStorage (s : SortedSet Storage) : String :=
  Text.braces (s.toList.map Storage.render)

end Durability
