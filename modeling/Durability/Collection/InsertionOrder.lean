namespace Durability

/-- Distinct members, oldest first. -/
structure InsertionOrder (α : Type) where
  toList : List α
  nodup : toList.Nodup

namespace InsertionOrder

variable {α : Type}

def empty : InsertionOrder α := ⟨[], .nil⟩

instance : EmptyCollection (InsertionOrder α) := ⟨empty⟩

instance : Membership α (InsertionOrder α) := ⟨fun s a ↦ a ∈ s.toList⟩

def size (s : InsertionOrder α) : Nat := s.toList.length

def isEmpty (s : InsertionOrder α) : Bool := s.toList.isEmpty

variable [DecidableEq α]

instance (a : α) (s : InsertionOrder α) : Decidable (a ∈ s) :=
  inferInstanceAs (Decidable (a ∈ s.toList))

def contains (s : InsertionOrder α) (a : α) : Bool := decide (a ∈ s)

def insert (s : InsertionOrder α) (a : α) : InsertionOrder α :=
  if h : a ∈ s.toList then s
  else ⟨s.toList ++ [a], List.nodup_append.2
    ⟨s.nodup, by simp, fun x hx y hy e ↦ h (by simp_all)⟩⟩

def ofList (l : List α) : InsertionOrder α := l.foldl insert ∅

end InsertionOrder

end Durability
