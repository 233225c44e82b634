import Durability.Context.PmFacts
import Mathlib.Tactic.Tauto

namespace Durability.PmFacts

variable {pm pm' : PmFacts} {s x : Storage} {l : List Storage} {pts : PointsTo} {v : Value}

def Has (pm : PmFacts) (s : Storage) : Prop := s ∈ pm.locals ∨ s ∈ pm.globals

theorem has_insert : (pm.insert s).Has x ↔ x = s ∨ pm.Has x := by
  rw [insert]
  split
  · simp only [Has, SortedSet.mem_insert]
    tauto
  · simp only [Has, SortedSet.mem_insert]
    tauto

theorem has_insertAll : (pm.insertAll l).Has x ↔ x ∈ l ∨ pm.Has x := by
  induction l generalizing pm with
  | nil => simp [insertAll]
  | cons s l ih =>
    rw [show pm.insertAll (s :: l) = (pm.insert s).insertAll l from rfl, ih, has_insert,
      List.mem_cons]
    tauto

theorem mem_toList : s ∈ pm.toList ↔ pm.Has s := by
  rw [toList, List.mem_append]
  rfl

theorem has_learn : (pm.learn pts v).Has x ↔ x ∈ pts v ∨ pm.Has x := has_insertAll

theorem has_join : (pm.join pm').Has x ↔ pm'.Has x ∨ pm.Has x := by
  rw [join, has_insertAll, mem_toList]

theorem has_of_isSubset (h : pm.isSubset pm' = true) (hx : pm.Has x) : pm'.Has x := by
  rw [isSubset, Bool.and_eq_true, SortedSet.isSubset_iff, SortedSet.isSubset_iff] at h
  exact hx.imp (h.1 x) (h.2 x)

theorem reaches_iff : pm.reaches pts v = true ↔ ∃ s ∈ pts v, pm.Has s := by
  simp only [reaches, Bool.or_eq_true, SortedSet.intersects_iff, Has]
  grind

theorem reaches_of_has (hs : s ∈ pts v) (h : pm.Has s) : pm.reaches pts v = true :=
  reaches_iff.2 ⟨s, hs, h⟩

end Durability.PmFacts
