import Durability.Fix.Order

namespace Durability.FixMap

open scoped List

variable {e : Entry}

theorem perm_of_take? {i : InstrId} {waiting rest : List Entry}
    (h : take? i waiting = some (e, rest)) : waiting.Perm (e :: rest) := by
  induction waiting generalizing rest with
  | nil => cases h
  | cons d waiting ih =>
    rw [take?] at h
    split at h
    · cases h
      rfl
    · obtain ⟨⟨x, r⟩, hr, he⟩ := Option.map_eq_some_iff.1 h
      cases he
      exact ((ih hr).cons d).trans (.swap e d r)

theorem follow_perm (waiting : List Entry) (next : Option InstrId) :
    ((follow waiting next).1 ++ (follow waiting next).2).Perm waiting := by
  fun_induction follow waiting next with
  | case1 waiting => rfl
  | case2 waiting i h => rfl
  | case3 waiting i d rest h chain rest' hfollow ih =>
    rw [hfollow] at ih
    exact (ih.cons d).trans (perm_of_take? h).symm

theorem chains_perm (waiting removals : List Entry) :
    (chains waiting removals).Perm (waiting ++ removals) := by
  induction removals generalizing waiting with
  | nil => rw [chains, List.append_nil]
  | cons removal removals ih =>
    have hfollow := follow_perm waiting removal.2.dependent
    rw [chains]
    generalize follow waiting removal.2.dependent = f at hfollow
    calc f.1.reverse ++ removal :: chains f.2 removals
      _ ~ f.1 ++ removal :: (f.2 ++ removals) := (f.1.reverse_perm).append ((ih f.2).cons removal)
      _ ~ removal :: (f.1 ++ (f.2 ++ removals)) := List.perm_middle
      _ ~ removal :: (waiting ++ removals) := by
        rw [← List.append_assoc]
        exact (hfollow.append_right removals).cons removal
      _ ~ waiting ++ removal :: removals := List.perm_middle.symm

variable {m : FixMap}

def unconditionals (m : FixMap) : List Entry := m.entries.filter fun e ↦ !e.2.kind.isConditional

def conditionals (m : FixMap) : List Entry :=
  chains (m.entries.filter (·.2.kind == .addFlushIf)) (m.entries.filter (·.2.kind == .removeFlushIf))

theorem applicationOrder_eq : m.applicationOrder = m.unconditionals ++ m.conditionals := rfl

theorem mem_applicationOrder : e ∈ m.applicationOrder ↔ e ∈ m.entries := by
  rw [applicationOrder, List.mem_append, (chains_perm _ _).mem_iff, List.mem_append]
  cases hk : e.2.kind <;> simp [FixKind.isConditional, hk]

theorem isEmpty_applicationOrder (m : FixMap) : m.applicationOrder.isEmpty = m.isEmpty := by
  rw [Bool.eq_iff_iff, SortedMap.isEmpty, List.isEmpty_iff, List.isEmpty_iff,
    List.eq_nil_iff_forall_not_mem, List.eq_nil_iff_forall_not_mem]
  exact forall_congr' fun e ↦ not_congr mem_applicationOrder

theorem isConditional_of_mem_unconditionals (h : e ∈ m.unconditionals) :
    e.2.kind.isConditional = false := by
  simpa using (List.mem_filter.1 h).2

theorem isConditional_of_mem_conditionals (h : e ∈ m.conditionals) :
    e.2.kind.isConditional = true := by
  have h := (chains_perm _ _).mem_iff.1 h
  obtain h | h := List.mem_append.1 h
  · rw [eq_of_beq (List.mem_filter.1 h).2]
    rfl
  · rw [eq_of_beq (List.mem_filter.1 h).2]
    rfl

theorem eq_unconditionals {done rest : List Entry} (h : m.applicationOrder = done ++ e :: rest)
    (plain : ∀ d ∈ done, d.2.kind.isConditional = false) (he : e.2.kind.isConditional = true) :
    done = m.unconditionals := by
  rw [applicationOrder_eq] at h
  obtain ⟨l, hdone, hl⟩ | ⟨l, hdone, hl⟩ := List.append_eq_append_iff.1 h
  · cases l with
    | nil => rw [hdone, List.append_nil]
    | cons d l =>
      have hd : d ∈ m.conditionals := by
        rw [hl]
        exact List.mem_cons_self
      have hplain := plain d (by simp [hdone])
      rw [isConditional_of_mem_conditionals hd] at hplain
      cases hplain
  · cases l with
    | nil => rw [hdone, List.append_nil]
    | cons d l =>
      cases hl
      have hplain : e.2.kind.isConditional = false :=
        isConditional_of_mem_unconditionals (m := m) (by simp [hdone])
      rw [he] at hplain
      cases hplain

end Durability.FixMap
