namespace Durability

/-- A finite map, as its entries by strictly increasing key. -/
structure SortedMap (κ α : Type) [Ord κ] where
  entries : List (κ × α)
  increasing : entries.Pairwise (fun e f ↦ compare e.1 f.1 = .lt)
deriving DecidableEq

namespace SortedMap

variable {κ α : Type} [Ord κ]

def empty : SortedMap κ α := ⟨[], .nil⟩

instance : EmptyCollection (SortedMap κ α) := ⟨empty⟩

instance : Inhabited (SortedMap κ α) := ⟨empty⟩

def size (m : SortedMap κ α) : Nat := m.entries.length

def isEmpty (m : SortedMap κ α) : Bool := m.entries.isEmpty

def keys (m : SortedMap κ α) : List κ := m.entries.map Prod.fst

def values (m : SortedMap κ α) : List α := m.entries.map Prod.snd

def find [DecidableEq κ] (k : κ) : List (κ × α) → Option α
  | [] => none
  | e :: l => if e.1 = k then some e.2 else find k l

def get? [DecidableEq κ] (m : SortedMap κ α) (k : κ) : Option α := find k m.entries

def contains [DecidableEq κ] (m : SortedMap κ α) (k : κ) : Bool := (m.get? k).isSome

def place (k : κ) (v : α) : List (κ × α) → List (κ × α)
  | [] => [(k, v)]
  | e :: l =>
    match compare k e.1 with
    | .lt => (k, v) :: e :: l
    | .eq => (k, v) :: l
    | .gt => e :: place k v l

theorem eq_or_mem_of_mem_place {k : κ} {v : α} {x : κ × α} {l : List (κ × α)}
    (h : x ∈ place k v l) : x = (k, v) ∨ x ∈ l := by
  induction l with
  | nil => simpa [place] using h
  | cons e l ih =>
    rw [place] at h
    split at h
    · simpa using h
    · exact (List.mem_cons.1 h).imp_right (List.mem_cons_of_mem e)
    · rcases List.mem_cons.1 h with rfl | h
      · exact Or.inr List.mem_cons_self
      · exact (ih h).imp_right (List.mem_cons_of_mem e)

theorem increasing_place [Std.TransOrd κ] (k : κ) (v : α) {l : List (κ × α)}
    (h : l.Pairwise (fun e f ↦ compare e.1 f.1 = .lt)) :
    (place k v l).Pairwise (fun e f ↦ compare e.1 f.1 = .lt) := by
  induction l with
  | nil => exact List.pairwise_singleton _ _
  | cons e l ih =>
    have he := List.pairwise_cons.1 h
    rw [place]
    split
    · next hk =>
      refine List.pairwise_cons.2 ⟨fun x hx ↦ ?_, h⟩
      rcases List.mem_cons.1 hx with rfl | hx
      · exact hk
      · exact Std.TransCmp.lt_trans hk (he.1 x hx)
    · next hk =>
      exact List.pairwise_cons.2 ⟨fun x hx ↦ Std.TransCmp.lt_of_eq_of_lt hk (he.1 x hx), he.2⟩
    · next hk =>
      refine List.pairwise_cons.2 ⟨fun x hx ↦ ?_, ih he.2⟩
      rcases eq_or_mem_of_mem_place hx with rfl | hx
      · exact Std.OrientedCmp.lt_of_gt hk
      · exact he.1 x hx

variable [Std.TransOrd κ]

def insert (m : SortedMap κ α) (k : κ) (v : α) : SortedMap κ α :=
  ⟨place k v m.entries, increasing_place k v m.increasing⟩

def ofList (l : List (κ × α)) : SortedMap κ α := l.foldl (fun m e ↦ m.insert e.1 e.2) ∅

section Lookup

variable [DecidableEq κ] [Std.LawfulEqOrd κ]

omit [Std.TransOrd κ] in
theorem find_place (k : κ) (v : α) (l : List (κ × α)) (x : κ) :
    find x (place k v l) = if k = x then some v else find x l := by
  induction l with
  | nil => rfl
  | cons e l ih =>
    rw [place]
    split
    · rfl
    · next h => simp only [find, Std.LawfulEqCmp.eq_of_compare h]; split <;> rfl
    · next h =>
      have hk : k ≠ e.1 := fun h' ↦ by simp [h'] at h
      simp only [find, ih]
      grind

@[simp] theorem get?_insert (m : SortedMap κ α) (k : κ) (v : α) (x : κ) :
    (m.insert k v).get? x = if k = x then some v else m.get? x := find_place k v m.entries x

omit [Std.TransOrd κ] [Std.LawfulEqOrd κ] in
theorem find_eq_none [Std.ReflOrd κ] {k : κ} {l : List (κ × α)}
    (h : ∀ e ∈ l, compare k e.1 = .lt) : find k l = none := by
  induction l with
  | nil => rfl
  | cons e l ih =>
    obtain ⟨he, hl⟩ := List.forall_mem_cons.1 h
    have hne : e.1 ≠ k := fun heq ↦ by simp [heq] at he
    rw [find, if_neg hne]
    exact ih hl

theorem ext {m m' : SortedMap κ α} (h : ∀ k, m.get? k = m'.get? k) : m = m' := by
  obtain ⟨l, hl⟩ := m
  obtain ⟨l', hl'⟩ := m'
  have same : ∀ k, find k l = find k l' := h
  suffices l = l' by subst this; rfl
  clear h
  induction l generalizing l' with
  | nil =>
    cases l' with
    | nil => rfl
    | cons b l' => simpa [find] using same b.1
  | cons a l ih =>
    cases l' with
    | nil => simpa [find] using same a.1
    | cons b l' =>
      obtain ⟨ha, hl⟩ := List.pairwise_cons.1 hl
      obtain ⟨hb, hl'⟩ := List.pairwise_cons.1 hl'
      -- the smaller one of two different first keys would be missing from the other map
      cases hab : compare a.1 b.1 with
      | lt =>
        have hnone : find a.1 (b :: l') = none := find_eq_none
          (List.forall_mem_cons.2 ⟨hab, fun e he ↦ Std.TransCmp.lt_trans hab (hb e he)⟩)
        rw [← same, find, if_pos rfl] at hnone
        cases hnone
      | gt =>
        have hba : compare b.1 a.1 = .lt := Std.OrientedCmp.lt_of_gt hab
        have hnone : find b.1 (a :: l) = none := find_eq_none
          (List.forall_mem_cons.2 ⟨hba, fun e he ↦ Std.TransCmp.lt_trans hba (ha e he)⟩)
        rw [same, find, if_pos rfl] at hnone
        cases hnone
      | eq =>
        have hkey : a.1 = b.1 := Std.LawfulEqCmp.eq_of_compare hab
        have hvalue := same a.1
        rw [find, find, if_pos rfl, if_pos hkey.symm, Option.some.injEq] at hvalue
        have htails : ∀ k, find k l = find k l' := by
          intro k
          have hk := same k
          rw [find, find, ← hkey] at hk
          split at hk
          · next heq => rw [← heq, find_eq_none ha, find_eq_none (hkey ▸ hb)]
          · exact hk
        rw [ih hl l' hl' htails, Prod.ext hkey hvalue]

end Lookup

end SortedMap

end Durability
