namespace Durability

/-- A finite set, as the strictly increasing list of its members. -/
structure SortedSet (α : Type) [Ord α] where
  toList : List α
  increasing : toList.Pairwise (fun a b ↦ compare a b = .lt)
deriving DecidableEq

namespace SortedSet

variable {α : Type} [Ord α]

instance : Membership α (SortedSet α) := ⟨fun s a ↦ a ∈ s.toList⟩

instance [DecidableEq α] (a : α) (s : SortedSet α) : Decidable (a ∈ s) :=
  inferInstanceAs (Decidable (a ∈ s.toList))

theorem mem_toList {s : SortedSet α} {a : α} : a ∈ s.toList ↔ a ∈ s := Iff.rfl

theorem nodup_toList [Std.ReflOrd α] (s : SortedSet α) : s.toList.Nodup :=
  s.increasing.imp fun h heq ↦ by
    subst heq
    simp at h

def empty : SortedSet α := ⟨[], .nil⟩

instance : EmptyCollection (SortedSet α) := ⟨empty⟩

instance : Inhabited (SortedSet α) := ⟨empty⟩

@[simp] theorem not_mem_empty (a : α) : a ∉ (∅ : SortedSet α) := List.not_mem_nil

def place (a : α) : List α → List α
  | [] => [a]
  | b :: l =>
    match compare a b with
    | .lt => a :: b :: l
    | .eq => b :: l
    | .gt => b :: place a l

theorem eq_or_mem_of_mem_place {a x : α} {l : List α} (h : x ∈ place a l) : x = a ∨ x ∈ l := by
  induction l with
  | nil => simpa [place] using h
  | cons b l ih =>
    rw [place] at h
    split at h
    · simpa using h
    · exact Or.inr h
    · rcases List.mem_cons.1 h with rfl | h
      · exact Or.inr List.mem_cons_self
      · exact (ih h).imp_right (List.mem_cons_of_mem b)

theorem mem_place_of_mem {a x : α} {l : List α} (h : x ∈ l) : x ∈ place a l := by
  induction l with
  | nil => cases h
  | cons b l ih =>
    rw [place]
    split
    · exact List.mem_cons_of_mem a h
    · exact h
    · rcases List.mem_cons.1 h with rfl | h
      · exact List.mem_cons_self
      · exact List.mem_cons_of_mem b (ih h)

theorem mem_place_self [Std.LawfulEqOrd α] (a : α) (l : List α) : a ∈ place a l := by
  induction l with
  | nil => simp [place]
  | cons b l ih =>
    rw [place]
    split
    · exact List.mem_cons_self
    · next h => rw [Std.LawfulEqCmp.eq_of_compare h]; exact List.mem_cons_self
    · exact List.mem_cons_of_mem b ih

theorem increasing_place [Std.TransOrd α] (a : α) {l : List α}
    (h : l.Pairwise (fun a b ↦ compare a b = .lt)) :
    (place a l).Pairwise (fun a b ↦ compare a b = .lt) := by
  induction l with
  | nil => exact List.pairwise_singleton _ _
  | cons b l ih =>
    have hb := List.pairwise_cons.1 h
    rw [place]
    split
    · next hab =>
      refine List.pairwise_cons.2 ⟨fun x hx ↦ ?_, h⟩
      rcases List.mem_cons.1 hx with rfl | hx
      · exact hab
      · exact Std.TransCmp.lt_trans hab (hb.1 x hx)
    · exact h
    · next hab =>
      refine List.pairwise_cons.2 ⟨fun x hx ↦ ?_, ih hb.2⟩
      rcases eq_or_mem_of_mem_place hx with rfl | hx
      · exact Std.OrientedCmp.lt_of_gt hab
      · exact hb.1 x hx

def size (s : SortedSet α) : Nat := s.toList.length

def isEmpty (s : SortedSet α) : Bool := s.toList.isEmpty

def contains [DecidableEq α] (s : SortedSet α) (a : α) : Bool := decide (a ∈ s)

def intersects [DecidableEq α] (s t : SortedSet α) : Bool := s.toList.any t.contains

def isSubset [DecidableEq α] (s t : SortedSet α) : Bool := s.toList.all t.contains

@[simp] theorem contains_iff [DecidableEq α] {s : SortedSet α} {a : α} :
    s.contains a = true ↔ a ∈ s := decide_eq_true_iff

theorem intersects_iff [DecidableEq α] {s t : SortedSet α} :
    s.intersects t = true ↔ ∃ a, a ∈ s ∧ a ∈ t := by
  simp [intersects, List.any_eq_true, mem_toList]

theorem isSubset_iff [DecidableEq α] {s t : SortedSet α} :
    s.isSubset t = true ↔ ∀ a, a ∈ s → a ∈ t := by
  simp [isSubset, List.all_eq_true, mem_toList]

variable [Std.TransOrd α]

def insert (s : SortedSet α) (a : α) : SortedSet α :=
  ⟨place a s.toList, increasing_place a s.increasing⟩

def ofList (l : List α) : SortedSet α := l.foldl insert ∅

def union (s t : SortedSet α) : SortedSet α := t.toList.foldl insert s

instance : Union (SortedSet α) := ⟨union⟩

section Members

variable [Std.LawfulEqOrd α]

@[simp] theorem mem_insert {s : SortedSet α} {a x : α} : x ∈ s.insert a ↔ x = a ∨ x ∈ s :=
  ⟨eq_or_mem_of_mem_place, fun h ↦ h.elim (fun e ↦ e ▸ mem_place_self a s.toList) mem_place_of_mem⟩

theorem mem_foldl_insert {l : List α} {s : SortedSet α} {x : α} :
    x ∈ l.foldl insert s ↔ x ∈ s ∨ x ∈ l := by
  induction l generalizing s with
  | nil => simp
  | cons a l ih => rw [List.foldl_cons, ih, mem_insert, List.mem_cons]; grind

@[simp] theorem mem_ofList {l : List α} {x : α} : x ∈ ofList l ↔ x ∈ l := by
  simp [ofList, mem_foldl_insert]

@[simp] theorem mem_union {s t : SortedSet α} {x : α} : x ∈ s ∪ t ↔ x ∈ s ∨ x ∈ t :=
  mem_foldl_insert

omit [Std.LawfulEqOrd α] in
theorem ext {s t : SortedSet α} (h : ∀ a, a ∈ s ↔ a ∈ t) : s = t := by
  obtain ⟨l, hl⟩ := s
  obtain ⟨m, hm⟩ := t
  have same : ∀ a, a ∈ l ↔ a ∈ m := h
  suffices l = m by subst this; rfl
  clear h
  induction l generalizing m with
  | nil => exact (List.eq_nil_iff_forall_not_mem.2 fun a ha ↦ by simpa using (same a).2 ha).symm
  | cons a l ih =>
    cases m with
    | nil => simpa using (same a).1 List.mem_cons_self
    | cons b m =>
      have ha := List.pairwise_cons.1 hl
      have hb := List.pairwise_cons.1 hm
      have irr : ∀ x : α, compare x x ≠ .lt := fun x ↦ by simp
      have hab : a = b := by
        rcases List.mem_cons.1 ((same a).1 List.mem_cons_self) with e | ham
        · exact e
        · rcases List.mem_cons.1 ((same b).2 List.mem_cons_self) with e | hbl
          · exact e.symm
          · exact absurd (Std.TransCmp.lt_trans (hb.1 a ham) (ha.1 b hbl)) (irr b)
      subst hab
      refine congrArg (a :: ·) (ih ha.2 m hb.2 fun x ↦ ⟨fun hx ↦ ?_, fun hx ↦ ?_⟩)
      · rcases List.mem_cons.1 ((same x).1 (List.mem_cons_of_mem a hx)) with rfl | hx'
        · exact absurd (ha.1 x hx) (irr x)
        · exact hx'
      · rcases List.mem_cons.1 ((same x).2 (List.mem_cons_of_mem a hx)) with rfl | hx'
        · exact absurd (hb.1 x hx) (irr x)
        · exact hx'

end Members

end SortedSet

end Durability
