import Durability.Proofs.Json.Lexer

namespace Durability.Json

namespace Machine

/-- A value may begin at `m`, inside the frames of `stack`. -/
def Opens (m : Machine) (stack : List Frame) : Prop :=
  ∀ t, t ≠ .closeBracket → m.step t = open? stack t

theorem opens_value (stack : List Frame) : Opens (.value stack) stack := fun _ _ ↦ rfl

theorem opens_firstItem (stack : List Frame) : Opens (.firstItem stack) (.array [] :: stack) := by
  intro t ht
  cases t with
  | closeBracket => exact absurd rfl ht
  | _ => rfl

/-- Wherever a value may begin, its tokens lead to the value. -/
def Assembles (j : Json) : Prop :=
  ∀ m stack, Opens m stack → (tokens j).foldlM step m = some (.done j stack)

theorem assembles_bare {j : Json} (h : tokens j = [.bare j]) : Assembles j := by
  intro m stack hm
  rw [h, List.foldlM_cons, hm _ (by simp)]
  rfl

theorem foldlM_itemTokens {js : List Json} (h : ∀ j ∈ js, Assembles j) (j : Json)
    (items : List Json) (stack : List Frame) :
    ∃ k rest, (itemTokens js).foldlM step (.done j (.array items :: stack))
        = some (.done k (.array rest :: stack)) ∧ k :: rest = js.reverse ++ j :: items := by
  induction js generalizing j items with
  | nil => exact ⟨j, items, rfl, rfl⟩
  | cons i js ih =>
    obtain ⟨k, rest, hk, hrest⟩ := ih (fun j' hj' ↦ h j' (List.mem_cons_of_mem i hj')) i (j :: items)
    have hi := h i (List.mem_cons_self ..) _ _ (opens_value (.array (j :: items) :: stack))
    refine ⟨k, rest, ?_, ?_⟩
    · rw [itemTokens, List.foldlM_cons, step, Option.bind_eq_bind, Option.bind_some, List.foldlM_append, hi]
      exact hk
    · rw [hrest, List.reverse_cons, List.append_assoc]
      rfl

theorem foldlM_memberTokens {ms : List (String × Json)} (h : ∀ m ∈ ms, Assembles m.2) (k : String)
    (j : Json) (members : List (String × Json)) (stack : List Frame) :
    ∃ k' j' rest, (memberTokens ms).foldlM step (.done j (.object members k :: stack))
        = some (.done j' (.object rest k' :: stack)) ∧
      (k', j') :: rest = ms.reverse ++ (k, j) :: members := by
  induction ms generalizing k j members with
  | nil => exact ⟨k, j, members, rfl, rfl⟩
  | cons m ms ih =>
    obtain ⟨l, i⟩ := m
    obtain ⟨k', j', rest, hk, hrest⟩ :=
      ih (fun m hm ↦ h m (List.mem_cons_of_mem (l, i) hm)) l i ((k, j) :: members)
    have hi := h (l, i) (List.mem_cons_self ..) _ _
      (opens_value (.object ((k, j) :: members) l :: stack))
    refine ⟨k', j', rest, ?_, ?_⟩
    · rw [memberTokens]
      simp only [List.foldlM_cons, step, Option.bind_eq_bind, Option.bind_some, List.foldlM_append, hi]
      exact hk
    · rw [hrest, List.reverse_cons, List.append_assoc]
      rfl

theorem assembles {j : Json} (hw : Whole j) : Assembles j := by
  induction hw with
  | null => exact assembles_bare rfl
  | bool b => exact assembles_bare rfl
  | int n => exact assembles_bare rfl
  | str s =>
    intro m stack hm
    rw [tokens, List.foldlM_cons, hm _ (by simp)]
    rfl
  | unpaired =>
    intro m stack hm
    rw [tokens, List.foldlM_cons, hm _ (by simp)]
    rfl
  | @arr js _ ih =>
    intro m stack hm
    cases js with
    | nil =>
      rw [tokens, List.foldlM_cons, hm _ (by simp)]
      rfl
    | cons j js =>
      have hj := ih j (List.mem_cons_self ..) _ _ (opens_firstItem stack)
      obtain ⟨k, rest, hk, hrest⟩ :=
        foldlM_itemTokens (fun i hi ↦ ih i (List.mem_cons_of_mem j hi)) j [] stack
      have hitems : (k :: rest).reverse = j :: js := by
        rw [hrest]
        simp
      rw [tokens, List.foldlM_cons, hm _ (by simp)]
      simp only [open?, Option.bind_eq_bind, Option.bind_some, List.foldlM_append, hj, hk,
        List.foldlM_cons, List.foldlM_nil, step, hitems, Option.pure_def]
  | @obj ms _ ih =>
    intro m stack hm
    cases ms with
    | nil =>
      rw [tokens, List.foldlM_cons, hm _ (by simp)]
      rfl
    | cons n ms =>
      obtain ⟨l, i⟩ := n
      have hi := ih (l, i) (List.mem_cons_self ..) _ _ (opens_value (.object [] l :: stack))
      obtain ⟨k', j', rest, hk, hrest⟩ :=
        foldlM_memberTokens (fun m hm ↦ ih m (List.mem_cons_of_mem (l, i) hm)) l i [] stack
      have hmembers : ((k', j') :: rest).reverse = (l, i) :: ms := by
        rw [hrest]
        simp
      rw [tokens, List.foldlM_cons, hm _ (by simp)]
      simp only [open?, Option.bind_eq_bind, Option.bind_some, List.foldlM_append, List.foldlM_cons,
        List.foldlM_nil, step, hi, hk, hmembers, Option.pure_def]

end Machine

/-- Reading undoes writing, at every indentation. -/
theorem parse?_pretty {j : Json} (hw : Whole j) (depth : Nat) : parse? (pretty depth j) = some j := by
  have hm := Machine.assembles hw _ _ (Machine.opens_value [])
  rw [parse?, tokens?_pretty hw depth, Option.bind_eq_bind, Option.bind_some, hm]
  rfl

theorem eq_of_pretty_eq {j k : Json} (hj : Whole j) (hk : Whole k) {depth : Nat}
    (h : pretty depth j = pretty depth k) : j = k := by
  have hparse := congrArg parse? h
  rw [parse?_pretty hj, parse?_pretty hk] at hparse
  exact Option.some.inj hparse

end Durability.Json
