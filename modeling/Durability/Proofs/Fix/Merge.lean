import Durability.Fix.Map
import Durability.Proofs.Attempt
import Mathlib.Data.List.Induction
import Mathlib.Data.List.Nodup

namespace Durability

variable {i j : InstrId} {k l m : FixKind} {ks more : List FixKind}

namespace FixKind

def Complements (k l : FixKind) : Prop := k = addFlush ∧ l = addFence ∨ k = addFence ∧ l = addFlush

instance : Decidable (k.Complements l) := inferInstanceAs (Decidable (_ ∨ _))

/-- One after the other, the fixes come to one: all are the same, or to the first ones there comes their
complement, and from then on all do both. -/
inductive Composes : List FixKind → FixKind → Prop
  | same (k : FixKind) (n : Nat) : Composes (.replicate (n + 1) k) k
  | both {k l : FixKind} (n m : Nat) : k.Complements l →
      Composes (.replicate (n + 1) k ++ l :: .replicate m addFlushAndFence) addFlushAndFence

/-- What the policy makes of two fixes. -/
def Joins (k l m : FixKind) : Prop := k = l ∧ m = k ∨ k.Complements l ∧ m = addFlushAndFence

theorem Complements.ne (h : k.Complements l) : k ≠ l := by
  obtain ⟨rfl, rfl⟩ | ⟨rfl, rfl⟩ := h <;> nofun

theorem Complements.ne_both (h : k.Complements l) : k ≠ addFlushAndFence := by
  obtain ⟨rfl, -⟩ | ⟨rfl, -⟩ := h <;> nofun

theorem composes_singleton_iff : Composes [k] m ↔ m = k := by
  constructor
  · intro h
    generalize hks : [k] = ks at h
    cases h with
    | same _ n =>
      cases n with
      | zero =>
        cases hks
        rfl
      | succ n => simp [List.replicate_succ] at hks
    | both n m _ => simp [List.replicate_succ] at hks
  · rintro rfl
    exact .same m 0

theorem composes_concat_iff (hks : ks ≠ []) :
    Composes (ks ++ [l]) m ↔ ∃ k, Composes ks k ∧ k.Joins l m := by
  constructor
  · intro h
    generalize hall : ks ++ [l] = all at h
    cases h with
    | same _ n =>
      rw [List.replicate_succ'] at hall
      obtain ⟨rfl, hl⟩ := List.append_inj' hall rfl
      cases hl
      cases n with
      | zero => exact absurd rfl hks
      | succ n => exact ⟨l, .same l n, .inl ⟨rfl, rfl⟩⟩
    | @both k l' n m hcomp =>
      cases m with
      | zero =>
        obtain ⟨rfl, hl⟩ := List.append_inj' hall rfl
        cases hl
        exact ⟨k, .same k n, .inr ⟨hcomp, rfl⟩⟩
      | succ m =>
        rw [List.replicate_succ' (n := m), ← List.cons_append, ← List.append_assoc] at hall
        obtain ⟨rfl, hl⟩ := List.append_inj' hall rfl
        cases hl
        exact ⟨addFlushAndFence, .both n m hcomp, .inl ⟨rfl, rfl⟩⟩
  · rintro ⟨k, hk, ⟨rfl, rfl⟩ | ⟨hcomp, rfl⟩⟩
    · cases hk with
      | same _ n =>
        rw [← List.replicate_succ']
        exact .same _ _
      | both n m hcomp =>
        rw [List.append_assoc, List.cons_append, ← List.replicate_succ']
        exact .both n (m + 1) hcomp
    · cases hk with
      | same _ n => exact .both n 0 hcomp
      | both n m _ => exact absurd rfl hcomp.ne_both

theorem Joins.unique {m' : FixKind} (h : k.Joins l m) (h' : k.Joins l m') : m = m' := by
  obtain ⟨rfl, rfl⟩ | ⟨hcomp, rfl⟩ := h
  · obtain ⟨-, rfl⟩ | ⟨hcomp, rfl⟩ := h'
    · rfl
    · exact absurd rfl hcomp.ne
  · obtain ⟨rfl, -⟩ | ⟨-, rfl⟩ := h'
    · exact absurd rfl hcomp.ne
    · rfl

theorem not_composes_nil : ¬ Composes [] m := by
  intro h
  generalize hks : ([] : List FixKind) = ks at h
  cases h <;> simp [List.replicate_succ] at hks

theorem Composes.unique {m' : FixKind} (h : Composes ks m) (h' : Composes ks m') : m = m' := by
  induction ks using List.reverseRecOn generalizing m m' with
  | nil => exact absurd h not_composes_nil
  | append_singleton ks l ih =>
    by_cases hks : ks = []
    · subst hks
      rw [composes_singleton_iff.1 h, composes_singleton_iff.1 h']
    · obtain ⟨k, hk, hjoins⟩ := (composes_concat_iff hks).1 h
      obtain ⟨k', hk', hjoins'⟩ := (composes_concat_iff hks).1 h'
      cases ih hk hk'
      exact hjoins.unique hjoins'

theorem Composes.of_append (hks : ks ≠ []) (h : Composes (ks ++ more) m) : ∃ k, Composes ks k := by
  induction more using List.reverseRecOn generalizing m with
  | nil => exact ⟨m, List.append_nil ks ▸ h⟩
  | append_singleton more l ih =>
    rw [← List.append_assoc] at h
    obtain ⟨k, hk, -⟩ := (composes_concat_iff (List.append_ne_nil_of_left_ne_nil hks more)).1 h
    exact ih hk

end FixKind

namespace FixMap

open FixKind

variable {map : FixMap} {adds total : List (InstrId × FixKind)}

theorem merge_plain (hl : l ≠ .removeFlush) :
    (∃ m, k.Joins l m ∧ merge i (.plain k) (.plain l) = .ok (.plain m)) ∨
      (∀ m, ¬ k.Joins l m) ∧
        merge i (.plain k) (.plain l) = .error (.unhandledFixes i (.plain k) (.plain l)) := by
  by_cases hkl : k = l
  · exact .inl ⟨k, .inl ⟨hkl, rfl⟩, by rw [merge.eq_def, if_pos (congrArg Fix.plain hkl)]⟩
  · have hne : Fix.plain k ≠ Fix.plain l := fun h ↦ hkl (congrArg Fix.kind h)
    by_cases hcomp : k.Complements l
    · refine .inl ⟨.addFlushAndFence, .inr ⟨hcomp, rfl⟩, ?_⟩
      rw [merge.eq_def, if_neg hne]
      obtain ⟨rfl, rfl⟩ | ⟨rfl, rfl⟩ := hcomp <;> rfl
    · refine .inr ⟨fun m hjoins ↦ hjoins.elim (hkl ·.1) (hcomp ·.1), ?_⟩
      rw [merge.eq_def, if_neg hne]
      split
      · next hk hl' => exact absurd (.inl ⟨hk, hl'⟩) hcomp
      · next hk hl' => exact absurd (.inr ⟨hk, hl'⟩) hcomp
      · next hl' => exact absurd hl' hl
      · next hl' => exact absurd hl' hl
      · rfl

def addsAt (adds : List (InstrId × FixKind)) (i : InstrId) : List FixKind :=
  (adds.filter (·.1 = i)).map (·.2)

theorem addsAt_append (adds adds' : List (InstrId × FixKind)) (i : InstrId) :
    addsAt (adds ++ adds') i = addsAt adds i ++ addsAt adds' i := by
  rw [addsAt, List.filter_append, List.map_append, addsAt, addsAt]

theorem addsAt_singleton (i : InstrId) (k : FixKind) (j : InstrId) :
    addsAt [(i, k)] j = if i = j then [k] else [] := by
  by_cases hij : i = j <;> simp [addsAt, hij]

theorem addsAt_flatMap {α : Type} (l : List α) (f : α → List (InstrId × FixKind)) (i : InstrId) :
    addsAt (l.flatMap f) i = l.flatMap fun a ↦ addsAt (f a) i := by
  induction l with
  | nil => rfl
  | cons a l ih => rw [List.flatMap_cons, addsAt_append, ih, List.flatMap_cons]

theorem length_addsAt_le {is : List InstrId} (his : is.Nodup) (k : FixKind) (i : InstrId) :
    (addsAt (is.map (·, k)) i).length ≤ 1 := by
  rw [addsAt, List.length_map, List.filter_map, List.length_map, ← List.countP_eq_length_filter]
  exact List.nodup_iff_count_le_one.1 his i

/-- At each instruction stands what the additions for it come to. -/
def Composed (adds : List (InstrId × FixKind)) (map : FixMap) : Prop :=
  ∀ i, addsAt adds i = [] ∧ map.get? i = none ∨
    ∃ k, Composes (addsAt adds i) k ∧ map.get? i = some (.plain k)

/-- Two additions for one instruction do not go together. -/
inductive Clashes (adds : List (InstrId × FixKind)) : RepairError → Prop
  | intro (i : InstrId) (existing incoming : Fix) : addsAt adds i ≠ [] →
      (∀ k, ¬ Composes (addsAt adds i) k) → Clashes adds (.unhandledFixes i existing incoming)

theorem Composed.empty : Composed [] ∅ := fun _ ↦ .inl ⟨rfl, rfl⟩

theorem Composed.get?_eq_some_iff (h : Composed adds map) {fix : Fix} :
    map.get? i = some fix ↔ ∃ k, Composes (addsAt adds i) k ∧ fix = .plain k := by
  obtain ⟨hnil, hnone⟩ | ⟨k, hk, hsome⟩ := h i
  · rw [hnone, hnil]
    exact iff_of_false nofun fun ⟨k, hk, _⟩ ↦ not_composes_nil hk
  · rw [hsome, Option.some.injEq]
    constructor
    · rintro rfl
      exact ⟨k, hk, rfl⟩
    · rintro ⟨k', hk', rfl⟩
      rw [hk.unique hk']

theorem Composed.contains_iff (h : Composed adds map) :
    map.contains i = true ↔ addsAt adds i ≠ [] := by
  rw [SortedMap.contains]
  obtain ⟨hnil, hnone⟩ | ⟨k, hk, hsome⟩ := h i
  · rw [hnone, hnil]
    exact iff_of_false Bool.false_ne_true fun hne ↦ hne rfl
  · rw [hsome]
    exact iff_of_true rfl fun hnil ↦ not_composes_nil (hnil ▸ hk)

theorem Composed.addsAt_eq (h : Composed adds map) (hlength : (addsAt adds i).length ≤ 1) :
    addsAt adds i = ((map.get? i).map (·.kind)).toList := by
  obtain ⟨hnil, hnone⟩ | ⟨k, hk, hsome⟩ := h i
  · rw [hnil, hnone]
    rfl
  · rw [hsome]
    obtain ⟨l, hl⟩ : ∃ l, addsAt adds i = [l] := by
      refine List.length_eq_one_iff.1 (Nat.le_antisymm hlength ?_)
      exact List.length_pos_iff.2 fun hnil ↦ not_composes_nil (hnil ▸ hk)
    rw [hl] at hk ⊢
    rw [composes_singleton_iff.1 hk]
    rfl

theorem Clashes.mono {e : RepairError} (h : Clashes adds e) (hadds : adds <+: total) :
    Clashes total e := by
  obtain ⟨more, rfl⟩ := hadds
  obtain ⟨i, existing, incoming, hne, hnot⟩ := h
  refine ⟨i, existing, incoming, ?_, fun k hk ↦ ?_⟩
  · rw [addsAt_append]
    exact List.append_ne_nil_of_left_ne_nil hne _
  · rw [addsAt_append] at hk
    obtain ⟨k', hk'⟩ := hk.of_append hne
    exact hnot k' hk'

theorem exists_add {existing? : Option Fix} {incoming fix : Fix} (h : map.get? i = existing?)
    (hfix : existing?.elim (.ok incoming) (merge i · incoming) = .ok fix) :
    ∃ new map', map.add i incoming = .ok (new, map') ∧
      ∀ j, map'.get? j = if i = j then some fix else map.get? j := by
  cases existing? with
  | none =>
    cases hfix
    exact ⟨true, map.insert i incoming, by rw [add_eq, h], map.get?_insert i incoming⟩
  | some existing =>
    have hadd : map.add i incoming =
        .ok (if fix = existing then (false, map) else (true, map.insert i fix)) := by
      rw [add_eq, h]
      exact bind_eq_ok_iff.2 ⟨fix, hfix, rfl⟩
    by_cases hsame : fix = existing
    · refine ⟨false, map, by rw [hadd, if_pos hsame], fun j ↦ ?_⟩
      split
      · next hij => rw [← hij, h, hsame]
      · rfl
    · exact ⟨true, map.insert i fix, by rw [hadd, if_neg hsame], map.get?_insert i fix⟩

theorem Composed.concat (h : Composed adds map) {map' : FixMap}
    (hm : Composes (addsAt adds i ++ [k]) m)
    (hget : ∀ j, map'.get? j = if i = j then some (.plain m) else map.get? j) :
    Composed (adds ++ [(i, k)]) map' := by
  intro j
  rw [addsAt_append, addsAt_singleton, hget]
  by_cases hij : i = j
  · subst hij
    rw [if_pos rfl, if_pos rfl]
    exact .inr ⟨m, hm, rfl⟩
  · rw [if_neg hij, if_neg hij, List.append_nil]
    exact h j

theorem Composed.add (h : Composed adds map) (hk : k ≠ .removeFlush) (i : InstrId) :
    (∃ new map', map.add i (.plain k) = .ok (new, map') ∧ Composed (adds ++ [(i, k)]) map') ∨
      ∃ e, map.add i (.plain k) = .error e ∧ Clashes (adds ++ [(i, k)]) e := by
  obtain ⟨hnil, hnone⟩ | ⟨m, hm, hsome⟩ := h i
  · obtain ⟨new, map', hadd, hget⟩ : ∃ new map', map.add i (.plain k) = .ok (new, map') ∧
        ∀ j, map'.get? j = if i = j then some (.plain k) else map.get? j := exists_add hnone rfl
    have hk : Composes (addsAt adds i ++ [k]) k := by
      rw [hnil]
      exact composes_singleton_iff.2 rfl
    exact .inl ⟨new, map', hadd, h.concat hk hget⟩
  have hne : addsAt adds i ≠ [] := fun hnil ↦ not_composes_nil (hnil ▸ hm)
  obtain ⟨m', hjoins, hmerge⟩ | ⟨hnot, hmerge⟩ := merge_plain (k := m) (i := i) hk
  · obtain ⟨new, map', hadd, hget⟩ := exists_add hsome hmerge
    exact .inl ⟨new, map', hadd, h.concat ((composes_concat_iff hne).2 ⟨m, hm, hjoins⟩) hget⟩
  · have hat : addsAt (adds ++ [(i, k)]) i = addsAt adds i ++ [k] := by
      rw [addsAt_append, addsAt_singleton, if_pos rfl]
    refine .inr ⟨_, ?_, .intro i (.plain m) (.plain k) ?_ fun m' hm' ↦ ?_⟩
    · rw [FixMap.add_eq, hsome]
      change (merge i (.plain m) (.plain k) >>= _) = _
      rw [hmerge]
      rfl
    · rw [hat]
      exact List.append_ne_nil_of_left_ne_nil hne _
    · rw [hat, composes_concat_iff hne] at hm'
      obtain ⟨k', hk', hjoins⟩ := hm'
      exact hnot m' (hm.unique hk' ▸ hjoins)

end FixMap

end Durability
