import Durability.Proofs.Fix.Change
import Durability.Proofs.Fix.Merge
import Durability.Proofs.Repair.Fixes

namespace Durability

variable {m m' : FixMap} {i j : InstrId} {fix fix' existing incoming : Fix} {new : Bool}
  {l l' done : List (InstrId × Fix)}

namespace FixMap

theorem merge_eq_ok_iff : merge i existing incoming = .ok fix ↔
    incoming = existing ∧ fix = existing ∨
      existing.kind.Complements incoming.kind ∧ fix = .plain .addFlushAndFence := by
  rw [merge.eq_def]
  split
  · next heq =>
    subst heq
    have hself : ¬ existing.kind.Complements existing.kind := fun h ↦ h.ne rfl
    simp [hself, eq_comm]
  · next hne =>
    constructor
    · intro h
      split at h
      · next hk hk' =>
        cases h
        exact .inr ⟨.inl ⟨hk, hk'⟩, rfl⟩
      · next hk hk' =>
        cases h
        exact .inr ⟨.inr ⟨hk, hk'⟩, rfl⟩
      all_goals cases h
    · rintro (⟨heq, -⟩ | ⟨⟨hk, hk'⟩ | ⟨hk, hk'⟩, rfl⟩)
      · exact absurd heq.symm hne
      · rw [hk, hk']
      · rw [hk, hk']

theorem get?_of_add (h : m.add i incoming = .ok (new, m')) :
    ∃ fix, (m.get? i).elim (.ok incoming) (merge i · incoming) = .ok fix ∧
      ∀ j, m'.get? j = if i = j then some fix else m.get? j := by
  cases hfix : (m.get? i).elim (.ok incoming) (merge i · incoming) with
  | ok fix =>
    obtain ⟨new', map, hadd, hget⟩ := exists_add rfl hfix
    cases hadd.symm.trans h
    exact ⟨fix, rfl, hget⟩
  | error e =>
    rw [add_eq] at h
    cases hexisting : m.get? i with
    | none =>
      rw [hexisting] at hfix
      cases hfix
    | some existing =>
      rw [hexisting] at h hfix
      obtain ⟨fix, hmerge, -⟩ := bind_eq_ok_iff.1 h
      cases hfix.symm.trans hmerge

theorem add_of_get? (h : m.get? i = some incoming) : m.add i incoming = .ok (false, m) := by
  rw [add_eq, h]
  refine bind_eq_ok_iff.2 ⟨incoming, if_pos rfl, ?_⟩
  rw [if_pos rfl]
  rfl

theorem eq_of_add_add {m'' : FixMap} {newer : Bool} (h : m.add i incoming = .ok (new, m'))
    (h' : m'.add i incoming = .ok (newer, m'')) : newer = false ∧ m'' = m' := by
  obtain ⟨fix, hfix, hget⟩ := get?_of_add h
  obtain ⟨fix', hfix', -⟩ := get?_of_add h'
  have hat : m'.get? i = some fix := by rw [hget, if_pos rfl]
  have hsame : fix = incoming := by
    cases hexisting : m.get? i with
    | none =>
      rw [hexisting] at hfix
      cases hfix
      rfl
    | some existing =>
      rw [hexisting] at hfix
      rw [hat] at hfix'
      obtain ⟨rfl, rfl⟩ | ⟨-, rfl⟩ := merge_eq_ok_iff.1 hfix
      · rfl
      · obtain ⟨heq, -⟩ | ⟨hcomp, -⟩ := merge_eq_ok_iff.1 hfix'
        · exact heq.symm
        · exact absurd rfl hcomp.ne_both
  cases h'.symm.trans (add_of_get? (hsame ▸ hat))
  exact ⟨rfl, rfl⟩

/-- What the additions `l` leave at `i` in whatever order: the only fix for it, or the joint one. -/
inductive Leaves (l : List (InstrId × Fix)) (i : InstrId) : Fix → Prop
  | only {fix : Fix} : (i, fix) ∈ l → (∀ other, (i, other) ∈ l → other = fix) → Leaves l i fix
  | joint {fix other : Fix} : (i, fix) ∈ l → (i, other) ∈ l → other ≠ fix →
      Leaves l i (.plain .addFlushAndFence)

namespace Leaves

theorem unique (h : Leaves l i fix) (h' : Leaves l i fix') : fix = fix' := by
  cases h with
  | only hmem honly =>
    cases h' with
    | only hmem' _ => exact (honly _ hmem').symm
    | joint hmem₁ hmem₂ hne => exact absurd ((honly _ hmem₂).trans (honly _ hmem₁).symm) hne
  | joint hmem₁ hmem₂ hne =>
    cases h' with
    | only _ honly => exact absurd ((honly _ hmem₂).trans (honly _ hmem₁).symm) hne
    | joint _ _ _ => rfl

theorem exists_of_mem (h : (i, fix) ∈ l) : ∃ fix', Leaves l i fix' := by
  by_cases honly : ∀ other, (i, other) ∈ l → other = fix
  · exact ⟨fix, .only h honly⟩
  · obtain ⟨other, hother⟩ := not_forall.1 honly
    obtain ⟨hmem, hne⟩ := Classical.not_imp.1 hother
    exact ⟨_, .joint h hmem hne⟩

theorem congr (h : ∀ fix, (i, fix) ∈ l ↔ (i, fix) ∈ l') : Leaves l i fix ↔ Leaves l' i fix := by
  constructor
  · rintro (⟨hmem, honly⟩ | ⟨hmem, hmem', hne⟩)
    · exact .only ((h _).1 hmem) fun other hother ↦ honly other ((h _).2 hother)
    · exact .joint ((h _).1 hmem) ((h _).1 hmem') hne
  · rintro (⟨hmem, honly⟩ | ⟨hmem, hmem', hne⟩)
    · exact .only ((h _).2 hmem) fun other hother ↦ honly other ((h _).1 hother)
    · exact .joint ((h _).2 hmem) ((h _).2 hmem') hne

theorem concat_self (h : Leaves l i fix) : Leaves (l ++ [(i, fix)]) i fix := by
  cases h with
  | only hmem honly =>
    refine .only (List.mem_append_left _ hmem) fun other hother ↦ ?_
    obtain hother | hother := List.mem_append.1 hother
    · exact honly other hother
    · cases List.mem_singleton.1 hother
      rfl
  | joint hmem hmem' hne =>
    exact .joint (List.mem_append_left _ hmem) (List.mem_append_left _ hmem') hne

theorem concat_ne (h : Leaves l i fix) (hne : incoming ≠ fix) :
    Leaves (l ++ [(i, incoming)]) i (.plain .addFlushAndFence) := by
  have hlast : (i, incoming) ∈ l ++ [(i, incoming)] :=
    List.mem_append_right _ (List.mem_singleton.2 rfl)
  cases h with
  | only hmem _ => exact .joint (List.mem_append_left _ hmem) hlast hne
  | joint hmem hmem' hne' =>
    exact .joint (List.mem_append_left _ hmem) (List.mem_append_left _ hmem') hne'

end Leaves

/-- At each instruction stands what the additions leave there. -/
def Sums (l : List (InstrId × Fix)) (m : FixMap) : Prop :=
  ∀ i fix, m.get? i = some fix ↔ Leaves l i fix

namespace Sums

theorem empty : Sums [] ∅ := fun _ _ ↦ ⟨nofun, fun h ↦ by cases h <;> contradiction⟩

theorem add (h : Sums l m) (hadd : m.add i incoming = .ok (new, m')) :
    Sums (l ++ [(i, incoming)]) m' := by
  obtain ⟨fix, hfix, hget⟩ := get?_of_add hadd
  have hleaves : Leaves (l ++ [(i, incoming)]) i fix := by
    cases hexisting : m.get? i with
    | none =>
      rw [hexisting] at hfix
      cases hfix
      refine .only (List.mem_append_right _ (List.mem_singleton.2 rfl)) fun other hother ↦ ?_
      obtain hother | hother := List.mem_append.1 hother
      · obtain ⟨fix', hfix'⟩ := Leaves.exists_of_mem hother
        cases hexisting.symm.trans ((h i fix').2 hfix')
      · cases List.mem_singleton.1 hother
        rfl
    | some existing =>
      rw [hexisting] at hfix
      have hold := (h i existing).1 hexisting
      obtain ⟨rfl, rfl⟩ | ⟨hcomp, rfl⟩ := merge_eq_ok_iff.1 hfix
      · exact hold.concat_self
      · exact hold.concat_ne fun heq ↦ hcomp.ne (congrArg Fix.kind heq).symm
  intro j fix'
  rw [hget]
  split
  · next hij =>
    subst hij
    rw [Option.some.injEq]
    exact ⟨fun heq ↦ heq ▸ hleaves, hleaves.unique⟩
  · next hij =>
    rw [h j fix']
    refine Leaves.congr fun other ↦ ?_
    simp [Ne.symm hij]

/-- Nothing but which fixes there were for an instruction makes a difference. -/
theorem eq_of_perm (h : Sums l m) (h' : Sums l' m') (hperm : l.Perm l') : m = m' := by
  refine SortedMap.ext fun i ↦ Option.ext fun fix ↦ ?_
  rw [h, h']
  exact Leaves.congr fun _ ↦ hperm.mem_iff

end Sums

end FixMap

/-- Between two states `fix` has been taken in for `i`, which `new` says has changed the fixes. -/
structure Fixer.Took (i : InstrId) (fix : Fix) (new : Bool) (s s' : Fixer) : Prop where
  changed : new = true ↔ s'.fixes ≠ s.fixes
  elsewhere : ∀ j, j ≠ i → s'.fixes.get? j = s.fixes.get? j
  kept : ∀ j, s.fixes.contains j = true → s'.fixes.contains j = true
  again : ∀ newer s'', (RepairTask.addFix i fix).run s' = (.ok newer, s'') →
    newer = false ∧ s'' = s'

namespace RepairTask

variable {s s' : Fixer}

theorem addFixes_sums (hs : s.fixes.Sums done) (h : addFixes l s = (.ok new, s')) :
    s'.fixes.Sums (done ++ l) := by
  induction l generalizing s new done with
  | nil =>
    cases h
    rwa [List.append_nil]
  | cons e l ih =>
    obtain ⟨b, r, hadd, h⟩ := Stateful.bind_eq_ok_iff.1 h
    obtain ⟨b', r', hmore, h⟩ := Stateful.bind_eq_ok_iff.1 h
    cases h
    obtain ⟨m, hm, rfl⟩ := add_of_addFix hadd
    rw [List.append_cons]
    exact ih (hs.add hm) hmore

theorem addFix_took (h : addFix i fix s = (.ok new, s')) : s.Took i fix new s' := by
  obtain ⟨m, hadd, rfl⟩ := add_of_addFix h
  obtain ⟨added, -, hget⟩ := FixMap.get?_of_add hadd
  refine ⟨(FixMap.Reports.of_add hadd).iff_ne, fun j hj ↦ ?_, fun j hj ↦ ?_, fun newer r hagain ↦ ?_⟩
  · exact (hget j).trans (if_neg hj.symm)
  · rw [SortedMap.contains] at hj ⊢
    rw [hget]
    split
    · rfl
    · exact hj
  · obtain ⟨m', hadd', rfl⟩ := add_of_addFix hagain
    obtain ⟨rfl, rfl⟩ := FixMap.eq_of_add_add hadd hadd'
    exact ⟨rfl, rfl⟩

/-- Additions to an empty map that are not refused come to the same in every order. Each leaves everything
as it is if it is refused, and otherwise takes in its fix and says whether this is a change. -/
theorem addFixes_confluent :
    (∀ l l' new new' s s', l.Perm l' → (addFixes l).run ∅ = (.ok new, s) →
      (addFixes l').run ∅ = (.ok new', s') → s.fixes = s'.fixes) ∧
    ∀ s i fix, (∀ e s', (addFix i fix).run s = (.error e, s') → s' = s) ∧
      ∀ new s', (addFix i fix).run s = (.ok new, s') → s.Took i fix new s' := by
  refine ⟨fun l l' new new' s s' hperm h h' ↦ ?_, fun s i fix ↦ ⟨fun e s' h ↦ ?_, fun new s' h ↦ ?_⟩⟩
  · have hsums : s.fixes.Sums ([] ++ l) := addFixes_sums .empty h
    have hsums' : s'.fixes.Sums ([] ++ l') := addFixes_sums .empty h'
    exact hsums.eq_of_perm hsums' hperm
  · have h : addFix i fix s = (.error e, s') := h
    obtain ⟨-, -, -, hs'⟩ := addFix_eq_error h
    exact hs'
  · exact addFix_took h

theorem addFixes_confluent_flushFence : ∃ s s' : Fixer,
    (addFixes [(⟨3⟩, .plain .addFlush), (⟨3⟩, .plain .addFence)]).run ∅ = (.ok true, s) ∧
    (addFixes [(⟨3⟩, .plain .addFence), (⟨3⟩, .plain .addFlush)]).run ∅ = (.ok true, s') ∧
      s.fixes = s'.fixes := by
  have h : ∃ s : Fixer, (addFixes [(⟨3⟩, .plain .addFlush), (⟨3⟩, .plain .addFence)]).run ∅ =
      (.ok true, s) := ⟨_, rfl⟩
  have h' : ∃ s : Fixer, (addFixes [(⟨3⟩, .plain .addFence), (⟨3⟩, .plain .addFlush)]).run ∅ =
      (.ok true, s) := ⟨_, rfl⟩
  obtain ⟨s, hs⟩ := h
  obtain ⟨s', hs'⟩ := h'
  exact ⟨s, s', hs, hs', addFixes_confluent.1 _ _ _ _ _ _ (.swap _ _ _) hs hs'⟩

/-- A flush and a fence can be handed in before both together, but not after. -/
example : ((addFixes [(⟨3⟩, .plain .addFlush), (⟨3⟩, .plain .addFence),
      (⟨3⟩, .plain .addFlushAndFence)]).run ∅).1 = .ok true ∧
    ((addFixes [(⟨3⟩, .plain .addFlushAndFence), (⟨3⟩, .plain .addFlush),
      (⟨3⟩, .plain .addFence)]).run ∅).1 = .error (.refused (.unhandledFixes ⟨3⟩
        (.plain .addFlushAndFence) (.plain .addFlush))) := by
  decide +kernel

end RepairTask

end Durability
