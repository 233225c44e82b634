import Durability.Proofs.Repair.Compose
import Durability.Proofs.Repair.Outcome

namespace Durability

variable {i j k : InstrId} {fix existing incoming : Fix} {m : FixMap} {l done : List (InstrId × Fix)}
  {points : List InstrId}

def OneEach (l : List (InstrId × Fix)) : Prop :=
  ∀ i fix fix', (i, fix) ∈ l → (i, fix') ∈ l → fix = fix'

theorem OneEach.of_nodup (h : (l.map Prod.fst).Nodup) : OneEach l := fun _ _ _ hfix hfix' ↦
  congrArg Prod.snd (List.inj_on_of_nodup_map h hfix hfix' rfl)

namespace FixMap

/-- What is on record is just what `l` has. -/
def Records (l : List (InstrId × Fix)) (m : FixMap) : Prop :=
  ∀ i fix, m.get? i = some fix ↔ (i, fix) ∈ l

theorem Records.oneEach (h : Records l m) : OneEach l := by
  intro i fix fix' hfix hfix'
  exact Option.some.inj (((h i fix).2 hfix).symm.trans ((h i fix').2 hfix'))

theorem merge_conditional (hc : incoming.kind.isConditional = true) (hne : existing ≠ incoming) :
    merge i existing incoming = .error (.unhandledFixes i existing incoming) := by
  rw [merge.eq_def, if_neg hne]
  split
  · next hk => rw [hk] at hc; cases hc
  · next hk => rw [hk] at hc; cases hc
  · next hk => rw [hk] at hc; cases hc
  · next hk => rw [hk] at hc; cases hc
  · rfl

theorem Records.empty : Records [] ∅ := fun _ _ ↦ ⟨nofun, nofun⟩

theorem Records.concat (h : Records l m) {m' : FixMap} (hi : ∀ fix, m.get? i = some fix → fix = incoming)
    (hget : ∀ j, m'.get? j = if i = j then some incoming else m.get? j) :
    Records (l ++ [(i, incoming)]) m' := by
  intro j fix
  rw [hget, List.mem_append, List.mem_singleton, Prod.mk.injEq, ← h j fix]
  split
  · next hij =>
    subst hij
    rw [Option.some.injEq, eq_comm, and_iff_right rfl, or_iff_right_of_imp (hi fix)]
  · next hij => rw [or_iff_left fun heq ↦ hij heq.1.symm]

theorem Records.add (h : Records l m) (hc : incoming.kind.isConditional = true) (i : InstrId) :
    (∃ new m', m.add i incoming = .ok (new, m') ∧ Records (l ++ [(i, incoming)]) m') ∨
      ∃ existing, (i, existing) ∈ l ∧ existing ≠ incoming ∧
        m.add i incoming = .error (.unhandledFixes i existing incoming) := by
  cases hexisting : m.get? i with
  | none =>
    obtain ⟨new, m', hadd, hget⟩ : ∃ new m', m.add i incoming = .ok (new, m') ∧
        ∀ j, m'.get? j = if i = j then some incoming else m.get? j := exists_add hexisting rfl
    exact .inl ⟨new, m', hadd, h.concat (fun _ hfix ↦ nomatch hexisting.symm.trans hfix) hget⟩
  | some existing =>
    by_cases hsame : existing = incoming
    · subst hsame
      obtain ⟨new, m', hadd, hget⟩ : ∃ new m', m.add i existing = .ok (new, m') ∧
          ∀ j, m'.get? j = if i = j then some existing else m.get? j :=
        exists_add hexisting (if_pos rfl)
      exact .inl ⟨new, m', hadd, h.concat
        (fun _ hfix ↦ Option.some.inj (hfix.symm.trans hexisting)) hget⟩
    · refine .inr ⟨existing, (h i existing).1 hexisting, hsame, ?_⟩
      rw [FixMap.add_eq, hexisting]
      exact congrArg (· >>= _) (merge_conditional hc hsame)

/-- The instructions that are come to from `i` in `n` steps, each by the fix of the one before. -/
def walk (m : FixMap) : Nat → InstrId → List InstrId
  | 0, _ => []
  | n + 1, i =>
    match (m.get? i).bind (·.dependent) with
    | none => []
    | some j => j :: m.walk n j

theorem walk_of_get {n : Nat} {kind : FixKind} (h : m.get? i = some (.onto kind j)) :
    m.walk (n + 1) i = j :: m.walk n j := by
  rw [walk, h]
  rfl

/-- The removal of the flush `i` depends on conditional flushes at `points`, and there is no other fix. By
way of the fixes one comes from `i` to each of the points, the last one first, and back to `i`. -/
structure Chained (m : FixMap) (i : InstrId) (points : List InstrId) : Prop where
  nodup : (i :: points).Nodup
  removal : (m.get? i).map (·.kind) = some .removeFlushIf
  flushes : ∀ j ∈ points, (m.get? j).map (·.kind) = some .addFlushIf
  only : ∀ j, m.contains j = true → j = i ∨ j ∈ points
  walk : m.walk (points.length + 1) i = points.reverse ++ [i]

end FixMap

theorem getLastD_past {α : Type} (l l' : List α) (a b : α) :
    (l ++ a :: l').getLastD b = l'.getLastD a := by
  rw [List.getLastD_eq_getLast?, List.getLast?_append_of_ne_nil _ (List.cons_ne_nil _ _),
    ← List.getLastD_eq_getLast?, List.getLastD_cons]

namespace RepairTask

open Stateful

theorem mem_zip_iff : (j, k) ∈ points.zip (i :: points) ↔
    ∃ before after, points = before ++ j :: after ∧ k = before.getLastD i := by
  induction points generalizing i with
  | nil => simp
  | cons p points ih =>
    rw [List.zip_cons_cons, List.mem_cons, ih]
    constructor
    · rintro (h | ⟨before, after, rfl, rfl⟩)
      · cases h
        exact ⟨[], points, rfl, rfl⟩
      · exact ⟨p :: before, after, rfl, List.getLastD_cons.symm⟩
    · rintro ⟨before, after, hsplit, rfl⟩
      cases before with
      | nil =>
        cases hsplit
        exact .inl rfl
      | cons q before =>
        cases hsplit
        exact .inr ⟨before, after, rfl, List.getLastD_cons⟩

theorem mem_chain_iff : (j, fix) ∈ chain i points ↔
    (∃ before after, points = before ++ j :: after ∧ fix = .onto .addFlushIf (before.getLastD i)) ∨
      j = i ∧ fix = .onto .removeFlushIf (points.getLastD i) := by
  rw [chain, List.mem_append, List.mem_map, List.mem_singleton, Prod.mk.injEq, List.getLastD_cons]
  refine or_congr_left ⟨?_, ?_⟩
  · rintro ⟨⟨j, k⟩, hmem, h⟩
    cases h
    obtain ⟨before, after, hsplit, rfl⟩ := mem_zip_iff.1 hmem
    exact ⟨before, after, hsplit, rfl⟩
  · rintro ⟨before, after, hsplit, rfl⟩
    exact ⟨(j, _), mem_zip_iff.2 ⟨before, after, hsplit, rfl⟩, rfl⟩

theorem map_fst_chain : (chain i points).map Prod.fst = points ++ [i] := by
  have hlength : points.length ≤ (i :: points).length := Nat.le_succ _
  rw [chain, List.map_append, List.map_map]
  exact congrArg (· ++ [i]) (List.map_fst_zip hlength)

theorem not_mem_of_oneEach (h : OneEach (chain i points)) : i ∉ points := by
  intro hi
  obtain ⟨before, after, hsplit⟩ := List.append_of_mem hi
  have hfix := h i _ _ (mem_chain_iff.2 (.inl ⟨before, after, hsplit, rfl⟩))
    (mem_chain_iff.2 (.inr ⟨rfl, rfl⟩))
  cases congrArg Fix.kind hfix

theorem not_mem_of_split (h : OneEach (chain i points)) {before after : List InstrId}
    (hsplit : points = before ++ j :: after) (hbefore : before.Nodup) : j ∉ before := by
  intro hj
  obtain ⟨first, between, rfl⟩ := List.append_of_mem hj
  have hfix := h j _ _
    (mem_chain_iff.2 (.inl ⟨first, between ++ j :: after, by rw [hsplit]; simp, rfl⟩))
    (mem_chain_iff.2 (.inl ⟨first ++ j :: between, after, hsplit, rfl⟩))
  have hsame : first.getLastD i = (first ++ j :: between).getLastD i :=
    Option.some.inj (congrArg Fix.dependent hfix)
  rw [getLastD_past] at hsame
  have hmem : first.getLastD i ∈ j :: between := hsame ▸ List.getLastD_mem_cons
  obtain hfirst | hfirst := List.mem_cons.1 (List.getLastD_mem_cons (l := first) (a := i))
  · rw [hfirst] at hmem
    exact not_mem_of_oneEach h (hsplit ▸ List.mem_append_left _ (List.mem_append_right _ hmem))
  · exact (List.nodup_append'.1 hbefore).2.2 hfirst hmem

theorem oneEach_chain_iff : OneEach (chain i points) ↔ (i :: points).Nodup := by
  constructor
  · intro h
    have hprefix (l : List InstrId) : ∀ more, points = l ++ more → l.Nodup := by
      induction l using List.reverseRecOn with
      | nil => exact fun _ _ ↦ .nil
      | append_singleton l j ih =>
        intro more hmore
        rw [List.append_assoc, List.singleton_append] at hmore
        have hl := ih _ hmore
        exact List.nodup_append'.2 ⟨hl, List.nodup_singleton j,
          List.disjoint_singleton.2 (not_mem_of_split h hmore hl)⟩
    exact List.nodup_cons.2 ⟨not_mem_of_oneEach h, hprefix points [] (List.append_nil _).symm⟩
  · intro h
    refine .of_nodup ?_
    rw [map_fst_chain]
    exact (List.perm_append_singleton i points).nodup_iff.2 h

theorem chained_of_records (h : m.Records (chain i points)) : m.Chained i points where
  nodup := oneEach_chain_iff.1 h.oneEach
  removal := by
    rw [(h i _).2 (mem_chain_iff.2 (.inr ⟨rfl, rfl⟩))]
    rfl
  flushes j hj := by
    obtain ⟨before, after, hsplit⟩ := List.append_of_mem hj
    rw [(h j _).2 (mem_chain_iff.2 (.inl ⟨before, after, hsplit, rfl⟩))]
    rfl
  only j hj := by
    obtain ⟨fix, hfix⟩ := Option.isSome_iff_exists.1 hj
    obtain ⟨before, after, rfl, -⟩ | ⟨rfl, -⟩ := mem_chain_iff.1 ((h j fix).1 hfix)
    · exact .inr (List.mem_append_right _ List.mem_cons_self)
    · exact .inl rfl
  walk := by
    -- from each point on, one comes back through those in front of it
    have hback (l : List InstrId) : ∀ more, points = l ++ more →
        l.getLastD i :: m.walk l.length (l.getLastD i) = l.reverse ++ [i] := by
      induction l using List.reverseRecOn with
      | nil => exact fun _ _ ↦ rfl
      | append_singleton l j ih =>
        intro more hmore
        rw [List.append_assoc, List.singleton_append] at hmore
        have hget := (h j _).2 (mem_chain_iff.2 (.inl ⟨l, more, hmore, rfl⟩))
        rw [List.getLastD_concat, List.length_append, List.length_singleton,
          FixMap.walk_of_get hget, ih _ hmore, List.reverse_concat, List.cons_append]
    rw [FixMap.walk_of_get ((h i _).2 (mem_chain_iff.2 (.inr ⟨rfl, rfl⟩)))]
    exact hback points [] (List.append_nil _).symm

section Meets

variable {s : Fixer} {E : Failure RepairError → Prop} (hs : s.fixes.Records done)
include hs

theorem addFixes_conditional (hl : ∀ e ∈ l, e.2.kind.isConditional = true)
    (hE : ¬ OneEach (done ++ l) →
      ∀ j existing incoming, E (.refused (.unhandledFixes j existing incoming))) :
    Meets E (addFixes l) s fun _ s' ↦ s'.fixes.Records (done ++ l) := by
  induction l generalizing s done with
  | nil =>
    rw [List.append_nil]
    exact .pure hs
  | cons e l ih =>
    obtain ⟨he, hl⟩ := List.forall_mem_cons.1 hl
    have hadd : Meets E (addFix e.1 e.2) s fun _ r ↦ r.fixes.Records (done ++ [e]) := by
      refine addFix_meets ((hs.add he e.1).imp_right ?_)
      rintro ⟨existing, hmem, hne, hadd⟩
      refine ⟨_, hadd, hE (fun hone ↦ hne ?_) _ _ _⟩
      exact hone e.1 _ _ (List.mem_append_left _ hmem) (List.mem_append_right _ List.mem_cons_self)
    rw [List.append_cons] at hE ⊢
    exact hadd.bind fun _ r hr ↦ .bind (ih hr hl hE) fun _ r' hr' ↦ .pure hr'

end Meets

theorem addFixes_singleton {s : Fixer} (hs : s.fixes = ∅) (i : InstrId) (fix : Fix) :
    ∃ s', addFixes [(i, fix)] s = (.ok true, s') ∧ s'.fixes.Records [(i, fix)] := by
  obtain ⟨fixes, fixed, unfixed, graphs⟩ := s
  cases hs
  refine ⟨⟨SortedMap.insert ∅ i fix, fixed, unfixed, graphs⟩, rfl, ?_⟩
  exact FixMap.Records.empty.concat nofun (SortedMap.get?_insert ∅ i fix)

/-- A chain is recorded as a whole, or it clashes with itself. -/
theorem addFixes_chain {s : Fixer} (hs : s.fixes = ∅) (i : InstrId) (points : List InstrId) :
    ((i :: points).Nodup ∧
      ∃ s', addFixes (chain i points) s = (.ok true, s') ∧ s'.fixes.Chained i points) ∨
    (¬ (i :: points).Nodup ∧ ∃ j existing incoming s', addFixes (chain i points) s =
      (.error (.refused (.unhandledFixes j existing incoming)), s')) := by
  have hrecords : s.fixes.Records [] := hs ▸ .empty
  have hmeets : Meets (fun e ↦ ¬ (i :: points).Nodup ∧
      ∃ j existing incoming, e = .refused (.unhandledFixes j existing incoming))
      (addFixes (chain i points)) s fun _ s' ↦ s'.fixes.Records (chain i points) :=
    addFixes_conditional hrecords (fun _ he ↦ isConditional_of_mem_chain he)
      fun hone _ _ _ ↦ ⟨fun hnodup ↦ hone (oneEach_chain_iff.2 hnodup), _, _, _, rfl⟩
  rcases hrun : addFixes (chain i points) s with ⟨e | new, s'⟩
  · obtain ⟨hclash, j, existing, incoming, rfl⟩ := hmeets.error e s' hrun
    exact .inr ⟨hclash, j, existing, incoming, s', rfl⟩
  · have hchained := chained_of_records (hmeets.ok new s' hrun)
    have hnew : new = true := by
      refine (addFixes_handled hrun).reports.iff_ne.2 fun hsame ↦ ?_
      have hremoval := hchained.removal
      rw [hsame, hs] at hremoval
      cases hremoval
    exact .inl ⟨hchained.nodup, s', by rw [hnew], hchained⟩

end RepairTask

end Durability
