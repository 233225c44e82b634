import Durability.Proofs.Redundancy.Boundary

namespace Durability.FlowProblem

open Relation WindowGraph

variable {env : Surroundings} {pts : PointsTo} {first last : Event} {a : FlowProblem}
  {x : Findings} {n m k : Nat} {l : List Nat}

/-- Every path from the root to a leaf that has a node with both flags has a boundary node. -/
def CoversPaths (a : FlowProblem) (x : Findings) : Prop :=
  ∀ l n, a.graph.Path (root :: l) → (root :: l).getLast? = some n → n ∈ a.graph.leaves →
    (∃ m ∈ root :: l, hasBoth x m = true) → ∃ m ∈ root :: l, m ∈ x.boundaries

theorem reaches_of_path (hpath : a.graph.Path (k :: l ++ [n]))
    (hnone : ∀ m ∈ k :: l, hasBoth x m = false) :
    ReflTransGen (fun n m ↦ m ∈ if hasBoth x n then [] else a.graph.children n) k n := by
  have hnext {k : Nat} (hk : hasBoth x k = false) :
      (if hasBoth x k then [] else a.graph.children k) = a.graph.children k := by
    rw [hk]
    rfl
  induction l generalizing k with
  | nil =>
    obtain ⟨hstep, -⟩ := List.isChain_cons_cons.1 hpath
    refine .single ?_
    rwa [hnext (hnone k List.mem_cons_self)]
  | cons j l ih =>
    obtain ⟨hstep, hrest⟩ := List.isChain_cons_cons.1 hpath
    obtain ⟨hk, hnone⟩ := List.forall_mem_cons.1 hnone
    refine .head ?_ (ih hrest hnone)
    rwa [hnext hk]

theorem mem_candidates_of_path (hn : n ∈ a.graph.nodeIds) (hboth : hasBoth x n = true)
    (hpath : a.graph.Path (root :: l ++ [n])) (hnone : ∀ m ∈ root :: l, hasBoth x m = false) :
    n ∈ a.candidates x := by
  refine List.mem_filter.2 ⟨Traversal.mem_order_of_reaches (fun k m hm ↦ ?_)
    (reaches_of_path hpath hnone) (List.mem_singleton.2 rfl) hn, hboth⟩
  split at hm
  · cases hm
  · exact mem_nodeIds_of_mem_children hm

theorem Earliest.eq_of_path {before after : List Nat} (hm : a.Earliest x m)
    (hpath : a.graph.Path (root :: l)) (hsplit : root :: l = before ++ n :: after)
    (hnone : ∀ k ∈ before, hasBoth x k = false) (hboth : hasBoth x n = true) (hmem : m ∈ root :: l) :
    m = n := by
  by_contra hne
  rw [hsplit, List.mem_append, List.mem_cons, or_iff_right hne] at hmem
  obtain hmem | hmem := hmem
  · exact Bool.false_ne_true ((hnone m hmem).symm.trans hm.both)
  -- the walk up to the first visit of `m` passes `n`
  obtain ⟨between, rest, rfl, hfirst⟩ := List.eq_append_cons_of_mem hmem
  obtain ⟨l', hl'⟩ : ∃ l', before ++ n :: between = root :: l' := by
    cases before with
    | nil =>
      cases hsplit
      exact ⟨between, rfl⟩
    | cons j before =>
      cases hsplit
      exact ⟨before ++ n :: between, rfl⟩
  have hvisits : root :: l = (root :: l') ++ m :: rest := by
    rw [hsplit, ← hl', List.append_assoc, List.cons_append]
  have hnew : m ∉ root :: l' := by
    rw [← hl', List.mem_append, List.mem_cons, not_or, not_or]
    refine ⟨fun hmem ↦ Bool.false_ne_true ((hnone m hmem).symm.trans hm.both), hne, hfirst⟩
  have hwalk : a.graph.Path (root :: l' ++ [m]) := by
    rw [hvisits] at hpath
    exact (List.isChain_split.1 hpath).1
  have hn : n ∈ root :: l' := hl' ▸ List.mem_append_right before List.mem_cons_self
  exact Bool.false_ne_true ((hm.alone l' hnew hwalk n hn).symm.trans hboth)

section Joined

open Sample

def joined : Program :=
  let c : Value := .arg ⟨0⟩ 0
  (build (.reserve "main" 1 :: body 0 0
      [[flush 10, fork c 1 2 11], [fork c 3 4 12], [branch 3 13], [branch 5 14],
        [store 15, branch 5 15], [flush 16, ret 17]])
    []).program

theorem joined_drawn : ∃ task a, RepairTask.make .usual joined (.new .generic) = .ok task ∧
    FlowProblem.between task.toSurroundings task.pts (flushAt ("main", 10)) (flushAt ("main", 16)) =
      .ok a ∧
    task.program.validate = .ok () ∧ a.graph.leaves = [5] ∧
    a.Drawn [[1, 2], [3, 4], [3], [5], [5], []] [false, false, false, false, true, false] := by
  obtain ⟨task, a, htask, ha, -, hleaves, hedges, hspoils⟩ := exists_between
    joined (.new .generic) (flushAt ("main", 10)) (flushAt ("main", 16))
    (fun _ a ↦ a.graph.leaves = [5] ∧
      a.graph.nodes.map (·.children.toList) = [[1, 2], [3, 4], [3], [5], [5], []] ∧
      a.graph.nodeIds.map (a.graph.leavesUnflushed a.program a.pts) =
        [false, false, false, false, true, false].map .ok)
    (by decide +kernel)
  obtain ⟨hp, -, -, -⟩ := RepairTask.make_eq_ok htask
  refine ⟨task, a, htask, ha, ?_, hleaves, hedges, hspoils⟩
  rw [hp]
  decide +kernel

theorem joined_hasBoth
    (h : a.Drawn [[1, 2], [3, 4], [3], [5], [5], []] [false, false, false, false, true, false])
    (hx : a.Flagged x) : hasBoth x 0 = false ∧ hasBoth x 1 = false ∧ hasBoth x 2 = true ∧
      hasBoth x 3 = true ∧ hasBoth x 5 = false := by
  have hflags (n : Nat) (hn : n < 6) := hx.both_iff n (by rw [h.nodeIds]; exact List.mem_range.2 hn)
  have hspoils : a.Spoils 4 := (h.spoils_iff 4 (by decide)).2 rfl
  have hbefore (n : Nat) (hn : n = 2 ∨ n = 3) : a.SparedBefore n := by
    refine .of_closed (S := [0, 1, 2]) ?_ (h.not_spoils (by decide))
    simp only [h.nodeIds, h.children]
    obtain rfl | rfl := hn <;> decide
  have hafter (n : Nat) (hn : n = 2 ∨ n = 3) : a.SparedAfter n := by
    refine .of_closed (S := [3, 5]) ?_ (h.not_spoils (by decide))
    simp only [h.children]
    obtain rfl | rfl := hn <;> simp
  have hedge {n m : Nat}
      (hm : m ∈ [[1, 2], [3, 4], [3], [5], [5], []].getD n []) : m ∈ a.graph.children n := by
    rwa [h.children]
  refine ⟨Bool.eq_false_iff.2 fun hboth ↦ ?_, Bool.eq_false_iff.2 fun hboth ↦ ?_,
    (hflags 2 (by decide)).2 ⟨hbefore 2 (.inl rfl), hafter 2 (.inl rfl)⟩,
    (hflags 3 (by decide)).2 ⟨hbefore 3 (.inr rfl), hafter 3 (.inr rfl)⟩,
    Bool.eq_false_iff.2 fun hboth ↦ ?_⟩
  · refine ((hflags 0 (by decide)).1 hboth).2 4 ?_ hspoils
    exact .tail (.single (hedge (m := 1) (by decide))) (hedge (by decide))
  · exact ((hflags 1 (by decide)).1 hboth).2 4 (.single (hedge (by decide))) hspoils
  · obtain hroot | hwalks := ((hflags 5 (by decide)).1 hboth).1
    · cases hroot
    · refine hwalks [1, 4] (by decide) ?_ 4 (by decide) hspoils
      exact .cons_cons (hedge (by decide))
        (.cons_cons (hedge (by decide)) (.cons_cons (hedge (by decide)) (.singleton 5)))

end Joined

/-- On a path with a node that has both flags, the first of them is considered, and it is the one
boundary node of the path if no walk comes to it past another; otherwise the path has none. -/
theorem redundantPaths_first (hv : env.program.validate = .ok ())
    (ha : FlowProblem.between env pts first last = .ok a) (hx : x.Fits a) :
    ∃ points x', a.redundantPaths x = (.ok points, x') ∧ a.Flagged x' ∧
      ∀ l, a.graph.Path (root :: l) → (∃ m ∈ root :: l, hasBoth x' m = true) →
        ∃ n, (root :: l).find? (hasBoth x') = some n ∧ n ∈ a.candidates x' ∧
          ∀ m ∈ root :: l, m ∈ x'.boundaries ↔ m = n ∧ a.Earliest x' n := by
  obtain ⟨points, x', hrun, hflagged, hboundaries, -⟩ := exists_redundantPaths hv ha hx
  obtain ⟨hsearched, d, hd⟩ := between_discovered ha
  have hx' := hflagged.toInterpreted
  refine ⟨points, x', hrun, hflagged, fun l hpath hexists ↦ ?_⟩
  obtain ⟨n, hfind⟩ : ∃ n, (root :: l).find? (hasBoth x') = some n :=
    Option.isSome_iff_exists.1 (List.find?_isSome.2 hexists)
  obtain ⟨hboth, before, after, hsplit, hnone⟩ := List.find?_eq_some_iff_append.1 hfind
  simp only [Bool.not_eq_true'] at hnone
  have hn := mem_nodeIds_of_hasBoth hx' hboth
  refine ⟨n, hfind, ?_, fun m hm ↦ ?_⟩
  · cases before with
    | nil =>
      cases hsplit
      exact List.mem_filter.2
        ⟨Traversal.mem_order_of_mem_queue (List.mem_singleton.2 rfl) hn, hboth⟩
    | cons j before =>
      cases hsplit
      have hpath : a.graph.Path ((root :: before) ++ n :: after) := hpath
      exact mem_candidates_of_path hn hboth (List.isChain_split.1 hpath).1 hnone
  · rw [hboundaries, mem_boundaryNodes_iff hsearched hd hx']
    constructor
    · intro hearliest
      obtain rfl := hearliest.eq_of_path hpath hsplit hnone hboth hm
      exact ⟨rfl, hearliest⟩
    · rintro ⟨rfl, hearliest⟩
      exact hearliest

theorem redundantPaths_first_joined : ∃ task a points x',
    RepairTask.make .usual joined (.new .generic) = .ok task ∧
    FlowProblem.between task.toSurroundings task.pts (flushAt ("main", 10)) (flushAt ("main", 16)) =
      .ok a ∧
    a.redundantPaths (.initial a.graph) = (.ok points, x') ∧ a.graph.Path [0, 2, 3, 5] ∧
    2 ∈ x'.boundaries ∧ hasBoth x' 3 = true ∧ 3 ∉ x'.boundaries := by
  obtain ⟨task, a, htask, ha, hv, -, hdrawn⟩ := joined_drawn
  obtain ⟨points, x', hrun, hflagged, hfirst⟩ :=
    redundantPaths_first hv ha Findings.fits_initial
  obtain ⟨hstart, -, harm, hjoin, -⟩ := joined_hasBoth hdrawn hflagged
  have hpath : a.graph.Path [0, 2, 3, 5] := by
    refine .cons_cons ?_ (.cons_cons ?_ (.cons_cons ?_ (.singleton 5))) <;>
      rw [hdrawn.children] <;> decide
  obtain ⟨n, hfind, -, hboundary⟩ := hfirst [2, 3, 5] hpath ⟨2, by decide, harm⟩
  have hn : n = 2 := by
    rw [List.find?_cons_of_neg (by rw [root, hstart]; decide), List.find?_cons_of_pos harm] at hfind
    exact (Option.some.inj hfind).symm
  refine ⟨task, a, points, x', htask, ha, hrun, hpath, ?_, hjoin, fun hnamed ↦ ?_⟩
  · refine (hboundary 2 (by decide)).2 ⟨hn.symm, hn ▸ ?_⟩
    refine .of_closed (S := [0, 1, 3, 4, 5]) (T := [0]) harm (by decide) ?_ ?_ ?_
    · simp only [hdrawn.children]
      decide
    · simp only [hdrawn.nodeIds, hdrawn.children]
      decide
    · simpa using hstart
  · have hjoin := ((hboundary 3 (by decide)).1 hnamed).1
    exact absurd (hjoin.trans hn) (by decide)

/-- The way to the join through the other arm has no boundary node. -/
theorem not_coversPaths_joined : ∃ task a points x',
    RepairTask.make .usual joined (.new .generic) = .ok task ∧ task.program.validate = .ok () ∧
    FlowProblem.between task.toSurroundings task.pts (flushAt ("main", 10)) (flushAt ("main", 16)) =
      .ok a ∧
    a.redundantPaths (.initial a.graph) = (.ok points, x') ∧ ¬ a.CoversPaths x' := by
  obtain ⟨task, a, htask, ha, hv, hleaves, hdrawn⟩ := joined_drawn
  obtain ⟨points, x', hrun, hflagged, hboundaries, -⟩ :=
    exists_redundantPaths hv ha Findings.fits_initial
  obtain ⟨hsearched, k, hd⟩ := between_discovered ha
  obtain ⟨hstart, hfork, harm, hjoin, hend⟩ := joined_hasBoth hdrawn hflagged
  have hpath (n : Nat) (hn : n = 1 ∨ n = 2) : a.graph.Path [0, n, 3, 5] := by
    refine .cons_cons ?_ (.cons_cons ?_ (.cons_cons ?_ (.singleton 5))) <;>
      rw [hdrawn.children] <;> obtain rfl | rfl := hn <;> decide
  refine ⟨task, a, points, x', htask, hv, ha, hrun, fun hcovers ↦ ?_⟩
  obtain ⟨m, hm, hnamed⟩ := hcovers [1, 3, 5] 5 (hpath 1 (.inl rfl)) rfl
    (by rw [hleaves]; decide) ⟨3, by decide, hjoin⟩
  rw [hboundaries, mem_boundaryNodes_iff hsearched hd hflagged.toInterpreted] at hnamed
  have hm : m = 0 ∨ m = 1 ∨ m = 3 ∨ m = 5 := by simpa [root] using hm
  obtain rfl | rfl | rfl | rfl := hm
  · exact Bool.false_ne_true (hstart.symm.trans hnamed.both)
  · exact Bool.false_ne_true (hfork.symm.trans hnamed.both)
  · have hwalk : a.graph.Path (root :: [2] ++ [3]) := (hpath 2 (.inr rfl)).take 3
    exact Bool.false_ne_true ((hnamed.alone [2] (by decide) hwalk 2 (by decide)).symm.trans harm)
  · exact Bool.false_ne_true (hend.symm.trans hnamed.both)

end Durability.FlowProblem
