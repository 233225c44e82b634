import Durability.Proofs.Redundancy.Boundary
import Durability.Proofs.Redundancy.Dot
import Durability.Proofs.Repair.Chain
import Durability.Proofs.Repair.RequiredFlush

namespace Durability

variable {settings : Settings} {p : Program} {t : Trace} {task : RepairTask} {s : Fixer} {bug : Nat}
  {a : FlowProblem} {earlier redundant : Event}

open Stateful WindowGraph

namespace FlowProblem

variable {env : Surroundings} {pts : PointsTo} {first last : Event} {always : Bool}
  {x y : Findings} {nodes : List Nat} {points anchors : List InstrId}

theorem exists_verdict (hv : env.program.validate = .ok ())
    (ha : FlowProblem.between env pts first last = .ok a) :
    ∃ always y, a.alwaysRedundant (.initial a.graph) = (.ok always, y) ∧ y.Fits a := by
  obtain ⟨hp, hpts, hg⟩ := between_eq_ok ha
  refine exists_alwaysRedundant Findings.fits_initial fun n hn ↦ ?_
  rw [hp, hpts]
  exact construct_leavesUnflushed (Program.validate_eq_ok_iff.1 hv) hg
    ((construct_connected hg).mem_order_iff.1 hn)

theorem eq_false_of_not_clean (ha : FlowProblem.between env pts first last = .ok a)
    (hclean : ¬ a.Clean) (hy : a.alwaysRedundant (.initial a.graph) = (.ok always, y)) :
    always = false := by
  have hconnected := construct_connected (between_eq_ok ha).2.2
  cases always with
  | false => rfl
  | true => exact absurd ((alwaysRedundant_iff hconnected).1 ⟨y, hy⟩) hclean

theorem flagged_of_redundantPaths (hv : env.program.validate = .ok ())
    (ha : FlowProblem.between env pts first last = .ok a)
    (hy : a.alwaysRedundant (.initial a.graph) = (.ok always, y))
    (hx : a.redundantPaths y = (.ok points, x)) : a.Flagged x ∧ x.boundaries = a.boundaryNodes x ∧
      List.Forall₂ (fun n i ↦ ∃ w, a.graph.windowAt? n = some w ∧ w.anchor = i)
        x.boundaries points := by
  have hfits : y.Fits a := by
    have := alwaysRedundant_fits (a := a) _ Findings.fits_initial
    rwa [hy] at this
  obtain ⟨points', x', hx', hrest⟩ := exists_redundantPaths hv ha hfits
  cases hx.symm.trans hx'
  exact hrest

theorem points_eq (hanchors : a.graph.nodes.map (·.window.anchor) = anchors)
    (hpoints : List.Forall₂ (fun n i ↦ ∃ w, a.graph.windowAt? n = some w ∧ w.anchor = i) nodes points) :
    points.map some = nodes.map (anchors[·]?) := by
  have hall : List.Forall₂ (fun n i ↦ anchors[n]? = some i) nodes points := by
    refine hpoints.imp fun n i h ↦ ?_
    obtain ⟨w, hw, rfl⟩ := h
    obtain ⟨y, hy, rfl⟩ := Option.map_eq_some_iff.1 hw
    rw [← hanchors, List.getElem?_map, hy]
    rfl
  symm
  rw [← List.forall₂_eq_eq_eq, List.forall₂_map_left_iff, List.forall₂_map_right_iff]
  exact hall

theorem boundaryNodes_alone {d : Nat} {spoils : List Bool}
    (hsearched : a.graph.Searched a.program a.pts [])
    (hd : a.graph.Discovered d []) (h : a.Drawn [[]] spoils) (hx : a.Flagged x) :
    a.boundaryNodes x = [0] := by
  have hmem {n : Nat} : n ∈ a.graph.nodeIds ↔ n ∈ [0] := by
    rw [h.nodeIds]
    rfl
  have hboth : hasBoth x 0 = true := by
    refine (hx.both_iff 0 (hmem.2 List.mem_cons_self)).2 ⟨.inl rfl, ?_⟩
    exact .of_closed (S := []) (by simp [h.children]) (List.forall_mem_nil _)
  have hnodup : (a.boundaryNodes x).Nodup :=
    (boundaryNodes_increasing hsearched hd hx.toInterpreted).imp Nat.ne_of_lt
  refine List.perm_singleton.1 ((List.perm_ext_iff_of_nodup hnodup (List.nodup_singleton 0)).2 ?_)
  intro n
  refine ⟨fun hn ↦ hmem.1 (mem_nodeIds_of_mem_boundaryNodes hn), fun hn ↦ ?_⟩
  rw [List.mem_singleton.1 hn, mem_boundaryNodes_iff hsearched hd hx.toInterpreted]
  refine .of_closed (S := [0]) (T := []) hboth List.mem_cons_self ?_ ?_ ?_ <;>
    simp [h.children, h.nodeIds]

end FlowProblem

namespace RepairTask

/-- The fixes that are asked for where the flush `i` was not needed. -/
def asked (i : InstrId) (always : Bool) (points : List InstrId) : List (InstrId × Fix) :=
  if always then [(i, .plain .removeFlush)] else if points.isEmpty then [] else chain i points

theorem asked_of_ne_nil {i : InstrId} {points : List InstrId} (h : points ≠ []) :
    asked i false points = chain i points := by
  rw [asked, if_neg Bool.false_ne_true, if_neg (by rwa [List.isEmpty_iff])]

theorem instrsOf_of_between
    (ha : FlowProblem.between task.toSurroundings task.pts earlier redundant = .ok a)
    (hframe : redundant.anchor = redundant.location) :
    task.instrsOf redundant = .ok [a.graph.stop.anchor] := by
  obtain ⟨-, t, t', -, hlast, -⟩ := construct_searched (FlowProblem.between_eq_ok ha).2.2
  rw [instrsOf, ← hframe]
  exact LocationIndex.instrsFor_of_uniqueFor (Window.uniqueFor_of_ofEvent hlast)

section Analysis

variable (hv : task.program.validate = .ok ())
  (ha : FlowProblem.between task.toSurroundings task.pts earlier redundant = .ok a)
include hv ha

theorem exists_judge : ∃ verdict x, judge a (.initial a.graph) = (.ok verdict, x) := by
  obtain ⟨always, y, hy, hfits⟩ := FlowProblem.exists_verdict hv ha
  cases always with
  | true => exact ⟨(true, []), y, Stateful.bind_eq_ok_iff.2 ⟨true, y, hy, rfl⟩⟩
  | false =>
    obtain ⟨points, x, hx, -⟩ := FlowProblem.exists_redundantPaths hv ha hfits
    exact ⟨(false, points), x, Stateful.bind_eq_ok_iff.2
      ⟨false, y, hy, Stateful.bind_eq_ok_iff.2 ⟨points, x, hx, rfl⟩⟩⟩

theorem exists_analyze (hindex : LocationIndex.ofProgram task.program = .ok task.index)
    {verdict : Bool × List InstrId} {x : Findings}
    (hjudge : judge a (.initial a.graph) = (.ok verdict, x)) :
    ∃ graph, task.analyze earlier redundant = .ok (verdict, graph) := by
  obtain ⟨text, htext⟩ := FlowProblem.exists_dot (Program.validate_eq_ok_iff.1 hv) hindex ha x
  cases hdump : task.settings.dumpGraphs with
  | false => exact ⟨none, analyze_of_judge hdump ha hjudge⟩
  | true =>
    have hrun : (judge a).run (.initial a.graph) = (.ok verdict, x) := hjudge
    refine ⟨some text, bind_eq_ok_iff.2 ⟨a, ha, ?_⟩⟩
    rw [hrun, hdump]
    exact bind_eq_ok_iff.2
      ⟨verdict, rfl, bind_eq_ok_iff.2 ⟨text, Attempt.lift_eq_ok_iff.2 htext, rfl⟩⟩

/-- Once it is found out whether a flush was needed, nothing but the fixes can stand in the way. -/
theorem requiredFlush_eq (hindex : LocationIndex.ofProgram task.program = .ok task.index)
    (hpair : task.trace.redundantPair task.settings bug = .ok (earlier, redundant))
    (hframe : redundant.anchor = redundant.location) :
    ∃ always points x graphs, judge a (.initial a.graph) = (.ok (always, points), x) ∧
      ∀ s, task.requiredFlush bug s = addFixes (asked a.graph.stop.anchor always points)
        { s with graphs := s.graphs ++ graphs } := by
  obtain ⟨⟨always, points⟩, x, hjudge⟩ := exists_judge hv ha
  obtain ⟨graph, hanalyze⟩ := exists_analyze hv ha hindex hjudge
  refine ⟨always, points, x, graph.toList, hjudge, fun s ↦ ?_⟩
  rw [requiredFlush, hpair, lift_ok_bind]
  dsimp only
  rw [unflush, hanalyze, lift_ok_bind, instrsOf_of_between ha hframe]
  change (if always = true then addFixes [_] else if points.isEmpty = true then pure false
    else addFixes (chain _ points ++ [])) _ = _
  rw [asked]
  split
  · rfl
  split
  · rfl
  · rw [List.append_nil]

end Analysis

/-- If the flush of an event was not needed, it is removed where it is always redundant, and stays where it
never is. Otherwise its removal is chained to all boundary points, provided that these are different
instructions and other ones than the flush; if not, the chain clashes with itself. -/
theorem requiredFlush_chains (htask : make settings p t = .ok task) (hv : p.validate = .ok ())
    (hpair : t.redundantPair settings bug = .ok (earlier, redundant))
    (hframe : redundant.anchor = redundant.location)
    (ha : FlowProblem.between task.toSurroundings task.pts earlier redundant = .ok a)
    (hs : s.fixes = ∅) :
    ∃ i always y, task.instrsOf redundant = .ok [i] ∧
      a.alwaysRedundant (.initial a.graph) = (.ok always, y) ∧
      (always = true → ∃ s', task.requiredFlush bug s = (.ok true, s') ∧
        s'.fixes.Records [(i, .plain .removeFlush)]) ∧
      (always = false → ∃ points x, a.redundantPaths y = (.ok points, x) ∧
        (points = [] → ∃ s', task.requiredFlush bug s = (.ok false, s') ∧ s'.fixes = ∅) ∧
        (points ≠ [] → (i :: points).Nodup → ∃ s', task.requiredFlush bug s = (.ok true, s') ∧
          s'.fixes.Chained i points) ∧
        (¬ (i :: points).Nodup → ∃ j existing incoming s', task.requiredFlush bug s =
          (.error (.refused (.unhandledFixes j existing incoming)), s'))) := by
  obtain ⟨rfl, rfl, rfl, hindex⟩ := make_eq_ok htask
  obtain ⟨always, points, x, graphs, hjudge, hrun⟩ :=
    requiredFlush_eq hv ha hindex hpair hframe
  obtain ⟨y, hy, hcases⟩ := judge_cases hjudge
  refine ⟨_, always, y, instrsOf_of_between ha hframe, hy, ?_, ?_⟩
  · rintro rfl
    obtain ⟨s', hs', hrecords⟩ := addFixes_singleton (s := { s with graphs := s.graphs ++ graphs })
      hs a.graph.stop.anchor (.plain .removeFlush)
    exact ⟨s', (hrun s).trans hs', hrecords⟩
  · rintro rfl
    obtain ⟨h, -⟩ | ⟨-, hpoints⟩ := hcases
    · cases h
    have hasked (hne : points ≠ []) : task.requiredFlush bug s =
        addFixes (chain a.graph.stop.anchor points) { s with graphs := s.graphs ++ graphs } := by
      rw [hrun, asked_of_ne_nil hne]
    have hchain := addFixes_chain (s := { s with graphs := s.graphs ++ graphs }) hs
      a.graph.stop.anchor points
    refine ⟨points, x, hpoints, ?_, fun hne hnodup ↦ ?_, fun hclash ↦ ?_⟩
    · rintro rfl
      exact ⟨_, hrun s, hs⟩
    · obtain ⟨-, s', hs', hchained⟩ | ⟨hnot, -⟩ := hchain
      · exact ⟨s', (hasked hne).trans hs', hchained⟩
      · exact absurd hnodup hnot
    · obtain ⟨hnodup, -⟩ | ⟨-, j, existing, incoming, s', hs'⟩ := hchain
      · exact absurd hnodup hclash
      · refine ⟨j, existing, incoming, s', (hasked ?_).trans hs'⟩
        rintro rfl
        exact hclash (List.nodup_singleton _)

section Samples

open Sample FlowProblem

/-- Between two flushes in a block there is a store, so the later one is needed unless the earlier one is
not done. -/
theorem requiredFlush_chains_storeBetween : ∃ task a y points x s',
    make .usual straightLine.program (twoFlushes ("main", 11) ("main", 14)) = .ok task ∧
      FlowProblem.between task.toSurroundings task.pts (flushAt ("main", 11)) (flushAt ("main", 14)) =
        .ok a ∧
      a.alwaysRedundant (.initial a.graph) = (.ok false, y) ∧
      a.redundantPaths y = (.ok points, x) ∧ points = [⟨1⟩] ∧
      task.requiredFlush 2 ∅ = (.ok true, s') ∧ s'.fixes.Chained ⟨4⟩ points := by
  obtain ⟨task, a, htask, ha, hp, hpair, his, hclean, hedges, hspoils, hanchors⟩ := exists_between
    straightLine.program (twoFlushes ("main", 11) ("main", 14)) (flushAt ("main", 11))
    (flushAt ("main", 14)) (fun task a ↦
      (twoFlushes ("main", 11) ("main", 14)).redundantPair .usual 2 =
        .ok (flushAt ("main", 11), flushAt ("main", 14)) ∧
      task.instrsOf (flushAt ("main", 14)) = .ok [⟨4⟩] ∧ ¬ a.Clean ∧
      a.graph.nodes.map (·.children.toList) = [[]] ∧
      a.graph.nodeIds.map (a.graph.leavesUnflushed a.program a.pts) = [true].map .ok ∧
      a.graph.nodes.map (·.window.anchor) = [⟨1⟩]) (by decide +kernel)
  have hv : straightLine.program.validate = .ok () := by decide +kernel
  obtain ⟨i, always, y, hi, hy, -, hchain⟩ :=
    requiredFlush_chains htask hv hpair rfl ha (s := ∅) rfl
  cases his.symm.trans hi
  obtain rfl := eq_false_of_not_clean ha hclean hy
  obtain ⟨points, x, hx, -, hchained, -⟩ := hchain rfl
  obtain ⟨hflagged, hboundaries, hanchor⟩ :=
    flagged_of_redundantPaths ((make_eq_ok htask).1 ▸ hv) ha hy hx
  obtain ⟨hsearched, d, hd⟩ := between_discovered ha
  have hnodes : x.boundaries = [0] :=
    hboundaries.trans (boundaryNodes_alone hsearched hd ⟨hedges, hspoils⟩ hflagged)
  obtain rfl : points = [⟨1⟩] := by
    have := points_eq hanchors hanchor
    rw [hnodes] at this
    exact List.map_injective_iff.2 (Option.some_injective _) this
  obtain ⟨s', hs', hfixes⟩ := hchained (List.cons_ne_nil _ _) (by decide)
  exact ⟨task, a, y, _, x, s', htask, ha, hy, hx, rfl, hs', hfixes⟩

/-- A function that stores is called on both ways from one flush to the next. -/
def touchedOnBothArms : Program :=
  (build ([.reserve "touch" 0, .reserve "main" 1] ++ body 0 0 [[store 5, ret 6]]
    ++ body 1 1 [[flush 10, fork (.arg ⟨1⟩ 0) 2 3 11], [call 0 12, branch 4 13],
      [call 0 14, branch 4 15], [flush 16, ret 17]]) []).program

theorem touchedOnBothArms_boundaries {x : Findings} {d : Nat}
    (hsearched : a.graph.Searched a.program a.pts [])
    (hd : a.graph.Discovered d []) (h : a.Drawn [[1, 2], [3], [4], [5], [6], [7], [7], []]
      [false, false, false, true, true, false, false, false]) (hx : a.Flagged x) :
    3 ∈ a.boundaryNodes x ∧ 4 ∈ a.boundaryNodes x := by
  have hflags (n : Nat) (hn : n < 8) := hx.both_iff n (by rw [h.nodeIds]; exact List.mem_range.2 hn)
  have hedge {n m : Nat} (hm : m ∈ [[1, 2], [3], [4], [5], [6], [7], [7], []].getD n []) :
      m ∈ a.graph.children n := by
    rwa [h.children]
  have hboth (n : Nat) (hn : n = 3 ∨ n = 4) : hasBoth x n = true := by
    refine (hflags n (by omega)).2 ⟨?_, ?_⟩
    · refine .of_closed (S := [0, 1, 2]) ?_ (h.not_spoils (by decide))
      simp only [h.nodeIds, h.children]
      obtain rfl | rfl := hn <;> decide
    · refine .of_closed (S := [5, 6, 7]) ?_ (h.not_spoils (by decide))
      simp only [h.children]
      obtain rfl | rfl := hn <;> simp
  have hnot (n m : Nat) (hn : n < 8) (hm : m = 3 ∨ m = 4)
      (hwalk : Relation.TransGen (fun n m ↦ m ∈ a.graph.children n) n m) : hasBoth x n = false := by
    refine Bool.eq_false_iff.2 fun hboth ↦ ((hflags n hn).1 hboth).2 m hwalk ?_
    refine (h.spoils_iff m (by simp; omega)).2 ?_
    obtain rfl | rfl := hm <;> rfl
  have hfirst : hasBoth x 1 = false := hnot 1 3 (by decide) (.inl rfl) (.single (hedge (by decide)))
  have hsecond : hasBoth x 2 = false := hnot 2 4 (by decide) (.inr rfl) (.single (hedge (by decide)))
  have hstart : hasBoth x 0 = false := hnot 0 3 (by decide) (.inl rfl)
    (.tail (.single (hedge (m := 1) (by decide))) (hedge (by decide)))
  rw [mem_boundaryNodes_iff hsearched hd hx.toInterpreted,
    mem_boundaryNodes_iff hsearched hd hx.toInterpreted]
  constructor
  · refine .of_closed (S := [0, 1, 2, 4, 6, 7]) (T := [0, 1]) (hboth 3 (.inl rfl)) (by decide) ?_ ?_ ?_
    · simp only [h.children]
      decide
    · simp only [h.nodeIds, h.children]
      decide
    · simp [hstart, hfirst]
  · refine .of_closed (S := [0, 1, 2, 3, 5, 7]) (T := [0, 2]) (hboth 4 (.inr rfl)) (by decide) ?_ ?_ ?_
    · simp only [h.children]
      decide
    · simp only [h.nodeIds, h.children]
      decide
    · simp [hstart, hsecond]

/-- The function is a boundary in either of its contexts, and its store is to have two fixes. -/
theorem requiredFlush_clashes : ∃ task a s' j existing incoming,
    make .usual touchedOnBothArms (twoFlushes ("main", 10) ("main", 16)) = .ok task ∧
      touchedOnBothArms.validate = .ok () ∧
      task.trace.redundantPair task.settings 2 = .ok (flushAt ("main", 10), flushAt ("main", 16)) ∧
      (flushAt ("main", 16)).anchor = (flushAt ("main", 16)).location ∧
      FlowProblem.between task.toSurroundings task.pts (flushAt ("main", 10)) (flushAt ("main", 16)) =
        .ok a ∧
      task.instrsOf (flushAt ("main", 16)) = .ok [⟨8⟩] ∧
      task.requiredFlush 2 ∅ = (.error (.refused (.unhandledFixes j existing incoming)), s') := by
  obtain ⟨task, a, htask, ha, hp, hpair, his, hclean, hedges, hspoils, hanchors⟩ := exists_between
    touchedOnBothArms (twoFlushes ("main", 10) ("main", 16)) (flushAt ("main", 10))
    (flushAt ("main", 16)) (fun task a ↦
      (twoFlushes ("main", 10) ("main", 16)).redundantPair .usual 2 =
        .ok (flushAt ("main", 10), flushAt ("main", 16)) ∧
      task.instrsOf (flushAt ("main", 16)) = .ok [⟨8⟩] ∧ ¬ a.Clean ∧
      a.graph.nodes.map (·.children.toList) = [[1, 2], [3], [4], [5], [6], [7], [7], []] ∧
      a.graph.nodeIds.map (a.graph.leavesUnflushed a.program a.pts) =
        [false, false, false, true, true, false, false, false].map .ok ∧
      a.graph.nodes.map (·.window.anchor) = [⟨2⟩, ⟨4⟩, ⟨6⟩, ⟨0⟩, ⟨0⟩, ⟨5⟩, ⟨7⟩, ⟨8⟩]) (by decide +kernel)
  have hv : touchedOnBothArms.validate = .ok () := by decide +kernel
  obtain ⟨hprogram, hsettings, htrace, hindex⟩ := make_eq_ok htask
  rw [← hsettings, ← htrace] at hpair
  rw [← hprogram] at hindex
  have hvalid : task.program.validate = .ok () := hprogram ▸ hv
  obtain ⟨always, points, x, graphs, hjudge, hrun⟩ := requiredFlush_eq hvalid ha hindex hpair rfl
  obtain ⟨y, hy, hcases⟩ := judge_cases hjudge
  obtain rfl := eq_false_of_not_clean ha hclean hy
  obtain ⟨h, -⟩ | ⟨-, hx⟩ := hcases
  · cases h
  obtain ⟨hflagged, hboundaries, hanchor⟩ := flagged_of_redundantPaths hvalid ha hy hx
  obtain ⟨hsearched, d, hd⟩ := between_discovered ha
  obtain ⟨hthree, hfour⟩ : 3 ∈ a.boundaryNodes x ∧ 4 ∈ a.boundaryNodes x :=
    touchedOnBothArms_boundaries hsearched hd ⟨hedges, hspoils⟩ hflagged
  rw [← hboundaries] at hthree hfour
  have htwice : ¬ points.Nodup := fun hnodup ↦ by
    have hnodup := hnodup.map (Option.some_injective _)
    rw [points_eq hanchors hanchor] at hnodup
    cases List.inj_on_of_nodup_map hnodup hthree hfour rfl
  obtain ⟨hnodup, -⟩ | ⟨-, j, existing, incoming, s', hs'⟩ :=
    addFixes_chain (s := { (∅ : Fixer) with graphs := graphs }) rfl a.graph.stop.anchor points
  · exact absurd (List.nodup_cons.1 hnodup).2 htwice
  · refine ⟨task, a, s', j, existing, incoming, htask, hv, hpair, rfl, ha, his, ?_⟩
    rw [hrun, asked_of_ne_nil]
    · exact hs'
    · rintro rfl
      exact htwice .nil

end Samples

end RepairTask

end Durability
