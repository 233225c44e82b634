import Durability.Proofs.Redundancy.Execution

namespace Durability

open WindowGraph

variable {settings : Settings} {p : Program} {t : Trace} {task : RepairTask} {s s' : Fixer}
  {bug : Nat} {i : InstrId} {fix : Fix} {new : Bool} {a : FlowProblem} {x : Findings}
  {points : List InstrId} {earlier redundant : Event}

namespace FlowProblem

/-- The search has gone as far as control can go and has not come upon the second event. -/
structure Missed (a : FlowProblem) : Prop where
  stopNode : a.graph.stopNode = none
  leaves : a.graph.leaves ≠ []
  terminal : ∀ n ∈ a.graph.leaves, a.graph.isTerminal a.program n = .ok true
  unreachable : a.program.ListsOnce → ∀ x z L, a.graph.contexts.get a.graph.start.context = .ok x →
    a.graph.contexts.get a.graph.stop.context = .ok z →
      ¬ a.program.Execution ⟨x.callStack, a.graph.start.anchor⟩ L
        ⟨z.callStack, a.graph.stop.anchor⟩

theorem reached_or_missed {env : Surroundings} {pts : PointsTo} {first last : Event}
    (hv : env.program.validate = .ok ())
    (hindex : LocationIndex.ofProgram env.program = .ok env.index)
    (ha : FlowProblem.between env pts first last = .ok a) :
    (∃ n w, a.graph.stopNode = some n ∧ a.graph.windowAt? n = some w ∧
      w.same a.graph.stop = true ∧ a.graph.Reached n) ∨ a.Missed := by
  obtain ⟨hp, -, hconstruct⟩ := between_eq_ok ha
  have hconnected := construct_connected hconstruct
  cases hstop : a.graph.stopNode with
  | some n =>
    obtain ⟨w, hn, hsame⟩ := hconnected.stopNode n hstop
    exact .inl ⟨n, w, rfl, hn, hsame, hconnected.reached n w hn⟩
  | none =>
    obtain ⟨hleaves, hterminal⟩ := construct_leaves hconstruct
    refine .inr ⟨hstop, hleaves, fun n hn ↦ ?_, fun once x z L hx hz ↦ ?_⟩
    · rw [hp]
      exact (hterminal n hn).resolve_left (by simp [isStop, hstop])
    · rw [hp] at once ⊢
      have hvalid := Program.validate_eq_ok_iff.1 hv
      have hg := construct_complete hvalid once hindex hconstruct
      exact hg.not_execution hvalid once hz hx hstop

end FlowProblem

namespace RepairTask

theorem judge_cases {always : Bool} {z : Findings} (h : judge a x = (.ok (always, points), z)) :
    ∃ y, a.alwaysRedundant x = (.ok always, y) ∧
      (always = true ∧ points = [] ∨ always = false ∧ a.redundantPaths y = (.ok points, z)) := by
  obtain ⟨b, y, hy, h⟩ := Stateful.bind_eq_ok_iff.1 h
  cases b with
  | true =>
    cases h
    exact ⟨z, hy, .inl ⟨rfl, rfl⟩⟩
  | false =>
    obtain ⟨l, r, hl, h⟩ := Stateful.bind_eq_ok_iff.1 h
    cases h
    exact ⟨y, hy, .inr ⟨rfl, hl⟩⟩

theorem analyze_of_judge {verdict : Bool × List InstrId}
    (hdump : task.settings.dumpGraphs = false)
    (ha : FlowProblem.between task.toSurroundings task.pts earlier redundant = .ok a)
    (hjudge : judge a (.initial a.graph) = (.ok verdict, x)) :
    task.analyze earlier redundant = .ok (verdict, none) := by
  have hrun : (judge a).run (.initial a.graph) = (.ok verdict, x) := hjudge
  refine bind_eq_ok_iff.2 ⟨a, ha, ?_⟩
  rw [hrun, hdump]
  rfl

theorem analyze_eq_ok {graph : Option String}
    (h : task.analyze earlier redundant = .ok ((true, points), graph)) :
    ∃ a, FlowProblem.between task.toSurroundings task.pts earlier redundant = .ok a ∧ a.Clean := by
  obtain ⟨a, ha, h⟩ := bind_eq_ok_iff.1 h
  rcases hrun : (judge a).run (.initial a.graph) with ⟨verdict?, x⟩
  rw [hrun] at h
  obtain ⟨verdict, rfl, h'⟩ := bind_eq_ok_iff.1 h
  have hverdict : verdict = (true, points) := by
    split at h'
    · obtain ⟨text, -, h'⟩ := bind_eq_ok_iff.1 h'
      cases h'
      rfl
    · cases h'
      rfl
  subst hverdict
  have hconnected := construct_connected (FlowProblem.between_eq_ok ha).2.2
  obtain ⟨y, hy, -⟩ := judge_cases hrun
  exact ⟨a, ha, (FlowProblem.alwaysRedundant_iff hconnected).1 ⟨y, hy⟩⟩

/-- A flush that is removed on all paths is redundant on those that lead to it, or none does. -/
theorem requiredFlush_removeFlush (htask : make settings p t = .ok task) (hv : p.validate = .ok ())
    (h : (task.requiredFlush bug).run ∅ = (.ok new, s')) (hfix : s'.fixes.get? i = some fix)
    (hkind : fix.kind = .removeFlush) :
    ∃ earlier redundant a, task.trace.redundantPair task.settings bug = .ok (earlier, redundant) ∧
      FlowProblem.between task.toSurroundings task.pts earlier redundant = .ok a ∧ a.Clean ∧
      ((∃ n w, a.graph.stopNode = some n ∧ a.graph.windowAt? n = some w ∧
        w.same a.graph.stop = true ∧ a.graph.Reached n) ∨ a.Missed) := by
  obtain ⟨hprogram, -, -, hindex⟩ := make_eq_ok htask
  obtain ⟨⟨earlier, redundant⟩, r, hrun, h⟩ := Stateful.bind_eq_ok_iff.1 h
  obtain ⟨hpair, rfl⟩ := Stateful.lift_eq_ok_iff.1 hrun
  obtain ⟨⟨⟨always, points⟩, graph⟩, r, hrun, h⟩ := Stateful.bind_eq_ok_iff.1 h
  obtain ⟨hanalyze, rfl⟩ := Stateful.lift_eq_ok_iff.1 hrun
  obtain ⟨⟨⟩, r, hmodify, h⟩ := Stateful.bind_eq_ok_iff.1 h
  cases hmodify
  obtain ⟨is, r, hrun, h⟩ := Stateful.bind_eq_ok_iff.1 h
  obtain ⟨-, rfl⟩ := Stateful.lift_eq_ok_iff.1 hrun
  cases always with
  | true =>
    obtain ⟨a, ha, hclean⟩ := analyze_eq_ok hanalyze
    exact ⟨earlier, redundant, a, hpair, ha, hclean,
      FlowProblem.reached_or_missed (hprogram ▸ hv) (hprogram ▸ hindex) ha⟩
  | false =>
    -- the fixes for some of the paths are all conditional
    exfalso
    dsimp only at h
    rw [if_neg Bool.false_ne_true] at h
    split at h
    · cases h
      cases hfix
    · obtain hold | hmem | rfl := addFixes_eq_ok h hfix
      · cases hold
      · obtain ⟨j, -, hmem⟩ := List.mem_flatMap.1 hmem
        rcases kind_of_mem_chain hmem with hif | hif <;> cases hkind.symm.trans hif
      · cases hkind

theorem analyze_of_clean (hdump : task.settings.dumpGraphs = false)
    (ha : FlowProblem.between task.toSurroundings task.pts earlier redundant = .ok a)
    (hclean : a.Clean) : task.analyze earlier redundant = .ok ((true, []), none) := by
  have hconnected := construct_connected (FlowProblem.between_eq_ok ha).2.2
  obtain ⟨y, hy⟩ := (FlowProblem.alwaysRedundant_iff hconnected).2 hclean
  exact analyze_of_judge hdump ha (Stateful.bind_eq_ok_iff.2 ⟨true, y, hy, rfl⟩)

theorem requiredFlush_of_clean {is : List InstrId} (hdump : task.settings.dumpGraphs = false)
    (hpair : task.trace.redundantPair task.settings bug = .ok (earlier, redundant))
    (ha : FlowProblem.between task.toSurroundings task.pts earlier redundant = .ok a)
    (hclean : a.Clean) (his : task.instrsOf redundant = .ok is)
    (h : (addFixes (is.map (·, .plain .removeFlush))).run ∅ = (.ok new, s')) :
    (task.requiredFlush bug).run ∅ = (.ok new, s') := by
  refine Stateful.bind_eq_ok_iff.2 ⟨_, ∅, Stateful.lift_eq_ok_iff.2 ⟨hpair, rfl⟩, ?_⟩
  refine Stateful.bind_eq_ok_iff.2
    ⟨_, ∅, Stateful.lift_eq_ok_iff.2 ⟨analyze_of_clean hdump ha hclean, rfl⟩, ?_⟩
  refine Stateful.bind_eq_ok_iff.2 ⟨(), ∅, rfl, ?_⟩
  exact Stateful.bind_eq_ok_iff.2 ⟨is, ∅, Stateful.lift_eq_ok_iff.2 ⟨his, rfl⟩, h⟩

theorem exists_removal (p : Program) (t : Trace) (bug : Nat) (first last : Event) (i : InstrId)
    (P : FlowProblem → Prop) [DecidablePred P]
    (h : (make .usual p t).map (fun task ↦
      (FlowProblem.between task.toSurroundings task.pts first last).map fun a ↦ decide
        (t.redundantPair .usual bug = .ok (first, last) ∧ task.instrsOf last = .ok [i] ∧ a.Clean ∧
          P a)) = .ok (.ok true)) :
    ∃ task a s', make .usual p t = .ok task ∧
      task.trace.redundantPair task.settings bug = .ok (first, last) ∧
      FlowProblem.between task.toSurroundings task.pts first last = .ok a ∧
      (task.requiredFlush bug).run ∅ = (.ok true, s') ∧
      s'.fixes.get? i = some (.plain .removeFlush) ∧ P a := by
  obtain ⟨task, a, htask, ha, -, hpair, his, hclean, hP⟩ := FlowProblem.exists_between p t first last
    (fun task a ↦ t.redundantPair .usual bug = .ok (first, last) ∧ task.instrsOf last = .ok [i] ∧
      a.Clean ∧ P a) h
  obtain ⟨-, hsettings, htrace, -⟩ := make_eq_ok htask
  rw [← hsettings, ← htrace] at hpair
  refine ⟨task, a, _, htask, hpair, ha,
    requiredFlush_of_clean (by rw [hsettings]; rfl) hpair ha hclean his rfl, ?_, hP⟩
  exact (SortedMap.get?_insert ∅ i (Fix.plain .removeFlush) i).trans (if_pos rfl)

section Samples

open Sample FlowProblem

def twoFlushes (place place' : Place) : Trace :=
  ⟨.generic, [flushAt place, flushAt place', event .requiredFlush place' [] cacheLine true]⟩

theorem requiredFlush_callBetween : ∃ task a s' n w,
    make .usual callBetween (twoFlushes ("main", 20) ("main", 22)) = .ok task ∧
      (task.requiredFlush 2).run ∅ = (.ok true, s') ∧
      s'.fixes.get? ⟨5⟩ = some (.plain .removeFlush) ∧
      FlowProblem.between task.toSurroundings task.pts (flushAt ("main", 20))
        (flushAt ("main", 22)) = .ok a ∧
      a.Clean ∧ a.graph.stopNode = some n ∧ a.graph.windowAt? n = some w ∧
      w.same a.graph.stop = true ∧ a.graph.Reached n := by
  obtain ⟨task, a, s', htask, hpair, ha, hrun, hfix, hstop⟩ := exists_removal callBetween
    (twoFlushes ("main", 20) ("main", 22)) 2 (flushAt ("main", 20)) (flushAt ("main", 22)) ⟨5⟩
    (fun a ↦ a.graph.stopNode = some 2) (by decide +kernel)
  obtain ⟨e, e', a', hpair', ha', hclean, hreached⟩ :=
    requiredFlush_removeFlush htask (by decide +kernel) hrun hfix rfl
  cases hpair.symm.trans hpair'
  cases ha.symm.trans ha'
  obtain ⟨n, w, hn, hw, hsame, hpath⟩ | hmissed := hreached
  · exact ⟨task, a, s', n, w, htask, hrun, hfix, ha, hclean, hn, hw, hsame, hpath⟩
  · cases hstop.symm.trans hmissed.stopNode

def apart : Program :=
  (build ([.reserve "early" 0, .reserve "late" 0]
      ++ body 0 0 [[flush 10, ret 11]] ++ body 1 1 [[flush 20, ret 21]]) []).program

theorem requiredFlush_apart : ∃ task a s',
    make .usual apart (twoFlushes ("early", 10) ("late", 20)) = .ok task ∧
      apart.validate = .ok () ∧
      task.trace.redundantPair task.settings 2 = .ok (flushAt ("early", 10), flushAt ("late", 20)) ∧
      FlowProblem.between task.toSurroundings task.pts (flushAt ("early", 10))
        (flushAt ("late", 20)) = .ok a ∧
      (task.requiredFlush 2).run ∅ = (.ok true, s') ∧
      s'.fixes.get? ⟨2⟩ = some (.plain .removeFlush) ∧ a.graph.stopNode = none := by
  obtain ⟨task, a, s', htask, hpair, ha, hrun, hfix, hstop⟩ := exists_removal apart
    (twoFlushes ("early", 10) ("late", 20)) 2 (flushAt ("early", 10)) (flushAt ("late", 20)) ⟨2⟩
    (fun a ↦ a.graph.stopNode = none) (by decide +kernel)
  exact ⟨task, a, s', htask, by decide +kernel, hpair, ha, hrun, hfix, hstop⟩

end Samples

end RepairTask

end Durability
