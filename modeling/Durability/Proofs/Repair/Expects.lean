import Durability.Proofs.Repair.Conditional

namespace Durability

variable {settings : Settings} {p : Program} {t : Trace} {E : Failure RepairError → Prop}

theorem FixMap.add_failsOnly (hconflicting : ∀ i f g, E (.refused (.conflictingFixes i f g)))
    (hunhandled : ∀ i f g, E (.refused (.unhandledFixes i f g))) (m : FixMap) (i : InstrId)
    (incoming : Fix) : FailsOnly (fun cause ↦ E (.refused cause)) (m.add i incoming) := by
  rw [add_eq]
  split
  · exact .of_ok ⟨_, rfl⟩
  · refine .bind ?_ fun _ _ ↦ .of_ok ⟨_, rfl⟩
    rw [merge.eq_def]
    split
    · exact .of_ok ⟨_, rfl⟩
    split
    · exact .of_ok ⟨_, rfl⟩
    · exact .of_ok ⟨_, rfl⟩
    · exact .error (hconflicting i _ _)
    · exact .error (hconflicting i _ _)
    · exact .error (hunhandled i _ _)

namespace RepairTask

variable {task : RepairTask} {earlier redundant e : Event} {bug : Nat}

open Stateful

/-- What is expected to fail while the bugs of a trace are handled. -/
structure Expects (task : RepairTask) (E : Failure RepairError → Prop) : Prop where
  program : task.program.Expects E
  noLeaves : ∀ n m, E (.refused (.noLeaves n m))
  invalidLeaf : ∀ n, E (.refused (.invalidLeaf n))
  conflictingFixes : ∀ i f g, E (.refused (.conflictingFixes i f g))
  unhandledFixes : ∀ i f g, E (.refused (.unhandledFixes i f g))
  unpersisted : ∀ bug e, task.trace.events[bug]? = some e → e.kind = .assertPersisted →
    FailsOnly E (task.trace.unpersisted task.settings bug)
  redundantPair : ∀ bug e, task.trace.events[bug]? = some e → e.kind = .requiredFlush →
    FailsOnly E (task.trace.redundantPair task.settings bug)

variable (hv : task.program.validate = .ok ())
  (hindex : LocationIndex.ofProgram task.program = .ok task.index) (hE : task.Expects E)

include hE in
theorem addFixes_failsOnly (l : List (InstrId × Fix)) (s : Fixer) :
    Meets E (addFixes l) s fun _ _ ↦ True := by
  induction l generalizing s with
  | nil => exact .pure trivial
  | cons x l ih =>
    have hadd := s.fixes.add_failsOnly hE.conflictingFixes hE.unhandledFixes x.1 x.2
    have hx : Meets E (addFix x.1 x.2) s fun _ _ ↦ True := by
      refine ⟨fun e r he ↦ ?_, fun _ _ _ ↦ trivial⟩
      obtain ⟨cause, hcause, rfl, -⟩ := addFix_eq_error he
      exact hadd cause hcause
    exact .bind hx fun _ r _ ↦ .bind (ih r) fun _ _ _ ↦ .pure trivial

include hv hindex hE

theorem instrsOf_failsOnly (e : Event) : FailsOnly E (task.instrsOf e) := by
  have hvalid := Program.validate_eq_ok_iff.1 hv
  have hattached := LocationIndex.holds_attached hvalid hindex
  exact LocationIndex.instrsFor_failsOnly hE.program.unmapped fun _ hi ↦ hattached.exists_instr hvalid hi

theorem analyze_failsOnly (earlier redundant : Event) :
    FailsOnly E (task.analyze earlier redundant) := by
  have hgraph : FailsOnly E (WindowGraph.construct task.toSurroundings task.pts earlier redundant) :=
    WindowGraph.construct_failsOnly (Program.validate_eq_ok_iff.1 hv) hindex hE.program hE.noLeaves
      hE.invalidLeaf
  have hbetween : FailsOnly E (FlowProblem.between task.toSurroundings task.pts earlier redundant) :=
    .bind hgraph fun _ _ ↦ .of_ok ⟨_, rfl⟩
  cases ha : FlowProblem.between task.toSurroundings task.pts earlier redundant with
  | error f =>
    rw [analyze, ha]
    exact .error (hbetween f ha)
  | ok a =>
    obtain ⟨verdict, x, hjudge⟩ := exists_judge hv ha
    obtain ⟨graph, hanalyze⟩ := exists_analyze hv ha hindex hjudge
    exact .of_ok ⟨_, hanalyze⟩

theorem assertPersisted_failsOnly (he : task.trace.events[bug]? = some e)
    (hkind : e.kind = .assertPersisted) (s : Fixer) :
    Meets E (task.assertPersisted bug) s fun _ _ ↦ True :=
  .lift_bind (hE.unpersisted bug e he hkind) fun _ _ ↦
    .lift_bind (instrsOf_failsOnly hv hindex hE _) fun _ _ ↦ addFixes_failsOnly hE _ s

theorem requiredFlush_failsOnly (he : task.trace.events[bug]? = some e)
    (hkind : e.kind = .requiredFlush) (s : Fixer) :
    Meets E (task.requiredFlush bug) s fun _ _ ↦ True := by
  refine .lift_bind (hE.redundantPair bug e he hkind) fun _ _ ↦ ?_
  refine .lift_bind (analyze_failsOnly hv hindex hE _ _) fun _ _ ↦ ?_
  -- Keeping the graph cannot fail; the rest starts from the state in which it is kept.
  refine .bind (Q := fun _ _ ↦ True) (.modifyGet trivial) fun _ r _ ↦ ?_
  refine .lift_bind (instrsOf_failsOnly hv hindex hE _) fun _ _ ↦ ?_
  split
  · exact addFixes_failsOnly hE _ r
  split
  · exact .pure trivial
  · exact addFixes_failsOnly hE _ r

theorem handle_failsOnly (he : task.trace.events[bug]? = some e) (hbug : e.isBug = true) (s : Fixer) :
    Meets E (task.handle bug) s fun _ _ ↦ True := by
  rw [handle_eq he hbug]
  split
  · next hkind => exact assertPersisted_failsOnly hv hindex hE he hkind s
  · exact .pure trivial
  · next hkind => exact requiredFlush_failsOnly hv hindex hE he hkind s
  · exact .pure trivial

theorem handleAll_failsOnly (s : Fixer) : Meets E task.handleAll s fun _ _ ↦ True := by
  refine .forM (I := fun _ ↦ True) (fun bug hbug r _ ↦ ?_) trivial
  obtain ⟨e, he, hmarked⟩ := Trace.mem_bugs_iff.1 hbug
  refine .bind (handle_failsOnly hv hindex hE he hmarked r) fun new _ _ ↦ ?_
  split <;> exact .modifyGet trivial

end RepairTask

theorem computeRepair_failsOnly (hv : p.validate = .ok ())
    (hE : ∀ task, RepairTask.make settings p t = .ok task → task.Expects E) :
    FailsOnly E (computeRepair settings p t).1 := by
  obtain ⟨task, htask⟩ := RepairTask.exists_make settings (Program.validate_eq_ok_iff.1 hv) t
  intro f hf
  obtain ⟨s, hs⟩ := RepairTask.computeRepair_eq_error htask hf
  have hexpects := hE task htask
  obtain ⟨rfl, -, -, hindex⟩ := RepairTask.make_eq_ok htask
  exact (RepairTask.handleAll_failsOnly hv hindex hexpects ∅).error f s hs

end Durability
