import Durability.Proofs.Fix.Change
import Durability.Proofs.Fix.Failure
import Durability.Proofs.Repair.Fixes
import Durability.Proofs.Trace.Bugs
import Durability.Sample.Programs
import Durability.Sample.Traces

namespace Durability

open scoped List

variable {settings : Settings} {p q : Program} {t : Trace} {task : RepairTask} {s s' : Fixer}
  {bug : Nat} {bugs : List Nat} {new : Bool}

structure Fixer.Handled (new : Bool) (s s' : Fixer) : Prop where
  reports : s.fixes.Reports new s'.fixes
  fixed : s'.fixed = s.fixed
  unfixed : s'.unfixed = s.unfixed

structure Fixer.Filed (bugs : List Nat) (s s' : Fixer) : Prop where
  split : ∃ fixed unfixed, s'.fixed = s.fixed ++ fixed ∧ s'.unfixed = s.unfixed ++ unfixed ∧
    fixed.Sublist bugs ∧ unfixed.Sublist bugs ∧ (fixed ++ unfixed).Perm bugs
  isEmpty_iff : (s.fixes.isEmpty = true ↔ s.fixed = []) → (s'.fixes.isEmpty = true ↔ s'.fixed = [])

namespace Fixer

theorem Handled.refl (s : Fixer) : Handled false s s := ⟨.refl _, rfl, rfl⟩

theorem Filed.nil (s : Fixer) : Filed [] s s :=
  ⟨⟨[], [], by simp, by simp, .refl _, .refl _, .refl _⟩, id⟩

theorem Filed.append {s'' : Fixer} {more : List Nat} (h : Filed bugs s s')
    (h' : Filed more s' s'') : Filed (bugs ++ more) s s'' := by
  obtain ⟨fixed, unfixed, hfixed, hunfixed, hsub, hsub', hperm⟩ := h.split
  obtain ⟨fixed', unfixed', hfixed', hunfixed', hsub₁, hsub₁', hperm'⟩ := h'.split
  refine ⟨⟨fixed ++ fixed', unfixed ++ unfixed', ?_, ?_, hsub.append hsub₁, hsub'.append hsub₁', ?_⟩,
    h'.isEmpty_iff ∘ h.isEmpty_iff⟩
  · rw [hfixed', hfixed, List.append_assoc]
  · rw [hunfixed', hunfixed, List.append_assoc]
  · calc fixed ++ fixed' ++ (unfixed ++ unfixed')
      _ = fixed ++ (fixed' ++ (unfixed ++ unfixed')) := List.append_assoc ..
      _ ~ fixed ++ (unfixed ++ (fixed' ++ unfixed')) :=
          (List.perm_append_comm_assoc _ _ _).append_left fixed
      _ = fixed ++ unfixed ++ (fixed' ++ unfixed') := (List.append_assoc ..).symm
      _ ~ bugs ++ more := hperm.append hperm'

end Fixer

namespace RepairTask

open Fixer Stateful

theorem addFix_handled {i : InstrId} {fix : Fix} (h : addFix i fix s = (.ok new, s')) :
    Handled new s s' := by
  obtain ⟨m, hadd, rfl⟩ := add_of_addFix h
  exact ⟨.of_add hadd, rfl, rfl⟩

theorem addFixes_handled {l : List (InstrId × Fix)} (h : addFixes l s = (.ok new, s')) :
    Handled new s s' := by
  induction l generalizing s new with
  | nil =>
    cases h
    exact .refl _
  | cons e l ih =>
    obtain ⟨b, r, hadd, h⟩ := Stateful.bind_eq_ok_iff.1 h
    obtain ⟨b', r', hmore, h⟩ := Stateful.bind_eq_ok_iff.1 h
    cases h
    have hadd := addFix_handled hadd
    have hmore := ih hmore
    exact ⟨hadd.reports.trans hmore.reports, hmore.fixed.trans hadd.fixed,
      hmore.unfixed.trans hadd.unfixed⟩

theorem assertPersisted_handled (h : task.assertPersisted bug s = (.ok new, s')) :
    Handled new s s' := by
  obtain ⟨⟨e, kind⟩, r, hrun, h⟩ := Stateful.bind_eq_ok_iff.1 h
  obtain ⟨-, rfl⟩ := lift_eq_ok_iff.1 hrun
  obtain ⟨is, r, hrun, h⟩ := Stateful.bind_eq_ok_iff.1 h
  obtain ⟨-, rfl⟩ := lift_eq_ok_iff.1 hrun
  exact addFixes_handled h

theorem requiredFlush_handled (h : task.requiredFlush bug s = (.ok new, s')) :
    Handled new s s' := by
  obtain ⟨⟨earlier, redundant⟩, r, hrun, h⟩ := Stateful.bind_eq_ok_iff.1 h
  obtain ⟨-, rfl⟩ := lift_eq_ok_iff.1 hrun
  obtain ⟨⟨⟨always, points⟩, graph⟩, r, hrun, h⟩ := Stateful.bind_eq_ok_iff.1 h
  obtain ⟨-, rfl⟩ := lift_eq_ok_iff.1 hrun
  obtain ⟨⟨⟩, r', hmodify, h⟩ := Stateful.bind_eq_ok_iff.1 h
  cases hmodify
  obtain ⟨is, r'', hrun, h⟩ := Stateful.bind_eq_ok_iff.1 h
  obtain ⟨-, rfl⟩ := lift_eq_ok_iff.1 hrun
  have hrest : Handled new { s with graphs := s.graphs ++ graph.toList } s' := by
    split at h
    · exact addFixes_handled h
    split at h
    · cases h
      exact .refl _
    · exact addFixes_handled h
  exact ⟨hrest.reports, hrest.fixed, hrest.unfixed⟩

theorem handle_handled (h : task.handle bug s = (.ok new, s')) : Handled new s s' := by
  obtain ⟨e, r, hrun, hrest⟩ := Stateful.bind_eq_ok_iff.1 h
  obtain ⟨he, rfl⟩ := liftFault_eq_ok_iff.1 hrun
  obtain ⟨⟨⟩, r', hrun, -⟩ := Stateful.bind_eq_ok_iff.1 hrest
  obtain ⟨hbug, -⟩ := liftFault_eq_ok_iff.1 hrun
  rw [handle_eq (Fault.lookup_eq_ok_iff.1 he) (Fault.require_eq_ok_iff.1 hbug)] at h
  cases hkind : e.kind with
  | assertPersisted =>
    rw [hkind] at h
    exact assertPersisted_handled h
  | requiredFlush =>
    rw [hkind] at h
    exact requiredFlush_handled h
  | _ =>
    rw [hkind] at h
    cases h
    exact .refl _

theorem file_eq_ok {u : Unit} (h : task.file bug s = (.ok u, s')) :
    ∃ new r, task.handle bug s = (.ok new, r) ∧
      s' = if new then { r with fixed := r.fixed ++ [bug] }
        else { r with unfixed := r.unfixed ++ [bug] } := by
  obtain ⟨new, r, hhandle, h⟩ := Stateful.bind_eq_ok_iff.1 h
  refine ⟨new, r, hhandle, ?_⟩
  cases new <;> cases h <;> rfl

theorem file_filed {u : Unit} (h : task.file bug s = (.ok u, s')) : Filed [bug] s s' := by
  obtain ⟨new, r, hhandle, rfl⟩ := file_eq_ok h
  have hr := handle_handled hhandle
  cases new with
  | true =>
    refine ⟨⟨[bug], [], by rw [← hr.fixed]; rfl, by rw [← hr.unfixed]; simp, .refl _,
      List.nil_sublist _, .refl _⟩, fun _ ↦ ?_⟩
    exact iff_of_false (by simp [hr.reports.isEmpty_eq_false]) (by simp)
  | false =>
    refine ⟨⟨[], [bug], by rw [← hr.fixed]; simp, by rw [← hr.unfixed]; rfl, List.nil_sublist _,
      .refl _, .refl _⟩, fun hs ↦ ?_⟩
    have hfixes : r.fixes = s.fixes := hr.reports.same rfl
    simpa [hfixes, hr.fixed] using hs

theorem forM_file_filed {u : Unit} (h : (bugs.forM task.file) s = (.ok u, s')) :
    Filed bugs s s' := by
  induction bugs generalizing s with
  | nil =>
    cases h
    exact .nil _
  | cons bug bugs ih =>
    obtain ⟨_, r, hfile, hrest⟩ := Stateful.bind_eq_ok_iff.1 h
    exact (file_filed hfile).append (ih hrest)

/-- Each bug is filed according to whether handling it, in the order of the trace, changes the fixes. -/
theorem exists_handle {done rest : List Nat} {u : Unit}
    (h : ((done ++ bug :: rest).forM task.file) s = (.ok u, s'))
    (hnodup : (done ++ bug :: rest).Nodup) (hs : s.fixed = []) :
    ∃ r new r', (done.forM task.file) s = (.ok (), r) ∧ task.handle bug r = (.ok new, r') ∧
      (bug ∈ s'.fixed ↔ r'.fixes ≠ r.fixes) := by
  rw [List.forM_eq_forM, List.forM_append] at h
  obtain ⟨⟨⟩, r, hdone, h⟩ := Stateful.bind_eq_ok_iff.1 h
  obtain ⟨⟨⟩, r'', hfile, hrest⟩ := Stateful.bind_eq_ok_iff.1 h
  obtain ⟨new, r', hhandle, rfl⟩ := file_eq_ok hfile
  obtain ⟨before, -, hbefore, -, hbefore', -, -⟩ := (forM_file_filed hdone).split
  obtain ⟨after, -, hafter, -, hafter', -, -⟩ := (forM_file_filed hrest).split
  have hhandled := handle_handled hhandle
  refine ⟨r, new, r', hdone, hhandle, ?_⟩
  obtain ⟨-, hnodup', hdisjoint⟩ := List.nodup_append'.1 hnodup
  have hout : bug ∉ before := fun hmem ↦
    hdisjoint (hbefore'.subset hmem) List.mem_cons_self
  have hout' : bug ∉ after := fun hmem ↦ (List.nodup_cons.1 hnodup').1 (hafter'.subset hmem)
  rw [← hhandled.reports.iff_ne, hafter]
  cases new <;> simp [hhandled.fixed, hbefore, hs, hout, hout']

end RepairTask

theorem FixMap.apply_modified {m : FixMap} {source : Source} {modified : Bool}
    (h : (m.apply source).run p = (.ok modified, q)) :
    modified = !m.isEmpty ∧ (q = p ↔ modified = false) := by
  obtain ⟨hall, rfl⟩ := apply_eq_ok h
  rw [m.isEmpty_applicationOrder]
  refine ⟨rfl, (eq_iff_of_forM hall).trans ?_⟩
  rw [Bool.not_eq_false', ← m.isEmpty_applicationOrder, List.isEmpty_iff]

/-- A repair that succeeds files every bug once, in the order of the trace, as fixed exactly if handling it
has changed the fixes. There are fixes, and the program is another one, exactly if a bug is fixed. -/
theorem repair_files {o : Outcome} {graphs : List String}
    (h : repair settings p t = ((.ok o, q), graphs)) :
    o.fixed.Pairwise (· < ·) ∧ o.unfixed.Pairwise (· < ·) ∧ o.fixed.Disjoint o.unfixed ∧
      (∀ bug, bug ∈ o.fixed ∨ bug ∈ o.unfixed ↔ bug ∈ t.bugs) ∧
      (∃ task, RepairTask.make settings p t = .ok task ∧
        ∀ done bug rest, t.bugs = done ++ bug :: rest → ∃ s new s',
          (done.forM task.file) ∅ = (.ok (), s) ∧ task.handle bug s = (.ok new, s') ∧
            (bug ∈ o.fixed ↔ s'.fixes ≠ s.fixes)) ∧
      (o.fixes.isEmpty = false ↔ o.fixed ≠ []) ∧ (o.modified = true ↔ o.fixed ≠ []) ∧
      (o.modified = false ↔ q = p) := by
  obtain ⟨o', modified, hcompute, rfl, happly⟩ := repair_eq_ok h
  obtain ⟨task, s, htask, hrun, rfl⟩ :=
    RepairTask.computeRepair_eq_ok (congrArg Prod.fst hcompute)
  obtain ⟨-, -, rfl, -⟩ := RepairTask.make_eq_ok htask
  obtain ⟨hmodified, hprogram⟩ := FixMap.apply_modified happly
  have hfiled := RepairTask.forM_file_filed hrun
  obtain ⟨fixed, unfixed, hfixed, hunfixed, hsub, hsub', hperm⟩ := hfiled.split
  obtain rfl : s.fixed = fixed := hfixed
  obtain rfl : s.unfixed = unfixed := hunfixed
  have hnodup := task.trace.nodup_bugs
  have hempty : s.fixes.isEmpty = false ↔ s.fixed ≠ [] := by
    rw [← Bool.not_eq_true]
    exact not_congr (hfiled.isEmpty_iff (iff_of_true rfl rfl))
  refine ⟨task.trace.bugs_increasing.sublist hsub, task.trace.bugs_increasing.sublist hsub', ?_,
    fun bug ↦ ?_, ⟨task, htask, fun done bug rest hbugs ↦ ?_⟩, hempty, ?_, hprogram.symm⟩
  · exact (List.nodup_append'.1 (hperm.nodup_iff.2 hnodup)).2.2
  · exact List.mem_append.symm.trans hperm.mem_iff
  · rw [hbugs] at hnodup
    rw [RepairTask.handleAll, hbugs] at hrun
    exact RepairTask.exists_handle hrun hnodup rfl
  · change modified = true ↔ s.fixed ≠ []
    rw [← hempty, hmodified, Bool.not_eq_true']
    rfl

section Sample

open Sample

def assertedTwice : Trace :=
  trace [event .store ("main", 10) [] word false,
    event .assertPersisted ("main", 16) [] word true,
    event .assertPersisted ("main", 16) [] word true]

theorem repair_files_assertedTwice : ∃ o q task s new s',
    repair .usual straightLine.program assertedTwice = ((.ok o, q), []) ∧
      o.fixed = [1] ∧ o.unfixed = [2] ∧ q ≠ straightLine.program ∧
      RepairTask.make .usual straightLine.program assertedTwice = .ok task ∧
      ([1].forM task.file) ∅ = (.ok (), s) ∧ task.handle 2 s = (.ok new, s') ∧
      s'.fixes = s.fixes := by
  have hrun : repair .usual straightLine.program assertedTwice =
      ((.ok ⟨.insert ∅ ⟨0⟩ (.plain .addFlushAndFence), [1], [2], true⟩,
        (repair .usual straightLine.program assertedTwice).1.2), []) := by decide +kernel
  obtain ⟨-, -, -, -, ⟨task, htask, hhandled⟩, -, -, hprogram⟩ := repair_files hrun
  obtain ⟨s, new, s', hdone, hhandle, hfixed⟩ := hhandled [1] 2 [] (by decide)
  refine ⟨_, _, task, s, new, s', hrun, rfl, rfl, fun hq ↦ ?_, htask, hdone, hhandle, ?_⟩
  · exact absurd (hprogram.2 hq) (by decide)
  · exact not_not.1 (mt hfixed.2 (by decide))

end Sample

end Durability
