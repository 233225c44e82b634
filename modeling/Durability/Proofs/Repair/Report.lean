import Durability.Command.Run
import Durability.Proofs.Fix.Report
import Durability.Proofs.Repair.AssertPersisted
import Durability.Proofs.Repair.RequiredFlush

namespace Durability

variable {settings : Settings} {p q : Program} {t : Trace} {o : Outcome} {graphs : List String}
  {entries : List ReportEntry}

theorem computeRepair_plainAt (hv : p.Valid) (h : (computeRepair settings p t).1 = .ok o) :
    o.fixes.PlainAt p.Attached := by
  obtain ⟨task, s, hmake, hrun, rfl⟩ := RepairTask.computeRepair_eq_ok h
  obtain ⟨-, -, -, hindex⟩ := RepairTask.make_eq_ok hmake
  have hs := RepairTask.handleAll_plainAt (LocationIndex.holds_attached hv hindex) ∅ .empty
  rwa [hrun] at hs

namespace Request

variable {r : Request} {path : String}

theorem reportText_eq_ok {m : FixMap} (h : m.report p = .ok entries) :
    reportText m p = .ok ((reportJson entries).pretty 0) :=
  bind_eq_ok_iff.2 ⟨entries, h, rfl⟩

theorem work_reportOnly (hreport : r.report = some path)
    (h : computeRepair settings p t = (.ok o, graphs)) (hentries : o.fixes.report p = .ok entries) :
    { r with reportOnly := true }.work settings p t =
      (.ok [.write path ((reportJson entries).pretty 0)], graphs) := by
  rw [work, if_pos rfl, h]
  refine Prod.ext (bind_eq_ok_iff.2 ⟨o, rfl, Attempt.lift_eq_ok_iff.2 ?_⟩) rfl
  refine bind_eq_ok_iff.2 ⟨_, reportText_eq_ok hentries, ?_⟩
  rw [hreport]
  rfl

theorem work_repair (hreport : r.report = some path)
    (h : repair settings p t = ((.ok o, q), graphs)) (hentries : o.fixes.report q = .ok entries) :
    { r with reportOnly := false }.work settings p t =
      (.ok [.write path ((reportJson entries).pretty 0), deliver q.print r.output], graphs) := by
  rw [work, if_neg Bool.false_ne_true, h]
  refine Prod.ext (bind_eq_ok_iff.2 ⟨o, rfl, Attempt.lift_eq_ok_iff.2 ?_⟩) rfl
  rw [repairEffects, hreport]
  exact bind_eq_ok_iff.2 ⟨_, reportText_eq_ok hentries, rfl⟩

end Request

/-- A repair that succeeds reports what would have been reported without it, except for the flushes it
has taken out: of these it no longer tells the function and the line. So with and without changing the
program the same report is written exactly if no flush is taken out. -/
theorem repair_report (hv : p.validate = .ok ()) (h : repair settings p t = ((.ok o, q), graphs)) :
    ∃ o' entries foreseen written,
      computeRepair settings p t = (.ok o', graphs) ∧ o.fixes = o'.fixes ∧
      o'.fixes.report p = .ok entries ∧ o.fixes.report q = .ok (entries.map .afterRepair) ∧
      (o.fixes.report q = o'.fixes.report p ↔ ∀ e ∈ entries, e.fix ≠ .removeFlush) ∧
      (written = foreseen ↔ ∀ e ∈ entries, e.fix ≠ .removeFlush) ∧
      ∀ (r : Request) (path : String), r.report = some path →
        { r with reportOnly := true }.work settings p t =
            (.ok [.write path foreseen], graphs) ∧
          { r with reportOnly := false }.work settings p t =
            (.ok [.write path written, Request.deliver q.print r.output], graphs) := by
  have hvalid := Program.validate_eq_ok_iff.1 hv
  obtain ⟨o', modified, hcompute, rfl, happly⟩ := repair_eq_ok h
  have hplain := FixMap.plain_of_apply happly
  have hattached : ∀ e ∈ o'.fixes.entries, p.Attached e.1 := fun e he ↦
    computeRepair_plainAt hvalid (congrArg Prod.fst hcompute) e.1 e.2
      (FixMap.find_of_mem o'.fixes.apart_entries he) (hplain e he)
  obtain ⟨entries, hentries, hfunction⟩ := FixMap.exists_report hvalid hattached
  have hreport := FixMap.report_of_apply happly hentries
  have htext := pretty_afterRepair_iff 0 hfunction
  refine ⟨o', entries, (reportJson entries).pretty 0,
    (reportJson (entries.map .afterRepair)).pretty 0, hcompute, rfl, hentries, hreport, ?_, htext,
    fun r path hpath ↦ ⟨Request.work_reportOnly hpath hcompute hentries,
      Request.work_repair hpath h hreport⟩⟩
  rw [hreport, hentries, Except.ok.injEq]
  exact ⟨fun heq ↦ htext.1 (by rw [heq]), ReportEntry.map_afterRepair⟩

namespace RepairTask

theorem computeRepair_of_clean {bug : Nat} {e : Event} {i : InstrId} (first last : Event)
    (hbugs : t.bugs = [bug]) (he : t.events[bug]? = some e) (hmarked : e.isBug = true)
    (hkind : e.kind = .requiredFlush)
    (h : (make .usual p t).map (fun task ↦
      (FlowProblem.between task.toSurroundings task.pts first last).map fun a ↦ decide
        (t.redundantPair .usual bug = .ok (first, last) ∧ task.instrsOf last = .ok [i] ∧ a.Clean)) =
      .ok (.ok true)) :
    computeRepair .usual p t = (.ok ⟨.insert ∅ i (.plain .removeFlush), [bug], [], false⟩, []) := by
  obtain ⟨task, a, htask, ha, -, hpair, his, hclean⟩ := FlowProblem.exists_between p t first last _ h
  obtain ⟨-, hsettings, rfl, -⟩ := make_eq_ok htask
  rw [← hsettings] at hpair
  have hrun := requiredFlush_of_clean (by rw [hsettings]; rfl) hpair ha hclean his rfl
  have hhandle : task.handle bug = task.requiredFlush bug := by rw [handle_eq he hmarked, hkind]
  have hfile : task.file bug ∅ =
      (.ok (), ⟨.insert ∅ i (.plain .removeFlush), [bug], [], []⟩) := by
    rw [file, hhandle]
    exact Stateful.bind_eq_ok_iff.2 ⟨true, _, hrun, rfl⟩
  have hall : task.handleAll ∅ = (.ok (), ⟨.insert ∅ i (.plain .removeFlush), [bug], [], []⟩) := by
    rw [handleAll, hbugs]
    exact Stateful.bind_eq_ok_iff.2 ⟨(), _, hfile, rfl⟩
  rw [computeRepair_eq htask, hall]
  rfl

end RepairTask

section Sample

open Sample

def persisted : Program := (repair .usual straightLine.program RepairTask.oneStore).1.2

theorem repair_oneStore : repair .usual straightLine.program RepairTask.oneStore =
    ((.ok ⟨.insert ∅ ⟨0⟩ (.plain .addFlushAndFence), [1], [], true⟩, persisted), []) := by
  decide +kernel

theorem repair_report_oneStore : persisted ≠ straightLine.program ∧ ∃ o text,
    repair .usual straightLine.program RepairTask.oneStore = ((.ok o, persisted), []) ∧
      ∀ (r : Request) (path : String), r.report = some path →
        { r with reportOnly := true }.work .usual straightLine.program RepairTask.oneStore =
            (.ok [.write path text], []) ∧
          { r with reportOnly := false }.work .usual straightLine.program RepairTask.oneStore =
            (.ok [.write path text, Request.deliver persisted.print r.output], []) := by
  obtain ⟨o', entries, foreseen, written, -, hfixes, hentries, -, -, hsame, hwork⟩ :=
    repair_report (by decide +kernel) repair_oneStore
  have hreport : FixMap.report (.insert ∅ ⟨0⟩ (.plain .addFlushAndFence)) straightLine.program =
      .ok [⟨⟨0⟩, .addFlushAndFence, none, some "main", some file, some 10⟩] := by decide +kernel
  rw [← hfixes, hreport] at hentries
  cases hentries
  obtain rfl : written = foreseen := hsame.2 (by decide)
  exact ⟨by decide +kernel, _, written, repair_oneStore, hwork⟩

def flushedTwice : Trace := RepairTask.twoFlushes ("main", 14) ("main", 15)

def relieved : Program :=
  ((FixMap.apply (.insert ∅ ⟨5⟩ (.plain .removeFlush)) .generic).run straightLine.program).2

theorem computeRepair_flushedTwice : computeRepair .usual straightLine.program flushedTwice =
    (.ok ⟨.insert ∅ ⟨5⟩ (.plain .removeFlush), [2], [], false⟩, []) :=
  RepairTask.computeRepair_of_clean (FlowProblem.flushAt ("main", 14))
    (FlowProblem.flushAt ("main", 15)) (by decide) rfl rfl rfl (by decide +kernel)

theorem repair_flushedTwice : repair .usual straightLine.program flushedTwice =
    ((.ok ⟨.insert ∅ ⟨5⟩ (.plain .removeFlush), [2], [], true⟩, relieved), []) := by
  rw [repair, computeRepair_flushedTwice]
  decide +kernel

theorem repair_report_differs : straightLine.program.validate = .ok () ∧ ∃ o o' q,
    repair .usual straightLine.program flushedTwice = ((.ok o, q), []) ∧
      computeRepair .usual straightLine.program flushedTwice = (.ok o', []) ∧
      o'.fixes.report straightLine.program =
        .ok [⟨⟨5⟩, .removeFlush, none, some "main", some file, some 15⟩] ∧
      o.fixes.report q = .ok [⟨⟨5⟩, .removeFlush, none, none, none, none⟩] :=
  ⟨by decide +kernel, _, _, _, repair_flushedTwice, computeRepair_flushedTwice, by decide +kernel,
    by decide +kernel⟩

end Sample

end Durability
