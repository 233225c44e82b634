import Durability.Proofs.Fix.Merge
import Durability.Proofs.PointsTo.Constraint
import Durability.Proofs.Repair.AssertPersisted
import Durability.Proofs.Repair.Failure
import Durability.Proofs.Trace.Bugs

namespace Durability

variable {settings : Settings} {p : Program} {t t' : Trace} {bug : Nat} {e : Event}

def Event.unmarked (e : Event) : Event := { e with isBug := false }

namespace Trace

/-- The same events, of which only the one at `bug` is marked. -/
def only (t : Trace) (bug : Nat) : Trace :=
  { t with log := t.events.mapIdx fun k e ↦ { e with isBug := decide (k = bug) } }

def unmarked (t : Trace) : Trace := { t with log := t.events.map Event.unmarked }

theorem unmarked_only (t : Trace) (bug : Nat) : (t.only bug).unmarked = t.unmarked := by
  rw [unmarked, unmarked]
  refine congrArg (Trace.mk t.source ∘ EventLog.ofList) (List.ext_getElem? fun k ↦ ?_)
  rw [only, events_mk, List.getElem?_map, List.getElem?_mapIdx, Option.map_map, List.getElem?_map]
  rfl

theorem bugs_only (hbug : bug < t.events.length) : (t.only bug).bugs = [bug] := by
  refine List.perm_singleton.1 ((List.perm_ext_iff_of_nodup (nodup_bugs _)
    (List.nodup_singleton bug)).2 fun k ↦ ?_)
  rw [mem_bugs_iff, List.mem_singleton, only, events_mk, List.getElem?_mapIdx]
  constructor
  · rintro ⟨e, he, hmarked⟩
    obtain ⟨d, -, rfl⟩ := Option.map_eq_some_iff.1 he
    exact of_decide_eq_true hmarked
  · rintro rfl
    exact ⟨_, by rw [List.getElem?_eq_getElem hbug]; rfl, decide_eq_true rfl⟩

theorem before_unmarked (t : Trace) (bug : Nat) :
    t.unmarked.before bug = (t.before bug).map (Prod.map Event.unmarked id) := by
  rw [before, unmarked, events_mk, ← List.map_take, List.zipIdx_map, ← List.map_reverse, before]

theorem target_unmarked (t : Trace) (bug : Nat) :
    t.unmarked.target settings bug = t.target settings bug := by
  rw [target, target, unmarked, events_mk, Fault.lookup, Fault.lookup, List.getElem?_map]
  cases t.events[bug]? <;> rfl

theorem findUnpersisted_unmarked {range : ByteRange} {fenced : Bool} {l : List (Event × Nat)} :
    findUnpersisted settings bug range fenced (l.map (Prod.map Event.unmarked id)) =
      (findUnpersisted settings bug range fenced l).map (Prod.map Event.unmarked id) := by
  induction l generalizing fenced with
  | nil => rfl
  | cons x l ih =>
    obtain ⟨e, k⟩ := x
    have hkind : e.unmarked.kind = e.kind := rfl
    have haddress : checkAddress settings k e.unmarked = checkAddress settings k e := rfl
    simp only [List.map_cons, Prod.map_apply, id, findUnpersisted, hkind, haddress, ih]
    split
    · rfl
    · split
      · cases checkAddress settings k e with
        | error _ => rfl
        | ok a =>
          change (if _ then _ else _) = Except.map _ (if _ then _ else _)
          split
          · rfl
          · split
            · split <;> rfl
            · rfl
      · rfl

theorem unpersisted_unmarked (t : Trace) (bug : Nat) : t.unmarked.unpersisted settings bug =
    (t.unpersisted settings bug).map (Prod.map Event.unmarked id) := by
  rw [unpersisted, unpersisted, target_unmarked, before_unmarked]
  cases t.target settings bug with
  | error _ => rfl
  | ok range =>
    change Attempt.ofExcept (findUnpersisted settings bug range false _) =
      (Attempt.ofExcept (findUnpersisted settings bug range false _)).map _
    rw [findUnpersisted_unmarked]
    cases findUnpersisted settings bug range false (t.before bug) <;> rfl

end Trace

namespace RepairTask

open FixMap FixKind Stateful

variable {task : RepairTask} {s s' : Fixer} {new : Bool} {adds done total : List (InstrId × FixKind)}

theorem assertPersisted_unmarked (task : RepairTask) (bug : Nat) :
    ({ task with trace := task.trace.unmarked } : RepairTask).assertPersisted bug =
      task.assertPersisted bug := by
  rw [assertPersisted, assertPersisted, Trace.unpersisted_unmarked]
  cases task.trace.unpersisted task.settings bug <;> rfl

theorem assertPersisted_only (task : RepairTask) (bug k : Nat) :
    ({ task with trace := task.trace.only k } : RepairTask).assertPersisted bug =
      task.assertPersisted bug := by
  rw [← assertPersisted_unmarked { task with trace := task.trace.only k },
    ← assertPersisted_unmarked task]
  simp only [Trace.unmarked_only]

def addition (e : InstrId × FixKind) : InstrId × Fix := (e.1, .plain e.2)

theorem assertPersisted_adds (h : task.assertPersisted bug s = (.ok new, s')) :
    ∃ (is : List InstrId) (kind : FixKind), is.Nodup ∧ kind ≠ .removeFlush ∧
      task.assertPersisted bug = addFixes (is.map fun i ↦ addition (i, kind)) := by
  obtain ⟨⟨e, kind⟩, r, hrun, h⟩ := Stateful.bind_eq_ok_iff.1 h
  obtain ⟨hfind, rfl⟩ := Stateful.lift_eq_ok_iff.1 hrun
  obtain ⟨is, r, hrun, -⟩ := Stateful.bind_eq_ok_iff.1 h
  obtain ⟨his, rfl⟩ := Stateful.lift_eq_ok_iff.1 hrun
  refine ⟨is, kind, LocationIndex.nodup_of_instrsFor his, ?_, ?_⟩
  · obtain ⟨range, -, hscan⟩ := bind_eq_ok_iff.1 hfind
    obtain ⟨_, _, _, -, -, -, hmends⟩ :=
      Trace.findUnpersisted_eq_ok (Attempt.ofExcept_eq_ok_iff.1 hscan)
    obtain ⟨-, -, rfl⟩ | ⟨-, -, rfl⟩ | ⟨-, -, rfl⟩ := hmends <;> nofun
  · rw [assertPersisted, hfind, lift_ok_bind]
    dsimp only
    rw [fixAt, his, lift_ok_bind]
    rfl

def Refused (adds : List (InstrId × FixKind)) (e : Failure RepairError) : Prop :=
  ∃ cause, e = .refused cause ∧ Clashes adds cause

theorem addFixes_meets (hadds : done ++ adds <+: total) (hkinds : ∀ e ∈ adds, e.2 ≠ .removeFlush)
    (h : Composed done s.fixes) :
    Meets (Refused total) (addFixes (adds.map addition)) s fun _ s' ↦
      Composed (done ++ adds) s'.fixes := by
  induction adds generalizing done s with
  | nil =>
    rw [List.append_nil]
    exact .pure h
  | cons e adds ih =>
    obtain ⟨i, k⟩ := e
    obtain ⟨hk, hkinds⟩ := List.forall_mem_cons.1 hkinds
    rw [List.append_cons] at hadds ⊢
    have hprefix : done ++ [(i, k)] <+: total := (List.prefix_append _ adds).trans hadds
    have hadd : Meets (Refused total) (addFix i (.plain k)) s fun _ r ↦
        Composed (done ++ [(i, k)]) r.fixes := by
      refine addFix_meets ((h.add hk i).imp_right ?_)
      rintro ⟨cause, hcause, hclashes⟩
      exact ⟨cause, hcause, cause, rfl, hclashes.mono hprefix⟩
    exact hadd.bind fun _ r hr ↦ .bind (ih hadds hkinds hr) fun _ r' hr' ↦ .pure hr'

/-- What `bug` has a repair add, and where. -/
structure Asks (task : RepairTask) (bug : Nat) (adds : List (InstrId × FixKind)) : Prop where
  handle : task.handle bug = addFixes (adds.map addition)
  kinds : ∀ e ∈ adds, e.2 ≠ .removeFlush

theorem handle_assertPersisted (he : task.trace.events[bug]? = some e) (hbug : e.isBug = true)
    (hkind : e.kind = .assertPersisted) : task.handle bug = task.assertPersisted bug := by
  rw [handle_eq he hbug, hkind]

theorem Asks.file_meets (h : task.Asks bug adds) (hadds : done ++ adds <+: total)
    (hdone : Composed done s.fixes) :
    Meets (Refused total) (task.file bug) s fun _ s' ↦ Composed (done ++ adds) s'.fixes := by
  rw [file, h.handle]
  refine (addFixes_meets hadds h.kinds hdone).bind fun new r hr ↦ ?_
  cases new <;> exact .modifyGet hr

theorem forM_file_meets {bugs : List Nat} {adds : Nat → List (InstrId × FixKind)}
    (h : ∀ bug ∈ bugs, task.Asks bug (adds bug)) (hadds : done ++ bugs.flatMap adds <+: total)
    (hdone : Composed done s.fixes) :
    Meets (Refused total) (bugs.forM task.file) s fun _ s' ↦
      Composed (done ++ bugs.flatMap adds) s'.fixes := by
  induction bugs generalizing done s with
  | nil =>
    rw [List.flatMap_nil, List.append_nil]
    exact .pure hdone
  | cons bug bugs ih =>
    obtain ⟨hbug, hbugs⟩ := List.forall_mem_cons.1 h
    rw [List.flatMap_cons, ← List.append_assoc] at hadds ⊢
    exact (hbug.file_meets ((List.prefix_append _ _).trans hadds) hdone).bind fun _ r hr ↦
      ih hbugs hadds hr

/-- A repair for one bug alone shows what the bug asks for. -/
theorem asks_of_only {o : Outcome} (htask : make settings p t = .ok task)
    (he : t.events[bug]? = some e) (hbug : e.isBug = true) (hkind : e.kind = .assertPersisted)
    (h : (computeRepair settings p (t.only bug)).1 = .ok o) :
    ∃ adds, task.Asks bug adds ∧ ∀ i, addsAt adds i = ((o.fixes.get? i).map (·.kind)).toList := by
  obtain ⟨task', s, hmake, hrun, rfl⟩ := computeRepair_eq_ok h
  cases (make_trace htask (t.only bug)).symm.trans hmake
  obtain ⟨-, -, rfl, -⟩ := make_eq_ok htask
  have hlt : bug < task.trace.events.length := (List.getElem?_eq_some_iff.1 he).1
  rw [handleAll, Trace.bugs_only hlt] at hrun
  obtain ⟨⟨⟩, r, hfile, hrun⟩ := Stateful.bind_eq_ok_iff.1 hrun
  cases hrun
  obtain ⟨new, r, hhandle, hfile⟩ := Stateful.bind_eq_ok_iff.1 hfile
  have honly : (task.trace.only bug).events[bug]? = some { e with isBug := true } := by
    rw [Trace.only, Trace.events_mk, List.getElem?_mapIdx, he]
    simp
  have hmarked : ({ e with isBug := true } : Event).isBug = true := rfl
  have halone : ({ task with trace := task.trace.only bug } : RepairTask).handle bug =
      task.assertPersisted bug := (handle_assertPersisted honly hmarked hkind).trans (assertPersisted_only task bug bug)
  rw [halone] at hhandle
  obtain ⟨is, k, his, hk, hadds⟩ := assertPersisted_adds hhandle
  have hasks : task.Asks bug (is.map (·, k)) := by
    refine ⟨?_, fun e he ↦ ?_⟩
    · rw [handle_assertPersisted he hbug hkind, hadds, List.map_map]
      rfl
    · obtain ⟨i, -, rfl⟩ := List.mem_map.1 he
      exact hk
  rw [← handle_assertPersisted he hbug hkind, hasks.handle] at hhandle
  have hcomposed : Composed (is.map (·, k)) r.fixes :=
    (addFixes_meets (List.prefix_refl ([] ++ is.map (·, k))) hasks.kinds .empty).ok _ _ hhandle
  have hfixes : s.outcome.fixes = r.fixes := by cases new <;> cases hfile <;> rfl
  refine ⟨is.map (·, k), hasks, fun i ↦ ?_⟩
  rw [hfixes]
  exact hcomposed.addsAt_eq (length_addsAt_le his k i)

theorem exists_asks {single : Nat → Outcome} (htask : make settings p t = .ok task)
    (hbugs : ∀ e ∈ t.events, e.isBug = true → e.kind = .assertPersisted)
    (hsingle : ∀ bug ∈ t.bugs, (computeRepair settings p (t.only bug)).1 = .ok (single bug)) :
    ∃ adds : Nat → List (InstrId × FixKind), ∀ bug ∈ t.bugs, task.Asks bug (adds bug) ∧
      ∀ i, addsAt (adds bug) i = (((single bug).fixes.get? i).map (·.kind)).toList := by
  have hasks (bug : Nat) : ∃ adds, bug ∈ t.bugs → task.Asks bug adds ∧
      ∀ i, addsAt adds i = (((single bug).fixes.get? i).map (·.kind)).toList := by
    by_cases hbug : bug ∈ t.bugs
    · obtain ⟨e, he, hmarked⟩ := Trace.mem_bugs_iff.1 hbug
      obtain ⟨adds, hadds⟩ := asks_of_only htask he hmarked
        (hbugs e (List.mem_of_getElem? he) hmarked) (hsingle bug hbug)
      exact ⟨adds, fun _ ↦ hadds⟩
    · exact ⟨[], fun h ↦ absurd h hbug⟩
  choose adds hadds using hasks
  exact ⟨adds, hadds⟩

theorem computeRepair_composed {adds : Nat → List (InstrId × FixKind)}
    (htask : make settings p t = .ok task) (hasks : ∀ bug ∈ t.bugs, task.Asks bug (adds bug)) :
    (∀ o, (computeRepair settings p t).1 = .ok o → Composed (t.bugs.flatMap adds) o.fixes) ∧
      ∀ e, (computeRepair settings p t).1 = .error e → Refused (t.bugs.flatMap adds) e := by
  obtain ⟨-, -, rfl, -⟩ := make_eq_ok htask
  have hrun := forM_file_meets hasks (List.prefix_refl ([] ++ task.trace.bugs.flatMap adds))
    (s := ∅) Composed.empty
  refine ⟨fun o ho ↦ ?_, fun e he ↦ ?_⟩
  · obtain ⟨task', s, hmake, hhandle, rfl⟩ := computeRepair_eq_ok ho
    cases htask.symm.trans hmake
    exact hrun.ok _ _ hhandle
  · obtain ⟨s, hhandle⟩ := computeRepair_eq_error htask he
    exact hrun.error e s hhandle

end RepairTask

open RepairTask FixMap FixKind in
/-- Where bugs are failed assertions of persistence for each of which alone there is a repair, the whole
trace has one exactly if at each instruction the fixes for the single bugs compose, taken in the order of
the bugs. Then it has fixes at just the instructions of the single repairs. -/
theorem computeRepair_composes (hv : p.validate = .ok ())
    (hbugs : ∀ e ∈ t.events, e.isBug = true → e.kind = .assertPersisted) (single : Nat → Outcome)
    (hsingle : ∀ bug ∈ t.bugs, (computeRepair settings p (t.only bug)).1 = .ok (single bug)) :
    let asked (i : InstrId) := t.bugs.filterMap fun bug ↦ ((single bug).fixes.get? i).map (·.kind)
    ((∃ o, (computeRepair settings p t).1 = .ok o) ↔
        ∀ i, asked i = [] ∨ ∃ k, Composes (asked i) k) ∧
      (∀ o, (computeRepair settings p t).1 = .ok o → ∀ i,
        (o.fixes.contains i = true ↔ ∃ bug ∈ t.bugs, (single bug).fixes.contains i = true) ∧
          ∀ fix, o.fixes.get? i = some fix ↔ ∃ k, Composes (asked i) k ∧ fix = .plain k) ∧
      ∀ e, (computeRepair settings p t).1 = .error e → ∃ i existing incoming,
        e = .refused (.unhandledFixes i existing incoming) ∧ asked i ≠ [] ∧
          ∀ k, ¬ Composes (asked i) k := by
  intro asked
  obtain ⟨task, htask⟩ := exists_make settings (Program.validate_eq_ok_iff.1 hv) t
  obtain ⟨adds, hadds⟩ := exists_asks htask hbugs hsingle
  obtain ⟨hok, herror⟩ := computeRepair_composed htask fun bug hbug ↦ (hadds bug hbug).1
  have hasked (i : InstrId) : addsAt (t.bugs.flatMap adds) i = asked i := by
    change _ = t.bugs.filterMap _
    rw [addsAt_flatMap, List.filterMap_eq_flatMap_toList]
    exact List.flatMap_congr fun bug hbug ↦ (hadds bug hbug).2 i
  refine ⟨⟨fun ⟨o, ho⟩ i ↦ ?_, fun hall ↦ ?_⟩, fun o ho i ↦ ⟨?_, fun fix ↦ ?_⟩, fun e he ↦ ?_⟩
  · exact hasked i ▸ (hok o ho i).imp And.left fun ⟨k, hk, _⟩ ↦ ⟨k, hk⟩
  · cases h : (computeRepair settings p t).1 with
    | ok o => exact ⟨o, rfl⟩
    | error e =>
      obtain ⟨_, -, i, existing, incoming, hne, hnot⟩ := herror e h
      obtain hnil | ⟨k, hk⟩ := hall i
      · exact absurd ((hasked i).trans hnil) hne
      · exact absurd (hasked i ▸ hk) (hnot k)
  · rw [(hok o ho).contains_iff, hasked, ne_eq, List.filterMap_eq_nil_iff]
    simp only [Option.map_eq_none_iff, not_forall, exists_prop, SortedMap.contains,
      Option.isSome_iff_ne_none]
  · rw [(hok o ho).get?_eq_some_iff, hasked]
  · obtain ⟨_, rfl, i, existing, incoming, hne, hnot⟩ := herror e he
    exact ⟨i, existing, incoming, rfl, hasked i ▸ hne, hasked i ▸ hnot⟩

section Sample

open Sample

/-- A call stores one word that is not flushed and flushes another that is not fenced. -/
def flushThenFence : Trace :=
  trace [event .store ("main", 11) [] word false, event .fence ("main", 12) [] word false,
    event .assertPersisted ("main", 12) [] word true,
    event .flush ("main", 11) [] otherWord false,
    event .assertPersisted ("main", 12) [] otherWord true]

theorem computeRepair_composes_flushThenFence : ∃ (single : Nat → Outcome) (o : Outcome),
    flushThenFence.bugs = [2, 4] ∧
    (single 2).fixes.get? ⟨1⟩ = some (.plain .addFlush) ∧
    (single 4).fixes.get? ⟨1⟩ = some (.plain .addFence) ∧
    (computeRepair .usual storeAndCall flushThenFence).1 = .ok o ∧
    o.fixes.get? ⟨1⟩ = some (.plain .addFlushAndFence) ∧
    ∀ i, o.fixes.contains i = true ↔
      ∃ bug ∈ flushThenFence.bugs, (single bug).fixes.contains i = true := by
  let single (bug : Nat) : Outcome :=
    (computeRepair .usual storeAndCall (flushThenFence.only bug)).1.toOption.getD ⟨∅, [], [], false⟩
  have hv : storeAndCall.validate = .ok () := by decide +kernel
  have hbugs : ∀ e ∈ flushThenFence.events, e.isBug = true → e.kind = .assertPersisted := by decide
  have hsingle : ∀ bug ∈ flushThenFence.bugs,
      (computeRepair .usual storeAndCall (flushThenFence.only bug)).1 = .ok (single bug) := by
    decide +kernel
  have hwhole : (computeRepair .usual storeAndCall flushThenFence).1.map (·.fixes.get? ⟨1⟩) =
      .ok (some (.plain .addFlushAndFence)) := by decide +kernel
  obtain ⟨o, ho, hfix⟩ := map_eq_ok_iff.1 hwhole
  obtain ⟨-, hok, -⟩ := computeRepair_composes hv hbugs single hsingle
  exact ⟨single, o, by decide, by decide +kernel, by decide +kernel, ho, hfix,
    fun i ↦ (hok o ho i).1⟩

def fencedLater : Trace :=
  trace [event .store ("main", 10) [] word false, event .assertPersisted ("main", 16) [] word true,
    event .fence ("main", 12) [] word false, event .assertPersisted ("main", 16) [] word true]

/-- The first assertion asks for a flush and a fence behind the store, the second for a flush. -/
theorem computeRepair_clashes : straightLine.program.validate = .ok () ∧
    (∀ e ∈ fencedLater.events, e.isBug = true → e.kind = .assertPersisted) ∧
    (∀ bug ∈ fencedLater.bugs,
      (computeRepair .usual straightLine.program (fencedLater.only bug)).1.isOk = true) ∧
    (computeRepair .usual straightLine.program fencedLater).1 =
      .error (.refused (.unhandledFixes ⟨0⟩ (.plain .addFlushAndFence) (.plain .addFlush))) := by
  decide +kernel

end Sample

end Durability
