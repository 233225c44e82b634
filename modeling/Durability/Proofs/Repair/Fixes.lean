import Durability.Proofs.LocationIndex
import Durability.Proofs.PointsTo.Constraint
import Durability.Repair.Fixer

namespace Durability

variable {m m' : FixMap} {i k : InstrId} {fix incoming : Fix} {new : Bool}

namespace FixMap

theorem merge_eq_ok {existing : Fix} (h : merge i existing incoming = .ok fix) :
    fix = existing ∨ fix = .plain .addFlushAndFence := by
  rw [merge.eq_def] at h
  split at h
  · cases h
    exact .inl rfl
  · split at h <;> cases h <;> exact .inr rfl

theorem add_eq_ok (h : m.add i incoming = .ok (new, m')) (hfix : m'.get? k = some fix) :
    m.get? k = some fix ∨ k = i ∧ fix = incoming ∨ fix = .plain .addFlushAndFence := by
  rw [add_eq] at h
  split at h
  · cases h
    rw [SortedMap.get?_insert] at hfix
    split at hfix
    · next hik =>
      cases hfix
      exact .inr (.inl ⟨hik.symm, rfl⟩)
    · exact .inl hfix
  · next existing hexisting =>
    obtain ⟨merged, hmerge, h⟩ := bind_eq_ok_iff.1 h
    have h := pure_eq_ok_iff.1 h
    split at h
    · cases h
      exact .inl hfix
    · next hne =>
      cases h
      rw [SortedMap.get?_insert] at hfix
      split at hfix
      · cases hfix
        exact .inr (.inr ((merge_eq_ok hmerge).resolve_left hne))
      · exact .inl hfix

theorem isConditional_of_merge {existing : Fix} (h : merge i existing incoming = .ok fix)
    (hne : fix ≠ existing) : existing.kind.isConditional = false := by
  rw [merge.eq_def] at h
  split at h
  · cases h
    exact absurd rfl hne
  · split at h
    · next hk _ => rw [hk]; rfl
    · next hk _ => rw [hk]; rfl
    all_goals cases h

/-- Unconditional fixes are on record for instructions with the property `P` only. -/
def PlainAt (P : InstrId → Prop) (m : FixMap) : Prop :=
  ∀ i fix, m.get? i = some fix → fix.kind.isConditional = false → P i

namespace PlainAt

variable {P : InstrId → Prop}

theorem empty : PlainAt P ∅ := fun _ _ h ↦ nomatch h

theorem insert (h : m.PlainAt P) (hi : fix.kind.isConditional = false → P i) :
    FixMap.PlainAt P (SortedMap.insert m i fix) := by
  intro k fix' hfix hplain
  rw [SortedMap.get?_insert] at hfix
  split at hfix
  · next hik =>
    cases hfix
    exact hik ▸ hi hplain
  · exact h k fix' hfix hplain

theorem add (h : m.PlainAt P) (hi : incoming.kind.isConditional = false → P i)
    (hadd : m.add i incoming = .ok (new, m')) : m'.PlainAt P := by
  rw [FixMap.add_eq] at hadd
  split at hadd
  · cases hadd
    exact h.insert hi
  · next existing hexisting =>
    obtain ⟨merged, hmerge, hadd⟩ := bind_eq_ok_iff.1 hadd
    have hadd := pure_eq_ok_iff.1 hadd
    split at hadd
    · cases hadd
      exact h
    · next hne =>
      cases hadd
      exact h.insert fun _ ↦ h i existing hexisting (isConditional_of_merge hmerge hne)

end PlainAt

end FixMap

namespace RepairTask

variable {settings : Settings} {p : Program} {t : Trace} {task : RepairTask} {s s' : Fixer}

theorem make_eq_ok {p : Program} (h : make settings p t = .ok task) :
    task.program = p ∧ task.settings = settings ∧ task.trace = t ∧
      LocationIndex.ofProgram p = .ok task.index := by
  obtain ⟨index, hindex, h⟩ := bind_eq_ok_iff.1 h
  obtain ⟨pts, -, h⟩ := bind_eq_ok_iff.1 h
  cases pure_eq_ok_iff.1 h
  exact ⟨rfl, rfl, rfl, hindex⟩

theorem make_trace (h : make settings p t = .ok task) (t' : Trace) :
    make settings p t' = .ok { task with trace := t' } := by
  obtain ⟨index, hindex, h⟩ := bind_eq_ok_iff.1 h
  obtain ⟨pts, hpts, h⟩ := bind_eq_ok_iff.1 h
  cases pure_eq_ok_iff.1 h
  exact bind_eq_ok_iff.2 ⟨index, hindex, bind_eq_ok_iff.2 ⟨pts, hpts, rfl⟩⟩

theorem exists_make (settings : Settings) (hv : p.Valid) (t : Trace) :
    ∃ task, make settings p t = .ok task := by
  obtain ⟨index, hindex⟩ := LocationIndex.exists_ofProgram hv
  obtain ⟨pts, hpts⟩ := hv.exists_pointsTo
  exact exists_bind_eq_ok hindex (exists_bind_eq_ok hpts ⟨_, rfl⟩)

theorem computeRepair_eq (h : make settings p t = .ok task) : computeRepair settings p t =
    ((task.handleAll ∅).1.map fun _ ↦ (task.handleAll ∅).2.outcome, (task.handleAll ∅).2.graphs) := by
  rw [computeRepair, h]
  rfl

theorem computeRepair_eq_ok_iff (h : make settings p t = .ok task) {o : Outcome}
    {graphs : List String} : computeRepair settings p t = (.ok o, graphs) ↔
      ∃ s, task.handleAll ∅ = (.ok (), s) ∧ o = s.outcome ∧ graphs = s.graphs := by
  rw [computeRepair_eq h]
  rcases task.handleAll ∅ with ⟨_ | ⟨⟩, s⟩
  · exact ⟨fun h ↦ (nomatch h), fun ⟨_, h, _⟩ ↦ (nomatch h)⟩
  · constructor
    · rintro ⟨⟩
      exact ⟨s, rfl, rfl, rfl⟩
    · rintro ⟨_, ⟨⟩, rfl, rfl⟩
      rfl

theorem computeRepair_eq_ok {o : Outcome} (h : (computeRepair settings p t).1 = .ok o) :
    ∃ task s, make settings p t = .ok task ∧ task.handleAll ∅ = (.ok (), s) ∧ o = s.outcome := by
  cases hmake : make settings p t with
  | error f =>
    rw [computeRepair, hmake] at h
    cases h
  | ok task =>
    rw [computeRepair_eq hmake] at h
    obtain ⟨⟨⟩, hrun, ho⟩ := map_eq_ok_iff.1 h
    exact ⟨task, _, rfl, Prod.ext hrun rfl, ho.symm⟩

theorem computeRepair_eq_error {e : Failure RepairError} (hmake : make settings p t = .ok task)
    (h : (computeRepair settings p t).1 = .error e) : ∃ s, task.handleAll ∅ = (.error e, s) := by
  rw [computeRepair_eq hmake] at h
  rcases hrun : task.handleAll ∅ with ⟨_ | ⟨⟩, s⟩
  · rw [hrun] at h
    cases h
    exact ⟨s, rfl⟩
  · rw [hrun] at h
    cases h

theorem handle_eq {bug : Nat} {e : Event} (he : task.trace.events[bug]? = some e)
    (hbug : e.isBug = true) : task.handle bug =
      match e.kind with
      | .assertPersisted => task.assertPersisted bug
      | .assertOrdered => assertOrdered bug
      | .requiredFlush => task.requiredFlush bug
      | _ => return false := by
  rw [handle, Fault.lookup_eq_ok_iff.2 he, Stateful.liftFault_ok_bind, hbug, Fault.require,
    if_pos rfl]
  rfl

theorem addFix_apply (i : InstrId) (fix : Fix) (s : Fixer) : addFix i fix s =
    match s.fixes.add i fix with
    | .ok (new, m) => (.ok new, { s with fixes := m })
    | .error cause => (.error (.refused cause), s) := by
  rcases hrun : (FixMap.record i fix).run s.fixes with ⟨cause | new, m⟩
  · obtain ⟨hadd, rfl⟩ := FixMap.record_eq_error hrun
    rw [addFix, hrun, hadd]
    rfl
  · rw [addFix, FixMap.add, hrun]
    rfl

theorem add_of_addFix (h : addFix i fix s = (.ok new, s')) :
    ∃ m, s.fixes.add i fix = .ok (new, m) ∧ s' = { s with fixes := m } := by
  rw [addFix_apply] at h
  cases hadd : s.fixes.add i fix with
  | error cause =>
    rw [hadd] at h
    cases h
  | ok r =>
    rw [hadd] at h
    cases h
    exact ⟨r.2, rfl, rfl⟩

theorem addFix_eq_error {e : Failure RepairError} (h : addFix i fix s = (.error e, s')) :
    ∃ cause, s.fixes.add i fix = .error cause ∧ e = .refused cause ∧ s' = s := by
  rw [addFix_apply] at h
  cases hadd : s.fixes.add i fix with
  | error cause =>
    rw [hadd] at h
    cases h
    exact ⟨cause, rfl, rfl, rfl⟩
  | ok r =>
    rw [hadd] at h
    cases h

theorem addFix_eq_ok (h : addFix i incoming s = (.ok new, s')) (hfix : s'.fixes.get? k = some fix) :
    s.fixes.get? k = some fix ∨ k = i ∧ fix = incoming ∨ fix = .plain .addFlushAndFence := by
  obtain ⟨m, hadd, rfl⟩ := add_of_addFix h
  exact FixMap.add_eq_ok hadd hfix

theorem addFix_meets {E : Failure RepairError → Prop} {P : FixMap → Prop}
    (h : (∃ new m', s.fixes.add i incoming = .ok (new, m') ∧ P m') ∨
      ∃ e, s.fixes.add i incoming = .error e ∧ E (.refused e)) :
    Stateful.Meets E (addFix i incoming) s fun _ r ↦ P r.fixes := by
  constructor
  · intro e r he
    obtain ⟨cause, hadd, rfl, -⟩ := addFix_eq_error he
    obtain ⟨new, m', hadd', -⟩ | ⟨cause', hadd', hcause⟩ := h
    · cases hadd.symm.trans hadd'
    · cases hadd.symm.trans hadd'
      exact hcause
  · intro new r hr
    obtain ⟨m, hadd, rfl⟩ := add_of_addFix hr
    obtain ⟨new', m', hadd', hm'⟩ | ⟨cause, hadd', -⟩ := h
    · cases hadd.symm.trans hadd'
      exact hm'
    · cases hadd.symm.trans hadd'

theorem addFixes_eq_ok {l : List (InstrId × Fix)} (h : addFixes l s = (.ok new, s'))
    (hfix : s'.fixes.get? k = some fix) :
    s.fixes.get? k = some fix ∨ (k, fix) ∈ l ∨ fix = .plain .addFlushAndFence := by
  induction l generalizing s new with
  | nil =>
    cases h
    exact .inl hfix
  | cons e l ih =>
    obtain ⟨i, incoming⟩ := e
    obtain ⟨b, r, hadd, h⟩ := Stateful.bind_eq_ok_iff.1 h
    obtain ⟨b', r', hmore, h⟩ := Stateful.bind_eq_ok_iff.1 h
    cases h
    obtain hr | hl | hmerged := ih hmore
    · obtain hs | ⟨rfl, rfl⟩ | hmerged := addFix_eq_ok hadd hr
      · exact .inl hs
      · exact .inr (.inl List.mem_cons_self)
      · exact .inr (.inr hmerged)
    · exact .inr (.inl (List.mem_cons_of_mem _ hl))
    · exact .inr (.inr hmerged)

theorem kind_of_mem_chain {points : List InstrId} (h : (k, fix) ∈ chain i points) :
    fix.kind = .addFlushIf ∨ fix.kind = .removeFlushIf := by
  obtain h | h := List.mem_append.1 h
  · obtain ⟨⟨j, prev⟩, -, h⟩ := List.mem_map.1 h
    cases h
    exact .inl rfl
  · cases List.mem_singleton.1 h
    exact .inr rfl

section PlainAt

open Stateful

variable {P : InstrId → Prop} {points : List InstrId} {bug : Nat}

theorem addFix_plainAt (hi : incoming.kind.isConditional = false → P i) :
    Preserves (·.fixes.PlainAt P) (addFix i incoming) := by
  intro s hs
  rcases hr : addFix i incoming s with ⟨e | new, s'⟩
  · obtain ⟨-, -, -, rfl⟩ := addFix_eq_error hr
    exact hs
  · obtain ⟨m, hadd, rfl⟩ := add_of_addFix hr
    exact hs.add hi hadd

theorem addFixes_plainAt {l : List (InstrId × Fix)}
    (hl : ∀ e ∈ l, e.2.kind.isConditional = false → P e.1) :
    Preserves (·.fixes.PlainAt P) (addFixes l) := by
  induction l with
  | nil => exact .pure false
  | cons e l ih =>
    obtain ⟨he, hl⟩ := List.forall_mem_cons.1 hl
    exact .bind (addFix_plainAt he) fun _ ↦ .bind (ih hl) fun _ ↦ .pure _

theorem isConditional_of_mem_chain (h : (k, fix) ∈ chain i points) :
    fix.kind.isConditional = true := by
  obtain hk | hk := kind_of_mem_chain h <;> rw [hk] <;> rfl

variable (hindex : task.index.Holds P)

include hindex

theorem addFixes_plainAt_of_instrsOf {e : Event} {is : List InstrId} (his : task.instrsOf e = .ok is)
    (fix : Fix) : Preserves (·.fixes.PlainAt P) (addFixes (is.map (·, fix))) := by
  refine addFixes_plainAt fun x hx _ ↦ ?_
  obtain ⟨i, hi, rfl⟩ := List.mem_map.1 hx
  exact hindex.of_instrsFor his hi

theorem assertPersisted_plainAt : Preserves (·.fixes.PlainAt P) (task.assertPersisted bug) :=
  .lift_bind fun _ _ ↦ .lift_bind fun _ his ↦ addFixes_plainAt_of_instrsOf hindex his _

theorem requiredFlush_plainAt : Preserves (·.fixes.PlainAt P) (task.requiredFlush bug) := by
  refine .lift_bind fun _ _ ↦ .lift_bind fun _ _ ↦ .bind (.modifyGet fun _ hs ↦ hs) fun _ ↦ ?_
  refine .lift_bind fun is his ↦ ?_
  split
  · exact addFixes_plainAt_of_instrsOf hindex his _
  split
  · exact .pure false
  · refine addFixes_plainAt fun x hx hplain ↦ ?_
    obtain ⟨i, -, hx⟩ := List.mem_flatMap.1 hx
    rw [isConditional_of_mem_chain hx] at hplain
    cases hplain

theorem handle_plainAt : Preserves (·.fixes.PlainAt P) (task.handle bug) := by
  refine .bind (.liftFault _) fun e ↦ .bind (.liftFault _) fun _ ↦ ?_
  split
  · exact assertPersisted_plainAt hindex
  · exact .pure false
  · exact requiredFlush_plainAt hindex
  · exact .pure false

theorem handleAll_plainAt : Preserves (·.fixes.PlainAt P) task.handleAll := by
  refine .forM fun bug _ ↦ .bind (handle_plainAt hindex) fun new ↦ ?_
  split <;> exact .modifyGet fun _ hs ↦ hs

end PlainAt

end RepairTask

theorem repair_eq_ok {settings : Settings} {p q : Program} {t : Trace} {graphs : List String}
    {o : Outcome}
    (h : repair settings p t = ((.ok o, q), graphs)) : ∃ o' modified,
      computeRepair settings p t = (.ok o', graphs) ∧ o = { o' with modified } ∧
        (o'.fixes.apply t.source).run p = (.ok modified, q) := by
  rw [repair] at h
  split at h
  · cases h
  · next o' graphs' hcompute =>
    obtain ⟨hrun, rfl⟩ := Prod.mk.inj h
    obtain ⟨modified, r, happly, hrest⟩ := Stateful.bind_eq_ok_iff.1 hrun
    cases hrest
    exact ⟨o', modified, hcompute, rfl, happly⟩

end Durability
