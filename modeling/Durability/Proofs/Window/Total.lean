import Durability.Proofs.Context.Placed
import Durability.Proofs.Window.Event

namespace Durability

variable {p : Program} {i j k : InstrId} {b : BlockId} {m n : Nat}

namespace Program

theorem Valid.length_instrs_le {B : Block} (hv : p.Valid) (once : p.ListsOnce)
    (hB : p.block b = .ok B) : B.instrs.length ≤ p.instructions.length :=
  length_le_of_index_lt instrIndex_injective (once b B hB) fun _ hi ↦ hv.index_lt hB hi

section Scan

variable (hv : p.Valid)
include hv

theorem exists_scanForward {B : Block} (once : p.ListsOnce) (hB : p.block b = .ok B)
    (hi : p.StandsAt b m i) (hn : B.instrs.length ≤ m + n) : ∃ k, p.scanForward n i = .ok k := by
  induction n generalizing m i with
  | zero =>
    obtain ⟨B', hB', hi⟩ := hi
    cases hB.symm.trans hB'
    have := (List.getElem?_eq_some_iff.1 hi).1
    omega
  | succ n ih =>
    obtain ⟨ends, hends⟩ := hi.exists_endsWindow hv
    refine exists_bind_eq_ok hends ?_
    cases ends with
    | true => exact ⟨i, rfl⟩
    | false =>
      refine exists_bind_eq_ok (hi.nextInBlock hv once hB) ?_
      cases hj : B.instrs[m + 1]? with
      | none => exact ⟨i, rfl⟩
      | some j => exact ih ⟨B, hB, hj⟩ (by omega)

theorem exists_scanBackward (once : p.ListsOnce) (hi : p.StandsAt b m i) (hn : m < n) :
    ∃ k, p.scanBackward n i = .ok k := by
  induction n generalizing m i with
  | zero => exact absurd hn (Nat.not_lt_zero m)
  | succ n ih =>
    obtain ⟨j?, hprev⟩ := hi.exists_prevInBlock hv
    refine exists_bind_eq_ok hprev ?_
    cases j? with
    | none => exact ⟨i, rfl⟩
    | some j =>
      obtain ⟨b', m', hj, hi'⟩ := standsAt_of_prevInBlock hprev once
      obtain ⟨rfl, rfl⟩ := hi.unique hi' hv once
      obtain ⟨defined, hdefined⟩ := hj.exists_isDefinedCall hv
      refine exists_bind_eq_ok hdefined ?_
      cases defined with
      | true => exact ⟨i, rfl⟩
      | false => exact ih hj (by omega)

theorem scanForward_endless (hi : ∃ b m, p.StandsAt b m i) :
    FailsOnly (· = .endless) (p.scanForward n i) := by
  induction n generalizing i with
  | zero => exact .error rfl
  | succ n ih =>
    obtain ⟨b, m, hi⟩ := hi
    refine .bind (.of_ok (hi.exists_endsWindow hv)) fun ends _ ↦ ?_
    cases ends with
    | true => exact .of_ok ⟨i, rfl⟩
    | false =>
      refine .bind (.of_ok (hi.exists_nextInBlock hv)) fun j? hnext ↦ ?_
      cases j? with
      | none => exact .of_ok ⟨i, rfl⟩
      | some j =>
        obtain ⟨b, m, -, -, hj⟩ := standsAt_of_nextInBlock hnext
        exact ih ⟨b, m + 1, hj⟩

theorem scanBackward_endless (hi : ∃ b m, p.StandsAt b m i) :
    FailsOnly (· = .endless) (p.scanBackward n i) := by
  induction n generalizing i with
  | zero => exact .error rfl
  | succ n ih =>
    obtain ⟨b, m, hi⟩ := hi
    refine .bind (.of_ok (hi.exists_prevInBlock hv)) fun j? hprev ↦ ?_
    cases j? with
    | none => exact .of_ok ⟨i, rfl⟩
    | some j =>
      obtain ⟨b, m, hj⟩ := exists_standsAt_of_prevInBlock hprev
      refine .bind (.of_ok (hj.exists_isDefinedCall hv)) fun defined _ ↦ ?_
      cases defined with
      | true => exact .of_ok ⟨i, rfl⟩
      | false => exact ih ⟨b, m, hj⟩

end Scan

/-- What is expected to fail. Blocks that list an instruction twice may lead a scan in a circle. -/
structure Expects (p : Program) (E : Failure RepairError → Prop) : Prop where
  unmapped : ∀ loc, E (.refused (.unmapped loc))
  ambiguous : ∀ loc n, E (.refused (.ambiguous loc n))
  notACallSite : ∀ loc, E (.refused (.notACallSite loc))
  recursion : ∀ name call, E (.refused (.recursion name call))
  endless : ¬ p.ListsOnce → E (.fault .endless)

variable {E : Failure RepairError → Prop} (hE : p.Expects E) (hv : p.Valid)
  (hi : ∃ b m, p.StandsAt b m i)
include hE hv hi

theorem scanForward_failsOnly :
    FailsOnly (fun f ↦ E (.fault f)) (p.scanForward p.walkBound i) := by
  by_cases once : p.ListsOnce
  · obtain ⟨b, m, hi⟩ := hi
    obtain ⟨B, hB, -⟩ := id hi
    have hlength := hv.length_instrs_le once hB
    exact .of_ok (exists_scanForward hv once hB hi (by rw [walkBound]; omega))
  · intro f hf
    rw [scanForward_endless hv hi f hf]
    exact hE.endless once

theorem scanBackward_failsOnly :
    FailsOnly (fun f ↦ E (.fault f)) (p.scanBackward p.walkBound i) := by
  by_cases once : p.ListsOnce
  · obtain ⟨b, m, hi⟩ := hi
    obtain ⟨B, hB, hm⟩ := id hi
    have hlength := hv.length_instrs_le once hB
    have hlt := (List.getElem?_eq_some_iff.1 hm).1
    exact .of_ok (exists_scanBackward hv once hi (by rw [walkBound]; omega))
  · intro f hf
    rw [scanBackward_endless hv hi f hf]
    exact hE.endless once

end Program

namespace Window

variable {c : ContextId} {c? : Option ContextId} {t : ContextTable} {w : Window}
  {env : Surroundings} {E : Failure RepairError → Prop}

theorem startingAt_failsOnly (hE : p.Expects E) (hv : p.Valid) (hi : ∃ b m, p.StandsAt b m i) :
    FailsOnly (fun f ↦ E (.fault f)) (startingAt p c i) :=
  .bind (Program.scanForward_failsOnly hE hv hi) fun _ _ ↦ .of_ok ⟨_, rfl⟩

theorem around_failsOnly (hE : p.Expects E) (hv : p.Valid) (hi : ∃ b m, p.StandsAt b m i) :
    FailsOnly (fun f ↦ E (.fault f)) (around p c i) := by
  refine .bind (Program.scanBackward_failsOnly hE hv hi) fun j hj ↦ ?_
  have hstands : ∃ b m, p.StandsAt b m j := by
    obtain rfl | hstands := Program.standsAt_of_scanBackward hj
    · exact hi
    · exact hstands
  exact .bind (startingAt_failsOnly hE hv hstands) fun _ _ ↦ .of_ok ⟨_, rfl⟩

section Event

open Stateful

variable (hE : env.program.Expects E) (hv : env.program.Valid)
  (hindex : env.index.Holds env.program.Attached)
include hE hv hindex

theorem callAt_failsOnly {frame : Location} : FailsOnly E (callAt env frame) := by
  have hkeep : ∀ i ∈ env.index.lookup frame, ∃ b, env.program.isDefinedCall i = .ok b := by
    intro i hi
    obtain ⟨b, m, hstands⟩ := (hindex.of_mem_lookup hi).stands
    exact hstands.exists_isDefinedCall hv
  have hunique := LocationIndex.uniqueWhere_failsOnly hE.unmapped hE.ambiguous hkeep
  rw [callAt]
  split
  · exact .error (hE.notACallSite _)
  · exact hunique

omit hE hv in
theorem callAt_eq_ok {frame : Location} {call : InstrId} (h : callAt env frame = .ok call) :
    env.program.Attached call ∧ env.program.isDefinedCall call = .ok true := by
  rw [callAt] at h
  split at h
  · cases h
  · exact hindex.of_uniqueWhere h

/-- The contexts of an event while its frames are entered. -/
def Enters (p : Program) (c? : Option ContextId) (t : ContextTable) : Prop :=
  t.Placed p ∧ ∀ c, c? = some c → ∃ x, t.get c = .ok x

omit hE hv hindex in
theorem root_meets {f : FunctionId} (ht : t.Placed p) (hf : f.index < p.functions.length) :
    Meets E (InContexts.root f) t fun c r ↦ r.Placed p ∧ ∃ x, r.get c = .ok x := by
  obtain ⟨-, -, -, x, hx, -⟩ := ContextTable.root_eq (p := p) (rfl : t.root f = _)
  exact .modifyGet ⟨ht.enterRoot hf, x, hx⟩

omit hE hv hindex in
theorem callerOf_meets (ht : Enters env.program c? t) (hi : env.program.Attached i) :
    Meets E (callerOf env c? i) t fun c r ↦ r.Placed env.program ∧ ∃ x, r.get c = .ok x := by
  obtain ⟨f, hf, hlt⟩ := hi.function
  cases c? with
  | some c => exact .pure ⟨ht.1, ht.2 c rfl⟩
  | none =>
    refine .liftFault_bind (.of_ok ⟨some f, hf⟩) fun f? hf? ↦ ?_
    cases hf.symm.trans hf?
    exact root_meets ht.1 hlt

theorem enterFrame_meets {frame : Location} (ht : Enters env.program c? t) :
    Meets E (enterFrame env c? frame) t (Enters env.program) := by
  rw [enterFrame]
  split
  · refine .lift_bind (callAt_failsOnly hE hv hindex) fun call hcall ↦ ?_
    obtain ⟨hattached, hdefined⟩ := callAt_eq_ok hindex hcall
    refine .bind (callerOf_meets ht hattached) fun c r hr ↦ ?_
    obtain ⟨hplaced, x, hx⟩ := hr
    have hcall : Meets E (InContexts.call env.program c call) r fun d r' ↦
        Enters env.program (some d) r' := by
      refine .of_attempt (ContextTable.doCall_failsOnly hdefined hx fun name ↦ hE.recursion name call)
        fun d r' hcall ↦ ⟨hplaced.doCall hattached.stands hcall, fun e he ↦ ?_⟩
      obtain ⟨-, -, -, -, y, -, hy, -⟩ := ContextTable.doCall_eq_ok hplaced.toInterned hcall
      cases he
      exact ⟨y, hy⟩
    exact .bind hcall fun d r' hr' ↦ .pure hr'
  · exact .pure ht

omit hE hv hindex in
theorem contextFor_meets {f : FunctionId} (ht : Enters p c? t) (hf : f.index < p.functions.length) :
    Meets E (contextFor c? f) t fun c r ↦ r.Placed p ∧ ∃ x, r.get c = .ok x := by
  cases c? with
  | none => exact root_meets ht.1 hf
  | some c =>
    obtain ⟨x, hx⟩ := ht.2 c rfl
    have hget : Meets E (get : InContexts ContextTable) t fun r r' ↦ r = t ∧ r' = t :=
      ⟨fun _ _ he ↦ (nomatch he), fun _ _ ha ↦ get_eq_ok_iff.1 ha⟩
    refine .bind hget fun r r' hr ↦ ?_
    obtain ⟨rfl, rfl⟩ := hr
    refine .liftFault_bind (.of_ok ⟨x, hx⟩) fun y _ ↦ ?_
    split
    · exact .pure ⟨ht.1, x, hx⟩
    · exact root_meets ht.1 hf

theorem ofEvent_meets {e : Event} (ht : t.Placed env.program) :
    Meets E (ofEvent env e) t fun w r ↦ r.Placed env.program ∧ (∃ x, r.get w.context = .ok x) ∧
      (∃ b m, env.program.StandsAt b m w.first) ∧ ∃ b m, env.program.StandsAt b m w.anchor := by
  have hframes : Meets E (e.callers.foldlM (enterFrame env) none) t (Enters env.program) :=
    .foldlM (fun c? r hr _ _ ↦ enterFrame_meets hE hv hindex hr) ⟨ht, nofun⟩
  refine .bind hframes fun c? r hr ↦ ?_
  have hunique : FailsOnly E (env.index.uniqueFor e.anchor env.settings env.program e.kind) :=
    LocationIndex.uniqueFor_failsOnly hE.unmapped hE.ambiguous fun _ hi ↦ hindex.exists_instr hv hi
  refine .lift_bind hunique fun i hi ↦ ?_
  obtain ⟨hstands, f, hf, hlt⟩ := hindex.of_uniqueFor hi
  refine .liftFault_bind (.of_ok ⟨some f, hf⟩) fun f? hf? ↦ ?_
  cases hf.symm.trans hf?
  refine .bind (contextFor_meets hr hlt) fun c r' hr' ↦ ?_
  refine .liftFault (around_failsOnly hE hv hstands) fun w hw ↦ ?_
  obtain ⟨rfl, rfl, hback, -⟩ := around_cases hw
  refine ⟨hr'.1, hr'.2, ?_, hstands⟩
  obtain hfirst | hfirst := Program.standsAt_of_scanBackward hback
  · exact hfirst ▸ hstands
  · exact hfirst

end Event

end Window

end Durability
