import Durability.Proofs.Context.Table
import Durability.Proofs.Program.Total

namespace Durability.ContextTable

variable {p : Program} {pts : PointsTo} {t t' : ContextTable} {c d : ContextId} {x y : Context}
  {f : FunctionId} {call : InstrId}

/-- The functions are those of the program, and the call sites stand in its blocks. -/
structure Placed (p : Program) (t : ContextTable) : Prop extends Interned p t where
  function : ∀ c x, t.get c = .ok x → x.function.index < p.functions.length
  stands : ∀ c x, t.get c = .ok x → ∀ i ∈ x.callStack, ∃ b k, p.StandsAt b k i

namespace Placed

theorem empty : Placed p ∅ := ⟨.empty, fun _ _ h ↦ (nomatch h), fun _ _ h ↦ (nomatch h)⟩

variable (h : t.Placed p)
include h

theorem append {n : Context} (hn : t.Fresh p n) (hfunction : n.function.index < p.functions.length)
    (hstands : ∀ i ∈ n.callStack, ∃ b k, p.StandsAt b k i) : Placed p ⟨t.contexts ++ [n]⟩ := by
  refine ⟨h.toInterned.append hn, fun c x hx ↦ ?_, fun c x hx ↦ ?_⟩
  · obtain hx | ⟨-, rfl⟩ := (get_append t).1 hx
    · exact h.function c x hx
    · exact hfunction
  · obtain hx | ⟨-, rfl⟩ := (get_append t).1 hx
    · exact h.stands c x hx
    · exact hstands

theorem update {g : PmFacts → PmFacts} : Placed p (t.update c g) := by
  refine ⟨h.toInterned.update, fun d x hx ↦ ?_, fun d x hx ↦ ?_⟩
  · obtain ⟨y, hy, -, -, hfunction⟩ := exists_of_get_update hx
    exact hfunction ▸ h.function d y hy
  · obtain ⟨y, hy, -, hstack, -⟩ := exists_of_get_update hx
    exact hstack ▸ h.stands d y hy

theorem enterRoot (hf : f.index < p.functions.length) : Placed p (t.root f).2 := by
  obtain ⟨d, x, hd, -⟩ | ⟨hd, hfresh⟩ := root_cases (p := p) t f
  · rw [hd]
    exact h
  · rw [hd]
    exact h.append hfresh hf fun _ hi ↦ absurd hi List.not_mem_nil

theorem doCall (hi : ∃ b k, p.StandsAt b k call) (hcall : t.doCall p c call = .ok (d, t')) :
    t'.Placed p := by
  obtain ⟨hdefined, f, x, hcallee, hx, hnot, hcases⟩ := doCall_cases hcall
  obtain ⟨y, -, -, -, ⟨rfl, -⟩ | rfl⟩ | ⟨hnew, rfl, rfl⟩ := hcases
  · exact h
  · exact h.update
  · obtain ⟨F, hF, -⟩ := Program.function_of_isDefinedCall hcallee hdefined
    refine h.append ⟨nofun, fun d hd ↦ ?_⟩ ?_ fun i hmem ↦ ?_
    · cases hd
      exact ⟨x, call, hx, rfl, hdefined, hcallee, hnot, hnew⟩
    · exact (List.getElem?_eq_some_iff.1 (Program.function_eq_ok_iff.1 hF)).1
    · obtain hmem | hmem := List.mem_append.1 hmem
      · exact h.stands c x hx i hmem
      · rw [List.mem_singleton.1 hmem]
        exact hi

theorem doReturn {ret : InstrId} {c? : Option ContextId}
    (hret : t.doReturn p pts c ret = .ok (c?, t')) : t'.Placed p := by
  obtain ⟨x, hx, ⟨-, -, rfl⟩ | ⟨d, y, call, ins, -, -, -, -, -, rfl⟩⟩ :=
    doReturn_cases h.toInterned hret
  · exact h
  · exact h.update

end Placed

section Answers

variable {E : Failure RepairError → Prop}

theorem callee_of_isDefinedCall (hcall : p.calledFunction call = .ok (some f))
    (hdefined : p.isDefinedCall call = .ok true) : callee p call = .ok f := by
  obtain ⟨ins, hins, hop⟩ := Program.calledFunction_eq_ok_iff.1 hcall
  obtain ⟨F, hF, hkind⟩ := Program.function_of_isDefinedCall hcall hdefined
  refine bind_eq_ok_iff.2 ⟨ins, Attempt.lift_eq_ok_iff.2 hins, ?_⟩
  rw [hop]
  refine bind_eq_ok_iff.2 ⟨F, Attempt.lift_eq_ok_iff.2 hF, ?_⟩
  rw [if_pos hkind]
  rfl

theorem doCall_failsOnly (hdefined : p.isDefinedCall call = .ok true) (hx : t.get c = .ok x)
    (hE : ∀ name, E (.refused (.recursion name call))) : FailsOnly E (t.doCall p c call) := by
  obtain ⟨f?, hcall, hkind⟩ := bind_eq_ok_iff.1 hdefined
  cases f? with
  | none => cases pure_eq_ok_iff.1 hkind
  | some f =>
    obtain ⟨F, hF, -⟩ := Program.function_of_isDefinedCall hcall hdefined
    rw [doCall_attempt]
    refine .bind (.bind (.of_ok ⟨f, callee_of_isDefinedCall hcall hdefined⟩) fun g hg ↦ ?_)
      fun g hg ↦ ?_
    · refine .bind (.lift_ok (exists_bind_eq_ok hx ⟨_, rfl⟩)) fun active _ ↦ ?_
      cases (callee_of_isDefinedCall hcall hdefined).symm.trans hg
      split
      · exact .bind (.lift_ok ⟨F, hF⟩) fun _ _ ↦ .error (hE _)
      · exact .of_ok ⟨f, rfl⟩
    · obtain ⟨d, t', henter, -⟩ := enter_cases hx call g
      exact .of_ok ⟨(d, t'), Stateful.attempt_eq_ok_iff.2 henter⟩

theorem exists_doReturn {ret : InstrId} {ins : Instruction} (h : t.Interned p)
    (hx : t.get c = .ok x) (hret : p.instr ret = .ok ins) :
    ∃ r, t.doReturn p pts c ret = .ok r := by
  refine exists_bind_eq_ok hx ?_
  split
  · next d call hparent _ =>
    obtain ⟨-, y, _, hy, -⟩ := h.child c x d hx hparent
    exact exists_bind_eq_ok hret (exists_bind_eq_ok hy ⟨_, rfl⟩)
  · exact ⟨_, rfl⟩

end Answers

section Active

def outermost (t : ContextTable) (c : ContextId) : Option FunctionId :=
  (t.activeFrom c.index).getLast?

namespace Interned

variable (h : t.Interned p)
include h

theorem length_activeFrom (hc : t.get c = .ok x) :
    (t.activeFrom c.index).length = x.callStack.length + 1 := by
  generalize hs : x.callStack = s
  induction s using List.reverseRecOn generalizing c x with
  | nil =>
    rw [activeFrom_root hc (h.parent_eq_none hc hs)]
    rfl
  | append_singleton s call ih =>
    obtain ⟨d, y, hp, hd, hy, -⟩ := h.parent_eq_some hc hs
    rw [h.activeFrom_child hc hp, List.length_cons, ih hd hy, List.length_append,
      List.length_singleton]

theorem activeFrom_ne_nil (hc : t.get c = .ok x) : t.activeFrom c.index ≠ [] := by
  intro hnil
  have hlength := h.length_activeFrom hc
  rw [hnil] at hlength
  cases hlength

theorem outermost_child (hc : t.get c = .ok x) (hp : x.parent = some d) (hd : t.get d = .ok y) :
    t.outermost c = t.outermost d := by
  rw [outermost, h.activeFrom_child hc hp, List.getLast?_cons_of_ne_nil (h.activeFrom_ne_nil hd)]
  rfl

theorem eq_of_outermost {c' : ContextId} {x' : Context} (hc : t.get c = .ok x)
    (hc' : t.get c' = .ok x') (houtermost : t.outermost c = t.outermost c')
    (hstack : x.callStack = x'.callStack) : c = c' := by
  generalize hs : x.callStack = s at hstack
  induction s using List.reverseRecOn generalizing c c' x x' with
  | nil =>
    have hp := h.parent_eq_none hc hs
    have hp' := h.parent_eq_none hc' hstack.symm
    rw [outermost, outermost, activeFrom_root hc hp, activeFrom_root hc' hp'] at houtermost
    exact h.rootUnique c c' x x' hc hc' hp hp' (Option.some.inj houtermost)
  | append_singleton s call ih =>
    obtain ⟨d, y, hp, hd, hy, -⟩ := h.parent_eq_some hc hs
    obtain ⟨d', y', hp', hd', hy', -⟩ := h.parent_eq_some hc' hstack.symm
    rw [h.outermost_child hc hp hd, h.outermost_child hc' hp' hd'] at houtermost
    obtain rfl := ih hd hd' houtermost hy hy'.symm
    exact h.childUnique c c' x x' d hc hc' hp hp' (by rw [hs, ← hstack])

end Interned

namespace Placed

variable (h : t.Placed p)
include h

theorem index_lt_of_mem_activeFrom (hc : t.get c = .ok x) (hf : f ∈ t.activeFrom c.index) :
    f.index < p.functions.length := by
  generalize hs : x.callStack = s
  induction s using List.reverseRecOn generalizing c x with
  | nil =>
    rw [Interned.activeFrom_root hc (h.parent_eq_none hc hs), List.mem_singleton] at hf
    exact hf ▸ h.function c x hc
  | append_singleton s call ih =>
    obtain ⟨d, y, hp, hd, hy, -⟩ := h.parent_eq_some hc hs
    rw [h.activeFrom_child hc hp] at hf
    obtain rfl | hf := List.mem_cons.1 hf
    · exact h.function c x hc
    · exact ih hd hf hy

theorem exists_outermost (hc : t.get c = .ok x) :
    ∃ f, t.outermost c = some f ∧ f.index < p.functions.length := by
  have hne := h.activeFrom_ne_nil hc
  exact ⟨_, List.getLast?_eq_some_getLast hne,
    h.index_lt_of_mem_activeFrom hc (List.getLast_mem hne)⟩

theorem length_callStack_lt (hc : t.get c = .ok x) : x.callStack.length < p.functions.length := by
  have hle := Program.length_le_of_index_lt Program.functionIndex_injective (h.active c x hc)
    (fun f hf ↦ h.index_lt_of_mem_activeFrom hc hf)
  rwa [h.length_activeFrom hc] at hle

end Placed

end Active

end Durability.ContextTable
