import Durability.PointsTo.Constraint
import Durability.Proofs.Program.Position
import Durability.Window

namespace Durability.Program

variable {p : Program} {i : InstrId} {b : BlockId} {B : Block} {f : FunctionId} {F : Function}
  {ins : Instruction} {k : Nat} {v : Value}

theorem block_of_owns (h : p.owns f b = true) : ∃ B, p.block b = .ok B ∧ B.function = f := by
  rw [owns] at h
  split at h
  · next B hB => exact ⟨B, block_eq_ok_iff.2 hB, of_decide_eq_true h⟩
  · cases h

theorem function_of_lt (h : f.index < p.functions.length) : ∃ F, p.function f = .ok F :=
  ⟨_, function_eq_ok_iff.2 (List.getElem?_eq_getElem h)⟩

theorem function_of_mem (h : F ∈ p.functions) : ∃ f, p.function f = .ok F := by
  obtain ⟨k, hk⟩ := List.mem_iff_getElem?.1 h
  exact ⟨⟨k⟩, function_eq_ok_iff.2 hk⟩

theorem operand_eq_ok_iff : operand ins k = .ok v ↔ ins.inputs[k]? = some v := Fault.lookup_eq_ok_iff

theorem operand_of_lt (ins : Instruction) (h : k < ins.inputs.length) : ∃ v, operand ins k = .ok v :=
  ⟨_, operand_eq_ok_iff.2 (List.getElem?_eq_getElem h)⟩

theorem takes_of_checkOperands (h : ins.checkOperands = .ok ()) :
    ins.op.takes ins.inputs.length = true := by
  rw [Instruction.checkOperands] at h
  split at h
  · assumption
  · cases h

namespace Valid

variable (hv : p.Valid)
include hv

theorem terminator_eq_ok (hB : p.block b = .ok B) : ∃ t, p.terminator b = .ok (some t) := by
  obtain ⟨t, ins, hlast, hins, hterm⟩ := (hv.blocks b B hB).terminated
  exact ⟨t, terminator_eq_some_iff.2 ⟨B, ins, hB, hlast, hins, hterm⟩⟩

theorem exists_firstInBlock (hB : p.block b = .ok B) : ∃ i, p.firstInBlock b = .ok (some i) := by
  obtain ⟨t, -, hlast, -⟩ := (hv.blocks b B hB).terminated
  cases hinstrs : B.instrs with
  | nil =>
    rw [hinstrs] at hlast
    cases hlast
  | cons i _ => exact ⟨i, bind_eq_ok_iff.2 ⟨B, hB, by rw [hinstrs]; rfl⟩⟩

theorem block_of_mem (hF : p.function f = .ok F) (hb : b ∈ F.blocks) :
    ∃ B, p.block b = .ok B ∧ B.function = f :=
  block_of_owns (hv.owned f F hF b hb)

theorem attached_eq_ok : ∃ is, p.attached = .ok is := by
  have hblocks : ∀ b ∈ p.functions.flatMap (·.blocks), ∃ B, p.block b = .ok B := by
    intro b hb
    obtain ⟨F, hF, hb⟩ := List.mem_flatMap.1 hb
    obtain ⟨f, hf⟩ := function_of_mem hF
    obtain ⟨B, hB, -⟩ := hv.block_of_mem hf hb
    exact ⟨B, hB⟩
  obtain ⟨Bs, hBs⟩ := mapM_eq_ok hblocks
  exact ⟨_, bind_eq_ok_iff.2 ⟨Bs, hBs, rfl⟩⟩

theorem returnedValues_eq_ok (hF : p.function f = .ok F) : ∃ vs, p.returnedValues f = .ok vs := by
  refine exists_bind_eq_ok hF ((mapM_eq_ok fun b hb ↦ ?_).elim fun vs hvs ↦
    exists_bind_eq_ok hvs ⟨_, rfl⟩)
  obtain ⟨B, hB, -⟩ := hv.block_of_mem hF hb
  obtain ⟨t, ht⟩ := hv.terminator_eq_ok hB
  obtain ⟨_, ins, _, _, hins, _⟩ := terminator_eq_some_iff.1 ht
  exact exists_bind_eq_ok ht (exists_bind_eq_ok hins ⟨_, rfl⟩)

end Valid

/-- `i` is listed by a block of one of the functions. -/
structure Attached (p : Program) (i : InstrId) : Prop where
  stands : ∃ b k, p.StandsAt b k i
  function : ∃ f, p.functionOf i = .ok (some f) ∧ f.index < p.functions.length

theorem Valid.attached_of_mem (hv : p.Valid) {is : List InstrId} (his : p.attached = .ok is)
    (hi : i ∈ is) : p.Attached i := by
  obtain ⟨blocks, hblocks, his⟩ := bind_eq_ok_iff.1 his
  cases pure_eq_ok_iff.1 his
  obtain ⟨B, hB, hi⟩ := List.mem_flatMap.1 hi
  obtain ⟨b, hb, hB⟩ := exists_of_mem_mapM hblocks hB
  obtain ⟨F, hF, hb⟩ := List.mem_flatMap.1 hb
  obtain ⟨f, hf⟩ := function_of_mem hF
  obtain ⟨B', hB', rfl⟩ := hv.block_of_mem hf hb
  cases hB.symm.trans hB'
  obtain ⟨k, hk⟩ := List.mem_iff_getElem?.1 hi
  have hstands : p.StandsAt b k i := ⟨B, hB, hk⟩
  refine ⟨⟨b, k, hstands⟩, B.function, hstands.functionOf hv hB, ?_⟩
  exact (List.getElem?_eq_some_iff.1 (function_eq_ok_iff.1 hf)).1

namespace Attached

variable (h : p.Attached i)
include h

theorem exists_functionNameOf : ∃ name, p.functionNameOf i = .ok (some name) := by
  obtain ⟨f, hf, hlt⟩ := h.function
  obtain ⟨F, hF⟩ := function_of_lt hlt
  exact ⟨F.name, bind_eq_ok_iff.2 ⟨some f, hf, bind_eq_ok_iff.2 ⟨F, hF, rfl⟩⟩⟩

theorem exists_sourceOf (hv : p.Valid) : ∃ source?, p.sourceOf i = .ok source? := by
  obtain ⟨b, k, hstands⟩ := h.stands
  obtain ⟨B, ins, -, hins, -⟩ := hstands.instr hv
  obtain ⟨f, hf, hlt⟩ := h.function
  obtain ⟨F, hF⟩ := function_of_lt hlt
  refine exists_bind_eq_ok hf (exists_bind_eq_ok hins ?_)
  split
  · exact ⟨none, rfl⟩
  · exact exists_bind_eq_ok hF ⟨_, rfl⟩

theorem exists_locationOf (hv : p.Valid) : ∃ loc, p.locationOf i = .ok loc := by
  obtain ⟨source?, hsource⟩ := h.exists_sourceOf hv
  obtain ⟨name, hname⟩ := h.exists_functionNameOf
  refine exists_bind_eq_ok hsource ?_
  split
  · exact ⟨_, rfl⟩
  · exact exists_bind_eq_ok hname ⟨_, rfl⟩

end Attached

theorem function_of_isDefinedCall (hcall : p.calledFunction i = .ok (some f))
    (hdefined : p.isDefinedCall i = .ok true) : ∃ F, p.function f = .ok F ∧ F.kind = .defined := by
  obtain ⟨f?, hf, hdefined⟩ := bind_eq_ok_iff.1 hdefined
  cases hcall.symm.trans hf
  obtain ⟨F, hF, hkind⟩ := bind_eq_ok_iff.1 hdefined
  exact ⟨F, hF, of_decide_eq_true (pure_eq_ok_iff.1 hkind)⟩

theorem functionOf_of_entry (hv : p.Valid) (h : p.entry f = .ok (some i)) :
    p.functionOf i = .ok (some f) := by
  obtain ⟨F, hF, h⟩ := bind_eq_ok_iff.1 h
  split at h
  · cases pure_eq_ok_iff.1 h
  · next b hb =>
    obtain ⟨B, hB, hfunction⟩ := block_of_owns (hv.owned f F hF b (List.mem_of_head? hb))
    rw [(standsAt_of_firstInBlock h).functionOf hv hB, hfunction]

theorem Valid.entry_eq_ok (hv : p.Valid) (hcall : p.calledFunction i = .ok (some f))
    (hdefined : p.isDefinedCall i = .ok true) : ∃ j, p.entry f = .ok (some j) := by
  obtain ⟨F, hF, hkind⟩ := function_of_isDefinedCall hcall hdefined
  obtain ⟨b, bs, hbs⟩ := List.exists_cons_of_ne_nil ((hv.bodies f F hF).1 hkind)
  obtain ⟨B, hB, -⟩ := hv.block_of_mem hF (hbs ▸ List.mem_cons_self : b ∈ F.blocks)
  obtain ⟨j, hj⟩ := hv.exists_firstInBlock hB
  refine ⟨j, bind_eq_ok_iff.2 ⟨F, hF, ?_⟩⟩
  rw [hbs]
  exact hj

namespace StandsAt

variable (hv : p.Valid) (hi : p.StandsAt b k i)
include hv hi

theorem exists_isDefinedCall : ∃ d, p.isDefinedCall i = .ok d := by
  obtain ⟨B, ins, -, hins, hvalid⟩ := hi.instr hv
  cases hop : ins.op with
  | call f =>
    obtain ⟨F, hF⟩ := function_of_lt (hvalid.callee f hop)
    have hcall : p.calledFunction i = .ok (some f) := calledFunction_eq_ok_iff.2 ⟨ins, hins, hop⟩
    exact exists_bind_eq_ok hcall (exists_bind_eq_ok hF ⟨_, rfl⟩)
  | _ =>
    have hcall : p.calledFunction i = .ok none := bind_eq_ok_iff.2 ⟨ins, hins, by rw [hop]; rfl⟩
    exact exists_bind_eq_ok hcall ⟨false, rfl⟩

theorem exists_endsWindow : ∃ e, p.endsWindow i = .ok e := by
  obtain ⟨B, ins, -, hins, -⟩ := hi.instr hv
  refine exists_bind_eq_ok hins ?_
  split
  · exact ⟨true, rfl⟩
  · exact exists_isDefinedCall hv hi

theorem exists_position? : ∃ place, p.position? i = .ok place := by
  have hblock := hi.blockOf hv
  obtain ⟨B, hB, -⟩ := hi
  exact exists_bind_eq_ok hblock (exists_bind_eq_ok hB ⟨_, rfl⟩)

theorem exists_nextInBlock : ∃ j?, p.nextInBlock i = .ok j? := by
  obtain ⟨place, hplace⟩ := exists_position? hv hi
  refine exists_bind_eq_ok hplace ?_
  cases place with
  | none => exact ⟨none, rfl⟩
  | some place => exact ⟨_, rfl⟩

theorem exists_prevInBlock : ∃ j?, p.prevInBlock i = .ok j? := by
  obtain ⟨place, hplace⟩ := exists_position? hv hi
  refine exists_bind_eq_ok hplace ?_
  cases place with
  | none => exact ⟨none, rfl⟩
  | some place =>
    obtain ⟨m, l⟩ := place
    cases m with
    | zero => exact ⟨none, rfl⟩
    | succ m => exact ⟨_, rfl⟩

theorem exists_successors : ∃ bs, p.successors b = .ok bs := by
  obtain ⟨B, hB, -⟩ := hi
  obtain ⟨t, ht⟩ := hv.terminator_eq_ok hB
  obtain ⟨_, ins, _, _, hins, _⟩ := terminator_eq_some_iff.1 ht
  exact exists_bind_eq_ok ht (exists_bind_eq_ok hins ⟨_, rfl⟩)

end StandsAt

end Durability.Program
