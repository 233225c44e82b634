import Durability.Proofs.PointsTo.Solve
import Durability.Proofs.LocationIndex
import Durability.Proofs.Program.Total
import Durability.Sample.Programs

namespace Durability.Program

section Includes

variable (p : Program) (r : Flows) (i : InstrId) (ins : Instruction)

def Yields (F : Function) (v : Value) : Prop :=
  ∃ b ∈ F.blocks, ∃ t ins, p.terminator b = .ok (some t) ∧ p.instr t = .ok ins ∧ ins.op = .ret ∧
    ins.inputs.head? = some v

/-- What a call of `f` asks for: the parameters of a defined function point wherever the arguments do
and its result wherever the returned values do; other code hands out memory of its own. -/
def CallIncludes (f : FunctionId) (F : Function) : Prop :=
  match F.kind with
  | .defined =>
    (∀ n v, ins.inputs[n]? = some v → r.points v ⊆ r.points (.arg f n)) ∧
      ∀ v, p.Yields F v → r.points v ⊆ r.points (.instr i)
  | .declaration => .heap i ∈ r.points (.instr i)
  | .intrinsic => True

/-- What the instruction `ins` with id `i` asks for. -/
def InstrIncludes : Prop :=
  match ins.op with
  | .alloca => .stack i ∈ r.points (.instr i)
  | .ptrOffset | .copy | .phi => ∀ v ∈ ins.inputs, r.points v ⊆ r.points (.instr i)
  | .load => ∀ ptr, ins.inputs[0]? = some ptr →
      ∀ o ∈ r.points ptr, r.holds o ⊆ r.points (.instr i)
  | .store => ∀ ptr, ins.inputs[0]? = some ptr → ∀ v, ins.inputs[1]? = some v →
      ∀ o ∈ r.points ptr, r.points v ⊆ r.holds o
  | .call f => ∀ F, p.function f = .ok F → p.CallIncludes r i ins f F
  | _ => True

/-- What the globals and the instructions in a list ask for. -/
structure Includes (is : List InstrId) : Prop where
  globals : ∀ g : GlobalId, g.index < p.globals.length → .global g ∈ r.points (.global g)
  instrs : ∀ i ∈ is, ∀ ins, p.instr i = .ok ins → p.InstrIncludes r i ins

end Includes

theorem Includes.of_perm {p : Program} {r : Flows} {is is' : List InstrId} (h : p.Includes r is)
    (hperm : is'.Perm is) : p.Includes r is' :=
  ⟨h.globals, fun i hi ↦ h.instrs i (hperm.mem_iff.1 hi)⟩

variable {p : Program} {r : Flows} {i : InstrId} {ins : Instruction} {f : FunctionId} {F : Function}
  {is : List InstrId} {cs : List Constraint} {v : Value}

theorem holds_globalConstraints_iff :
    (∀ c ∈ p.globalConstraints, c.Holds r) ↔
      ∀ g : GlobalId, g.index < p.globals.length → .global g ∈ r.points (.global g) := by
  simp only [globalConstraints, List.forall_mem_map, List.mem_range, Constraint.holds_address]
  exact ⟨fun h g ↦ h g.index, fun h k ↦ h ⟨k⟩⟩

theorem mem_returnedValues {vs : List Value} (hF : p.function f = .ok F)
    (h : p.returnedValues f = .ok vs) : v ∈ vs ↔ p.Yields F v := by
  obtain ⟨F', hF', h⟩ := bind_eq_ok_iff.1 h
  obtain rfl : F = F' := by injection hF.symm.trans hF'
  obtain ⟨l, hl, h⟩ := bind_eq_ok_iff.1 h
  obtain rfl := pure_eq_ok_iff.1 h
  rw [List.mem_filterMap]
  constructor
  · intro hv
    obtain ⟨_, hmem, rfl⟩ := hv
    obtain ⟨b, hb, hterm⟩ := exists_of_mem_mapM hl hmem
    obtain ⟨_ | t, ht, hterm⟩ := bind_eq_ok_iff.1 hterm
    · cases pure_eq_ok_iff.1 hterm
    · obtain ⟨ins, hins, hterm⟩ := bind_eq_ok_iff.1 hterm
      have hvalue := pure_eq_ok_iff.1 hterm
      split at hvalue
      · next hret => exact ⟨b, hb, t, ins, ht, hins, hret, hvalue⟩
      · cases hvalue
  · intro hv
    obtain ⟨b, hb, t, ins, ht, hins, hret, hvalue⟩ := hv
    obtain ⟨v?, hmem, hterm⟩ := mem_mapM_of_mem hl hb
    simp only [ht, hins, hret, if_true, hvalue, bind, Except.bind, pure, Except.pure,
      Except.ok.injEq] at hterm
    exact ⟨v?, hmem, hterm.symm⟩

theorem holds_bound_iff :
    (∀ c ∈ ins.inputs.mapIdx fun n src ↦ Constraint.copy (.arg f n) src, c.Holds r) ↔
      ∀ n v, ins.inputs[n]? = some v → r.points v ⊆ r.points (.arg f n) := by
  simp only [← Constraint.holds_copy]
  constructor
  · intro h n v hn
    exact h _ (List.mem_of_getElem? (by rw [List.getElem?_mapIdx, hn, Option.map_some]))
  · intro h c hc
    obtain ⟨n, hn, rfl⟩ := List.mem_mapIdx.1 hc
    exact h n _ (List.getElem?_eq_getElem hn)

theorem holds_callConstraints_iff (hF : p.function f = .ok F)
    (h : p.callConstraints i ins f = .ok cs) :
    (∀ c ∈ cs, c.Holds r) ↔ p.CallIncludes r i ins f F := by
  obtain ⟨F', hF', h⟩ := bind_eq_ok_iff.1 h
  obtain rfl : F = F' := by injection hF.symm.trans hF'
  rw [CallIncludes]
  cases hkind : F.kind with
  | defined =>
    simp only [hkind] at h
    obtain ⟨vs, hvs, h⟩ := bind_eq_ok_iff.1 h
    obtain rfl := pure_eq_ok_iff.1 h
    rw [List.forall_mem_append, holds_bound_iff, List.forall_mem_map]
    simp only [Constraint.holds_copy, mem_returnedValues hF hvs]
  | declaration =>
    simp only [hkind] at h
    obtain rfl := pure_eq_ok_iff.1 h
    rw [List.forall_mem_singleton, Constraint.holds_address]
  | intrinsic =>
    simp only [hkind] at h
    obtain rfl := pure_eq_ok_iff.1 h
    exact iff_of_true (fun c hc ↦ absurd hc List.not_mem_nil) trivial

theorem holds_instrConstraints_iff (hins : p.instr i = .ok ins)
    (h : p.instrConstraints i = .ok cs) :
    (∀ c ∈ cs, c.Holds r) ↔ p.InstrIncludes r i ins := by
  obtain ⟨ins', hins', h⟩ := bind_eq_ok_iff.1 h
  obtain rfl : ins = ins' := by injection hins.symm.trans hins'
  rw [InstrIncludes]
  cases hop : ins.op with
  | alloca =>
    simp only [hop] at h
    obtain rfl := pure_eq_ok_iff.1 h
    rw [List.forall_mem_singleton, Constraint.holds_address]
  | ptrOffset | copy | phi =>
    simp only [hop] at h
    obtain rfl := pure_eq_ok_iff.1 h
    simp only [List.forall_mem_map, Constraint.holds_copy]
  | load =>
    simp only [hop] at h
    obtain ⟨ptr, hptr, h⟩ := bind_eq_ok_iff.1 h
    obtain rfl := pure_eq_ok_iff.1 h
    rw [List.forall_mem_singleton, Constraint.holds_load]
    simp only [operand_eq_ok_iff.1 hptr, Option.some.injEq, forall_eq']
  | store =>
    simp only [hop] at h
    obtain ⟨ptr, hptr, h⟩ := bind_eq_ok_iff.1 h
    obtain ⟨src, hsrc, h⟩ := bind_eq_ok_iff.1 h
    obtain rfl := pure_eq_ok_iff.1 h
    rw [List.forall_mem_singleton, Constraint.holds_store]
    simp only [operand_eq_ok_iff.1 hptr, operand_eq_ok_iff.1 hsrc, Option.some.injEq, forall_eq']
  | call f =>
    simp only [hop] at h
    obtain ⟨F, hF, -⟩ := bind_eq_ok_iff.1 h
    simp only [hF, Except.ok.injEq, forall_eq', holds_callConstraints_iff hF h]
  | flush | fence | other | ret | branch | condBranch | unreachable =>
    simp only [hop] at h
    obtain rfl := pure_eq_ok_iff.1 h
    exact iff_of_true (fun c hc ↦ absurd hc List.not_mem_nil) trivial

theorem includes_iff_of_mapM {instrs : List (List Constraint)}
    (h : is.mapM p.instrConstraints = .ok instrs) :
    p.Includes r is ↔ ∀ c ∈ p.globalConstraints ++ instrs.flatten, c.Holds r := by
  rw [List.forall_mem_append, holds_globalConstraints_iff, List.forall_mem_flatten]
  constructor
  · intro hr
    refine ⟨hr.globals, fun cs hcs ↦ ?_⟩
    obtain ⟨i, hi, hcs⟩ := exists_of_mem_mapM h hcs
    obtain ⟨ins, hins, -⟩ := bind_eq_ok_iff.1 hcs
    exact (holds_instrConstraints_iff hins hcs).2 (hr.instrs i hi ins hins)
  · intro hr
    refine ⟨hr.1, fun i hi ins hins ↦ ?_⟩
    obtain ⟨cs, hmem, hcs⟩ := mem_mapM_of_mem h hi
    exact (holds_instrConstraints_iff hins hcs).1 (hr.2 cs hmem)

def spread : Flows := (fun v ↦ {_o | ∀ n, v ≠ .const n}, fun _ ↦ Set.univ)

theorem includes_spread : p.Includes spread is := by
  refine ⟨fun g hg n ↦ Value.noConfusion, fun i hi ins hins ↦ ?_⟩
  rw [InstrIncludes]
  cases hop : ins.op with
  | alloca => exact fun n ↦ Value.noConfusion
  | ptrOffset | copy | phi => exact fun v hv o ho n ↦ Value.noConfusion
  | load => exact fun ptr hptr o ho t ht n ↦ Value.noConfusion
  | store => exact fun ptr hptr v hv o ho t ht ↦ trivial
  | call f =>
    intro F hF
    rw [CallIncludes]
    cases hkind : F.kind with
    | defined => exact ⟨fun k v hv o ho n ↦ Value.noConfusion, fun v hv o ho n ↦ Value.noConfusion⟩
    | declaration => exact fun n ↦ Value.noConfusion
    | intrinsic => trivial
  | flush | fence | other | ret | branch | condBranch | unreachable => trivial

theorem holds_of_isIdle {c : Constraint} (h : c.isIdle = true) (hr : r ≤ spread) : c.Holds r := by
  have none_of_const (n : UInt64) (o : Storage) : o ∉ r.points (.const n) :=
    fun ho ↦ hr.1 (.const n) ho n rfl
  rw [Constraint.isIdle.eq_def] at h
  split at h
  · exact Constraint.holds_copy.2 fun o ho ↦ absurd ho (none_of_const _ o)
  · exact Constraint.holds_store.2 fun o _ t ht ↦ absurd ht (none_of_const _ t)
  · cases h

theorem solve_constraintsOf (h : p.constraintsOf is = .ok cs) {cs' : List Constraint}
    (hperm : cs'.Perm cs) :
    ∃ s, Solution.solve cs' = .ok s ∧ IsLeast {r | p.Includes r is} s.reading := by
  obtain ⟨instrs, hinstrs, h⟩ := bind_eq_ok_iff.1 h
  obtain rfl := pure_eq_ok_iff.1 h
  obtain ⟨s, hs, hholds, hleast⟩ := Solution.solve_eq_ok cs'
  have lower (r : Flows) (hr : p.Includes r is) : s.reading ≤ r :=
    hleast fun c hc ↦ (includes_iff_of_mapM hinstrs).1 hr c
      (List.mem_of_mem_filter (hperm.mem_iff.1 hc))
  refine ⟨s, hs, (includes_iff_of_mapM hinstrs).2 fun c hc ↦ ?_, lower⟩
  cases hidle : c.isIdle with
  | true => exact holds_of_isIdle hidle (lower spread includes_spread)
  | false =>
    refine hholds c (hperm.mem_iff.2 (List.mem_filter.2 ⟨hc, ?_⟩))
    rw [hidle, Bool.not_false]

theorem callConstraints_eq_ok (hv : p.Valid) (hF : p.function f = .ok F) :
    ∃ cs, p.callConstraints i ins f = .ok cs := by
  refine exists_bind_eq_ok hF ?_
  cases hkind : F.kind with
  | defined =>
    obtain ⟨vs, hvs⟩ := hv.returnedValues_eq_ok hF
    exact exists_bind_eq_ok hvs ⟨_, rfl⟩
  | declaration | intrinsic => exact ⟨_, rfl⟩

theorem instrConstraints_eq_ok (hv : p.Valid) {b : BlockId} {k : Nat} (hi : p.StandsAt b k i) :
    ∃ cs, p.instrConstraints i = .ok cs := by
  obtain ⟨B, ins, -, hins, hvalid⟩ := hi.instr hv
  have htakes := takes_of_checkOperands hvalid.operands
  refine exists_bind_eq_ok hins ?_
  cases hop : ins.op with
  | call f =>
    obtain ⟨F, hF⟩ := function_of_lt (hvalid.callee f hop)
    exact callConstraints_eq_ok hv hF
  | load =>
    rw [hop, Op.takes, beq_iff_eq] at htakes
    obtain ⟨ptr, hptr⟩ := operand_of_lt ins (k := 0) (by omega)
    exact exists_bind_eq_ok hptr ⟨_, rfl⟩
  | store =>
    rw [hop, Op.takes, beq_iff_eq] at htakes
    obtain ⟨ptr, hptr⟩ := operand_of_lt ins (k := 0) (by omega)
    obtain ⟨src, hsrc⟩ := operand_of_lt ins (k := 1) (by omega)
    exact exists_bind_eq_ok hptr (exists_bind_eq_ok hsrc ⟨_, rfl⟩)
  | _ => exact ⟨_, rfl⟩

theorem constraintsOf_eq_ok (hv : p.Valid) (hattached : p.attached = .ok is)
    {is' : List InstrId} (hperm : is'.Perm is) : ∃ cs, p.constraintsOf is' = .ok cs := by
  have hinstrs : ∀ i ∈ is', ∃ cs, p.instrConstraints i = .ok cs := by
    intro i hi
    obtain ⟨b, k, hi⟩ := standsAt_of_mem_attached hattached (hperm.mem_iff.1 hi)
    exact instrConstraints_eq_ok hv hi
  obtain ⟨instrs, hinstrs⟩ := mapM_eq_ok hinstrs
  exact ⟨_, bind_eq_ok_iff.2 ⟨instrs, hinstrs, rfl⟩⟩

theorem Valid.exists_pointsTo (hv : p.Valid) : ∃ pts, p.pointsTo = .ok pts := by
  obtain ⟨is, his⟩ := hv.attached_eq_ok
  obtain ⟨cs, hcs⟩ := constraintsOf_eq_ok hv his (.refl is)
  obtain ⟨s, hs, -⟩ := Solution.solve_eq_ok cs
  exact exists_bind_eq_ok (bind_eq_ok_iff.2 ⟨is, his, hcs⟩) (exists_bind_eq_ok hs ⟨_, rfl⟩)

/-- The analysis of a valid program comes to an end, at the least flows that its attached instructions
allow, in whatever order these and their constraints are taken. -/
theorem pointsTo_isLeast (hv : p.validate = .ok ()) :
    ∃ is cs s, p.attached = .ok is ∧ p.constraintsOf is = .ok cs ∧ Solution.solve cs = .ok s ∧
      p.pointsTo = .ok s.pointsTo ∧ IsLeast {r | p.Includes r is} s.reading ∧
      ∀ is', is'.Perm is → ∃ cs', p.constraintsOf is' = .ok cs' ∧ ∀ cs'', cs''.Perm cs' →
        ∃ s', Solution.solve cs'' = .ok s' ∧ s'.pointsTo = s.pointsTo ∧ s'.holds = s.holds := by
  have hvalid := validate_eq_ok_iff.1 hv
  obtain ⟨is, his⟩ := hvalid.attached_eq_ok
  obtain ⟨cs, hcs⟩ := constraintsOf_eq_ok hvalid his (.refl is)
  obtain ⟨s, hs, hleast⟩ := solve_constraintsOf hcs (.refl cs)
  have hpoints : p.pointsTo = .ok s.pointsTo :=
    bind_eq_ok_iff.2 ⟨cs, bind_eq_ok_iff.2 ⟨is, his, hcs⟩, bind_eq_ok_iff.2 ⟨s, hs, rfl⟩⟩
  refine ⟨is, cs, s, his, hcs, hs, hpoints, hleast, fun is' hperm ↦ ?_⟩
  obtain ⟨cs', hcs'⟩ := constraintsOf_eq_ok hvalid his hperm
  refine ⟨cs', hcs', fun cs'' hperm' ↦ ?_⟩
  obtain ⟨s', hs', hleast'⟩ := solve_constraintsOf hcs' hperm'
  have hsame : {r | p.Includes r is'} = {r | p.Includes r is} :=
    Set.ext fun r ↦ ⟨fun h ↦ h.of_perm hperm.symm, fun h ↦ h.of_perm hperm⟩
  rw [hsame] at hleast'
  obtain ⟨hpointsTo, hholds⟩ := Solution.eq_of_reading (hleast'.unique hleast)
  exact ⟨s', hs', hpointsTo, hholds⟩

theorem pointsTo_isLeast_throughMemory :
    ∃ is, ∃ s : Solution, Sample.throughMemory.program.attached = .ok is ∧
      IsLeast {r | Sample.throughMemory.program.Includes r is} s.reading ∧
      (s.pointsTo (.instr ⟨6⟩)).toList = [.heap ⟨1⟩] := by
  have hv : Sample.throughMemory.program.validate = .ok () := by decide +kernel
  obtain ⟨is, cs, s, his, hcs, hs, hpoints, hleast, -⟩ := pointsTo_isLeast hv
  have hresult : (Sample.throughMemory.program.pointsTo.map fun pts ↦ (pts (.instr ⟨6⟩)).toList) =
      .ok [.heap ⟨1⟩] := by decide +kernel
  rw [hpoints] at hresult
  exact ⟨is, s, his, hleast, Except.ok.inj hresult⟩

end Durability.Program
