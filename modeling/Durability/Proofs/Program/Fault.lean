import Durability.Proofs.Program.Json
import Durability.Proofs.Program.Valid

namespace Durability

theorem Fault.lookup_eq_error_iff {α : Type} {l : List α} {k : Nat} {f : Fault} :
    lookup l k = .error f ↔ f = .outOfRange ∧ l.length ≤ k := by
  rw [lookup]
  cases h : l[k]? with
  | none => simpa [eq_comm] using fun _ ↦ List.getElem?_eq_none_iff.1 h
  | some a => simpa using fun _ ↦ (List.getElem?_eq_some_iff.1 h).1

theorem forM_zipIdx_eq_error_iff {α ε : Type} {l : List α} {g : α × Nat → Except ε Unit} {e : ε} :
    l.zipIdx.forM g = .error e ↔ ∃ k a, l[k]? = some a ∧
      (∀ j b, j < k → l[j]? = some b → g (b, j) = .ok ()) ∧ g (a, k) = .error e :=
  forM_eq_error_iff.trans exists_zipIdx_eq_append_iff

namespace Program

variable {p : Program} {b : BlockId} {B : Block} {F : Function} {f : Fault} {i : InstrId}

/-- The check goes through all that comes before the block `b`, and `b` lists last what does not exist. -/
structure Overruns (p : Program) (b : BlockId) : Prop where
  bodies : ∀ f F, p.function f = .ok F → (F.kind = .defined ↔ F.blocks ≠ [])
  owned : ∀ f F, p.function f = .ok F → ∀ b ∈ F.blocks, p.owns f b = true
  before : ∀ c C, c.index < b.index → p.block c = .ok C → p.ValidBlock c C
  last : ∃ B i, p.block b = .ok B ∧ B.instrs.getLast? = some i ∧ p.instructions.length ≤ i.index

def Refuses (x : Attempt ProgramError Unit) : Prop := FailsOnly (fun e ↦ ∃ cause, e = .refused cause) x

theorem Refuses.ne_fault {x : Attempt ProgramError Unit} (h : Refuses x) : x ≠ .error (.fault f) := by
  intro hx
  obtain ⟨cause, hcause⟩ := h _ hx
  cases hcause

theorem refuses_validateFunction (p : Program) (f : FunctionId) (F : Function) :
    Refuses (p.validateFunction f F) :=
  .bind (.refuseIf ⟨_, rfl⟩) fun _ _ ↦ .forM fun _ _ ↦ .refuseIf ⟨_, rfl⟩

theorem refuses_validateTargets (p : Program) (f : FunctionId) (i : InstrId) (op : Op) :
    Refuses (p.validateTargets f i op) := by
  cases op <;> exact .refuseIf ⟨_, rfl⟩

theorem refuses_validateInstr (p : Program) (f : FunctionId) (b : BlockId) (length position : Nat)
    (i : InstrId) : Refuses (p.validateInstr f b length position i) := by
  rw [validateInstr]
  split
  · exact .error ⟨_, rfl⟩
  · refine .bind (.refuseIf ⟨_, rfl⟩) fun _ _ ↦ .bind (.refuseIf ⟨_, rfl⟩) fun _ _ ↦ ?_
    refine .bind (.ofExcept fun cause _ ↦ ⟨cause, rfl⟩) fun _ _ ↦ ?_
    exact .bind (.forM fun _ _ ↦ .refuseIf ⟨_, rfl⟩) fun _ _ ↦ refuses_validateTargets p _ i _

theorem terminator_eq_error_iff (hB : p.block b = .ok B) : p.terminator b = .error f ↔
    f = .outOfRange ∧ ∃ i, B.instrs.getLast? = some i ∧ p.instructions.length ≤ i.index := by
  rw [terminator, bind_eq_error_iff, hB]
  simp only [reduceCtorEq, false_or, Except.ok.injEq, exists_eq_left']
  cases B.instrs.getLast? with
  | none => simp [pure, Except.pure]
  | some i =>
    simp only [bind_eq_error_iff, pure, Except.pure, reduceCtorEq, and_false, exists_false, or_false,
      Option.some.injEq, exists_eq_left', instr, Fault.lookup_eq_error_iff]

theorem validateBlock_eq_fault_iff (hB : p.block b = .ok B) :
    p.validateBlock b B = .error (.fault f) ↔
      f = .outOfRange ∧ ∃ i, B.instrs.getLast? = some i ∧ p.instructions.length ≤ i.index := by
  rw [← terminator_eq_error_iff hB]
  constructor
  · intro h
    obtain hlast | ⟨t, -, hrest⟩ := bind_eq_error_iff.1 h
    · obtain ⟨f', hf', hf⟩ := Attempt.lift_eq_error_iff.1 hlast
      cases hf
      exact hf'
    · refine absurd hrest (Refuses.ne_fault ?_)
      exact .bind (.refuseIf ⟨_, rfl⟩) fun _ _ ↦ .forM fun _ _ ↦ refuses_validateInstr p _ b _ _ _
  · exact fun h ↦ bind_eq_error_iff.2 (.inl (Attempt.lift_eq_error_iff.2 ⟨f, h, rfl⟩))

/-- The check meets a fault in this one way, and otherwise accepts the program or says what is wrong. -/
theorem validate_eq_fault_iff :
    p.validate = .error (.fault f) ↔ f = .outOfRange ∧ ∃ b, p.Overruns b := by
  have hbodies : (p.functions.zipIdx.forM fun x ↦ p.validateFunction ⟨x.2⟩ x.1) = .ok () ↔
      ∀ f F, p.function f = .ok F →
        (F.kind = .defined ↔ F.blocks ≠ []) ∧ ∀ b ∈ F.blocks, p.owns f b = true := by
    simp only [forM_zipIdx_eq_ok_iff, validateFunction_eq_ok_iff, function_eq_ok_iff]
    exact ⟨fun h f ↦ h f.index, fun h k ↦ h ⟨k⟩⟩
  rw [validate, bind_eq_error_iff]
  constructor
  · rintro (hfunctions | ⟨⟨⟩, hfunctions, hblocks⟩)
    · refine absurd hfunctions (Refuses.ne_fault ?_)
      exact .forM fun x _ ↦ refuses_validateFunction p _ x.1
    · obtain ⟨k, B, hB, hbefore, hfault⟩ := forM_zipIdx_eq_error_iff.1 hblocks
      have hB := block_eq_ok_iff (b := ⟨k⟩).2 hB
      obtain ⟨rfl, i, hlast, hi⟩ := (validateBlock_eq_fault_iff hB).1 hfault
      have hvalid := hbodies.1 hfunctions
      refine ⟨rfl, ⟨k⟩, fun f F h ↦ (hvalid f F h).1, fun f F h ↦ (hvalid f F h).2, fun c C hc hC ↦ ?_,
        B, i, hB, hlast, hi⟩
      exact (validateBlock_eq_ok_iff hC).1 (hbefore c.index C hc (block_eq_ok_iff.1 hC))
  · rintro ⟨rfl, b, hb⟩
    obtain ⟨B, i, hB, hlast, hi⟩ := hb.last
    refine .inr ⟨(), hbodies.2 fun f F h ↦ ⟨hb.bodies f F h, hb.owned f F h⟩, ?_⟩
    refine forM_zipIdx_eq_error_iff.2 ⟨b.index, B, block_eq_ok_iff.1 hB, fun j C hj hC ↦ ?_,
      (validateBlock_eq_fault_iff hB).2 ⟨rfl, i, hlast, hi⟩⟩
    have hC := block_eq_ok_iff (b := ⟨j⟩).2 hC
    exact (validateBlock_eq_ok_iff hC).2 (hb.before ⟨j⟩ C hj hC)

theorem parse_eq_fault_iff {text : String} : parse text = .error (.fault f) ↔
    ∃ j p, Json.parse? text = some j ∧ ofJson? j = some p ∧ p.validate = .error (.fault f) := by
  rw [parse]
  cases Json.parse? text with
  | none => simp [Attempt.refuse]
  | some j =>
    simp only [load, Option.some.injEq, exists_and_left, exists_eq_left']
    cases ofJson? j with
    | none => simp [Attempt.refuse]
    | some p =>
      simp only [Option.some.injEq, exists_eq_left']
      rcases p.validate with (_ | _) | _ <;>
        simp [Attempt.mapCause, Failure.mapCause, Except.map]

/-- Whether a program is at hand or still to be read, there is a fault exactly if a block of it lists last
what does not exist and nothing before that block is wrong. -/
theorem fault_iff_overruns (f : Fault) :
    (∀ p : Program, p.validate = .error (.fault f) ↔ f = .outOfRange ∧ ∃ b, p.Overruns b) ∧
    ∀ text, parse text = .error (.fault f) ↔ f = .outOfRange ∧
      ∃ j p b, Json.parse? text = some j ∧ ofJson? j = some p ∧ p.Overruns b := by
  refine ⟨fun p ↦ validate_eq_fault_iff, fun text ↦ ?_⟩
  simp only [parse_eq_fault_iff, validate_eq_fault_iff]
  constructor
  · rintro ⟨j, p, hj, hp, rfl, b, hb⟩
    exact ⟨rfl, j, p, b, hj, hp, hb⟩
  · rintro ⟨rfl, j, p, b, hj, hp, hb⟩
    exact ⟨j, p, hj, hp, rfl, b, hb⟩

/-- The block goes on behind the only instruction there is. -/
def cutShort : Program where
  globals := ["pool"]
  functions := [⟨"main", .defined, 0, [⟨0⟩]⟩]
  blocks := [⟨⟨0⟩, [⟨0⟩, ⟨1⟩]⟩]
  instructions := [⟨.flush .clwb, [.global ⟨0⟩], none, some ⟨0⟩⟩]

theorem cutShort_faults : cutShort.InWords ∧ cutShort.validate = .error (.fault .outOfRange) ∧
    parse cutShort.print = .error (.fault .outOfRange) := by
  have hw : cutShort.InWords := by decide +kernel
  have hfault : cutShort.validate = .error (.fault .outOfRange) := by decide +kernel
  refine ⟨hw, hfault, ?_⟩
  rw [parse_print_eq hw, hfault]
  rfl

end Program

end Durability
