import Durability.Program.Validate
import Durability.Proofs.Attempt

namespace Durability.Program

variable {p : Program} {i j : InstrId} {b : BlockId} {B : Block} {f : FunctionId}

theorem instr_eq_ok_iff {ins : Instruction} :
    p.instr i = .ok ins ↔ p.instructions[i.index]? = some ins := Fault.lookup_eq_ok_iff

theorem block_eq_ok_iff : p.block b = .ok B ↔ p.blocks[b.index]? = some B := Fault.lookup_eq_ok_iff

theorem function_eq_ok_iff {function : Function} :
    p.function f = .ok function ↔ p.functions[f.index]? = some function := Fault.lookup_eq_ok_iff

theorem blockOf_eq_ok_iff {b? : Option BlockId} :
    p.blockOf i = .ok b? ↔ ∃ ins, p.instr i = .ok ins ∧ ins.block = b? := by
  simp only [blockOf, bind_eq_ok_iff, pure_eq_ok_iff]

theorem functionOf_eq_some_iff :
    p.functionOf i = .ok (some f) ↔
      ∃ b B, p.blockOf i = .ok (some b) ∧ p.block b = .ok B ∧ B.function = f := by
  simp only [functionOf, bind_eq_ok_iff]
  constructor
  · rintro ⟨_ | b, hb, h⟩
    · cases pure_eq_ok_iff.1 h
    · obtain ⟨B, hB, h⟩ := bind_eq_ok_iff.1 h
      exact ⟨b, B, hb, hB, Option.some.inj (pure_eq_ok_iff.1 h)⟩
  · rintro ⟨b, B, hb, hB, rfl⟩
    exact ⟨some b, hb, bind_eq_ok_iff.2 ⟨B, hB, rfl⟩⟩

theorem calledFunction_eq_ok_iff :
    p.calledFunction i = .ok (some f) ↔ ∃ ins, p.instr i = .ok ins ∧ ins.op = .call f := by
  simp only [calledFunction, bind_eq_ok_iff]
  constructor
  · rintro ⟨ins, hi, h⟩
    split at h
    · next hop =>
      cases pure_eq_ok_iff.1 h
      exact ⟨ins, hi, hop⟩
    · cases pure_eq_ok_iff.1 h
  · rintro ⟨ins, hi, hop⟩
    exact ⟨ins, hi, by rw [hop]; rfl⟩

theorem op_of_isDefinedCall {ins : Instruction} (h : p.isDefinedCall i = .ok true)
    (hins : p.instr i = .ok ins) : ∃ f, ins.op = .call f := by
  obtain ⟨f?, hf, h⟩ := bind_eq_ok_iff.1 h
  cases f? with
  | none => cases pure_eq_ok_iff.1 h
  | some f =>
    obtain ⟨ins', hins', hop⟩ := calledFunction_eq_ok_iff.1 hf
    cases hins.symm.trans hins'
    exact ⟨f, hop⟩

theorem position?_eq_some_iff {k : Nat} {l : List InstrId} :
    p.position? i = .ok (some (k, l)) ↔
      ∃ b B, p.blockOf i = .ok (some b) ∧ p.block b = .ok B ∧ B.instrs = l ∧
        l.idxOf? i = some k := by
  simp only [position?, bind_eq_ok_iff]
  constructor
  · rintro ⟨_ | b, hb, h⟩
    · cases pure_eq_ok_iff.1 h
    · obtain ⟨B, hB, h⟩ := bind_eq_ok_iff.1 h
      obtain ⟨k', hk, h⟩ := Option.map_eq_some_iff.1 (pure_eq_ok_iff.1 h)
      cases h
      exact ⟨b, B, hb, hB, rfl, hk⟩
  · rintro ⟨b, B, hb, hB, rfl, hk⟩
    exact ⟨some b, hb, bind_eq_ok_iff.2 ⟨B, hB, by rw [hk]; rfl⟩⟩

theorem terminator_eq_some_iff :
    p.terminator b = .ok (some i) ↔
      ∃ B ins, p.block b = .ok B ∧ B.instrs.getLast? = some i ∧ p.instr i = .ok ins ∧
        ins.op.isTerminator = true := by
  simp only [terminator, bind_eq_ok_iff]
  constructor
  · rintro ⟨B, hB, h⟩
    split at h
    · cases pure_eq_ok_iff.1 h
    · next hl =>
      obtain ⟨ins, hi, h⟩ := bind_eq_ok_iff.1 h
      have h := pure_eq_ok_iff.1 h
      split at h
      · next ht => cases h; exact ⟨B, ins, hB, hl, hi, ht⟩
      · cases h
  · rintro ⟨B, ins, hB, hl, hi, ht⟩
    refine ⟨B, hB, ?_⟩
    rw [hl]
    exact bind_eq_ok_iff.2 ⟨ins, hi, by rw [if_pos ht]; rfl⟩

variable (p)

/-- What is asked of `ins` anywhere in `b`, a block of `f`. -/
structure FitsIn (f : FunctionId) (b : BlockId) (ins : Instruction) : Prop where
  block : ins.block = some b
  operands : ins.checkOperands = .ok ()
  values : ∀ v ∈ ins.inputs, p.hasValue v = true
  callee : ∀ g, ins.op = .call g → g.index < p.functions.length
  targets : ∀ t ∈ ins.op.targets, p.owns f t = true

/-- What is asked of `ins` at `position` among the `length` instructions of `b`, a block of `f`. -/
structure ValidInstr (f : FunctionId) (b : BlockId) (length position : Nat) (ins : Instruction) :
    Prop extends p.FitsIn f b ins where
  inside : ins.op.isTerminator = true → position + 1 = length

structure ValidBlock (b : BlockId) (B : Block) : Prop where
  terminated : ∃ i ins, B.instrs.getLast? = some i ∧ p.instr i = .ok ins ∧
    ins.op.isTerminator = true
  instrs : ∀ k i, B.instrs[k]? = some i →
    ∃ ins, p.instr i = .ok ins ∧ p.ValidInstr B.function b B.instrs.length k ins

structure Valid : Prop where
  bodies : ∀ f F, p.function f = .ok F → (F.kind = .defined ↔ F.blocks ≠ [])
  owned : ∀ f F, p.function f = .ok F → ∀ b ∈ F.blocks, p.owns f b = true
  blocks : ∀ b B, p.block b = .ok B → p.ValidBlock b B

def ListsOnce : Prop := ∀ b B, p.block b = .ok B → B.instrs.Nodup

variable {p}

theorem validateTargets_eq_ok_iff {op : Op} :
    p.validateTargets f i op = .ok () ↔
      (∀ g, op = .call g → g.index < p.functions.length) ∧ ∀ t ∈ op.targets, p.owns f t = true := by
  cases op <;> simp [validateTargets, Attempt.refuseIf_eq_ok_iff, Op.targets]

theorem validateInstr_eq_ok_iff {length position : Nat} :
    p.validateInstr f b length position i = .ok () ↔
      ∃ ins, p.instr i = .ok ins ∧ p.ValidInstr f b length position ins := by
  rw [validateInstr]
  split
  · next h => simp [instr_eq_ok_iff, h, Attempt.refuse]
  · next ins h =>
    simp only [instr_eq_ok_iff, h, bind_eq_ok_iff, Attempt.refuseIf_eq_ok_iff, exists_const,
      Attempt.ofExcept_eq_ok_iff, mapError_eq_ok_iff, forM_eq_ok_iff, validateTargets_eq_ok_iff]
    constructor
    · rintro ⟨hb, ht, ⟨⟩, ho, hv, hg⟩
      exact ⟨ins, rfl, ⟨by simpa using hb, ho, by simpa using hv, hg.1, hg.2⟩, by simpa using ht⟩
    · rintro ⟨_, ⟨⟩, h⟩
      exact ⟨by simpa using h.block, by simpa using h.inside, (), h.operands,
        by simpa using h.values, h.callee, h.targets⟩

theorem forM_zipIdx_eq_ok_iff {α ε : Type} {l : List α} {g : α × Nat → Except ε Unit} {u : Unit} :
    l.zipIdx.forM g = .ok u ↔ ∀ k a, l[k]? = some a → g (a, k) = .ok () := by
  rw [forM_eq_ok_iff]
  constructor
  · exact fun h k a ha ↦ h (a, k) (List.mk_mem_zipIdx_iff_getElem?.2 ha)
  · exact fun h x hx ↦ h x.2 x.1 (List.mem_zipIdx_iff_getElem?.1 hx)

theorem validateFunction_eq_ok_iff {F : Function} :
    p.validateFunction f F = .ok () ↔
      (F.kind = .defined ↔ F.blocks ≠ []) ∧ ∀ b ∈ F.blocks, p.owns f b = true := by
  simp only [validateFunction, bind_eq_ok_iff, Attempt.refuseIf_eq_ok_iff, exists_const,
    forM_eq_ok_iff]
  refine and_congr ?_ (by simp)
  cases F.blocks <;> cases F.kind <;> simp

theorem validateBlock_eq_ok_iff (hB : p.block b = .ok B) :
    p.validateBlock b B = .ok () ↔ p.ValidBlock b B := by
  simp only [validateBlock, bind_eq_ok_iff, Attempt.lift_eq_ok_iff, Attempt.refuseIf_eq_ok_iff,
    exists_const, forM_zipIdx_eq_ok_iff, validateInstr_eq_ok_iff]
  constructor
  · rintro ⟨_ | i, ht, hn, h⟩
    · cases hn
    · obtain ⟨B', ins, hB', hl, hi, ht⟩ := terminator_eq_some_iff.1 ht
      rw [hB] at hB'
      cases hB'
      exact ⟨⟨i, ins, hl, hi, ht⟩, h⟩
  · rintro ⟨⟨i, ins, hl, hi, ht⟩, h⟩
    exact ⟨some i, terminator_eq_some_iff.2 ⟨B, ins, hB, hl, hi, ht⟩, rfl, h⟩

theorem validBlock_iff :
    p.ValidBlock b B ↔ ∃ body t, B.instrs = body ++ [t] ∧
      (∀ i ∈ body, ∃ ins, p.instr i = .ok ins ∧ ins.op.isTerminator = false ∧
        p.FitsIn B.function b ins) ∧
      ∃ ins, p.instr t = .ok ins ∧ ins.op.isTerminator = true ∧ p.FitsIn B.function b ins := by
  constructor
  · intro h
    obtain ⟨t, ins, hlast, ht, hterm⟩ := h.terminated
    obtain ⟨body, hbody⟩ := List.getLast?_eq_some_iff.1 hlast
    refine ⟨body, t, hbody, fun i hi ↦ ?_, ins, ht, hterm, ?_⟩
    · obtain ⟨k, hk, rfl⟩ := List.getElem_of_mem hi
      obtain ⟨ins, hins, hvalid⟩ := h.instrs k body[k]
        (by rw [hbody, List.getElem?_append_left hk, List.getElem?_eq_getElem hk])
      refine ⟨ins, hins, Bool.eq_false_iff.2 fun hterm ↦ ?_, hvalid.toFitsIn⟩
      have hlength := hvalid.inside hterm
      rw [hbody, List.length_append, List.length_singleton] at hlength
      omega
    · obtain ⟨ins', hins', hvalid⟩ := h.instrs body.length t
        (by rw [hbody, List.getElem?_concat_length])
      obtain rfl : ins = ins' := by injection ht.symm.trans hins'
      exact hvalid.toFitsIn
  · rintro ⟨body, t, hbody, hinside, ins, ht, hterm, hfits⟩
    refine ⟨⟨t, ins, by rw [hbody, List.getLast?_concat], ht, hterm⟩, fun k i hi ↦ ?_⟩
    rw [hbody] at hi ⊢
    rcases Nat.lt_or_ge k body.length with hk | hk
    · rw [List.getElem?_append_left hk] at hi
      obtain ⟨ins, hins, hterm, hfits⟩ := hinside i (List.mem_of_getElem? hi)
      exact ⟨ins, hins, hfits, fun h ↦ by rw [hterm] at h; cases h⟩
    · obtain ⟨hk', -⟩ := List.getElem?_eq_some_iff.1 hi
      rw [List.length_append, List.length_singleton] at hk' ⊢
      obtain rfl : k = body.length := by omega
      rw [List.getElem?_concat_length] at hi
      cases hi
      exact ⟨ins, ht, hfits, fun _ ↦ rfl⟩

theorem Valid.index_lt (hv : p.Valid) (hB : p.block b = .ok B) (hi : i ∈ B.instrs) :
    i.index < p.instructions.length := by
  obtain ⟨k, hk⟩ := List.mem_iff_getElem?.1 hi
  obtain ⟨ins, hins, -⟩ := (hv.blocks b B hB).instrs k i hk
  exact (List.getElem?_eq_some_iff.1 (instr_eq_ok_iff.1 hins)).1

theorem listsOnce_iff : p.ListsOnce ↔ ∀ B ∈ p.blocks, B.instrs.Nodup := by
  constructor
  · intro h B hB
    obtain ⟨k, hk⟩ := List.mem_iff_getElem?.1 hB
    exact h ⟨k⟩ B (block_eq_ok_iff.2 hk)
  · exact fun h b B hB ↦ h B (List.mem_of_getElem? (block_eq_ok_iff.1 hB))

instance : Decidable p.ListsOnce := decidable_of_iff _ listsOnce_iff.symm

theorem validate_eq_ok_iff : p.validate = .ok () ↔ p.Valid := by
  simp only [validate, bind_eq_ok_iff, forM_zipIdx_eq_ok_iff, validateFunction_eq_ok_iff,
    exists_const]
  constructor
  · rintro ⟨hf, hb⟩
    refine ⟨fun f F h ↦ (hf f.index F (function_eq_ok_iff.1 h)).1,
      fun f F h ↦ (hf f.index F (function_eq_ok_iff.1 h)).2, fun b B h ↦ ?_⟩
    exact (validateBlock_eq_ok_iff h).1 (hb b.index B (block_eq_ok_iff.1 h))
  · intro h
    refine ⟨fun k F hF ↦ ?_, fun k B hB ↦ ?_⟩
    · have hF := function_eq_ok_iff (f := ⟨k⟩).2 hF
      exact ⟨h.bodies _ F hF, h.owned _ F hF⟩
    · have hB := block_eq_ok_iff (b := ⟨k⟩).2 hB
      exact (validateBlock_eq_ok_iff hB).2 (h.blocks _ B hB)

end Durability.Program
