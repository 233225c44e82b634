import Durability.Proofs.Program.Valid

namespace Durability

/-- Where control is: at an instruction, below a chain of call sites, outermost first. -/
structure Config where
  stack : List InstrId
  instr : InstrId
deriving DecidableEq

theorem Op.targets_eq_nil {op : Op} (h : op.isTerminator = false) : op.targets = [] := by
  cases op <;> first | rfl | cases h

namespace Program

variable (p : Program)

inductive Step : Config → Config → Prop
  | next {s : List InstrId} {i j : InstrId} {ins : Instruction} :
      p.instr i = .ok ins → ins.op.isTerminator = false → p.isDefinedCall i = .ok false →
        p.nextInBlock i = .ok (some j) → Step ⟨s, i⟩ ⟨s, j⟩
  | call {s : List InstrId} {i j : InstrId} {f : FunctionId} :
      p.calledFunction i = .ok (some f) → p.isDefinedCall i = .ok true →
        p.entry f = .ok (some j) → Step ⟨s, i⟩ ⟨s ++ [i], j⟩
  | ret {s : List InstrId} {call i j : InstrId} {ins : Instruction} :
      p.instr i = .ok ins → ins.op = .ret → p.nextInBlock call = .ok (some j) →
        Step ⟨s ++ [call], i⟩ ⟨s, j⟩
  | branch {s : List InstrId} {i j : InstrId} {ins : Instruction} {b : BlockId} :
      p.instr i = .ok ins → b ∈ ins.op.targets → p.firstInBlock b = .ok (some j) →
        Step ⟨s, i⟩ ⟨s, j⟩

/-- From one configuration to another in one step or more, through those of a list. -/
inductive Execution : Config → List Config → Config → Prop
  | step {c d : Config} : p.Step c d → Execution c [] d
  | cons {c d e : Config} {l : List Config} :
      p.Step c d → Execution d l e → Execution c (d :: l) e

variable {p} in
theorem Execution.head {c e : Config} {l : List Config} (h : p.Execution c l e) :
    ∃ d, p.Step c d ∧ (d = e ∧ l = [] ∨ ∃ l', l = d :: l' ∧ p.Execution d l' e) := by
  cases h with
  | step hstep => exact ⟨e, hstep, .inl ⟨rfl, rfl⟩⟩
  | cons hstep hexec => exact ⟨_, hstep, .inr ⟨_, rfl, hexec⟩⟩

variable {p} in
theorem Execution.first {c e : Config} {l : List Config} (h : p.Execution c l e) :
    ∃ l', p.Execution c l' e ∧ e ∉ l' := by
  induction h with
  | step hstep => exact ⟨[], .step hstep, List.not_mem_nil⟩
  | @cons c d e l hstep _ ih =>
    by_cases hde : d = e
    · exact ⟨[], .step (hde ▸ hstep), List.not_mem_nil⟩
    · obtain ⟨l', hexec, hfirst⟩ := ih
      exact ⟨d :: l', .cons hstep hexec, List.not_mem_cons_of_ne_of_not_mem (Ne.symm hde) hfirst⟩

def Stores (i : InstrId) (v : Value) : Prop :=
  ∃ ins, p.instr i = .ok ins ∧ ins.op = .store ∧ ins.pointer? = some v

def Flushes (i : InstrId) (v : Value) : Prop :=
  ∃ ins how, p.instr i = .ok ins ∧ ins.op = .flush how ∧ ins.pointer? = some v

variable {p}

theorem not_stores_of_flushes {i : InstrId} {v w : Value} (h : p.Flushes i v) : ¬ p.Stores i w := by
  rintro ⟨ins, hi, hop, -⟩
  obtain ⟨ins', how, hi', hop', -⟩ := h
  cases hi.symm.trans hi'
  cases hop.symm.trans hop'

namespace Step

variable {c d : Config} {ins : Instruction} (h : p.Step c d) (hi : p.instr c.instr = .ok ins)

include h hi

theorem of_ret (hop : ins.op = .ret) :
    ∃ call, c.stack = d.stack ++ [call] ∧ p.nextInBlock call = .ok (some d.instr) := by
  cases h with
  | next hi' hterm =>
    cases hi.symm.trans hi'
    rw [hop] at hterm
    cases hterm
  | call hcalled =>
    obtain ⟨ins', hi', hop'⟩ := calledFunction_eq_ok_iff.1 hcalled
    cases hi.symm.trans hi'
    cases hop.symm.trans hop'
  | @ret s call i j _ _ _ hnext => exact ⟨call, rfl, hnext⟩
  | branch hi' htarget =>
    cases hi.symm.trans hi'
    rw [hop] at htarget
    cases htarget

theorem of_call {f : FunctionId} (hop : ins.op = .call f)
    (hdefined : p.isDefinedCall c.instr = .ok true) :
    d.stack = c.stack ++ [c.instr] ∧ p.entry f = .ok (some d.instr) := by
  cases h with
  | next _ _ hnot => cases hdefined.symm.trans hnot
  | call hcalled _ hentry =>
    obtain ⟨ins', hi', hop'⟩ := calledFunction_eq_ok_iff.1 hcalled
    cases hi.symm.trans hi'
    cases hop.symm.trans hop'
    exact ⟨rfl, hentry⟩
  | ret hi' hret =>
    cases hi.symm.trans hi'
    cases hop.symm.trans hret
  | branch hi' htarget =>
    cases hi.symm.trans hi'
    rw [hop] at htarget
    cases htarget

theorem of_flow (hop : ins.op ≠ .ret)
    (hcall : ins.op.isTerminator = true ∨ p.isDefinedCall c.instr = .ok false) :
    d.stack = c.stack ∧
      (ins.op.isTerminator = false ∧ p.isDefinedCall c.instr = .ok false ∧
          p.nextInBlock c.instr = .ok (some d.instr) ∨
        ∃ b ∈ ins.op.targets, p.firstInBlock b = .ok (some d.instr)) := by
  cases h with
  | next hi' hterm hnot hnext =>
    cases hi.symm.trans hi'
    exact ⟨rfl, .inl ⟨hterm, hnot, hnext⟩⟩
  | call hcalled hdefined =>
    obtain ⟨ins', hi', hop'⟩ := calledFunction_eq_ok_iff.1 hcalled
    cases hi.symm.trans hi'
    rcases hcall with hterm | hnot
    · rw [hop'] at hterm
      cases hterm
    · cases hdefined.symm.trans hnot
  | ret hi' hret =>
    cases hi.symm.trans hi'
    exact absurd hret hop
  | @branch _ _ _ _ b hi' htarget hfirst =>
    cases hi.symm.trans hi'
    exact ⟨rfl, .inr ⟨b, htarget, hfirst⟩⟩

end Step

end Program

end Durability
