import Durability.Program.Builder
import Durability.Proofs.Program.Coherent
import Mathlib.Data.List.Induction

namespace Durability

namespace Builder

variable {s s' : Builder} {c : BuildStep} {a : BuildAnswer}

/-- What the calls that succeed have found, and what they make of the builder. -/
inductive Moves (s : Builder) : BuildStep → BuildAnswer → Builder → Prop
  | addGlobal (name : String) : Moves s (.addGlobal name) (.global ⟨s.program.globals.length⟩)
      { s with program.globals := s.program.globals ++ [name] }
  | declare {kind : FunctionKind} (name : String) (numArgs : Nat) (hkind : kind ≠ .defined) :
      Moves s (.declare name kind numArgs) (.function ⟨s.program.functions.length⟩)
        { s with program := s.program.addFunction ⟨name, kind, numArgs, []⟩ }
  | reserve (name : String) (numArgs : Nat) :
      Moves s (.reserve name numArgs) (.function ⟨s.program.functions.length⟩)
        { s with program := s.program.addFunction ⟨name, .defined, numArgs, []⟩ }
  | beginFunction {f : FunctionId} {F : Function} (hcursor : s.cursor = none)
      (hF : s.program.function f = .ok F) (hkind : F.kind = .defined) (hbody : F.blocks = []) :
      Moves s (.beginFunction f) .done { s with cursor := some (f, none) }
  | addBlock {f : FunctionId} {b? : Option BlockId} (hcursor : s.cursor = some (f, b?)) :
      Moves s .addBlock (.block ⟨s.program.blocks.length⟩)
        { s with program := s.program.addBlock f }
  | selectBlock {b : BlockId} {B : Block} {b? : Option BlockId}
      (hcursor : s.cursor = some (B.function, b?)) (hB : s.program.block b = .ok B) :
      Moves s (.selectBlock b) .done { s with cursor := some (B.function, some b) }
  | addInstr {op : Op} {inputs : List Value} {loc : Option SourceLine} {f : FunctionId}
      {b : BlockId} {B : Block} (hcursor : s.cursor = some (f, some b))
      (hB : s.program.block b = .ok B)
      (hlast : ∀ i, B.instrs.getLast? = some i →
        ∃ ins, s.program.instr i = .ok ins ∧ ins.op.isTerminator = false)
      (hoperands : Instruction.checkOperands ⟨op, inputs, loc, some b⟩ = .ok ()) :
      Moves s (.addInstr op inputs loc) (.instr ⟨s.program.instructions.length⟩)
        { s with
          program := s.program.enlist b B.instrs B.instrs.length ⟨op, inputs, loc, some b⟩ }
  | endFunction {f : FunctionId} {b? : Option BlockId} {F : Function}
      (hcursor : s.cursor = some (f, b?)) (hF : s.program.function f = .ok F)
      (hbody : F.blocks ≠ []) (hends : ∀ b ∈ F.blocks, ∃ t, s.program.terminator b = .ok (some t)) :
      Moves s .endFunction .done { s with cursor := none }
  | insertAfter {i : InstrId} {ins old : Instruction} {b : BlockId} {B : Block} {k : Nat}
      (hat : s.program.EditableAt i old b B k) (hoperands : ins.checkOperands = .ok ()) :
      Moves s (.insertAfter i ins) (.instr ⟨s.program.instructions.length⟩)
        { s with program := s.program.enlist b B.instrs (k + 1) { ins with block := some b } }
  | detach {i : InstrId} {old : Instruction} {b : BlockId} {B : Block} {k : Nat}
      (hat : s.program.EditableAt i old b B k) :
      Moves s (.detach i) .done { s with program := s.program.delist i b B.instrs k }

theorem eq_ok_of_isOk {ε : Type} {x : Except ε Unit} (h : x.isOk = true) : x = .ok () := by
  cases x with
  | error e => cases h
  | ok u => rfl

theorem edit_eq_ok_iff {α : Type} {x : Editing EditError α} {r : α} :
    edit x s = (.ok r, s') ↔ ∃ p, x s.program = (.ok r, p) ∧ { s with program := p } = s' := by
  constructor
  · intro h
    obtain ⟨hr, rfl⟩ := Prod.mk.inj h
    exact ⟨(x s.program).2, Prod.ext hr rfl, rfl⟩
  · rintro ⟨p, hx, rfl⟩
    rw [edit, hx]

theorem edit_atomic {α : Type} {x : Editing EditError α} (hx : x.Atomic s.program) :
    (edit x).Atomic s := by
  intro e s' h
  obtain ⟨he, rfl⟩ := Prod.mk.inj h
  have hp : (x s.program).2 = s.program := hx e _ (Prod.ext he rfl)
  exact congrArg (Builder.mk · s.cursor) hp

theorem setCursor_eq_ok_iff {cursor : Option (FunctionId × Option BlockId)} {u : Unit} :
    setCursor cursor s = (.ok u, s') ↔ { s with cursor := cursor } = s' :=
  Stateful.modify_eq_ok_iff

theorem setCursor_atomic (cursor : Option (FunctionId × Option BlockId)) :
    (setCursor cursor).Atomic s :=
  .of_ok (a := ()) (setCursor_eq_ok_iff.2 rfl)

theorem addGlobal_apply (name : String) (s : Builder) : addGlobal name s =
    (.ok ⟨s.program.globals.length⟩,
      { s with program.globals := s.program.globals ++ [name] }) := by
  change (Except.ok (GlobalId.mk ((s.program.globals ++ [name]).length - 1)), _) = _
  rw [List.length_append]
  rfl

theorem addFunction_apply (F : Function) (s : Builder) : addFunction F s =
    (.ok ⟨s.program.functions.length⟩, { s with program := s.program.addFunction F }) := by
  change (Except.ok (FunctionId.mk ((s.program.functions ++ [F]).length - 1)), _) = _
  rw [List.length_append]
  rfl

theorem declare_eq_ok_iff {name : String} {kind : FunctionKind} {numArgs : Nat} {f : FunctionId} :
    declare name kind numArgs s = (.ok f, s') ↔
      kind ≠ .defined ∧ addFunction ⟨name, kind, numArgs, []⟩ s = (.ok f, s') := by
  rw [declare, Stateful.bind_eq_ok_iff]
  simp only [Stateful.liftFault_eq_ok_iff, Fault.require_eq_ok_iff, bne_iff_ne, exists_const,
    and_assoc, exists_and_left, exists_eq_left']

theorem beginFunction_eq_ok_iff {f : FunctionId} {u : Unit} :
    beginFunction f s = (.ok u, s') ↔ s.cursor = none ∧
      ∃ F, s.program.function f = .ok F ∧ F.kind = .defined ∧ F.blocks = [] ∧
        { s with cursor := some (f, none) } = s' := by
  rw [beginFunction, Stateful.get_bind_apply]
  simp only [Stateful.bind_eq_ok_iff, Stateful.liftFault_eq_ok_iff, Fault.require_eq_ok_iff,
    setCursor_eq_ok_iff, Option.isNone_iff_eq_none, beq_iff_eq, List.isEmpty_iff, exists_const,
    and_assoc, exists_and_left, exists_eq_left']

theorem selectBlock_eq_ok_iff {b : BlockId} {u : Unit} :
    selectBlock b s = (.ok u, s') ↔ ∃ B b?, s.cursor = some (B.function, b?) ∧
      s.program.block b = .ok B ∧ { s with cursor := some (B.function, some b) } = s' := by
  rw [selectBlock, Stateful.get_bind_apply]
  simp only [Stateful.bind_eq_ok_iff, Stateful.liftFault_eq_ok_iff, Program.demand_eq_ok_iff,
    Fault.require_eq_ok_iff, setCursor_eq_ok_iff, beq_iff_eq, exists_const, and_assoc,
    exists_and_left, exists_eq_left', Prod.exists]
  constructor
  · rintro ⟨f, b?, hcursor, B, hB, rfl, hs'⟩
    exact ⟨B, b?, hcursor, hB, hs'⟩
  · rintro ⟨B, b?, hcursor, hB, hs'⟩
    exact ⟨B.function, b?, hcursor, B, hB, rfl, hs'⟩

theorem editFunction_eq_ok_iff {p q : Program} {f : FunctionId} {g : Function → Function} {u : Unit} :
    (Editing.editFunction f g : Editing EditError Unit) p = (.ok u, q) ↔
      ∃ F, p.function f = .ok F ∧ { p with functions := p.functions.modify f.index g } = q := by
  rw [Editing.editFunction, Stateful.get_bind_apply]
  simp only [Stateful.bind_eq_ok_iff, Stateful.liftFault_eq_ok_iff, Stateful.modify_eq_ok_iff,
    and_assoc, exists_and_left, exists_eq_left']

theorem addBlock_eq_ok_iff {b : BlockId} : addBlock s = (.ok b, s') ↔
    ∃ f b?, s.cursor = some (f, b?) ∧ ∃ F, s.program.function f = .ok F ∧
      ⟨s.program.blocks.length⟩ = b ∧ { s with program := s.program.addBlock f } = s' := by
  rw [addBlock, Stateful.get_bind_apply]
  simp only [Stateful.bind_eq_ok_iff, Stateful.liftFault_eq_ok_iff, Program.demand_eq_ok_iff,
    edit_eq_ok_iff, Stateful.modify_eq_ok_iff, editFunction_eq_ok_iff, exists_const, and_assoc,
    exists_and_left, exists_eq_left', Prod.exists]
  constructor
  · rintro ⟨f, b?, hcursor, _, ⟨_, ⟨F, hF, rfl⟩, rfl⟩, hmade⟩
    cases hmade
    exact ⟨f, b?, hcursor, F, hF, rfl, rfl⟩
  · rintro ⟨f, b?, hcursor, F, hF, rfl, rfl⟩
    exact ⟨f, b?, hcursor, _, ⟨_, ⟨F, hF, rfl⟩, rfl⟩, rfl⟩

theorem checkOpen_eq_ok_iff {p : Program} {b : BlockId} {u : Unit} :
    addInstr.checkOpen p b = .ok u ↔ ∃ B, p.block b = .ok B ∧
      ∀ i, B.instrs.getLast? = some i → ∃ ins, p.instr i = .ok ins ∧ ins.op.isTerminator = false := by
  rw [addInstr.checkOpen, bind_eq_ok_iff]
  refine exists_congr fun B ↦ and_congr_right fun _ ↦ ?_
  cases B.instrs.getLast? with
  | none => exact iff_of_true rfl fun _ h ↦ by cases h
  | some last =>
    simp only [bind_eq_ok_iff, Fault.require_eq_ok_iff, Bool.not_eq_true', Option.some.injEq,
      forall_eq']

theorem exists_of_addInstr {op : Op} {inputs : List Value} {loc : Option SourceLine} {i : InstrId}
    (h : addInstr op inputs loc s = (.ok i, s')) : ∃ f b B, s.cursor = some (f, some b) ∧
      s.program.block b = .ok B ∧
      (∀ j, B.instrs.getLast? = some j →
        ∃ ins, s.program.instr j = .ok ins ∧ ins.op.isTerminator = false) ∧
      Instruction.checkOperands ⟨op, inputs, loc, some b⟩ = .ok () ∧
      i = ⟨s.program.instructions.length⟩ ∧
      s' = { s with
        program := s.program.enlist b B.instrs B.instrs.length ⟨op, inputs, loc, some b⟩ } := by
  rw [addInstr, Stateful.get_bind_apply] at h
  simp only [Stateful.bind_eq_ok_iff, Stateful.liftFault_eq_ok_iff, Program.demand_eq_ok_iff,
    Fault.require_eq_ok_iff, checkOpen_eq_ok_iff, exists_const, and_assoc,
    exists_and_left, exists_eq_left', Prod.exists] at h
  obtain ⟨f, _, hcursor, b, rfl, ⟨B, hB, hlast⟩, hoperands, hi⟩ := h
  obtain ⟨q, hq, rfl⟩ := edit_eq_ok_iff.1 hi
  cases (Program.enter_apply hB _ _).symm.trans hq
  refine ⟨f, b, B, hcursor, hB, hlast, eq_ok_of_isOk hoperands, rfl, ?_⟩
  rw [Program.enlist, List.insertIdx_length_self]

theorem checkBody_eq_ok_iff {p : Program} {f : FunctionId} {u : Unit} :
    checkBody p f = .ok u ↔ ∃ F, p.function f = .ok F ∧ F.blocks ≠ [] ∧
      ∀ b ∈ F.blocks, ∃ t, p.terminator b = .ok (some t) := by
  simp only [checkBody, bind_eq_ok_iff, Fault.require_eq_ok_iff, exists_const, forM_eq_ok_iff,
    Bool.not_eq_true', List.isEmpty_eq_false_iff, Option.isSome_iff_exists]
  refine exists_congr fun F ↦ and_congr_right fun _ ↦ and_congr_right fun _ ↦ ?_
  refine forall₂_congr fun b _ ↦ ?_
  constructor
  · intro h
    obtain ⟨t?, ht, t, rfl⟩ := h
    exact ⟨t, ht⟩
  · intro h
    obtain ⟨t, ht⟩ := h
    exact ⟨some t, ht, t, rfl⟩

theorem endFunction_eq_ok_iff {u : Unit} : endFunction s = (.ok u, s') ↔
    ∃ f b?, s.cursor = some (f, b?) ∧ checkBody s.program f = .ok u ∧
      { s with cursor := none } = s' := by
  rw [endFunction, Stateful.get_bind_apply]
  simp only [Stateful.bind_eq_ok_iff, Stateful.liftFault_eq_ok_iff, Program.demand_eq_ok_iff,
    setCursor_eq_ok_iff, exists_const, and_assoc, exists_and_left, exists_eq_left', Prod.exists]

theorem endFunction_eq_error {e : Failure EditError} (h : endFunction s = (.error e, s')) :
    s' = { s with cursor := none } := by
  rw [endFunction, Stateful.get_bind_apply] at h
  obtain h | ⟨⟨⟩, r, hr, h⟩ := Stateful.bind_eq_error_iff.1 h
  · cases h
  · cases hr
    exact (Stateful.Atomic.liftFault_bind fun _ _ ↦ .liftFault _) e s' h

theorem moves_of_step (h : s.step c = (.ok a, s')) : s.Moves c a s' := by
  cases c with
  | addGlobal name =>
    obtain ⟨g, hg, rfl⟩ := Stateful.map_eq_ok_iff.1 h
    cases (addGlobal_apply name s).symm.trans hg
    exact .addGlobal name
  | declare name kind numArgs =>
    obtain ⟨f, hf, rfl⟩ := Stateful.map_eq_ok_iff.1 h
    obtain ⟨hkind, hf⟩ := declare_eq_ok_iff.1 hf
    cases (addFunction_apply _ s).symm.trans hf
    exact .declare name numArgs hkind
  | reserve name numArgs =>
    obtain ⟨f, hf, rfl⟩ := Stateful.map_eq_ok_iff.1 h
    cases (addFunction_apply _ s).symm.trans hf
    exact .reserve name numArgs
  | beginFunction f =>
    obtain ⟨⟨⟩, hf, rfl⟩ := Stateful.map_eq_ok_iff.1 h
    obtain ⟨hcursor, F, hF, hkind, hbody, rfl⟩ := beginFunction_eq_ok_iff.1 hf
    exact .beginFunction hcursor hF hkind hbody
  | addBlock =>
    obtain ⟨b, hb, rfl⟩ := Stateful.map_eq_ok_iff.1 h
    obtain ⟨f, b?, hcursor, F, -, rfl, rfl⟩ := addBlock_eq_ok_iff.1 hb
    exact .addBlock hcursor
  | selectBlock b =>
    obtain ⟨⟨⟩, hb, rfl⟩ := Stateful.map_eq_ok_iff.1 h
    obtain ⟨B, b?, hcursor, hB, rfl⟩ := selectBlock_eq_ok_iff.1 hb
    exact .selectBlock hcursor hB
  | addInstr op inputs loc =>
    obtain ⟨i, hi, rfl⟩ := Stateful.map_eq_ok_iff.1 h
    obtain ⟨f, b, B, hcursor, hB, hlast, hoperands, rfl, rfl⟩ := exists_of_addInstr hi
    exact .addInstr hcursor hB hlast hoperands
  | endFunction =>
    obtain ⟨⟨⟩, hend, rfl⟩ := Stateful.map_eq_ok_iff.1 h
    obtain ⟨f, b?, hcursor, hbody, rfl⟩ := endFunction_eq_ok_iff.1 hend
    obtain ⟨F, hF, hbody, hends⟩ := checkBody_eq_ok_iff.1 hbody
    exact .endFunction hcursor hF hbody hends
  | insertAfter i ins =>
    obtain ⟨j, hj, rfl⟩ := Stateful.map_eq_ok_iff.1 h
    obtain ⟨q, hq, rfl⟩ := edit_eq_ok_iff.1 hj
    obtain ⟨old, b, B, k, hat, hoperands, rfl, rfl⟩ :=
      Program.insertAfter_eq_ok_iff.1 (Stateful.attempt_eq_ok_iff.2 hq)
    exact .insertAfter hat hoperands
  | detach i =>
    obtain ⟨⟨⟩, hdetach, rfl⟩ := Stateful.map_eq_ok_iff.1 h
    obtain ⟨q, hq, rfl⟩ := edit_eq_ok_iff.1 hdetach
    obtain ⟨old, b, B, k, hat, rfl⟩ :=
      Program.exists_of_detach (map_eq_ok_iff.2 ⟨_, Stateful.attempt_eq_ok_iff.2 hq, rfl⟩)
    exact .detach hat

/-- What holds whatever has been called, and however it has ended. -/
structure Sound (s : Builder) : Prop where
  coherent : s.program.Coherent
  opened : ∀ f b?, s.cursor = some (f, b?) → ∃ F, s.program.function f = .ok F ∧ F.kind = .defined
  selected : ∀ f b, s.cursor = some (f, some b) → s.program.Names b f
  bodiless : ∀ f F, s.program.function f = .ok F → F.kind ≠ .defined → F.blocks = []
  operands : ∀ i ins, s.program.instr i = .ok ins → ins.checkOperands = .ok ()

theorem sound_empty : empty.Sound where
  coherent := Program.coherent_empty
  opened := nofun
  selected := nofun
  bodiless := nofun
  operands := nofun

namespace Sound

variable {b : BlockId} {B : Block} {i : InstrId} {k : Nat} {F : Function} {ins : Instruction}

theorem close (hs : s.Sound) : { s with cursor := none }.Sound where
  coherent := hs.coherent
  opened := nofun
  selected := nofun
  bodiless := hs.bodiless
  operands := hs.operands

theorem addFunction (hs : s.Sound) (hF : F.blocks = []) :
    { s with program := s.program.addFunction F }.Sound where
  coherent := hs.coherent.addFunction hF
  opened f b? hcursor := by
    obtain ⟨G, hG, hkind⟩ := hs.opened f b? hcursor
    exact ⟨G, Program.function_addFunction.2 (.inl hG), hkind⟩
  selected := hs.selected
  bodiless g G hG hkind := by
    obtain hG | ⟨-, rfl⟩ := Program.function_addFunction.1 hG
    · exact hs.bodiless g G hG hkind
    · exact hF
  operands := hs.operands

theorem addBlock {f : FunctionId} {b? : Option BlockId} (hs : s.Sound)
    (hcursor : s.cursor = some (f, b?)) : { s with program := s.program.addBlock f }.Sound := by
  obtain ⟨F, hF, hkind⟩ := hs.opened f b? hcursor
  refine ⟨hs.coherent.addBlock hF, fun g c? hg ↦ ?_, fun g c hg ↦ ?_, fun g G hG hnot ↦ ?_,
    hs.operands⟩
  · obtain ⟨G, hG, hkind⟩ := hs.opened g c? hg
    refine ⟨_, Program.function_addBlock.2 ⟨G, hG, rfl⟩, ?_⟩
    split <;> exact hkind
  · obtain ⟨C, hC, hfunction⟩ := hs.selected g c hg
    exact ⟨C, Program.block_addBlock.2 (.inl hC), hfunction⟩
  · obtain ⟨H, hH, rfl⟩ := Program.function_addBlock.1 hG
    split at hnot
    · next hgf =>
      subst hgf
      cases hF.symm.trans hH
      exact absurd hkind hnot
    · next hgf =>
      rw [if_neg hgf]
      exact hs.bodiless g H hH hnot

theorem enlist (hs : s.Sound) (hB : s.program.block b = .ok B) (hk : k ≤ B.instrs.length)
    (hins : ins.block = some b) (hoperands : ins.checkOperands = .ok ()) :
    { s with program := s.program.enlist b B.instrs k ins }.Sound where
  coherent := hs.coherent.enlist hB hk hins
  opened := hs.opened
  selected f c hcursor := (Program.names_enlist hB).2 (hs.selected f c hcursor)
  bodiless := hs.bodiless
  operands j x hj := by
    obtain hj | ⟨-, rfl⟩ := Program.instr_enlist.1 hj
    · exact hs.operands j x hj
    · exact hoperands

theorem delist (hs : s.Sound) (hB : s.program.block b = .ok B) (hi : B.instrs[k]? = some i) :
    { s with program := s.program.delist i b B.instrs k }.Sound where
  coherent := hs.coherent.delist hB hi
  opened := hs.opened
  selected f c hcursor := (Program.names_delist hB).2 (hs.selected f c hcursor)
  bodiless := hs.bodiless
  operands j x hj := by
    obtain ⟨y, hy, rfl⟩ := Program.instr_delist.1 hj
    split <;> exact hs.operands j y hy

theorem moves (hs : s.Sound) (h : s.Moves c a s') : s'.Sound := by
  cases h with
  | addGlobal name =>
    have hp := hs.coherent
    exact ⟨⟨hp.instrs, hp.instrsOnce, hp.blocks, hp.blocksOnce⟩, hs.opened, hs.selected, hs.bodiless,
      hs.operands⟩
  | declare name numArgs hkind => exact hs.addFunction rfl
  | reserve name numArgs => exact hs.addFunction rfl
  | beginFunction hcursor hF hkind hbody =>
    refine ⟨hs.coherent, ?_, nofun, hs.bodiless, hs.operands⟩
    rintro f b? ⟨⟩
    exact ⟨_, hF, hkind⟩
  | addBlock hcursor => exact hs.addBlock hcursor
  | selectBlock hcursor hB =>
    refine ⟨hs.coherent, ?_, ?_, hs.bodiless, hs.operands⟩
    · rintro f b? ⟨⟩
      exact hs.opened _ _ hcursor
    · rintro f b ⟨⟩
      exact ⟨_, hB, rfl⟩
  | addInstr hcursor hB hlast hoperands => exact hs.enlist hB (Nat.le_refl _) rfl hoperands
  | endFunction hcursor hF hbody hends => exact hs.close
  | insertAfter hat hoperands =>
    have hk := (List.getElem?_eq_some_iff.1 hat.getElem?).1
    exact hs.enlist hat.holder hk rfl hoperands
  | detach hat => exact hs.delist hat.holder hat.getElem?

theorem addBlock_atomic (hs : s.Sound) : Builder.addBlock.Atomic s := by
  cases hcursor : s.cursor with
  | none =>
    intro e s' h
    rw [Builder.addBlock, Stateful.get_bind_apply, hcursor] at h
    cases h
    rfl
  | some x =>
    -- a function that is open is one of the program
    obtain ⟨F, hF, -⟩ := hs.opened x.1 x.2 hcursor
    exact .of_ok (addBlock_eq_ok_iff.2 ⟨x.1, x.2, hcursor, F, hF, rfl, rfl⟩)

theorem call_atomic (hs : s.Sound) (hc : c ≠ .endFunction) : (call c).Atomic s := by
  cases c with
  | addGlobal name => exact .map (.of_ok (addGlobal_apply name s))
  | declare name kind numArgs =>
    exact .map (.liftFault_bind fun _ _ ↦ .of_ok (addFunction_apply _ s))
  | reserve name numArgs => exact .map (.of_ok (addFunction_apply _ s))
  | beginFunction f =>
    refine .map (.get_bind (.liftFault_bind fun _ _ ↦ .liftFault_bind fun _ _ ↦ ?_))
    exact .liftFault_bind fun _ _ ↦ .liftFault_bind fun _ _ ↦ setCursor_atomic _
  | addBlock => exact hs.addBlock_atomic.map
  | selectBlock b =>
    refine .map (.get_bind (.liftFault_bind fun _ _ ↦ .liftFault_bind fun _ _ ↦ ?_))
    exact .liftFault_bind fun _ _ ↦ setCursor_atomic _
  | addInstr op inputs loc =>
    refine .map (.get_bind (.liftFault_bind fun _ _ ↦ .liftFault_bind fun _ _ ↦ ?_))
    refine .liftFault_bind fun _ hopen ↦ .liftFault_bind fun _ _ ↦ ?_
    obtain ⟨B, hB, -⟩ := checkOpen_eq_ok_iff.1 hopen
    exact edit_atomic (.of_ok (Program.enter_apply hB _ _))
  | endFunction => exact absurd rfl hc
  | insertAfter i ins => exact (edit_atomic (Program.insertAfter_atomic ins)).map
  | detach i => exact (edit_atomic Program.detach_atomic).map

/-- A call that fails changes nothing, except that no function is open once its end has been asked for. -/
theorem eq_of_step_eq_error (hs : s.Sound) {e : Failure EditError} (h : s.step c = (.error e, s')) :
    s' = if c = .endFunction then { s with cursor := none } else s := by
  split
  · next hc =>
    subst hc
    exact endFunction_eq_error (Stateful.map_eq_error_iff.1 h)
  · next hc => exact hs.call_atomic hc e s' h

theorem step (hs : s.Sound) (c : BuildStep) : (s.step c).2.Sound := by
  obtain ⟨r, s', hstep⟩ : ∃ r s', s.step c = (r, s') := ⟨_, _, rfl⟩
  rw [hstep]
  cases r with
  | ok a => exact hs.moves (moves_of_step hstep)
  | error e =>
    rw [hs.eq_of_step_eq_error hstep]
    split
    · exact hs.close
    · exact hs

theorem run (hs : s.Sound) (steps : List BuildStep) : (s.run steps).Sound := by
  induction steps generalizing s with
  | nil => exact hs
  | cons c steps ih => exact ih (hs.step c)

end Sound

theorem Moves.keepsCode (h : s.Moves c a s') : s.program.KeepsCode s'.program := by
  cases h with
  | addInstr | insertAfter => exact Program.keepsCode_enlist
  | detach => exact Program.keepsCode_delist
  | addGlobal | declare | reserve | beginFunction | addBlock | selectBlock | endFunction =>
    exact fun _ ins hi ↦ ⟨ins, hi, rfl, rfl, rfl⟩

theorem Sound.keepsCode_step (hs : s.Sound) (c : BuildStep) :
    s.program.KeepsCode (s.step c).2.program := by
  obtain ⟨r, s', hstep⟩ : ∃ r s', s.step c = (r, s') := ⟨_, _, rfl⟩
  rw [hstep]
  cases r with
  | ok a => exact (moves_of_step hstep).keepsCode
  | error e =>
    rw [hs.eq_of_step_eq_error hstep]
    split <;> exact .refl _

theorem Sound.keepsCode_run (hs : s.Sound) (steps : List BuildStep) :
    s.program.KeepsCode (s.run steps).program := by
  induction steps generalizing s with
  | nil => exact .refl _
  | cons c steps ih => exact (hs.keepsCode_step c).trans (ih (hs.step c))

theorem run_append (s : Builder) (steps more : List BuildStep) :
    s.run (steps ++ more) = (s.run steps).run more := List.foldl_append

def history (s : Builder) : List BuildStep → List (BuildStep × Attempt EditError BuildAnswer)
  | [] => []
  | c :: steps => (c, (s.step c).1) :: (s.step c).2.history steps

theorem history_concat (s : Builder) (steps : List BuildStep) (c : BuildStep) :
    s.history (steps ++ [c]) = s.history steps ++ [(c, ((s.run steps).step c).1)] := by
  induction steps generalizing s with
  | nil => rfl
  | cons d steps ih => exact congrArg ((d, (s.step d).1) :: ·) (ih (s.step d).2)

theorem run_concat (s : Builder) (steps : List BuildStep) (c : BuildStep) :
    s.run (steps ++ [c]) = ((s.run steps).step c).2 := run_append s steps [c]

def created (s : Builder) (steps : List BuildStep) : List BuildAnswer :=
  (s.history steps).filterMap fun x ↦
    match x.2 with
    | .error _ | .ok .done => none
    | .ok a => some a

def Has (s : Builder) : BuildAnswer → Prop
  | .done => False
  | .global g => g.index < s.program.globals.length
  | .function f => f.index < s.program.functions.length
  | .block b => b.index < s.program.blocks.length
  | .instr i => i.index < s.program.instructions.length

theorem lt_length_concat {α : Type} {l : List α} {a : α} {n : Nat} :
    n < (l ++ [a]).length ↔ n < l.length ∨ n = l.length := by
  rw [List.length_append, List.length_singleton, Nat.lt_succ_iff_lt_or_eq]

theorem Moves.has_iff (h : s.Moves c a s') {x : BuildAnswer} :
    s'.Has x ↔ s.Has x ∨ x = a ∧ a ≠ .done := by
  cases h <;> rcases x with _ | ⟨⟨n⟩⟩ | ⟨⟨n⟩⟩ | ⟨⟨n⟩⟩ | ⟨⟨n⟩⟩ <;>
    simp only [Has, Program.addFunction, Program.addBlock, Program.enlist, Program.delist,
      Program.setInstrs, List.length_modify, lt_length_concat, BuildAnswer.global.injEq,
      BuildAnswer.function.injEq, BuildAnswer.block.injEq, BuildAnswer.instr.injEq, GlobalId.mk.injEq,
      FunctionId.mk.injEq, BlockId.mk.injEq, InstrId.mk.injEq, reduceCtorEq, ne_eq, not_true_eq_false,
      not_false_eq_true, and_true, and_false, or_false]

theorem Moves.not_has (h : s.Moves c a s') : ¬ s.Has a := by
  cases h <;> simp [Has]

theorem created_concat_of_ok {steps : List BuildStep} (h : (s.run steps).step c = (.ok a, s')) :
    s.created (steps ++ [c]) = s.created steps ++ if a = .done then [] else [a] := by
  rw [created, history_concat, List.filterMap_append, h]
  cases a <;> rfl

theorem created_concat_of_error {steps : List BuildStep} {e : Failure EditError}
    (h : (s.run steps).step c = (.error e, s')) :
    s.created (steps ++ [c]) = s.created steps := by
  rw [created, history_concat, List.filterMap_append, h]
  exact List.append_nil _

/-- What exists is what calls have handed out, and none has handed out what another has. -/
theorem created_exact (steps : List BuildStep) :
    (∀ x, (empty.run steps).Has x ↔ x ∈ empty.created steps) ∧ (empty.created steps).Nodup := by
  induction steps using List.reverseRecOn with
  | nil =>
    refine ⟨fun x ↦ iff_of_false ?_ List.not_mem_nil, .nil⟩
    cases x <;> exact nofun
  | append_singleton steps c ih =>
    obtain ⟨hhas, hnodup⟩ := ih
    rw [run_concat]
    obtain ⟨r, s', hstep⟩ : ∃ r s', (empty.run steps).step c = (r, s') := ⟨_, _, rfl⟩
    cases r with
    | error e =>
      rw [created_concat_of_error hstep, hstep, (sound_empty.run steps).eq_of_step_eq_error hstep]
      refine ⟨fun x ↦ (Iff.trans ?_ (hhas x)), hnodup⟩
      split <;> cases x <;> rfl
    | ok a =>
      have hmoves := moves_of_step hstep
      rw [created_concat_of_ok hstep, hstep]
      refine ⟨fun x ↦ ?_, ?_⟩
      · rw [hmoves.has_iff, hhas x, List.mem_append]
        split <;> simp [*]
      · split
        · rwa [List.append_nil]
        · refine hnodup.append (List.nodup_singleton a) ?_
          rw [List.disjoint_singleton, ← hhas a]
          exact hmoves.not_has

/-- Whatever is called, and however the calls end, instructions and blocks are listed where they say they
are, once and nowhere else; every id is handed out once; what an instruction does and where it comes from
stays; and a call that fails at most closes the function that is being built. -/
theorem run_coherent (steps : List BuildStep) :
    (empty.run steps).program.Coherent ∧
    (empty.created steps).Nodup ∧
    (∀ more, (empty.run steps).program.KeepsCode (empty.run (steps ++ more)).program) ∧
    ∀ c e s', (empty.run steps).step c = (.error e, s') →
      s' = if c = .endFunction then { empty.run steps with cursor := none } else empty.run steps := by
  refine ⟨(sound_empty.run steps).coherent, (created_exact steps).2, fun more ↦ ?_, ?_⟩
  · rw [run_append]
    exact (sound_empty.run steps).keepsCode_run more
  · exact fun c e s' ↦ (sound_empty.run steps).eq_of_step_eq_error

end Builder

end Durability
