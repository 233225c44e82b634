import Durability.Proofs.Program.Builder

namespace Durability

theorem insertIdx_append {α : Type} {l l' : List α} {k : Nat} {a : α} (hk : k ≤ l.length) :
    (l ++ l').insertIdx k a = l.insertIdx k a ++ l' := by
  induction l generalizing k with
  | nil =>
    obtain rfl := Nat.le_zero.1 hk
    rfl
  | cons x l ih =>
    cases k with
    | zero => rfl
    | succ k => exact congrArg (x :: ·) (ih (Nat.le_of_succ_le_succ hk))

namespace Program

variable {p q : Program} {i j : InstrId} {l : List InstrId} {k : Nat}

/-- `i` lets control go on to what is listed behind it. -/
def GoesOn (p : Program) (i : InstrId) : Prop :=
  ∃ ins, p.instr i = .ok ins ∧ ins.op.isTerminator = false

def Ends (p : Program) (i : InstrId) : Prop :=
  ∃ ins, p.instr i = .ok ins ∧ ins.op.isTerminator = true

/-- More may be listed behind `l`. -/
def Unended (p : Program) (l : List InstrId) : Prop := ∀ i ∈ l, p.GoesOn i

/-- Control goes on along `l` to its last instruction, and leaves the block there. -/
def Ended (p : Program) (l : List InstrId) : Prop :=
  ∃ body t, l = body ++ [t] ∧ p.Unended body ∧ p.Ends t

theorem GoesOn.not_ends (hi : p.GoesOn i) : ¬ p.Ends i := by
  intro ht
  obtain ⟨ins, hins, hgo⟩ := hi
  obtain ⟨ins', hins', hterm⟩ := ht
  cases hins.symm.trans hins'
  rw [hgo] at hterm
  cases hterm

section KeepsCode

variable (h : p.KeepsCode q)

include h

theorem KeepsCode.goesOn (hi : p.GoesOn i) : q.GoesOn i := by
  obtain ⟨ins, hins, hgo⟩ := hi
  obtain ⟨ins', hins', hop, -, -⟩ := h i ins hins
  exact ⟨ins', hins', hop ▸ hgo⟩

theorem KeepsCode.ends (hi : p.Ends i) : q.Ends i := by
  obtain ⟨ins, hins, hterm⟩ := hi
  obtain ⟨ins', hins', hop, -, -⟩ := h i ins hins
  exact ⟨ins', hins', hop ▸ hterm⟩

theorem KeepsCode.unended (hl : p.Unended l) : q.Unended l := fun i hi ↦ h.goesOn (hl i hi)

theorem KeepsCode.ended (hl : p.Ended l) : q.Ended l := by
  obtain ⟨body, t, hbody, hgo, ht⟩ := hl
  exact ⟨body, t, hbody, h.unended hgo, h.ends ht⟩

end KeepsCode

theorem Unended.insertIdx (hl : p.Unended l) (hj : p.GoesOn j) (hk : k ≤ l.length) :
    p.Unended (l.insertIdx k j) := by
  intro i hi
  obtain rfl | hi := (List.mem_insertIdx hk).1 hi
  · exact hj
  · exact hl i hi

theorem Unended.eraseIdx (hl : p.Unended l) : p.Unended (l.eraseIdx k) :=
  fun i hi ↦ hl i (List.mem_of_mem_eraseIdx hi)

theorem lt_length_of_goesOn {body : List InstrId} {t : InstrId} (ht : p.Ends t)
    (hi : (body ++ [t])[k]? = some i) (hgo : p.GoesOn i) : k < body.length := by
  obtain ⟨hk, hget⟩ := List.getElem?_eq_some_iff.1 hi
  rw [List.length_append, List.length_singleton] at hk
  refine Nat.lt_of_le_of_ne (Nat.le_of_lt_succ hk) ?_
  rintro rfl
  rw [List.getElem_concat_length rfl] at hget
  exact hgo.not_ends (hget ▸ ht)

theorem Ended.insertIdx (hl : p.Ended l) (hi : l[k]? = some i) (hgo : p.GoesOn i)
    (hj : p.GoesOn j) : p.Ended (l.insertIdx (k + 1) j) := by
  obtain ⟨body, t, rfl, hbody, ht⟩ := hl
  have hk := lt_length_of_goesOn ht hi hgo
  exact ⟨body.insertIdx (k + 1) j, t, insertIdx_append hk, hbody.insertIdx hj hk, ht⟩

theorem Ended.eraseIdx (hl : p.Ended l) (hi : l[k]? = some i) (hgo : p.GoesOn i) :
    p.Ended (l.eraseIdx k) := by
  obtain ⟨body, t, rfl, hbody, ht⟩ := hl
  have hk := lt_length_of_goesOn ht hi hgo
  exact ⟨body.eraseIdx k, t, List.eraseIdx_append_of_lt_length hk _, hbody.eraseIdx, ht⟩

theorem ended_of_terminator {b : BlockId} {B : Block} {t : InstrId}
    (h : p.Unended B.instrs ∨ p.Ended B.instrs) (hB : p.block b = .ok B)
    (ht : p.terminator b = .ok (some t)) : p.Ended B.instrs := by
  refine h.resolve_left fun hgo ↦ ?_
  obtain ⟨B', ins, hB', hlast, hins, hterm⟩ := terminator_eq_some_iff.1 ht
  cases hB.symm.trans hB'
  exact (hgo t (List.mem_of_getLast? hlast)).not_ends ⟨ins, hins, hterm⟩

end Program

namespace Builder

variable {s s' : Builder} {c : BuildStep} {a : BuildAnswer}

/-- Every block is as far as it can be at this point: it has not ended yet, or it has, and it has if its
function is not being built. -/
structure Shaped (s : Builder) : Prop where
  blocks : ∀ b B, s.program.block b = .ok B →
    s.program.Unended B.instrs ∨ s.program.Ended B.instrs
  closed : ∀ b B, s.program.block b = .ok B → (∀ b?, s.cursor ≠ some (B.function, b?)) →
    s.program.Ended B.instrs

namespace Shaped

variable {q : Program} {b : BlockId} {B : Block} {l : List InstrId}

theorem relist (h : s.Shaped) (hcode : s.program.KeepsCode q)
    (hq : ∀ c C, q.block c = .ok C →
      c = b ∧ C = { B with instrs := l } ∨ c ≠ b ∧ s.program.block c = .ok C)
    (hl : q.Unended l ∨ q.Ended l)
    (hclosed : (∀ b?, s.cursor ≠ some (B.function, b?)) → q.Ended l) :
    { s with program := q }.Shaped where
  blocks c C hC := by
    obtain ⟨-, rfl⟩ | ⟨-, hC⟩ := hq c C hC
    · exact hl
    · exact (h.blocks c C hC).imp hcode.unended hcode.ended
  closed c C hC hopen := by
    obtain ⟨-, rfl⟩ | ⟨-, hC⟩ := hq c C hC
    · exact hclosed hopen
    · exact hcode.ended (h.closed c C hC hopen)

theorem addInstr {ins : Instruction} {f : FunctionId} (h : s.Shaped) (hs : s.Sound)
    (hcursor : s.cursor = some (f, some b)) (hB : s.program.block b = .ok B)
    (hlast : ∀ i, B.instrs.getLast? = some i →
      ∃ ins, s.program.instr i = .ok ins ∧ ins.op.isTerminator = false) :
    { s with program := s.program.enlist b B.instrs B.instrs.length ins }.Shaped := by
  have hcode : s.program.KeepsCode (s.program.enlist b B.instrs B.instrs.length ins) :=
    Program.keepsCode_enlist
  have hnew : (s.program.enlist b B.instrs B.instrs.length ins).instr
      ⟨s.program.instructions.length⟩ = .ok ins := Program.instr_enlist.2 (.inr ⟨rfl, rfl⟩)
  have hgo : s.program.Unended B.instrs := by
    refine (h.blocks b B hB).resolve_right fun hended ↦ ?_
    obtain ⟨body, t, hbody, -, ht⟩ := hended
    exact Program.GoesOn.not_ends (hlast t (by rw [hbody, List.getLast?_concat])) ht
  refine h.relist hcode (fun c C ↦ (Program.block_enlist hB).1) ?_ fun hopen ↦ ?_
  · cases hterm : ins.op.isTerminator with
    | false =>
      exact .inl ((hcode.unended hgo).insertIdx ⟨ins, hnew, hterm⟩ (Nat.le_refl _))
    | true =>
      exact .inr ⟨B.instrs, _, List.insertIdx_length_self, hcode.unended hgo, ins, hnew, hterm⟩
  · obtain ⟨B', hB', hf⟩ := hs.selected f b hcursor
    cases hB.symm.trans hB'
    exact absurd hcursor (hf ▸ hopen _)

theorem insertAfter {i : InstrId} {ins old : Instruction} {k : Nat} (h : s.Shaped)
    (hat : s.program.EditableAt i old b B k) (hterm : ins.op.isTerminator = false) :
    { s with program := s.program.enlist b B.instrs (k + 1) ins }.Shaped := by
  have hcode : s.program.KeepsCode (s.program.enlist b B.instrs (k + 1) ins) :=
    Program.keepsCode_enlist
  have hgo := hcode.goesOn ⟨old, hat.instr, hat.inside⟩
  have hnew : (s.program.enlist b B.instrs (k + 1) ins).GoesOn ⟨s.program.instructions.length⟩ :=
    ⟨ins, Program.instr_enlist.2 (.inr ⟨rfl, rfl⟩), hterm⟩
  have hk := (List.getElem?_eq_some_iff.1 hat.getElem?).1
  refine h.relist hcode (fun c C ↦ (Program.block_enlist hat.holder).1) ?_ fun hopen ↦ ?_
  · refine (h.blocks b B hat.holder).imp (fun hl ↦ ?_) fun hl ↦ ?_
    · exact (hcode.unended hl).insertIdx hnew hk
    · exact (hcode.ended hl).insertIdx hat.getElem? hgo hnew
  · exact (hcode.ended (h.closed b B hat.holder hopen)).insertIdx hat.getElem? hgo hnew

theorem detach {i : InstrId} {old : Instruction} {k : Nat} (h : s.Shaped)
    (hat : s.program.EditableAt i old b B k) :
    { s with program := s.program.delist i b B.instrs k }.Shaped := by
  have hcode : s.program.KeepsCode (s.program.delist i b B.instrs k) := Program.keepsCode_delist
  have hgo := hcode.goesOn ⟨old, hat.instr, hat.inside⟩
  refine h.relist hcode (fun c C ↦ (Program.block_delist hat.holder).1) ?_ fun hopen ↦ ?_
  · refine (h.blocks b B hat.holder).imp (fun hl ↦ ?_) fun hl ↦ ?_
    · exact (hcode.unended hl).eraseIdx
    · exact (hcode.ended hl).eraseIdx hat.getElem? hgo
  · exact (hcode.ended (h.closed b B hat.holder hopen)).eraseIdx hat.getElem? hgo

theorem moves (h : s.Shaped) (hs : s.Sound) (hmoves : s.Moves c a s')
    (hinsert : ∀ i ins, c = .insertAfter i ins → ins.op.isTerminator = false) : s'.Shaped := by
  cases hmoves with
  | addGlobal | declare | reserve => exact ⟨h.blocks, h.closed⟩
  | beginFunction hcursor =>
    refine ⟨h.blocks, fun b B hB _ ↦ h.closed b B hB fun b? ↦ ?_⟩
    rw [hcursor]
    exact nofun
  | addBlock hcursor =>
    refine ⟨fun b B hB ↦ ?_, fun b B hB hopen ↦ ?_⟩
    · obtain hB | ⟨-, rfl⟩ := Program.block_addBlock.1 hB
      · exact h.blocks b B hB
      · exact .inl fun i hi ↦ nomatch hi
    · obtain hB | ⟨-, rfl⟩ := Program.block_addBlock.1 hB
      · exact h.closed b B hB hopen
      · exact absurd hcursor (hopen _)
  | selectBlock hcursor hB =>
    refine ⟨h.blocks, fun b B hB' hopen ↦ h.closed b B hB' fun b? hb ↦ ?_⟩
    obtain ⟨hf, -⟩ := Prod.mk.inj (Option.some.inj (hb.symm.trans hcursor))
    exact hopen _ (by rw [hf])
  | addInstr hcursor hB hlast => exact h.addInstr hs hcursor hB hlast
  | @endFunction f b? F hcursor hF hbody hends =>
    refine ⟨h.blocks, fun b B hB _ ↦ ?_⟩
    by_cases hf : B.function = f
    · obtain ⟨F', hF', hb⟩ := (hs.coherent.blocks b f).1 ⟨B, hB, hf⟩
      cases hF.symm.trans hF'
      obtain ⟨t, ht⟩ := hends b hb
      exact Program.ended_of_terminator (h.blocks b B hB) hB ht
    · refine h.closed b B hB fun c? hc ↦ hf ?_
      exact (Prod.mk.inj (Option.some.inj (hc.symm.trans hcursor))).1
  | insertAfter hat =>
    have hterm := hinsert _ _ rfl
    exact h.insertAfter hat hterm
  | detach hat => exact h.detach hat

end Shaped

theorem Moves.exists_function {f : FunctionId} {F : Function} (h : s.Moves c a s')
    (hF : s.program.function f = .ok F) :
    ∃ F', s'.program.function f = .ok F' ∧ (F.blocks ≠ [] → F'.blocks ≠ []) := by
  cases h with
  | declare | reserve => exact ⟨F, Program.function_addFunction.2 (.inl hF), id⟩
  | addBlock =>
    refine ⟨_, Program.function_addBlock.2 ⟨F, hF, rfl⟩, fun hbody ↦ ?_⟩
    split
    · exact List.append_ne_nil_of_left_ne_nil hbody _
    · exact hbody
  | addGlobal | beginFunction | selectBlock | addInstr | endFunction | insertAfter | detach =>
    exact ⟨F, hF, id⟩

theorem Moves.defined {f : FunctionId} {F : Function} (h : s.Moves c a s')
    (hF : s'.program.function f = .ok F) (hkind : F.kind = .defined) :
    (∃ F', s.program.function f = .ok F' ∧ F'.kind = .defined) ∨
      ∃ name n, c = .reserve name n ∧ a = .function f := by
  cases h with
  | declare name numArgs hnot =>
    obtain hF | ⟨-, rfl⟩ := Program.function_addFunction.1 hF
    · exact .inl ⟨F, hF, hkind⟩
    · exact absurd hkind hnot
  | reserve name numArgs =>
    obtain hF | ⟨hf, rfl⟩ := Program.function_addFunction.1 hF
    · exact .inl ⟨F, hF, hkind⟩
    · exact .inr ⟨name, numArgs, rfl, by rw [← hf]⟩
  | addBlock =>
    obtain ⟨F', hF', rfl⟩ := Program.function_addBlock.1 hF
    refine .inl ⟨F', hF', ?_⟩
    split at hkind <;> exact hkind
  | addGlobal | beginFunction | selectBlock | addInstr | endFunction | insertAfter | detach =>
    exact .inl ⟨F, hF, hkind⟩

def Begun (s : Builder) (f : FunctionId) : Prop :=
  (∃ b?, s.cursor = some (f, b?)) ∨ ∃ F, s.program.function f = .ok F ∧ F.blocks ≠ []

theorem Begun.moves {f : FunctionId} (hf : s.Begun f) (h : s.Moves c a s') : s'.Begun f := by
  obtain ⟨b?, hb⟩ | ⟨F, hF, hbody⟩ := hf
  · cases h with
    | beginFunction hcursor => cases hb.symm.trans hcursor
    | selectBlock hcursor =>
      cases hb.symm.trans hcursor
      exact .inl ⟨_, rfl⟩
    | endFunction hcursor hF hbody =>
      cases hb.symm.trans hcursor
      exact .inr ⟨_, hF, hbody⟩
    | addGlobal | declare | reserve | addBlock | addInstr | insertAfter | detach => exact .inl ⟨b?, hb⟩
  · obtain ⟨F', hF', hbody'⟩ := h.exists_function hF
    exact .inr ⟨F', hF', hbody' hbody⟩

/-- Whatever goes wrong in `x` is a fault. -/
def Unrefused {σ α : Type} (x : Stateful σ EditError α) : Prop :=
  ∀ s cause s', x s ≠ (.error (.refused cause), s')

namespace Unrefused

variable {σ α β : Type} {x : Stateful σ EditError α}

theorem of_ok (h : ∀ s, ∃ a s', x s = (.ok a, s')) : Unrefused x := by
  intro s cause s' hx
  obtain ⟨a, r, ha⟩ := h s
  cases ha.symm.trans hx

theorem modify (g : σ → σ) : Unrefused (modify g : Stateful σ EditError Unit) :=
  .of_ok fun s ↦ ⟨(), g s, rfl⟩

theorem pure (a : α) : Unrefused (pure a : Stateful σ EditError α) := .of_ok fun s ↦ ⟨a, s, rfl⟩

theorem liftFault (y : Except Fault α) : Unrefused (liftM y : Stateful σ EditError α) := by
  intro s cause s' h
  cases y <;> cases h

theorem bind {f : α → Stateful σ EditError β} (hx : Unrefused x) (hf : ∀ a, Unrefused (f a)) :
    Unrefused (x >>= f) := by
  intro s cause s' h
  obtain h | ⟨a, r, -, h⟩ := Stateful.bind_eq_error_iff.1 h
  · exact hx s cause s' h
  · exact hf a r cause s' h

theorem get_bind {f : σ → Stateful σ EditError β} (hf : ∀ s, Unrefused (f s)) :
    Unrefused (get >>= f) := fun s cause s' h ↦ hf s s cause s' h

theorem liftFault_bind {y : Except Fault α} {f : α → Stateful σ EditError β}
    (hf : ∀ a, Unrefused (f a)) : Unrefused ((liftM y : Stateful σ EditError α) >>= f) :=
  bind (liftFault y) hf

theorem map {f : α → β} (hx : Unrefused x) : Unrefused (f <$> x) :=
  fun s cause s' h ↦ hx s cause s' (Stateful.map_eq_error_iff.1 h)

theorem edit {x : Editing EditError α} (hx : Unrefused x) : Unrefused (Builder.edit x) := by
  intro s cause s' h
  exact hx s.program cause (x s.program).2 (Prod.ext (Prod.mk.inj h).1 rfl)

theorem enter (b : BlockId) (ins : Instruction) (put : InstrId → List InstrId → List InstrId) :
    Unrefused (Editing.enter b ins put : Editing EditError InstrId) := by
  have heditBlock (i : InstrId) : Unrefused (Editing.editBlock b (put i) : Editing EditError Unit) :=
    .get_bind fun _ ↦ .liftFault_bind fun _ ↦ .modify _
  exact .bind (.of_ok fun p ↦ ⟨_, _, rfl⟩) fun i ↦ .bind (heditBlock i) fun _ ↦ .pure i

end Unrefused

/-- Of all calls, only edits are refused. -/
theorem unrefused_call (hinsert : ∀ i ins, c ≠ .insertAfter i ins) (hdetach : ∀ i, c ≠ .detach i) :
    Unrefused (call c) := by
  have hadd (F : Function) : Unrefused (addFunction F) := .of_ok fun s ↦ ⟨_, _, addFunction_apply F s⟩
  cases c with
  | addGlobal name => exact .map (.of_ok fun s ↦ ⟨_, _, addGlobal_apply name s⟩)
  | declare name kind numArgs => exact .map (.liftFault_bind fun _ ↦ hadd _)
  | reserve name numArgs => exact .map (hadd _)
  | beginFunction f =>
    refine .map (.get_bind fun _ ↦ .liftFault_bind fun _ ↦ .liftFault_bind fun _ ↦ ?_)
    exact .liftFault_bind fun _ ↦ .liftFault_bind fun _ ↦ .modify _
  | addBlock =>
    refine .map (.get_bind fun _ ↦ .liftFault_bind fun _ ↦ .bind (.edit (.modify _)) fun _ ↦ ?_)
    exact .bind (.edit (.get_bind fun _ ↦ .liftFault_bind fun _ ↦ .modify _)) fun _ ↦ .pure _
  | selectBlock b =>
    refine .map (.get_bind fun _ ↦ .liftFault_bind fun _ ↦ .liftFault_bind fun _ ↦ ?_)
    exact .liftFault_bind fun _ ↦ .modify _
  | addInstr op inputs loc =>
    refine .map (.get_bind fun _ ↦ .liftFault_bind fun _ ↦ .liftFault_bind fun _ ↦ ?_)
    exact .liftFault_bind fun _ ↦ .liftFault_bind fun _ ↦ .edit (.enter _ _ _)
  | endFunction =>
    refine .map (.get_bind fun _ ↦ .bind (.modify _) fun _ ↦ ?_)
    exact .liftFault_bind fun _ ↦ .liftFault _
  | insertAfter i ins => exact absurd rfl (hinsert i ins)
  | detach i => exact absurd rfl (hdetach i)

theorem edit_of_step_refused {cause : EditError} (h : s.step c = (.error (.refused cause), s')) :
    s' = s ∧ ((∃ i ins, c = .insertAfter i ins) ∨ ∃ i, c = .detach i) := by
  by_cases hinsert : ∃ i ins, c = .insertAfter i ins
  · obtain ⟨i, ins, rfl⟩ := hinsert
    exact ⟨(edit_atomic (Program.insertAfter_atomic ins)).map _ _ h, .inl ⟨i, ins, rfl⟩⟩
  · by_cases hdetach : ∃ i, c = .detach i
    · obtain ⟨i, rfl⟩ := hdetach
      exact ⟨(edit_atomic Program.detach_atomic).map _ _ h, .inr ⟨i, rfl⟩⟩
    · exact (unrefused_call (fun i ins hc ↦ hinsert ⟨i, ins, hc⟩) (fun i hc ↦ hdetach ⟨i, hc⟩)
        s cause s' h).elim

def reserved? : BuildStep × Attempt EditError BuildAnswer → Option FunctionId
  | (.reserve _ _, .ok (.function f)) => some f
  | _ => none

/-- A build that has come to its end: no call has met a fault, though edits may have been refused. What
has been begun has been ended if no function is open, for nothing else closes a function. -/
structure Finished (steps : List BuildStep) : Prop where
  faultless : ∀ x ∈ empty.history steps, ∀ fault, x.2 ≠ .error (.fault fault)
  begun : ∀ x ∈ empty.history steps, ∀ f ∈ reserved? x, .beginFunction f ∈ steps
  closed : (empty.run steps).cursor = none
  inserted : ∀ i ins, .insertAfter i ins ∈ steps → ins.op.isTerminator = false
  values : ∀ ins ∈ (empty.run steps).program.instructions, ∀ v ∈ ins.inputs,
    (empty.run steps).program.hasValue v = true
  callees : ∀ ins ∈ (empty.run steps).program.instructions, ∀ f, ins.op = .call f →
    f.index < (empty.run steps).program.functions.length
  targets : ∀ B ∈ (empty.run steps).program.blocks, ∀ i ∈ B.instrs,
    ∀ ins ∈ (empty.run steps).program.instructions[i.index]?, ∀ t ∈ ins.op.targets,
      (empty.run steps).program.owns B.function t = true

/-- What faultless calls have come to. -/
structure Progress (steps : List BuildStep) : Prop where
  shaped : (empty.run steps).Shaped
  reserved : ∀ f F, (empty.run steps).program.function f = .ok F → F.kind = .defined →
    ∃ x ∈ empty.history steps, reserved? x = some f
  begun : ∀ f, .beginFunction f ∈ steps → (empty.run steps).Begun f

variable {steps : List BuildStep}

namespace Progress

theorem empty : Progress [] where
  shaped := ⟨nofun, nofun⟩
  reserved := nofun
  begun := nofun

theorem concat_of_ok (h : Progress steps) (hstep : (Builder.empty.run steps).step c = (.ok a, s'))
    (hinsert : ∀ i ins, c = .insertAfter i ins → ins.op.isTerminator = false) :
    Progress (steps ++ [c]) := by
  have hmoves := moves_of_step hstep
  have hrun : Builder.empty.run (steps ++ [c]) = s' := by rw [run_concat, hstep]
  refine ⟨?_, fun f F hF hkind ↦ ?_, fun f hf ↦ ?_⟩
  · rw [hrun]
    exact h.shaped.moves (sound_empty.run steps) hmoves hinsert
  · rw [hrun] at hF
    rw [history_concat, hstep]
    obtain ⟨F', hF', hkind'⟩ | ⟨name, n, rfl, rfl⟩ := hmoves.defined hF hkind
    · obtain ⟨x, hx, hf⟩ := h.reserved f F' hF' hkind'
      exact ⟨x, List.mem_append_left _ hx, hf⟩
    · exact ⟨_, List.mem_append_right _ (List.mem_singleton_self _), rfl⟩
  · rw [hrun]
    obtain hf | hf := List.mem_append.1 hf
    · exact (h.begun f hf).moves hmoves
    · obtain rfl := List.mem_singleton.1 hf
      cases hmoves
      exact .inl ⟨none, rfl⟩

theorem concat_of_refused (h : Progress steps) {cause : EditError}
    (hstep : (Builder.empty.run steps).step c = (.error (.refused cause), s')) :
    Progress (steps ++ [c]) := by
  obtain ⟨rfl, hedit⟩ := edit_of_step_refused hstep
  have hrun : Builder.empty.run (steps ++ [c]) = Builder.empty.run steps := by
    rw [run_concat, hstep]
  refine ⟨by rw [hrun]; exact h.shaped, fun f F hF hkind ↦ ?_, fun f hf ↦ ?_⟩
  · rw [hrun] at hF
    obtain ⟨x, hx, hf⟩ := h.reserved f F hF hkind
    rw [history_concat]
    exact ⟨x, List.mem_append_left _ hx, hf⟩
  · rw [hrun]
    obtain hf | hf := List.mem_append.1 hf
    · exact h.begun f hf
    · obtain rfl := List.mem_singleton.1 hf
      obtain ⟨i, ins, hedit⟩ | ⟨i, hedit⟩ := hedit <;> cases hedit

theorem of_faultless (hfaultless : ∀ x ∈ Builder.empty.history steps, ∀ fault,
    x.2 ≠ .error (.fault fault))
    (hinsert : ∀ i ins, .insertAfter i ins ∈ steps → ins.op.isTerminator = false) :
    Progress steps := by
  induction steps using List.reverseRecOn with
  | nil => exact Progress.empty
  | append_singleton steps c ih =>
    simp only [history_concat, List.forall_mem_append, List.forall_mem_singleton] at hfaultless
    obtain ⟨hbefore, hlast⟩ := hfaultless
    have h := ih hbefore fun i ins hmem ↦ hinsert i ins (List.mem_append_left _ hmem)
    obtain ⟨r, s', hstep⟩ : ∃ r s', (Builder.empty.run steps).step c = (r, s') := ⟨_, _, rfl⟩
    rw [hstep] at hlast
    match r with
    | .ok a =>
      refine h.concat_of_ok hstep fun i ins hc ↦ hinsert i ins ?_
      rw [hc]
      exact List.mem_append_right _ (List.mem_singleton_self _)
    | .error (.refused cause) => exact h.concat_of_refused hstep
    | .error (.fault fault) => exact absurd rfl (hlast fault)

end Progress

namespace Finished

variable (h : Finished steps)

include h

theorem fitsIn {b : BlockId} {B : Block} {i : InstrId} {ins : Instruction}
    (hB : (empty.run steps).program.block b = .ok B) (hi : i ∈ B.instrs)
    (hins : (empty.run steps).program.instr i = .ok ins) :
    (empty.run steps).program.FitsIn B.function b ins := by
  have hs := sound_empty.run steps
  have hmem := List.mem_of_getElem? (Program.instr_eq_ok_iff.1 hins)
  refine ⟨?_, hs.operands i ins hins, h.values ins hmem, h.callees ins hmem,
    h.targets B (List.mem_of_getElem? (Program.block_eq_ok_iff.1 hB)) i hi ins
      (Program.instr_eq_ok_iff.1 hins)⟩
  obtain ⟨ins', hins', hblock⟩ :=
    Program.blockOf_eq_ok_iff.1 ((hs.coherent.instrs i b).2 ⟨B, hB, hi⟩)
  cases hins.symm.trans hins'
  exact hblock

theorem validBlock {b : BlockId} {B : Block} (hB : (empty.run steps).program.block b = .ok B) :
    (empty.run steps).program.ValidBlock b B := by
  have hshaped := (Progress.of_faultless h.faultless h.inserted).shaped
  have hopen : ∀ b?, (empty.run steps).cursor ≠ some (B.function, b?) := by
    rw [h.closed]
    exact nofun
  obtain ⟨body, t, hbody, hgo, ins, hins, hterm⟩ := hshaped.closed b B hB hopen
  refine Program.validBlock_iff.2 ⟨body, t, hbody, fun i hi ↦ ?_, ins, hins, hterm,
    h.fitsIn hB (by simp [hbody]) hins⟩
  obtain ⟨ins, hins, hterm⟩ := hgo i hi
  exact ⟨ins, hins, hterm, h.fitsIn hB (by simp [hbody, hi]) hins⟩

theorem valid : (empty.run steps).program.Valid where
  bodies f F hF := by
    refine ⟨fun hkind ↦ ?_, fun hbody ↦ ?_⟩
    · have hprogress := Progress.of_faultless h.faultless h.inserted
      obtain ⟨x, hx, hf⟩ := hprogress.reserved f F hF hkind
      obtain ⟨b?, hopen⟩ | ⟨F', hF', hbody⟩ := hprogress.begun f (h.begun x hx f hf)
      · cases h.closed.symm.trans hopen
      · cases hF.symm.trans hF'
        exact hbody
    · by_contra hkind
      exact hbody ((sound_empty.run steps).bodiless f F hF hkind)
  owned f F hF b hb := by
    obtain ⟨B, hB, hf⟩ := ((sound_empty.run steps).coherent.blocks b f).2 ⟨F, hF, hb⟩
    rw [Program.owns, Program.block_eq_ok_iff.1 hB]
    exact decide_eq_true hf
  blocks b B hB := h.validBlock hB

end Finished

theorem validate_of_finished (h : Finished steps) : (empty.run steps).program.validate = .ok () :=
  Program.validate_eq_ok_iff.2 h.valid

/-- Builds `main`, and then `helper`, which `main` calls. A flush is put in, taken out and put in again on
the way, the last time while `helper` is being built, and one edit is refused. -/
def interleaved : List BuildStep :=
  [.addGlobal "pool", .reserve "helper" 1, .declare "log" .declaration 0, .reserve "main" 0,
    .beginFunction ⟨2⟩, .addBlock, .addBlock, .selectBlock ⟨0⟩,
    .addInstr .store [.global ⟨0⟩, .const 1] none, .addInstr (.branch ⟨1⟩) [] none, .selectBlock ⟨1⟩,
    .addInstr (.call ⟨0⟩) [.instr ⟨0⟩] none, .insertAfter ⟨0⟩ ⟨.flush .clwb, [.global ⟨0⟩], none, none⟩,
    .addInstr .ret [] none, .endFunction, .detach ⟨3⟩, .beginFunction ⟨0⟩, .addBlock, .selectBlock ⟨2⟩,
    .insertAfter ⟨0⟩ ⟨.flush .clwb, [.global ⟨0⟩], none, none⟩,
    .insertAfter ⟨1⟩ ⟨.fence .sfence, [], none, none⟩,
    .addInstr .load [.arg ⟨0⟩ 0] none, .addInstr .ret [] none, .endFunction]

theorem finished_interleaved : Finished interleaved where
  faultless := by decide +kernel
  begun := by decide +kernel
  closed := by decide +kernel
  inserted i ins h := by
    obtain ⟨-, rfl⟩ | ⟨-, rfl⟩ : i = ⟨0⟩ ∧ ins = ⟨.flush .clwb, [.global ⟨0⟩], none, none⟩ ∨
        i = ⟨1⟩ ∧ ins = ⟨.fence .sfence, [], none, none⟩ := by simpa [interleaved] using h
    · rfl
    · rfl
  values := by decide +kernel
  callees ins hins f hf := by
    have hops : ∀ ins ∈ (empty.run interleaved).program.instructions, ins.op ∈ [.store, .branch ⟨1⟩,
        .call ⟨0⟩, .flush .clwb, .ret, .load] := by decide +kernel
    have hop := hops ins hins
    rw [hf] at hop
    obtain rfl : f = ⟨0⟩ := by simpa using hop
    decide +kernel
  targets := by decide +kernel

theorem validate_interleaved :
    let p := (empty.run interleaved).program
    Finished interleaved ∧ p.validate = .ok () ∧
      p.functions.map (·.name) = ["helper", "log", "main"] ∧
      p.blocks = [⟨⟨2⟩, [⟨0⟩, ⟨5⟩, ⟨1⟩]⟩, ⟨⟨2⟩, [⟨2⟩, ⟨4⟩]⟩, ⟨⟨0⟩, [⟨6⟩, ⟨7⟩]⟩] :=
  ⟨finished_interleaved, validate_of_finished finished_interleaved, by decide +kernel,
    by decide +kernel⟩

end Builder

end Durability
