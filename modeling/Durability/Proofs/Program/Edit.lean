import Durability.Program.Edit
import Durability.Proofs.Program.Position
import Mathlib.Data.List.Basic

namespace Durability

variable {α : Type}

theorem flatMap_eq_self {l : List α} {g : α → List α} (h : ∀ x ∈ l, g x = [x]) :
    l.flatMap g = l := by
  induction l with
  | nil => rfl
  | cons x l ih =>
    rw [List.flatMap_cons, h x List.mem_cons_self,
      ih fun y hy ↦ h y (List.mem_cons_of_mem x hy), List.singleton_append]

theorem flatMap_eq_splice {l : List α} {a : α} {k : Nat} {g : α → List α} (hl : l.Nodup)
    (h : l[k]? = some a) (hg : ∀ x, x ≠ a → g x = [x]) :
    l.flatMap g = l.take k ++ (g a ++ l.drop (k + 1)) := by
  obtain ⟨hk, ha⟩ := List.getElem?_eq_some_iff.1 h
  have hsplit : l = l.take k ++ a :: l.drop (k + 1) := by
    rw [← ha, ← List.drop_eq_getElem_cons hk, List.take_append_drop]
  obtain ⟨hnot, -⟩ := List.nodup_cons.1 (List.nodup_middle.1 (hsplit ▸ hl))
  rw [List.mem_append, not_or] at hnot
  have hbefore : (l.take k).flatMap g = l.take k :=
    flatMap_eq_self fun x hx ↦ hg x fun hxa ↦ hnot.1 (hxa ▸ hx)
  have hbehind : (l.drop (k + 1)).flatMap g = l.drop (k + 1) :=
    flatMap_eq_self fun x hx ↦ hg x fun hxa ↦ hnot.2 (hxa ▸ hx)
  conv_lhs => rw [hsplit]
  rw [List.flatMap_append, List.flatMap_cons, hbefore, hbehind]

theorem insertIdx_eq_splice {l : List α} {a : α} {k : Nat} (h : l[k]? = some a) (b : α) :
    l.insertIdx (k + 1) b = l.take k ++ ([a, b] ++ l.drop (k + 1)) := by
  induction l generalizing k with
  | nil => cases h
  | cons x l ih =>
    cases k with
    | zero =>
      cases h
      rfl
    | succ k =>
      rw [List.insertIdx_succ_cons, ih h]
      rfl

def Block.relist (g : InstrId → List InstrId) (B : Block) : Block :=
  { B with instrs := B.instrs.flatMap g }

namespace Program

variable {p q : Program} {i j : InstrId} {b : BlockId} {B : Block} {f : FunctionId}
  {ins : Instruction} {g : InstrId → List InstrId}

/-- `q` has the functions and the blocks of `p`, with `g i` listed in place of each `i`. -/
structure Relisted (g : InstrId → List InstrId) (p q : Program) : Prop where
  globals : q.globals = p.globals
  functions : q.functions = p.functions
  blocks : q.blocks = p.blocks.map (Block.relist g)

namespace Relisted

variable (h : Relisted g p q)

include h

theorem block_eq_ok_iff : q.block b = .ok B ↔ ∃ B', p.block b = .ok B' ∧ B = B'.relist g := by
  rw [Program.block_eq_ok_iff, h.blocks, List.getElem?_map, Option.map_eq_some_iff]
  simp only [Program.block_eq_ok_iff, eq_comm (b := B)]

theorem owns : q.owns f b = p.owns f b := by
  rw [Program.owns, Program.owns, h.blocks, List.getElem?_map]
  cases p.blocks[b.index]? <;> rfl

theorem fitsIn (hlen : p.instructions.length ≤ q.instructions.length) (hf : p.FitsIn f b ins) :
    q.FitsIn f b ins where
  block := hf.block
  operands := hf.operands
  values v hv := by
    have := hf.values v hv
    cases v with
    | instr i => exact decide_eq_true (Nat.lt_of_lt_of_le (of_decide_eq_true this) hlen)
    | arg f n => rwa [hasValue, h.functions]
    | global g => rwa [hasValue, h.globals]
    | const n => rfl
  callee g' hg := by
    rw [h.functions]
    exact hf.callee g' hg
  targets t ht := by
    rw [h.owns]
    exact hf.targets t ht

/-- What has to be so for a program to stay valid: what is listed in place of an instruction that lets
control go on does so as well and fits in the same block, and the terminators stay. -/
theorem valid (hv : p.Valid) (hlen : p.instructions.length ≤ q.instructions.length)
    (inside : ∀ b B i ins, p.block b = .ok B → p.instr i = .ok ins → ins.op.isTerminator = false →
      p.FitsIn B.function b ins → ∀ j ∈ g i, ∃ ins', q.instr j = .ok ins' ∧
        ins'.op.isTerminator = false ∧ p.FitsIn B.function b ins')
    (terminator : ∀ i ins, p.instr i = .ok ins → ins.op.isTerminator = true →
      g i = [i] ∧ q.instr i = .ok ins) : q.Valid := by
  have hfunction : ∀ f, q.function f = p.function f := fun f ↦ by
    rw [function, function, h.functions]
  refine ⟨fun f F hF ↦ hv.bodies f F (hfunction f ▸ hF), fun f F hF b hb ↦ ?_, fun b B hB ↦ ?_⟩
  · rw [h.owns]
    exact hv.owned f F (hfunction f ▸ hF) b hb
  · obtain ⟨B, hpB, rfl⟩ := h.block_eq_ok_iff.1 hB
    obtain ⟨body, t, hbody, hinside, ins, ht, hterm, hfits⟩ := validBlock_iff.1 (hv.blocks b B hpB)
    obtain ⟨hgt, ht'⟩ := terminator t ins ht hterm
    refine validBlock_iff.2 ⟨body.flatMap g, t, ?_, fun j hj ↦ ?_, ins, ht', hterm,
      h.fitsIn hlen hfits⟩
    · rw [Block.relist, hbody, List.flatMap_append, List.flatMap_singleton, hgt]
    · obtain ⟨i, hi, hj⟩ := List.mem_flatMap.1 hj
      obtain ⟨ins, hins, hnot, hfits⟩ := hinside i hi
      obtain ⟨ins', hj, hnot, hfits⟩ := inside b B i ins hpB hins hnot hfits j hj
      exact ⟨ins', hj, hnot, h.fitsIn hlen hfits⟩

theorem listsOnce (hv : p.Valid) (once : p.ListsOnce)
    (each : ∀ i, i.index < p.instructions.length → (g i).Nodup)
    (apart : ∀ i j, i.index < p.instructions.length → j.index < p.instructions.length → i ≠ j →
      (g i).Disjoint (g j)) : q.ListsOnce := by
  intro b B hB
  obtain ⟨B, hpB, rfl⟩ := h.block_eq_ok_iff.1 hB
  have hlt : ∀ i ∈ B.instrs, i.index < p.instructions.length := fun i ↦ hv.index_lt hpB
  refine List.nodup_flatMap.2 ⟨fun i hi ↦ each i (hlt i hi), ?_⟩
  exact (once b B hpB).imp_of_mem fun hi hj hne ↦ apart _ _ (hlt _ hi) (hlt _ hj) hne

theorem congr {g' : InstrId → List InstrId} (hv : p.Valid)
    (hg : ∀ i, i.index < p.instructions.length → g i = g' i) : Relisted g' p q where
  globals := h.globals
  functions := h.functions
  blocks := by
    rw [h.blocks]
    refine List.map_congr_left fun B hB ↦ ?_
    obtain ⟨n, hn⟩ := List.mem_iff_getElem?.1 hB
    have hpB : p.block ⟨n⟩ = .ok B := Program.block_eq_ok_iff.2 hn
    exact congrArg (fun l ↦ { B with instrs := l })
      (List.flatMap_congr fun i hi ↦ hg i (hv.index_lt hpB hi))

theorem trans {r : Program} {g' : InstrId → List InstrId} (h' : Relisted g' q r) :
    Relisted (fun i ↦ (g i).flatMap g') p r where
  globals := h'.globals.trans h.globals
  functions := h'.functions.trans h.functions
  blocks := by
    rw [h'.blocks, h.blocks, List.map_map]
    exact List.map_congr_left fun B _ ↦
      congrArg (fun l ↦ { B with instrs := l }) List.flatMap_assoc

end Relisted

theorem relisted_setInstrs {k : Nat} (hv : p.Valid) (once : p.ListsOnce) (hi : p.StandsAt b k i)
    (hB : p.block b = .ok B) (hg : ∀ j, j ≠ i → g j = [j]) :
    Relisted g p (p.setInstrs b (B.instrs.take k ++ (g i ++ B.instrs.drop (k + 1)))) where
  globals := rfl
  functions := rfl
  blocks := by
    obtain ⟨B', hB', hk⟩ := id hi
    obtain rfl : B = B' := by injection hB.symm.trans hB'
    refine List.ext_getElem? fun n ↦ ?_
    rw [setInstrs, List.getElem?_modify, List.getElem?_map]
    cases hn : p.blocks[n]? with
    | none => rfl
    | some C =>
      have hC : p.block ⟨n⟩ = .ok C := block_eq_ok_iff.2 hn
      change some (if b.index = n then _ else C) = some (C.relist g)
      by_cases hbn : b.index = n
      · subst hbn
        obtain rfl : B = C := by injection hB.symm.trans hC
        rw [if_pos rfl]
        exact congrArg (fun l ↦ some { B with instrs := l })
          (flatMap_eq_splice (once b B hB) hk hg).symm
      · rw [if_neg hbn]
        have hrest : C.instrs.flatMap g = C.instrs := flatMap_eq_self fun j hj ↦ hg j fun hji ↦ by
          subst hji
          obtain ⟨m, hm⟩ := List.mem_iff_getElem?.1 hj
          exact hbn (congrArg BlockId.index (hi.unique ⟨C, hC, hm⟩ hv once).1)
        exact congrArg (fun l ↦ some { C with instrs := l }) hrest.symm

theorem demand_eq_ok_iff {fault : Fault} {a? : Option α} {a : α} :
    Fault.demand fault a? = .ok a ↔ a? = some a := by
  cases a? <;> simp [Fault.demand]

/-- What both edits rely on at `i`: it is in block `b`, which lists it, first of all at `k`, and it lets
control go on. -/
structure EditableAt (p : Program) (i : InstrId) (old : Instruction) (b : BlockId) (B : Block)
    (k : Nat) : Prop where
  instr : p.instr i = .ok old
  block : old.block = some b
  inside : old.op.isTerminator = false
  holder : p.block b = .ok B
  place : B.instrs.idxOf? i = some k

section Editable

variable {old : Instruction} {k : Nat}

theorem editableBlock_eq_ok_iff {terminator : EditError} :
    p.editableBlock i terminator = .ok b ↔
      ∃ old, p.instr i = .ok old ∧ old.block = some b ∧ old.op.isTerminator = false := by
  constructor
  · intro h
    obtain ⟨b?, hb, h⟩ := bind_eq_ok_iff.1 h
    obtain ⟨old, hold, hblock⟩ := blockOf_eq_ok_iff.1 (Attempt.lift_eq_ok_iff.1 hb)
    cases b? with
    | none => cases h
    | some b' =>
      obtain ⟨old', hold', h⟩ := bind_eq_ok_iff.1 h
      cases hold.symm.trans (Attempt.lift_eq_ok_iff.1 hold')
      obtain ⟨⟨⟩, hterm, h⟩ := bind_eq_ok_iff.1 h
      cases pure_eq_ok_iff.1 h
      exact ⟨old, hold, hblock, Attempt.refuseIf_eq_ok_iff.1 hterm⟩
  · intro h
    obtain ⟨old, hold, hblock, hterm⟩ := h
    have hb := blockOf_eq_ok_iff.2 ⟨old, hold, hblock⟩
    refine bind_eq_ok_iff.2 ⟨some b, Attempt.lift_eq_ok_iff.2 hb, ?_⟩
    refine bind_eq_ok_iff.2 ⟨old, Attempt.lift_eq_ok_iff.2 hold, ?_⟩
    exact bind_eq_ok_iff.2 ⟨(), Attempt.refuseIf_eq_ok_iff.2 hterm, rfl⟩

theorem accept_eq_ok_iff {u : Unit} : ins.accept = .ok u ↔ ins.checkOperands = .ok () := by
  rw [Instruction.accept, Attempt.ofExcept_eq_ok_iff, mapError_eq_ok_iff]

theorem editableAt_of_position? {terminator : EditError} {l : List InstrId}
    (hb : p.editableBlock i terminator = .ok b) (h : p.position? i = .ok (some (k, l))) :
    ∃ old B, p.EditableAt i old b B k ∧ B.instrs = l := by
  obtain ⟨old, hold, hblock, hterm⟩ := editableBlock_eq_ok_iff.1 hb
  obtain ⟨b', B, hb', hB, rfl, hk⟩ := position?_eq_some_iff.1 h
  cases (blockOf_eq_ok_iff.2 ⟨old, hold, hblock⟩).symm.trans hb'
  exact ⟨old, B, ⟨hold, hblock, hterm, hB, hk⟩, rfl⟩

namespace EditableAt

variable (h : p.EditableAt i old b B k)

include h

theorem editableBlock (terminator : EditError) : p.editableBlock i terminator = .ok b :=
  editableBlock_eq_ok_iff.2 ⟨old, h.instr, h.block, h.inside⟩

theorem blockOf : p.blockOf i = .ok (some b) := blockOf_eq_ok_iff.2 ⟨old, h.instr, h.block⟩

theorem position? : p.position? i = .ok (some (k, B.instrs)) :=
  position?_eq_some_iff.2 ⟨b, B, h.blockOf, h.holder, rfl, h.place⟩

theorem getElem? : B.instrs[k]? = some i := by
  obtain ⟨hk, hi, -⟩ := List.idxOf?_eq_some_iff.1 h.place
  exact List.getElem?_eq_some_iff.2 ⟨hk, hi⟩

theorem standsAt : p.StandsAt b k i := ⟨B, h.holder, h.getElem?⟩

end EditableAt

theorem editBlock_apply {ε : Type} (hB : p.block b = .ok B) (f : List InstrId → List InstrId) :
    (Editing.editBlock b f : Editing ε Unit) p = (.ok (), p.setInstrs b (f B.instrs)) := by
  change ((liftM (p.block b) : Editing ε Block) >>= _) p = _
  rw [hB]
  rfl

theorem editInstr_apply {ε : Type} (hi : p.instr i = .ok old) (f : Instruction → Instruction) :
    (Editing.editInstr i f : Editing ε Unit) p =
      (.ok (), { p with instructions := p.instructions.modify i.index f }) := by
  change ((liftM (p.instr i) : Editing ε Instruction) >>= _) p = _
  rw [hi]
  rfl

theorem enter_apply {ε : Type} (hB : p.block b = .ok B) (ins : Instruction)
    (put : InstrId → List InstrId → List InstrId) :
    (Editing.enter b ins put : Editing ε InstrId) p = (.ok ⟨p.instructions.length⟩,
      { p with instructions := p.instructions ++ [{ ins with block := some b }] }.setInstrs b
        (put ⟨p.instructions.length⟩ B.instrs)) := by
  refine Stateful.bind_eq_ok_iff.2 ⟨_, _, rfl, Stateful.bind_eq_ok_iff.2 ⟨(), _, ?_, rfl⟩⟩
  exact editBlock_apply (p := (p.allocate { ins with block := some b }).2) hB _

theorem EditableAt.strike_apply {ε : Type} (h : p.EditableAt i old b B k) : (do
    Editing.editBlock b (·.eraseIdx k)
    Editing.editInstr i ({ · with block := none }) : Editing ε Unit) p =
      (.ok (), { p with
        instructions := p.instructions.modify i.index ({ · with block := none }) }.setInstrs b
          (B.instrs.eraseIdx k)) := by
  refine Stateful.bind_eq_ok_iff.2 ⟨(), _, editBlock_apply h.holder _, ?_⟩
  exact editInstr_apply (p := p.setInstrs b (B.instrs.eraseIdx k)) h.instr _

theorem insertAfter_attempt : p.insertAfter i ins = (do
    let b ← p.editableBlock i (.insertAfterTerminator i)
    let _ ← ins.accept
    let (k, _) ← Fault.demand .unsuited (← p.position? i)
    (Editing.enter b ins fun new instrs ↦ instrs.insertIdx (k + 1) new).attempt p) := by
  simp only [insertAfter, Editing.insertAfter, Stateful.attempt_get_bind, Stateful.attempt_lift_bind,
    Stateful.attempt_liftFault_bind]

theorem detach_attempt : p.detach i = (do
    let b ← p.editableBlock i (.detachTerminator i)
    let (k, _) ← Fault.demand .unsuited (← p.position? i)
    Prod.snd <$> (do
      Editing.editBlock b (·.eraseIdx k)
      Editing.editInstr i ({ · with block := none }) : Editing EditError Unit).attempt p) := by
  simp only [detach, Editing.detach, Stateful.attempt_get_bind, Stateful.attempt_lift_bind,
    Stateful.attempt_liftFault_bind, map_bind]

theorem insertAfter_eq_ok_iff : p.insertAfter i ins = .ok (j, q) ↔ ∃ old b B k,
    p.EditableAt i old b B k ∧ ins.checkOperands = .ok () ∧ j = ⟨p.instructions.length⟩ ∧
      q = { p with instructions := p.instructions ++ [{ ins with block := some b }] }.setInstrs b
        (B.instrs.insertIdx (k + 1) j) := by
  rw [insertAfter_attempt]
  constructor
  · intro h
    obtain ⟨b, hb, h⟩ := bind_eq_ok_iff.1 h
    obtain ⟨⟨⟩, hadmit, h⟩ := bind_eq_ok_iff.1 h
    obtain ⟨place?, hplace, h⟩ := bind_eq_ok_iff.1 h
    obtain ⟨⟨k, l⟩, hdemand, h⟩ := bind_eq_ok_iff.1 h
    obtain rfl := demand_eq_ok_iff.1 (Attempt.lift_eq_ok_iff.1 hdemand)
    obtain ⟨old, B, hat, rfl⟩ := editableAt_of_position? hb (Attempt.lift_eq_ok_iff.1 hplace)
    cases (Stateful.attempt_eq_ok_iff.1 h).symm.trans (enter_apply hat.holder ins _)
    exact ⟨old, b, B, k, hat, accept_eq_ok_iff.1 hadmit, rfl, rfl⟩
  · intro h
    obtain ⟨old, b, B, k, hat, hoperands, rfl, rfl⟩ := h
    refine bind_eq_ok_iff.2 ⟨b, hat.editableBlock _, ?_⟩
    refine bind_eq_ok_iff.2 ⟨(), accept_eq_ok_iff.2 hoperands, ?_⟩
    refine bind_eq_ok_iff.2 ⟨_, Attempt.lift_eq_ok_iff.2 hat.position?, ?_⟩
    refine bind_eq_ok_iff.2 ⟨(k, B.instrs), rfl, ?_⟩
    exact Stateful.attempt_eq_ok_iff.2 (enter_apply hat.holder ins _)

theorem exists_of_detach (h : p.detach i = .ok q) : ∃ old b B k, p.EditableAt i old b B k ∧
    q = { p with instructions := p.instructions.modify i.index ({ · with block := none }) }.setInstrs b
      (B.instrs.eraseIdx k) := by
  rw [detach_attempt] at h
  obtain ⟨b, hb, h⟩ := bind_eq_ok_iff.1 h
  obtain ⟨place?, hplace, h⟩ := bind_eq_ok_iff.1 h
  obtain ⟨⟨k, l⟩, hdemand, h⟩ := bind_eq_ok_iff.1 h
  obtain rfl := demand_eq_ok_iff.1 (Attempt.lift_eq_ok_iff.1 hdemand)
  obtain ⟨old, B, hat, rfl⟩ := editableAt_of_position? hb (Attempt.lift_eq_ok_iff.1 hplace)
  refine ⟨old, b, B, k, hat, ?_⟩
  obtain ⟨⟨⟨⟩, r⟩, hr, rfl⟩ := map_eq_ok_iff.1 h
  cases (Stateful.attempt_eq_ok_iff.1 hr).symm.trans hat.strike_apply
  rfl

theorem insertAfter_atomic (ins : Instruction) : (Editing.insertAfter i ins).Atomic p := by
  refine .get_bind (.lift_bind fun b hb ↦ .lift_bind fun _ _ ↦ .get_bind ?_)
  refine .liftFault_bind fun place? hplace ↦ .liftFault_bind fun place hdemand ↦ ?_
  obtain rfl := demand_eq_ok_iff.1 hdemand
  obtain ⟨old, B, hat, -⟩ := editableAt_of_position? hb hplace
  exact .of_ok (enter_apply hat.holder ins _)

theorem detach_atomic : (Editing.detach i).Atomic p := by
  refine .get_bind (.lift_bind fun b hb ↦ .get_bind ?_)
  refine .liftFault_bind fun place? hplace ↦ .liftFault_bind fun place hdemand ↦ ?_
  obtain rfl := demand_eq_ok_iff.1 hdemand
  obtain ⟨old, B, hat, -⟩ := editableAt_of_position? hb hplace
  exact .of_ok hat.strike_apply

end Editable

theorem insertAfter_eq_ok (hv : p.Valid) (once : p.ListsOnce)
    (h : p.insertAfter i ins = .ok (j, q)) :
    ∃ old, p.instr i = .ok old ∧ old.op.isTerminator = false ∧ ins.checkOperands = .ok () ∧
      j = ⟨p.instructions.length⟩ ∧
      q.instructions = p.instructions ++ [{ ins with block := old.block }] ∧
      Relisted (fun x ↦ if x = i then [i, j] else [x]) p q := by
  obtain ⟨old, b, B, k, hat, hoperands, rfl, rfl⟩ := insertAfter_eq_ok_iff.1 h
  have hlist := relisted_setInstrs hv once hat.standsAt hat.holder
    (g := fun x ↦ if x = i then [i, ⟨p.instructions.length⟩] else [x]) fun x hx ↦ if_neg hx
  rw [if_pos rfl, ← insertIdx_eq_splice hat.getElem?] at hlist
  exact ⟨old, hat.instr, hat.inside, hoperands, rfl, by rw [hat.block]; rfl,
    hlist.globals, hlist.functions, hlist.blocks⟩

theorem detach_eq_ok (hv : p.Valid) (once : p.ListsOnce) (h : p.detach i = .ok q) :
    ∃ old, p.instr i = .ok old ∧ old.op.isTerminator = false ∧
      q.instructions = p.instructions.modify i.index ({ · with block := none }) ∧
      Relisted (fun x ↦ if x = i then [] else [x]) p q := by
  obtain ⟨old, b, B, k, hat, rfl⟩ := exists_of_detach h
  have hlist := relisted_setInstrs hv once hat.standsAt hat.holder
    (g := fun x ↦ if x = i then [] else [x]) fun x hx ↦ if_neg hx
  rw [if_pos rfl, List.nil_append, ← List.eraseIdx_eq_take_drop_succ] at hlist
  exact ⟨old, hat.instr, hat.inside, rfl, hlist.globals, hlist.functions, hlist.blocks⟩

def fresh (p : Program) (n : Nat) : List InstrId :=
  (List.range' p.instructions.length n).map InstrId.mk

/-- `q` is `p` without the instructions that are `gone`, and with new instructions, those of `added i`,
listed right behind each `i`. -/
structure Edited (gone : InstrId → Bool) (added : InstrId → List Instruction) (p q : Program) :
    Prop where
  globals : q.globals = p.globals
  functions : q.functions = p.functions
  instr : ∀ i ins, p.instr i = .ok ins →
    q.instr i = .ok (if gone i then { ins with block := none } else ins)
  blocks : ∃ news : InstrId → List InstrId,
    q.blocks = p.blocks.map (Block.relist fun i ↦ (if gone i then [] else [i]) ++ news i) ∧
      (∀ i, (news i).map q.instr = (added i).map .ok) ∧
      ∀ n, (∃ i, n ∈ news i) ↔
        p.instructions.length ≤ n.index ∧ n.index < q.instructions.length

theorem fresh_map_instr {adds : List Instruction} (hq : q.instructions = p.instructions ++ adds) :
    (p.fresh adds.length).map q.instr = adds.map .ok := by
  refine List.ext_getElem (by simp [fresh]) fun k h₁ h₂ ↦ ?_
  rw [List.length_map] at h₂
  simp only [fresh, List.getElem_map, List.getElem_range', Nat.one_mul]
  rw [instr_eq_ok_iff, hq, List.getElem?_append_right (Nat.le_add_right _ _), Nat.add_sub_cancel_left,
    List.getElem?_eq_getElem h₂]

theorem mem_fresh {n : Nat} : i ∈ p.fresh n ↔
    p.instructions.length ≤ i.index ∧ i.index < p.instructions.length + n := by
  rw [fresh, List.mem_map]
  constructor
  · rintro ⟨k, hk, rfl⟩
    exact List.mem_range'_1.1 hk
  · exact fun h ↦ ⟨i.index, List.mem_range'_1.2 h, rfl⟩

theorem nodup_fresh {n : Nat} : (p.fresh n).Nodup :=
  List.Nodup.map (fun _ _ h ↦ congrArg InstrId.index h) List.nodup_range'

section Append

variable {old : Instruction} {adds : List Instruction}
  (hold : p.instr i = .ok old) (hterm : old.op.isTerminator = false)
  (hq : q.instructions = p.instructions ++ adds)
  (hlist : Relisted (fun x ↦ if x = i then i :: p.fresh adds.length else [x]) p q)
  (hadds : ∀ a ∈ adds, a.op.isTerminator = false ∧ ∀ f b, p.FitsIn f b old → p.FitsIn f b a)

include hq

theorem instr_of_append {x : InstrId} (hx : p.instr x = .ok ins) : q.instr x = .ok ins := by
  rw [instr_eq_ok_iff] at hx ⊢
  rw [hq, List.getElem?_append_left (List.getElem?_eq_some_iff.1 hx).1, hx]

include hlist

theorem edited_of_append : Edited (fun _ ↦ false) (fun x ↦ if x = i then adds else []) p q where
  globals := hlist.globals
  functions := hlist.functions
  instr x ins hx := instr_of_append hq hx
  blocks := by
    refine ⟨fun x ↦ if x = i then p.fresh adds.length else [], ?_, fun x ↦ ?_, fun n ↦ ?_⟩
    · rw [hlist.blocks]
      refine congrArg (p.blocks.map <| Block.relist ·) (funext fun x ↦ ?_)
      by_cases hxi : x = i
      · simp [hxi]
      · simp [hxi]
    · by_cases hxi : x = i
      · simp only [hxi, if_true, fresh_map_instr hq]
      · simp only [hxi, if_false, List.map_nil]
    · rw [hq, List.length_append, ← mem_fresh]
      constructor
      · rintro ⟨x, hx⟩
        beta_reduce at hx
        split at hx
        · exact hx
        · cases hx
      · exact fun h ↦ ⟨i, by simpa using h⟩

include hold

omit hq in
theorem listsOnce_of_append (hv : p.Valid) (once : p.ListsOnce) : q.ListsOnce := by
  have hi := (List.getElem?_eq_some_iff.1 (instr_eq_ok_iff.1 hold)).1
  refine hlist.listsOnce hv once (fun x hx ↦ ?_) fun x y hx hy hne z hzx hzy ↦ ?_
  · split
    · refine List.nodup_cons.2 ⟨fun h ↦ ?_, nodup_fresh⟩
      have := (mem_fresh.1 h).1
      omega
    · exact List.nodup_singleton x
  · have hz : ∀ w, z ∈ (if w = i then i :: p.fresh adds.length else [w]) →
        z = w ∨ w = i ∧ p.instructions.length ≤ z.index := fun w hz ↦ by
      split at hz
      · next hwi =>
        exact (List.mem_cons.1 hz).imp (·.trans hwi.symm) fun h ↦ ⟨hwi, (mem_fresh.1 h).1⟩
      · exact .inl (List.mem_singleton.1 hz)
    rcases hz x hzx with rfl | ⟨rfl, h⟩ <;> rcases hz y hzy with rfl | ⟨rfl, h'⟩
    · exact hne rfl
    · omega
    · omega
    · exact hne rfl

include hterm hadds

theorem valid_of_append (hv : p.Valid) : q.Valid := by
  refine hlist.valid hv (by rw [hq, List.length_append]; omega) ?_ fun x ins hx ht ↦ ?_
  · intro b B x ins hB hx hnot hfits y hy
    by_cases hxi : x = i
    · subst hxi
      obtain rfl : old = ins := by injection hold.symm.trans hx
      rw [if_pos rfl, List.mem_cons] at hy
      obtain rfl | hy := hy
      · exact ⟨old, instr_of_append hq hx, hnot, hfits⟩
      · obtain ⟨a, ha, hqa⟩ := List.mem_map.1 (fresh_map_instr hq ▸ List.mem_map_of_mem hy)
        exact ⟨a, hqa.symm, (hadds a ha).1, (hadds a ha).2 _ _ hfits⟩
    · rw [if_neg hxi, List.mem_singleton] at hy
      subst hy
      exact ⟨ins, instr_of_append hq hx, hnot, hfits⟩
  · have hxi : x ≠ i := by
      rintro rfl
      obtain rfl : old = ins := by injection hold.symm.trans hx
      rw [hterm] at ht
      cases ht
    exact ⟨if_neg hxi, instr_of_append hq hx⟩

end Append

section Detach

variable {old : Instruction} (hold : p.instr i = .ok old) (hterm : old.op.isTerminator = false)
  (hq : q.instructions = p.instructions.modify i.index ({ · with block := none }))
  (hlist : Relisted (fun x ↦ if x = i then [] else [x]) p q)

include hq

theorem instr_of_detach {x : InstrId} (hx : p.instr x = .ok ins) :
    q.instr x = .ok (if x = i then { ins with block := none } else ins) := by
  rw [instr_eq_ok_iff] at hx ⊢
  rw [hq, List.getElem?_modify, hx]
  by_cases hxi : x = i
  · subst hxi
    simp
  · have hne : i.index ≠ x.index := fun h ↦ hxi (by cases i; cases x; cases h; rfl)
    simp [hxi, hne]

include hlist

theorem edited_of_detach : Edited (fun x ↦ x = i) (fun _ ↦ []) p q where
  globals := hlist.globals
  functions := hlist.functions
  instr x ins hx := by simpa using instr_of_detach hq hx
  blocks := by
    refine ⟨fun _ ↦ [], ?_, fun _ ↦ rfl, fun n ↦ ?_⟩
    · rw [hlist.blocks]
      exact congrArg (p.blocks.map <| Block.relist ·) (funext fun x ↦ by simp)
    · rw [hq, List.length_modify]
      constructor
      · rintro ⟨_, hx⟩
        cases hx
      · omega

omit hq in
theorem listsOnce_of_detach (hv : p.Valid) (once : p.ListsOnce) : q.ListsOnce := by
  have hz : ∀ x z, z ∈ (if x = i then [] else [x]) → z = x := fun x z hz ↦ by
    split at hz
    · cases hz
    · exact List.mem_singleton.1 hz
  refine hlist.listsOnce hv once (fun x _ ↦ ?_) fun x y _ _ hne z hzx hzy ↦ ?_
  · split
    · exact List.nodup_nil
    · exact List.nodup_singleton x
  · exact hne ((hz x z hzx).symm.trans (hz y z hzy))

include hold hterm

theorem valid_of_detach (hv : p.Valid) : q.Valid := by
  refine hlist.valid hv (hq ▸ Nat.le_of_eq (List.length_modify ..).symm) ?_ fun x ins hx ht ↦ ?_
  · intro b B x ins hB hx hnot hfits y hy
    split at hy
    · cases hy
    · next hxi =>
      obtain rfl := List.mem_singleton.1 hy
      exact ⟨ins, by rw [instr_of_detach hq hx, if_neg hxi], hnot, hfits⟩
  · have hxi : x ≠ i := by
      rintro rfl
      obtain rfl : old = ins := by injection hold.symm.trans hx
      rw [hterm] at ht
      cases ht
    exact ⟨if_neg hxi, by rw [instr_of_detach hq hx, if_neg hxi]⟩

end Detach

namespace Edited

variable {r : Program} {gone gone' : InstrId → Bool} {added added' : InstrId → List Instruction}

theorem refl (p : Program) : Edited (fun _ ↦ false) (fun _ ↦ []) p p where
  globals := rfl
  functions := rfl
  instr _ _ hx := hx
  blocks := by
    refine ⟨fun _ ↦ [], ?_, fun _ ↦ rfl, fun n ↦ ⟨fun ⟨_, hn⟩ ↦ (by cases hn), fun h ↦ by omega⟩⟩
    have hid : Block.relist (fun i ↦ (if false then [] else [i]) ++ []) = id := funext fun B ↦ by
      simp [Block.relist]
    rw [hid, List.map_id]

theorem length_le (h : Edited gone added p q) : p.instructions.length ≤ q.instructions.length := by
  by_contra hlt
  obtain ⟨ins, hins⟩ : ∃ ins, p.instr ⟨q.instructions.length⟩ = .ok ins :=
    ⟨_, instr_eq_ok_iff.2 (List.getElem?_eq_getElem (Nat.not_le.1 hlt))⟩
  have := (List.getElem?_eq_some_iff.1 (instr_eq_ok_iff.1 (h.instr _ _ hins))).1
  exact Nat.lt_irrefl _ this

theorem news_eq_nil {l : List InstrId} {adds : List Instruction}
    (h : l.map q.instr = adds.map .ok) (hadds : adds = []) : l = [] := by
  rw [hadds] at h
  exact List.map_eq_nil_iff.1 h

theorem relist_comp {news news' : InstrId → List InstrId}
    (hlater : ∀ n ∈ news i, gone' n = false ∧ news' n = [])
    (apart : gone i = false ∧ news i = [] ∨ gone' i = false ∧ news' i = []) :
    ((if gone i then [] else [i]) ++ news i).flatMap
        (fun n ↦ (if gone' n then [] else [n]) ++ news' n) =
      (if gone i || gone' i then [] else [i]) ++ (news i ++ news' i) := by
  have hrest : (news i).flatMap (fun n ↦ (if gone' n then [] else [n]) ++ news' n) = news i :=
    flatMap_eq_self fun n hn ↦ by
      obtain ⟨hg, hnil⟩ := hlater n hn
      simp [hg, hnil]
  rw [List.flatMap_append, hrest]
  obtain ⟨hg, hnil⟩ | ⟨hg, hnil⟩ := apart
  · simp [hg, hnil]
  · cases gone i <;> simp [hg, hnil]

theorem trans (h : Edited gone added p r) (h' : Edited gone' added' r q)
    (apart : ∀ i, gone' i = true ∨ added' i ≠ [] →
      i.index < p.instructions.length ∧ gone i = false ∧ added i = []) :
    Edited (fun i ↦ gone i || gone' i) (fun i ↦ added i ++ added' i) p q := by
  obtain ⟨news, hblocks, hnews, hfresh⟩ := h.blocks
  obtain ⟨news', hblocks', hnews', hfresh'⟩ := h'.blocks
  -- a new instruction is left alone by what comes later
  have hlater : ∀ n i, n ∈ news i → gone' n = false ∧ news' n = [] := fun n i hn ↦ by
    have hlen := ((hfresh n).1 ⟨i, hn⟩).1
    have hnot : ¬ (gone' n = true ∨ added' n ≠ []) := fun hlater ↦
      Nat.not_lt.2 hlen (apart n hlater).1
    rw [not_or, Bool.not_eq_true, not_not] at hnot
    exact ⟨hnot.1, news_eq_nil (hnews' n) hnot.2⟩
  refine ⟨h'.globals.trans h.globals, h'.functions.trans h.functions, fun i ins hi ↦ ?_,
    fun i ↦ news i ++ news' i, ?_, fun i ↦ ?_, fun n ↦ ?_⟩
  · rw [h'.instr i _ (h.instr i ins hi)]
    cases gone i <;> cases gone' i <;> rfl
  · rw [hblocks', hblocks, List.map_map]
    refine List.map_congr_left fun B _ ↦ congrArg (fun l ↦ { B with instrs := l }) ?_
    change (B.instrs.flatMap _).flatMap _ = _
    rw [List.flatMap_assoc]
    refine List.flatMap_congr fun i _ ↦ relist_comp (hlater · i) ?_
    by_cases hi : gone' i = true ∨ added' i ≠ []
    · obtain ⟨-, hg, ha⟩ := apart i hi
      exact .inl ⟨hg, news_eq_nil (hnews i) ha⟩
    · rw [not_or, Bool.not_eq_true, not_not] at hi
      exact .inr ⟨hi.1, news_eq_nil (hnews' i) hi.2⟩
  · rw [List.map_append, List.map_append, hnews']
    refine congrArg (· ++ _) ?_
    rw [← hnews]
    refine List.map_congr_left fun n hn ↦ ?_
    obtain ⟨ins, -, hins⟩ := List.mem_map.1 (hnews i ▸ List.mem_map_of_mem hn)
    rw [← hins, h'.instr n ins hins.symm, (hlater n i hn).1]
    rfl
  · simp only [List.mem_append, exists_or, hfresh, hfresh']
    have := h.length_le
    have := h'.length_le
    omega

end Edited

end Program

end Durability
