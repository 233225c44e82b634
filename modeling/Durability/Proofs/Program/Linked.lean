import Durability.Proofs.Program.Edit
import Durability.Proofs.Window.Total
import Durability.Sample.Programs
import Mathlib.Logic.Relation

namespace Durability.Program

open Relation

variable {p : Program} {i j last : InstrId} {b : BlockId} {k n : Nat}

def Next (p : Program) (i j : InstrId) : Prop := p.nextInBlock i = .ok (some j)

/-- Going on from `i` through its block comes to `last`, and to an end there. -/
def WalksTo (p : Program) (i last : InstrId) : Prop :=
  ReflTransGen p.Next i last ∧ p.nextInBlock last = .ok none

/-- Every instruction is listed by the block that it names. -/
def ListsMarked (p : Program) : Prop :=
  ∀ i b, p.blockOf i = .ok (some b) → ∃ B, p.block b = .ok B ∧ i ∈ B.instrs

/-- Every branch out of a block that a function lists goes to a block that the function lists. -/
def ListsTargets (p : Program) : Prop :=
  ∀ f F b B i ins, p.function f = .ok F → b ∈ F.blocks → p.block b = .ok B → i ∈ B.instrs →
    p.instr i = .ok ins → ∀ t ∈ ins.op.targets, t ∈ F.blocks

/-- All views of the program agree, and what goes by them comes to an end and meets no fault. -/
structure Linked (p : Program) : Prop where
  once : (p.blocks.flatMap (·.instrs)).Nodup
  marked : ∀ i b, p.blockOf i = .ok (some b) ↔ ∃ B, p.block b = .ok B ∧ i ∈ B.instrs
  targets : p.ListsTargets
  walks : ∀ i b, p.blockOf i = .ok (some b) →
    ∃ B last, p.block b = .ok B ∧ B.instrs.getLast? = some last ∧ p.WalksTo i last
  windows : ∀ c i b, p.blockOf i = .ok (some b) →
    ∃ w l, Window.startingAt p c i = .ok w ∧ w.instrs p = .ok l
  insertAfter : ∀ i ins f, i.index < p.instructions.length → p.insertAfter i ins ≠ .error (.fault f)
  detach : ∀ i f, i.index < p.instructions.length → p.detach i ≠ .error (.fault f)

theorem standsAt_of_mem {B : Block} (hB : p.block b = .ok B) (hi : i ∈ B.instrs) :
    ∃ k, p.StandsAt b k i := by
  obtain ⟨k, hk⟩ := List.mem_iff_getElem?.1 hi
  exact ⟨k, B, hB, hk⟩

theorem nodup_flatMap_iff (hv : p.Valid) : (p.blocks.flatMap (·.instrs)).Nodup ↔ p.ListsOnce := by
  rw [List.nodup_flatMap, ← listsOnce_iff]
  refine and_iff_left (List.pairwise_iff_getElem.2 fun k m hk hm hkm ↦ ?_)
  intro i hik him
  have hBk : p.block ⟨k⟩ = .ok p.blocks[k] := block_eq_ok_iff.2 (List.getElem?_eq_getElem hk)
  have hBm : p.block ⟨m⟩ = .ok p.blocks[m] := block_eq_ok_iff.2 (List.getElem?_eq_getElem hm)
  obtain ⟨_, hk'⟩ := standsAt_of_mem hBk hik
  obtain ⟨_, hm'⟩ := standsAt_of_mem hBm him
  have heq := (hk'.blockOf hv).symm.trans (hm'.blockOf hv)
  injection heq with heq
  cases heq
  omega

theorem exists_walksTo {B : Block} (hv : p.Valid) (once : p.ListsOnce) (hB : p.block b = .ok B)
    (hi : p.StandsAt b k i) : ∃ last, B.instrs.getLast? = some last ∧ p.WalksTo i last := by
  obtain ⟨B', hB', hik⟩ := id hi
  cases hB.symm.trans hB'
  have hk := (List.getElem?_eq_some_iff.1 hik).1
  obtain ⟨n, hn⟩ : ∃ n, B.instrs.length = k + n + 1 := ⟨B.instrs.length - (k + 1), by omega⟩
  induction n generalizing k i with
  | zero =>
    refine ⟨i, ?_, .refl, ?_⟩
    · rw [List.getLast?_eq_getElem?, hn]
      exact hik
    · rw [hi.nextInBlock hv once hB, List.getElem?_eq_none (by omega)]
  | succ n ih =>
    have hk' : k + 1 < B.instrs.length := by omega
    have hj : p.StandsAt b (k + 1) B.instrs[k + 1] := ⟨B, hB, List.getElem?_eq_getElem hk'⟩
    have hnext : p.Next i B.instrs[k + 1] := by
      rw [Next, hi.nextInBlock hv once hB, List.getElem?_eq_getElem hk']
    obtain ⟨last, hlast, hwalk, hend⟩ := ih hj (List.getElem?_eq_getElem hk') hk' (by omega)
    exact ⟨last, hlast, .head hnext hwalk, hend⟩

/-- A walk goes on from the first place of an instruction, whichever place it is at. -/
theorem StandsAt.next {B : Block} (hi : p.StandsAt b k i) (hv : p.Valid) (hB : p.block b = .ok B) :
    ∃ m ≤ k, p.nextInBlock i = .ok B.instrs[m + 1]? := by
  have hb := hi.blockOf hv
  obtain ⟨B', hB', hik⟩ := hi
  cases hB.symm.trans hB'
  cases hm : B.instrs.idxOf? i with
  | none => exact absurd (List.mem_of_getElem? hik) (List.idxOf?_eq_none_iff.1 hm)
  | some m =>
    refine ⟨m, ?_, bind_eq_ok_iff.2 ⟨_, position?_eq_some_iff.2 ⟨b, B, hb, hB, rfl, hm⟩, rfl⟩⟩
    obtain ⟨_, -, hfirst⟩ := List.idxOf?_eq_some_iff.1 hm
    obtain ⟨hk, hik⟩ := List.getElem?_eq_some_iff.1 hik
    exact Nat.le_of_not_lt fun hkm ↦ hfirst k hkm hik

theorem before_of_walk {B : Block} {m : Nat} (hv : p.Valid) (hB : p.block b = .ok B)
    (hdup : ∃ k < m, B.instrs[k]? = B.instrs[m]?) (hi : ∃ k < m, B.instrs[k]? = some i)
    (h : ReflTransGen p.Next i j) : ∃ k < m, B.instrs[k]? = some j := by
  induction h with
  | refl => exact hi
  | @tail j l _ hnext ih =>
    obtain ⟨k, hkm, hj⟩ := ih
    have hstands : p.StandsAt b k j := ⟨B, hB, hj⟩
    obtain ⟨k', hk', hnext'⟩ := hstands.next hv hB
    have hl := hnext'.symm.trans hnext
    injection hl with hl
    by_cases hkm' : k' + 1 < m
    · exact ⟨k' + 1, hkm', hl⟩
    · obtain rfl : k' + 1 = m := by omega
      obtain ⟨k, hk, heq⟩ := hdup
      exact ⟨k, hk, heq.trans hl⟩

/-- All walks come to an end exactly if no block lists an instruction twice. -/
theorem listsOnce_iff_walksTo (hv : p.Valid) :
    p.ListsOnce ↔ ∀ b k i, p.StandsAt b k i → ∃ last, p.WalksTo i last := by
  constructor
  · intro once b k i hi
    obtain ⟨B, hB, -⟩ := id hi
    obtain ⟨last, -, hwalk⟩ := exists_walksTo hv once hB hi
    exact ⟨last, hwalk⟩
  · intro hwalks b B hB
    rw [List.nodup_iff_getElem?_ne_getElem?]
    intro k m hkm hm hdup
    have hk : B.instrs[k]? = some B.instrs[k] := List.getElem?_eq_getElem (by omega)
    obtain ⟨last, hwalk, hend⟩ := hwalks b k B.instrs[k] ⟨B, hB, hk⟩
    obtain ⟨k', hk', hlast⟩ := before_of_walk hv hB ⟨k, hkm, hdup⟩ ⟨k, hkm, hk⟩ hwalk
    have hstands : p.StandsAt b k' last := ⟨B, hB, hlast⟩
    obtain ⟨l, hl, hnext⟩ := hstands.next hv hB
    rw [List.getElem?_eq_getElem (by omega)] at hnext
    cases hnext.symm.trans hend

theorem exists_startingAt (hv : p.Valid) (once : p.ListsOnce) (hi : p.StandsAt b k i) (c : ContextId) :
    ∃ w l, Window.startingAt p c i = .ok w ∧ w.instrs p = .ok l := by
  obtain ⟨B, hB, -⟩ := id hi
  have hlength := hv.length_instrs_le once hB
  obtain ⟨last, hlast⟩ := exists_scanForward (n := p.walkBound) hv once hB hi (by rw [walkBound]; omega)
  obtain ⟨l, hl⟩ := scanTo_of_scanForward hlast
  exact ⟨⟨c, i, last, i⟩, l, bind_eq_ok_iff.2 ⟨last, hlast, rfl⟩, hl⟩

/-- Every instruction but a terminator is listed by the block that it names. -/
def ListsBodies (p : Program) : Prop :=
  ∀ i ins b, p.instr i = .ok ins → ins.block = some b → ins.op.isTerminator = false →
    ∃ B, p.block b = .ok B ∧ i ∈ B.instrs

theorem ListsMarked.listsBodies (h : p.ListsMarked) : p.ListsBodies :=
  fun i ins b hins hb _ ↦ h i b (blockOf_eq_ok_iff.2 ⟨ins, hins, hb⟩)

/-- Whatever goes wrong is an answer. -/
abbrev Answers {α : Type} (x : Attempt EditError α) : Prop :=
  FailsOnly (fun e ↦ ∃ cause, e = .refused cause) x

theorem Answers.ne_fault {α : Type} {x : Attempt EditError α} (h : Answers x) (f : Fault) :
    x ≠ .error (.fault f) := by
  intro hx
  obtain ⟨cause, hcause⟩ := h _ hx
  cases hcause

theorem answers_editableBlock (hi : i.index < p.instructions.length) (terminator : EditError) :
    Answers (p.editableBlock i terminator) := by
  have hins : p.instr i = .ok p.instructions[i.index] :=
    instr_eq_ok_iff.2 (List.getElem?_eq_getElem hi)
  refine .bind (.lift_ok ⟨_, blockOf_eq_ok_iff.2 ⟨_, hins, rfl⟩⟩) fun b? _ ↦ ?_
  cases b? with
  | none => exact .error ⟨_, rfl⟩
  | some b =>
    refine .bind (.lift_ok ⟨_, hins⟩) fun _ _ ↦ ?_
    exact .bind (.refuseIf ⟨_, rfl⟩) fun _ _ ↦ .of_ok ⟨b, rfl⟩

theorem ListsBodies.exists_editableAt {terminator : EditError} (h : p.ListsBodies)
    (hb : p.editableBlock i terminator = .ok b) : ∃ old B k, p.EditableAt i old b B k := by
  obtain ⟨old, hold, hblock, hterm⟩ := editableBlock_eq_ok_iff.1 hb
  obtain ⟨B, hB, hmem⟩ := h i old b hold hblock hterm
  obtain ⟨k, hk⟩ := Option.isSome_iff_exists.1 (List.isSome_idxOf?.2 hmem)
  exact ⟨old, B, k, hold, hblock, hterm, hB, hk⟩

theorem answers_insertAfter {new : Instruction} (h : p.ListsBodies)
    (hi : i.index < p.instructions.length) : Answers (p.insertAfter i new) := by
  rw [insertAfter_attempt]
  refine .bind (answers_editableBlock hi _) fun b hb ↦ ?_
  obtain ⟨old, B, k, hat⟩ := h.exists_editableAt hb
  refine .bind (.ofExcept fun cause _ ↦ ⟨cause, rfl⟩) fun _ _ ↦ ?_
  refine .bind (.lift_ok ⟨_, hat.position?⟩) fun place? hplace ↦ ?_
  cases hat.position?.symm.trans (Attempt.lift_eq_ok_iff.1 hplace)
  refine .bind (.lift_ok ⟨_, rfl⟩) fun place hdemand ↦ ?_
  cases Attempt.lift_eq_ok_iff.1 hdemand
  exact .of_ok ⟨_, Stateful.attempt_eq_ok_iff.2 (enter_apply hat.holder new _)⟩

theorem answers_detach (h : p.ListsBodies) (hi : i.index < p.instructions.length) :
    Answers (p.detach i) := by
  rw [detach_attempt]
  refine .bind (answers_editableBlock hi _) fun b hb ↦ ?_
  obtain ⟨old, B, k, hat⟩ := h.exists_editableAt hb
  refine .bind (.lift_ok ⟨_, hat.position?⟩) fun place? hplace ↦ ?_
  cases hat.position?.symm.trans (Attempt.lift_eq_ok_iff.1 hplace)
  refine .bind (.lift_ok ⟨_, rfl⟩) fun place hdemand ↦ ?_
  cases Attempt.lift_eq_ok_iff.1 hdemand
  exact .map (.of_ok ⟨_, Stateful.attempt_eq_ok_iff.2 hat.strike_apply⟩)

theorem detach_eq {ins : Instruction} (hins : p.instr i = .ok ins) (hb : ins.block = some b)
    (hterm : ins.op.isTerminator = false) : p.detach i = (do
      let (k, _) ← Fault.demand .unsuited (← p.position? i)
      Prod.snd <$> (do
        Editing.editBlock b (·.eraseIdx k)
        Editing.editInstr i ({ · with block := none }) : Editing EditError Unit).attempt p) := by
  rw [detach_attempt, editableBlock_eq_ok_iff.2 ⟨ins, hins, hb, hterm⟩]
  rfl

/-- Edits of instructions of the program meet no fault exactly if all but terminators are listed by the
blocks that they name: a terminator is refused before its place is asked for. -/
theorem listsBodies_iff : p.ListsBodies ↔ ∀ i, i.index < p.instructions.length →
    (∀ new, Answers (p.insertAfter i new)) ∧ Answers (p.detach i) := by
  constructor
  · exact fun h i hi ↦ ⟨fun new ↦ answers_insertAfter h hi, answers_detach h hi⟩
  · intro h i ins b hins hb hterm
    obtain ⟨hi, -⟩ := List.getElem?_eq_some_iff.1 (instr_eq_ok_iff.1 hins)
    have hdetach := (h i hi).2
    have hblock := blockOf_eq_ok_iff.2 ⟨ins, hins, hb⟩
    by_contra hnot
    have hposition : (∃ f, p.position? i = .error f) ∨ p.position? i = .ok none := by
      cases hB : p.block b with
      | error f =>
        refine .inl ⟨f, ?_⟩
        rw [position?, hblock]
        change p.block b >>= _ = _
        rw [hB]
        rfl
      | ok B =>
        have hi : B.instrs.idxOf? i = none :=
          List.idxOf?_eq_none_iff.2 fun hmem ↦ hnot ⟨B, hB, hmem⟩
        exact .inr (bind_eq_ok_iff.2 ⟨some b, hblock, bind_eq_ok_iff.2 ⟨B, hB, by simp only [hi]; rfl⟩⟩)
    rw [detach_eq hins hb hterm] at hdetach
    obtain ⟨f, hf⟩ | hnone := hposition
    · refine Answers.ne_fault hdetach f ?_
      rw [hf]
      rfl
    · refine Answers.ne_fault hdetach .unsuited ?_
      rw [hnone]
      rfl

theorem listsMarked_iff : p.ListsMarked ↔ ∀ x ∈ p.instructions.zipIdx, ∀ b ∈ x.1.block,
    ∃ B ∈ p.blocks[b.index]?, ⟨x.2⟩ ∈ B.instrs := by
  constructor
  · intro h x hx b hb
    have hins : p.instr ⟨x.2⟩ = .ok x.1 := instr_eq_ok_iff.2 (List.mem_zipIdx_iff_getElem?.1 hx)
    obtain ⟨B, hB, hi⟩ := h ⟨x.2⟩ b (blockOf_eq_ok_iff.2 ⟨x.1, hins, hb⟩)
    exact ⟨B, block_eq_ok_iff.1 hB, hi⟩
  · intro h i b hb
    obtain ⟨ins, hins, hb⟩ := blockOf_eq_ok_iff.1 hb
    have hx := List.mk_mem_zipIdx_iff_getElem?.2 (instr_eq_ok_iff.1 hins)
    obtain ⟨B, hB, hi⟩ := h (ins, i.index) hx b hb
    exact ⟨B, block_eq_ok_iff.2 hB, hi⟩

instance : Decidable p.ListsMarked := decidable_of_iff _ listsMarked_iff.symm

theorem listsTargets_iff : p.ListsTargets ↔ ∀ F ∈ p.functions, ∀ b ∈ F.blocks,
    ∀ B ∈ p.blocks[b.index]?, ∀ i ∈ B.instrs, ∀ ins ∈ p.instructions[i.index]?,
      ∀ t ∈ ins.op.targets, t ∈ F.blocks := by
  constructor
  · intro h F hF b hb B hB i hi ins hins
    obtain ⟨k, hk⟩ := List.mem_iff_getElem?.1 hF
    exact h ⟨k⟩ F b B i ins (function_eq_ok_iff.2 hk) hb (block_eq_ok_iff.2 hB) hi
      (instr_eq_ok_iff.2 hins)
  · intro h f F b B i ins hF hb hB hi hins
    exact h F (List.mem_of_getElem? (function_eq_ok_iff.1 hF)) b hb B (block_eq_ok_iff.1 hB) i hi ins
      (instr_eq_ok_iff.1 hins)

set_option synthInstance.maxSize 256 in
instance : Decidable p.ListsTargets := decidable_of_iff _ listsTargets_iff.symm

/-- The views of a valid program agree, and all that goes by them is sound, exactly if three things hold
that `validate` does not look at. -/
theorem linked_iff (hv : p.validate = .ok ()) :
    p.Linked ↔ p.ListsOnce ∧ p.ListsMarked ∧ p.ListsTargets := by
  have hv := validate_eq_ok_iff.1 hv
  constructor
  · intro h
    exact ⟨(nodup_flatMap_iff hv).1 h.once, fun i b ↦ (h.marked i b).1, h.targets⟩
  · intro h
    obtain ⟨once, hmarked, htargets⟩ := h
    have hstands (i : InstrId) (b : BlockId) (hb : p.blockOf i = .ok (some b)) :
        ∃ B k, p.block b = .ok B ∧ p.StandsAt b k i := by
      obtain ⟨B, hB, hi⟩ := hmarked i b hb
      obtain ⟨k, hk⟩ := standsAt_of_mem hB hi
      exact ⟨B, k, hB, hk⟩
    refine ⟨(nodup_flatMap_iff hv).2 once, fun i b ↦ ⟨hmarked i b, ?_⟩, htargets, fun i b hb ↦ ?_,
      fun c i b hb ↦ ?_, fun i new f hi ↦ ?_, fun i f hi ↦ ?_⟩
    · intro hlisted
      obtain ⟨B, hB, hi⟩ := hlisted
      obtain ⟨k, hk⟩ := standsAt_of_mem hB hi
      exact hk.blockOf hv
    · obtain ⟨B, k, hB, hk⟩ := hstands i b hb
      obtain ⟨last, hlast, hwalk⟩ := exists_walksTo hv once hB hk
      exact ⟨B, last, hB, hlast, hwalk⟩
    · obtain ⟨B, k, hB, hk⟩ := hstands i b hb
      exact exists_startingAt hv once hk c
    · exact Answers.ne_fault (answers_insertAfter hmarked.listsBodies hi) f
    · exact Answers.ne_fault (answers_detach hmarked.listsBodies hi) f

theorem linked_diamond : Sample.diamond.program.validate = .ok () ∧ Sample.diamond.program.Linked :=
  have hv : Sample.diamond.program.validate = .ok () := by decide +kernel
  ⟨hv, (linked_iff hv).2 (by decide +kernel)⟩

/-- The first block lists a fence twice and branches to a block that the function does not list, and a
flush says that it is in the first block. -/
def tangled : Program where
  globals := ["pool"]
  functions := [⟨"main", .defined, 0, [⟨0⟩]⟩]
  blocks := [⟨⟨0⟩, [⟨0⟩, ⟨0⟩, ⟨1⟩]⟩, ⟨⟨0⟩, [⟨3⟩]⟩]
  instructions := [⟨.fence .sfence, [], none, some ⟨0⟩⟩, ⟨.branch ⟨1⟩, [], none, some ⟨0⟩⟩,
    ⟨.flush .clwb, [.global ⟨0⟩], none, some ⟨0⟩⟩, ⟨.ret, [], none, some ⟨1⟩⟩]

/-- `validate` accepts a program in which all of this fails: the walk from the fence stays there, and an
edit at the flush looks for it in vain. -/
theorem tangled_not_linked : tangled.validate = .ok () ∧ ¬ tangled.Linked ∧
    ¬ (tangled.blocks.flatMap (·.instrs)).Nodup ∧ ¬ tangled.ListsMarked ∧ ¬ tangled.ListsTargets ∧
    (∀ last, ¬ tangled.WalksTo ⟨0⟩ last) ∧
    Window.startingAt tangled ⟨0⟩ ⟨0⟩ = .error .endless ∧
    (∃ new, tangled.insertAfter ⟨2⟩ new = .error (.fault .unsuited)) ∧
    tangled.detach ⟨2⟩ = .error (.fault .unsuited) := by
  have hlists : ¬ (tangled.blocks.flatMap (·.instrs)).Nodup := by decide +kernel
  refine ⟨by decide +kernel, fun h ↦ hlists h.once, hlists, by decide +kernel, by decide +kernel,
    fun last hwalk ↦ ?_, by decide +kernel, ?_, by decide +kernel⟩
  · obtain ⟨hwalk, hend⟩ := hwalk
    have hnext : tangled.nextInBlock ⟨0⟩ = .ok (some ⟨0⟩) := by decide +kernel
    have hlast : last = ⟨0⟩ := by
      clear hend
      induction hwalk with
      | refl => rfl
      | @tail j l _ hl ih =>
        rw [ih, Next, hnext] at hl
        cases hl
        rfl
    rw [hlast, hnext] at hend
    cases hend
  · exact ⟨⟨.fence .sfence, [], none, none⟩, by decide +kernel⟩

end Durability.Program
