import Durability.Proofs.Program.Edit

namespace Durability

theorem Fault.lookup_concat_eq_ok_iff {α : Type} {l : List α} {a x : α} {k : Nat} :
    lookup (l ++ [a]) k = .ok x ↔ lookup l k = .ok x ∨ k = l.length ∧ x = a := by
  rw [lookup_eq_ok_iff, lookup_eq_ok_iff, List.getElem?_append]
  split
  · next hk => exact (or_iff_left fun h ↦ Nat.ne_of_lt hk h.1).symm
  · next hk =>
    rw [List.getElem?_eq_none (Nat.not_lt.1 hk), List.getElem?_singleton]
    by_cases hk' : k = l.length
    · simp [hk', eq_comm]
    · rw [if_neg (by omega)]
      simp [hk']

namespace Program

variable {p q : Program} {i j : InstrId} {b c : BlockId} {B C : Block} {f g : FunctionId}
  {F : Function} {ins : Instruction} {k : Nat}

def Lists (p : Program) (b : BlockId) (i : InstrId) : Prop := ∃ B, p.block b = .ok B ∧ i ∈ B.instrs

def Names (p : Program) (b : BlockId) (f : FunctionId) : Prop :=
  ∃ B, p.block b = .ok B ∧ B.function = f

/-- An instruction is listed by the block that it names, a block by the function that it names, and both
only there and once. -/
structure Coherent (p : Program) : Prop where
  instrs : ∀ i b, p.blockOf i = .ok (some b) ↔ p.Lists b i
  instrsOnce : p.ListsOnce
  blocks : ∀ b f, p.Names b f ↔ ∃ F, p.function f = .ok F ∧ b ∈ F.blocks
  blocksOnce : ∀ f F, p.function f = .ok F → F.blocks.Nodup

/-- What the instructions of `p` do, and where they come from, is the same in `q`. -/
def KeepsCode (p q : Program) : Prop := ∀ i ins, p.instr i = .ok ins →
  ∃ ins', q.instr i = .ok ins' ∧ ins'.op = ins.op ∧ ins'.inputs = ins.inputs ∧ ins'.loc = ins.loc

def enlist (p : Program) (b : BlockId) (l : List InstrId) (k : Nat) (ins : Instruction) : Program :=
  { p with instructions := p.instructions ++ [ins] }.setInstrs b
    (l.insertIdx k ⟨p.instructions.length⟩)

def delist (p : Program) (i : InstrId) (b : BlockId) (l : List InstrId) (k : Nat) : Program :=
  { p with instructions := p.instructions.modify i.index ({ · with block := none }) }.setInstrs b
    (l.eraseIdx k)

def addFunction (p : Program) (F : Function) : Program := { p with functions := p.functions ++ [F] }

def addBlock (p : Program) (f : FunctionId) : Program :=
  { p with
    functions := p.functions.modify f.index fun F ↦
      { F with blocks := F.blocks ++ [⟨p.blocks.length⟩] }
    blocks := p.blocks ++ [⟨f, []⟩] }

namespace KeepsCode

theorem refl (p : Program) : p.KeepsCode p := fun _ ins hi ↦ ⟨ins, hi, rfl, rfl, rfl⟩

theorem trans {r : Program} (h : p.KeepsCode q) (h' : q.KeepsCode r) : p.KeepsCode r := by
  intro i ins hi
  obtain ⟨ins', hi', hop, hinputs, hloc⟩ := h i ins hi
  obtain ⟨ins'', hi'', hop', hinputs', hloc'⟩ := h' i ins' hi'
  exact ⟨ins'', hi'', hop'.trans hop, hinputs'.trans hinputs, hloc'.trans hloc⟩

end KeepsCode

theorem blockIndex_injective : Function.Injective BlockId.index :=
  fun ⟨_⟩ ⟨_⟩ heq ↦ congrArg BlockId.mk heq

theorem index_lt_of_instr (h : p.instr i = .ok ins) : i.index < p.instructions.length :=
  (List.getElem?_eq_some_iff.1 (instr_eq_ok_iff.1 h)).1

theorem index_lt_of_block (h : p.block b = .ok B) : b.index < p.blocks.length :=
  (List.getElem?_eq_some_iff.1 (block_eq_ok_iff.1 h)).1

section SetInstrs

variable {l : List InstrId} (hq : q.blocks = p.blocks) (hB : p.block b = .ok B)

include hB

theorem lists_iff_mem : p.Lists b i ↔ i ∈ B.instrs := by
  simp only [Lists, hB, Except.ok.injEq, exists_eq_left']

include hq

theorem block_setInstrs : (q.setInstrs b l).block c = .ok C ↔
    c = b ∧ C = { B with instrs := l } ∨ c ≠ b ∧ p.block c = .ok C := by
  have hB := block_eq_ok_iff.1 hB
  rw [block_eq_ok_iff, block_eq_ok_iff, setInstrs, List.getElem?_modify, hq]
  by_cases hcb : c = b
  · subst hcb
    simp [hB, eq_comm]
  · have hne : b.index ≠ c.index := fun h ↦ hcb (blockIndex_injective h.symm)
    simp [hcb, hne]

theorem names_setInstrs : (q.setInstrs b l).Names c f ↔ p.Names c f := by
  simp only [Names, block_setInstrs hq hB]
  by_cases hcb : c = b
  · subst hcb
    simp [hB]
  · simp [hcb]

theorem lists_setInstrs : (q.setInstrs b l).Lists c i ↔ c = b ∧ i ∈ l ∨ c ≠ b ∧ p.Lists c i := by
  simp only [Lists, block_setInstrs hq hB]
  by_cases hcb : c = b
  · simp [hcb]
  · simp [hcb]

end SetInstrs

theorem Coherent.lt_of_lists (hp : p.Coherent) (h : p.Lists b i) :
    i.index < p.instructions.length := by
  obtain ⟨ins, hi, -⟩ := blockOf_eq_ok_iff.1 ((hp.instrs i b).2 h)
  exact index_lt_of_instr hi

theorem coherent_empty : (∅ : Program).Coherent where
  instrs i b := by
    constructor
    · intro h
      obtain ⟨ins, hi, -⟩ := blockOf_eq_ok_iff.1 h
      exact absurd (index_lt_of_instr hi) (Nat.not_lt_zero _)
    · intro h
      obtain ⟨B, hB, -⟩ := h
      exact absurd (index_lt_of_block hB) (Nat.not_lt_zero _)
  instrsOnce b B hB := absurd (index_lt_of_block hB) (Nat.not_lt_zero _)
  blocks b f := by
    constructor
    · intro h
      obtain ⟨B, hB, -⟩ := h
      exact absurd (index_lt_of_block hB) (Nat.not_lt_zero _)
    · intro h
      obtain ⟨F, hF, -⟩ := h
      cases hF
  blocksOnce f F hF := nomatch hF

section Enlist

variable (hB : p.block b = .ok B) (hk : k ≤ B.instrs.length) (hins : ins.block = some b)

theorem instr_enlist {l : List InstrId} {x : Instruction} : (p.enlist b l k ins).instr i = .ok x ↔
    p.instr i = .ok x ∨ i.index = p.instructions.length ∧ x = ins :=
  Fault.lookup_concat_eq_ok_iff

theorem keepsCode_enlist {l : List InstrId} : p.KeepsCode (p.enlist b l k ins) :=
  fun _ x hi ↦ ⟨x, instr_enlist.2 (.inl hi), rfl, rfl, rfl⟩

include hins in
theorem blockOf_enlist {l : List InstrId} : (p.enlist b l k ins).blockOf i = .ok (some c) ↔
    p.blockOf i = .ok (some c) ∨ i.index = p.instructions.length ∧ c = b := by
  simp only [blockOf_eq_ok_iff, instr_enlist, or_and_right, exists_or]
  refine or_congr_right ?_
  constructor
  · intro h
    obtain ⟨x, ⟨hi, rfl⟩, hx⟩ := h
    exact ⟨hi, Option.some.inj (hx.symm.trans hins)⟩
  · intro h
    obtain ⟨hi, rfl⟩ := h
    exact ⟨ins, ⟨hi, rfl⟩, hins⟩

include hB in
theorem block_enlist : (p.enlist b B.instrs k ins).block c = .ok C ↔
    c = b ∧ C = { B with instrs := B.instrs.insertIdx k ⟨p.instructions.length⟩ } ∨
      c ≠ b ∧ p.block c = .ok C :=
  block_setInstrs rfl hB

include hB in
theorem names_enlist : (p.enlist b B.instrs k ins).Names c f ↔ p.Names c f :=
  names_setInstrs rfl hB

include hB hk in
theorem lists_enlist : (p.enlist b B.instrs k ins).Lists c i ↔
    p.Lists c i ∨ i.index = p.instructions.length ∧ c = b := by
  have hi : i = ⟨p.instructions.length⟩ ↔ i.index = p.instructions.length :=
    instrIndex_injective.eq_iff.symm
  refine (lists_setInstrs rfl hB).trans ?_
  rw [List.mem_insertIdx hk, hi, ← lists_iff_mem hB]
  by_cases hcb : c = b
  · subst hcb
    simp [or_comm]
  · simp [hcb]

include hB hk hins in
theorem Coherent.enlist (hp : p.Coherent) : (p.enlist b B.instrs k ins).Coherent where
  instrs i c := by rw [blockOf_enlist hins, lists_enlist hB hk, hp.instrs i c]
  instrsOnce c C hC := by
    obtain ⟨-, rfl⟩ | ⟨-, hC⟩ := (block_enlist hB).1 hC
    · refine (List.perm_insertIdx _ _ hk).nodup_iff.2 (List.nodup_cons.2 ⟨fun hmem ↦ ?_, ?_⟩)
      · exact Nat.lt_irrefl _ (hp.lt_of_lists ⟨B, hB, hmem⟩)
      · exact hp.instrsOnce b B hB
    · exact hp.instrsOnce c C hC
  blocks c f := (names_enlist hB).trans (hp.blocks c f)
  blocksOnce := hp.blocksOnce

end Enlist

section Delist

variable {old : Instruction} (hB : p.block b = .ok B) (hi : B.instrs[k]? = some i)

theorem instr_delist {l : List InstrId} {x : Instruction} : (p.delist i b l k).instr j = .ok x ↔
    ∃ y, p.instr j = .ok y ∧ x = if j = i then { y with block := none } else y := by
  simp only [instr_eq_ok_iff, delist, setInstrs, List.getElem?_modify]
  have hij : i.index = j.index ↔ j = i := eq_comm.trans instrIndex_injective.eq_iff
  cases p.instructions[j.index]? <;> simp [hij, eq_comm]

theorem keepsCode_delist {l : List InstrId} : p.KeepsCode (p.delist i b l k) := by
  intro j x hj
  refine ⟨_, instr_delist.2 ⟨x, hj, rfl⟩, ?_⟩
  split <;> exact ⟨rfl, rfl, rfl⟩

theorem blockOf_delist {l : List InstrId} : (p.delist i b l k).blockOf j = .ok (some c) ↔
    p.blockOf j = .ok (some c) ∧ j ≠ i := by
  simp only [blockOf_eq_ok_iff, instr_delist]
  constructor
  · intro h
    obtain ⟨x, ⟨y, hj, rfl⟩, hx⟩ := h
    split at hx
    · cases hx
    · next hne => exact ⟨⟨y, hj, hx⟩, hne⟩
  · intro h
    obtain ⟨⟨y, hj, hy⟩, hne⟩ := h
    exact ⟨y, ⟨y, hj, (if_neg hne).symm⟩, hy⟩

include hB in
theorem block_delist : (p.delist i b B.instrs k).block c = .ok C ↔
    c = b ∧ C = { B with instrs := B.instrs.eraseIdx k } ∨ c ≠ b ∧ p.block c = .ok C :=
  block_setInstrs rfl hB

include hB in
theorem names_delist : (p.delist i b B.instrs k).Names c f ↔ p.Names c f :=
  names_setInstrs rfl hB

theorem mem_eraseIdx_iff_of_nodup {l : List InstrId} (hl : l.Nodup) (h : l[k]? = some i) :
    j ∈ l.eraseIdx k ↔ j ∈ l ∧ j ≠ i := by
  obtain ⟨hk, rfl⟩ := List.getElem?_eq_some_iff.1 h
  rw [← hl.erase_getElem k hk, hl.mem_erase_iff, and_comm]

include hB hi in
theorem Coherent.lists_delist (hp : p.Coherent) : (p.delist i b B.instrs k).Lists c j ↔
    p.Lists c j ∧ j ≠ i := by
  refine (lists_setInstrs rfl hB).trans ?_
  rw [mem_eraseIdx_iff_of_nodup (hp.instrsOnce b B hB) hi, ← lists_iff_mem hB]
  by_cases hcb : c = b
  · subst hcb
    simp
  · simp only [hcb, false_and, ne_eq, not_false_eq_true, true_and, false_or]
    refine (and_iff_left_of_imp fun hlists ↦ ?_).symm
    -- the block that an instruction names is the only one that lists it
    rintro rfl
    have hmem : p.Lists b j := ⟨B, hB, List.mem_of_getElem? hi⟩
    have heq := ((hp.instrs j c).2 hlists).symm.trans ((hp.instrs j b).2 hmem)
    exact hcb (Option.some.inj (Except.ok.inj heq))

include hB hi in
theorem Coherent.delist (hp : p.Coherent) : (p.delist i b B.instrs k).Coherent where
  instrs j c := by rw [blockOf_delist, hp.lists_delist hB hi, hp.instrs j c]
  instrsOnce c C hC := by
    obtain ⟨-, rfl⟩ | ⟨-, hC⟩ := (block_delist hB).1 hC
    · exact (hp.instrsOnce b B hB).eraseIdx k
    · exact hp.instrsOnce c C hC
  blocks c f := (names_delist hB).trans (hp.blocks c f)
  blocksOnce := hp.blocksOnce

end Delist

theorem function_addFunction {G : Function} : (p.addFunction F).function g = .ok G ↔
    p.function g = .ok G ∨ g.index = p.functions.length ∧ G = F :=
  Fault.lookup_concat_eq_ok_iff

theorem Coherent.addFunction (hp : p.Coherent) (hF : F.blocks = []) :
    (p.addFunction F).Coherent where
  instrs := hp.instrs
  instrsOnce := hp.instrsOnce
  blocks c g := by
    refine (hp.blocks c g).trans ?_
    simp only [function_addFunction, or_and_right, exists_or]
    refine (or_iff_left fun h ↦ ?_).symm
    obtain ⟨G, ⟨-, rfl⟩, hc⟩ := h
    rw [hF] at hc
    cases hc
  blocksOnce g G hG := by
    obtain hG | ⟨-, rfl⟩ := function_addFunction.1 hG
    · exact hp.blocksOnce g G hG
    · rw [hF]
      exact .nil

theorem block_addBlock : (p.addBlock f).block c = .ok C ↔
    p.block c = .ok C ∨ c.index = p.blocks.length ∧ C = ⟨f, []⟩ :=
  Fault.lookup_concat_eq_ok_iff

theorem function_addBlock {G : Function} : (p.addBlock f).function g = .ok G ↔
    ∃ F, p.function g = .ok F ∧
      G = if g = f then { F with blocks := F.blocks ++ [⟨p.blocks.length⟩] } else F := by
  simp only [function_eq_ok_iff, addBlock, List.getElem?_modify]
  have hfg : f.index = g.index ↔ g = f := eq_comm.trans functionIndex_injective.eq_iff
  cases p.functions[g.index]? <;> simp [hfg, eq_comm]

theorem Coherent.addBlock (hp : p.Coherent) (hF : p.function f = .ok F) :
    (p.addBlock f).Coherent where
  instrs i c := by
    refine (hp.instrs i c).trans ?_
    simp only [Lists, block_addBlock, or_and_right, exists_or]
    refine (or_iff_left fun h ↦ ?_).symm
    obtain ⟨C, ⟨-, rfl⟩, hi⟩ := h
    cases hi
  instrsOnce c C hC := by
    obtain hC | ⟨-, rfl⟩ := block_addBlock.1 hC
    · exact hp.instrsOnce c C hC
    · exact .nil
  blocks c g := by
    have hc : c = ⟨p.blocks.length⟩ ↔ c.index = p.blocks.length := blockIndex_injective.eq_iff.symm
    have hnames : (p.addBlock f).Names c g ↔ p.Names c g ∨ g = f ∧ c.index = p.blocks.length := by
      simp only [Names, block_addBlock, or_and_right, exists_or]
      refine or_congr_right ?_
      constructor
      · intro h
        obtain ⟨C, ⟨hc, rfl⟩, hg⟩ := h
        exact ⟨hg.symm, hc⟩
      · intro h
        obtain ⟨rfl, hc⟩ := h
        exact ⟨_, ⟨hc, rfl⟩, rfl⟩
    rw [hnames, hp.blocks c g]
    simp only [function_addBlock]
    by_cases hgf : g = f
    · subst hgf
      simp [hF, hc]
    · simp [hgf]
  blocksOnce g G hG := by
    obtain ⟨H, hH, rfl⟩ := function_addBlock.1 hG
    split
    · refine List.nodup_append.2 ⟨hp.blocksOnce g H hH, List.nodup_singleton _, ?_⟩
      intro c hc d hd hcd
      obtain ⟨C, hC, -⟩ := (hp.blocks c g).2 ⟨H, hH, hc⟩
      have hlt := index_lt_of_block hC
      rw [hcd, List.mem_singleton.1 hd] at hlt
      exact Nat.lt_irrefl _ hlt
    · exact hp.blocksOnce g H hH

end Program

end Durability
