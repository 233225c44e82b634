import Durability.Proofs.Program.Valid
import Mathlib.Data.List.Nodup
import Mathlib.Data.List.Perm.Subperm

namespace Durability.Program

theorem idxOf?_eq_some_iff_of_nodup {α : Type} [DecidableEq α] {l : List α} (hl : l.Nodup) {a : α}
    {k : Nat} : l.idxOf? a = some k ↔ l[k]? = some a := by
  rw [List.idxOf?_eq_some_iff, List.getElem?_eq_some_iff]
  constructor
  · rintro ⟨h, ha, -⟩
    exact ⟨h, ha⟩
  · rintro ⟨h, rfl⟩
    refine ⟨h, rfl, fun j hj he ↦ ?_⟩
    have := hl.getElem_inj_iff.1 he
    omega

theorem idxOf_append_cons {α : Type} [DecidableEq α] {b c : List α} {i : α}
    (h : (b ++ i :: c).Nodup) : (b ++ i :: c).idxOf i = b.length := by
  have hi : i ∉ b := fun hmem ↦ (List.nodup_append.1 h).2.2 i hmem i List.mem_cons_self rfl
  rw [List.idxOf_append_of_notMem hi, List.idxOf_cons_self, Nat.add_zero]

theorem mem_of_append_eq {α : Type} {b c b' c' : List α} {i j : α}
    (h : (b ++ i :: c).Nodup) (heq : b' ++ j :: c' = b ++ i :: c) (hj : j ∈ c) : i ∈ b' := by
  have hi : i ∉ c := (List.nodup_cons.1 (List.nodup_append.1 h).2.1).1
  obtain ⟨d, rfl, hd⟩ | ⟨d, rfl, hd⟩ := List.append_eq_append_iff.1 heq
  · cases d with
    | nil =>
      cases hd
      exact absurd hj hi
    | cons k d =>
      cases hd
      exact absurd rfl ((List.nodup_append.1 h).2.2 j (by simp) j (List.mem_cons_of_mem i hj))
  · cases d with
    | nil =>
      cases hd
      exact absurd hj hi
    | cons k d =>
      cases hd
      simp

theorem instrIndex_injective : Function.Injective InstrId.index :=
  fun ⟨_⟩ ⟨_⟩ heq ↦ congrArg InstrId.mk heq

theorem functionIndex_injective : Function.Injective FunctionId.index :=
  fun ⟨_⟩ ⟨_⟩ heq ↦ congrArg FunctionId.mk heq

theorem length_le_of_index_lt {α : Type} {index : α → Nat} (hindex : Function.Injective index)
    {l : List α} (hl : l.Nodup) {n : Nat} (h : ∀ a ∈ l, index a < n) : l.length ≤ n := by
  have hsubset : l.map index ⊆ List.range n := by
    intro k hk
    obtain ⟨a, ha, rfl⟩ := List.mem_map.1 hk
    exact List.mem_range.2 (h a ha)
  have hle := (List.subperm_of_subset (hl.map hindex) hsubset).length_le
  rwa [List.length_map, List.length_range] at hle

variable {p : Program} {i j : InstrId} {b b' : BlockId} {k k' : Nat}

/-- `i` stands at `k` in the list of `b`. -/
def StandsAt (p : Program) (b : BlockId) (k : Nat) (i : InstrId) : Prop :=
  ∃ B, p.block b = .ok B ∧ B.instrs[k]? = some i

theorem StandsAt.instr (h : p.StandsAt b k i) (hv : p.Valid) :
    ∃ B ins, p.block b = .ok B ∧ p.instr i = .ok ins ∧
      p.ValidInstr B.function b B.instrs.length k ins := by
  obtain ⟨B, hB, hi⟩ := h
  obtain ⟨ins, hins, h⟩ := (hv.blocks b B hB).instrs k i hi
  exact ⟨B, ins, hB, hins, h⟩

theorem StandsAt.blockOf (h : p.StandsAt b k i) (hv : p.Valid) : p.blockOf i = .ok (some b) := by
  obtain ⟨_, ins, _, hi, hins⟩ := h.instr hv
  exact blockOf_eq_ok_iff.2 ⟨ins, hi, hins.block⟩

theorem StandsAt.functionOf {B : Block} (h : p.StandsAt b k i) (hv : p.Valid)
    (hB : p.block b = .ok B) : p.functionOf i = .ok (some B.function) :=
  functionOf_eq_some_iff.2 ⟨b, B, h.blockOf hv, hB, rfl⟩

theorem StandsAt.unique (h : p.StandsAt b k i) (h' : p.StandsAt b' k' i) (hv : p.Valid)
    (once : p.ListsOnce) : b = b' ∧ k = k' := by
  have hb : b = b' := by
    have := (h.blockOf hv).symm.trans (h'.blockOf hv)
    injection this with this
    exact Option.some.inj this
  subst hb
  obtain ⟨B, hB, hi⟩ := h
  obtain ⟨B', hB', hi'⟩ := h'
  obtain rfl : B = B' := by injection hB.symm.trans hB'
  have hk := (List.getElem?_eq_some_iff.1 hi).1
  exact ⟨rfl, (List.getElem?_inj hk (once b B hB)).1 (hi.trans hi'.symm)⟩

theorem StandsAt.position? {B : Block} (h : p.StandsAt b k i) (hv : p.Valid) (once : p.ListsOnce)
    (hB : p.block b = .ok B) : p.position? i = .ok (some (k, B.instrs)) := by
  have hb := h.blockOf hv
  obtain ⟨B', hB', hi⟩ := h
  obtain rfl : B = B' := by injection hB.symm.trans hB'
  exact position?_eq_some_iff.2 ⟨b, B, hb, hB, rfl,
    (idxOf?_eq_some_iff_of_nodup (once b B hB)).2 hi⟩

theorem StandsAt.nextInBlock {B : Block} (h : p.StandsAt b k i) (hv : p.Valid) (once : p.ListsOnce)
    (hB : p.block b = .ok B) : p.nextInBlock i = .ok B.instrs[k + 1]? :=
  bind_eq_ok_iff.2 ⟨_, h.position? hv once hB, rfl⟩

theorem standsAt_of_firstInBlock (h : p.firstInBlock b = .ok (some i)) : p.StandsAt b 0 i := by
  obtain ⟨B, hB, hi⟩ := bind_eq_ok_iff.1 h
  exact ⟨B, hB, by rw [← List.head?_eq_getElem?]; exact pure_eq_ok_iff.1 hi⟩

theorem standsAt_of_nextInBlock (h : p.nextInBlock i = .ok (some j)) :
    ∃ b k, p.blockOf i = .ok (some b) ∧ p.StandsAt b k i ∧ p.StandsAt b (k + 1) j := by
  obtain ⟨_ | ⟨k, l⟩, hp, h⟩ := bind_eq_ok_iff.1 h
  · cases pure_eq_ok_iff.1 h
  · obtain ⟨b, B, hb, hB, rfl, hk⟩ := position?_eq_some_iff.1 hp
    obtain ⟨hk, hi, -⟩ := List.idxOf?_eq_some_iff.1 hk
    exact ⟨b, k, hb, ⟨B, hB, List.getElem?_eq_some_iff.2 ⟨hk, hi⟩⟩, B, hB, pure_eq_ok_iff.1 h⟩

theorem standsAt_of_prevInBlock (h : p.prevInBlock j = .ok (some i))
    (once : p.ListsOnce) : ∃ b k, p.StandsAt b k i ∧ p.StandsAt b (k + 1) j := by
  obtain ⟨_ | ⟨_ | k, l⟩, hp, h⟩ := bind_eq_ok_iff.1 h
  · cases pure_eq_ok_iff.1 h
  · cases pure_eq_ok_iff.1 h
  · obtain ⟨b, B, -, hB, rfl, hk⟩ := position?_eq_some_iff.1 hp
    have hj := (idxOf?_eq_some_iff_of_nodup (once b B hB)).1 hk
    exact ⟨b, k, ⟨B, hB, pure_eq_ok_iff.1 h⟩, B, hB, hj⟩

theorem exists_standsAt_of_prevInBlock (h : p.prevInBlock j = .ok (some i)) :
    ∃ b k, p.StandsAt b k i := by
  obtain ⟨_ | ⟨_ | k, l⟩, hp, h⟩ := bind_eq_ok_iff.1 h
  · cases pure_eq_ok_iff.1 h
  · cases pure_eq_ok_iff.1 h
  · obtain ⟨b, B, -, hB, rfl, -⟩ := position?_eq_some_iff.1 hp
    exact ⟨b, k, B, hB, pure_eq_ok_iff.1 h⟩

theorem nextInBlock_eq_some_iff (hv : p.Valid) (once : p.ListsOnce) :
    p.nextInBlock i = .ok (some j) ↔ ∃ b k, p.StandsAt b k i ∧ p.StandsAt b (k + 1) j := by
  constructor
  · intro h
    obtain ⟨b, k, -, hi, hj⟩ := standsAt_of_nextInBlock h
    exact ⟨b, k, hi, hj⟩
  · rintro ⟨b, k, hi, B, hB, hj⟩
    rw [hi.nextInBlock hv once hB, hj]

theorem prevInBlock_eq_some_iff (hv : p.Valid) (once : p.ListsOnce) :
    p.prevInBlock j = .ok (some i) ↔ p.nextInBlock i = .ok (some j) := by
  rw [nextInBlock_eq_some_iff hv once]
  constructor
  · exact fun h ↦ standsAt_of_prevInBlock h once
  · rintro ⟨b, k, ⟨B, hB, hi⟩, hj⟩
    refine bind_eq_ok_iff.2 ⟨_, hj.position? hv once hB, ?_⟩
    simp only [hi]
    rfl

theorem functionOf_of_nextInBlock (h : p.nextInBlock i = .ok (some j)) (hv : p.Valid) :
    ∃ f, p.functionOf i = .ok (some f) ∧ p.functionOf j = .ok (some f) := by
  obtain ⟨b, k, hb, -, B, hB, hj⟩ := standsAt_of_nextInBlock h
  exact ⟨B.function, functionOf_eq_some_iff.2 ⟨b, B, hb, hB, rfl⟩,
    StandsAt.functionOf ⟨B, hB, hj⟩ hv hB⟩

theorem functionOf_of_prevInBlock (h : p.prevInBlock j = .ok (some i)) (hv : p.Valid) :
    ∃ f, p.functionOf i = .ok (some f) ∧ p.functionOf j = .ok (some f) := by
  obtain ⟨_ | ⟨_ | k, l⟩, hp, h⟩ := bind_eq_ok_iff.1 h
  · cases pure_eq_ok_iff.1 h
  · cases pure_eq_ok_iff.1 h
  · obtain ⟨b, B, hb, hB, rfl, -⟩ := position?_eq_some_iff.1 hp
    exact ⟨B.function, StandsAt.functionOf ⟨B, hB, pure_eq_ok_iff.1 h⟩ hv hB,
      functionOf_eq_some_iff.2 ⟨b, B, hb, hB, rfl⟩⟩

end Durability.Program
