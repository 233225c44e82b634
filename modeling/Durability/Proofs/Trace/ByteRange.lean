import Durability.Sample.Traces

namespace Durability.ByteRange

def top : Nat := UInt64.size - 1

def exactStop (a : ByteRange) : Nat := a.start + a.length.toNat

def Holds (a : ByteRange) (x : Nat) : Prop := a.start ≤ x ∧ x < a.exactStop

def Shares (a b : ByteRange) : Prop := ∃ x, a.Holds x ∧ b.Holds x

/-- Without a byte of its own, `a` lies between the start and the stop of `b`. -/
def EmptyIn (a b : ByteRange) : Prop := a.length = 0 ∧ b.start < a.start ∧ a.start < b.stop

/-- There are bytes that both have, but none below the largest address. -/
def SharesTop (a b : ByteRange) : Prop := a.Shares b ∧ ∀ x, a.Holds x → b.Holds x → top ≤ x

def lineStop (a : ByteRange) (size : Nat) : Nat := (a.start / size + 1) * size

/-- The range goes on behind the line in which it starts, and this line goes on to the largest address. -/
def LeavesTop (a : ByteRange) (size : Nat) : Prop :=
  top ≤ a.lineStop size ∧ a.lineStop size < a.exactStop

instance (a b : ByteRange) : Decidable (a.EmptyIn b) := inferInstanceAs (Decidable (_ ∧ _ ∧ _))

instance (a : ByteRange) (size : Nat) : Decidable (a.LeavesTop size) :=
  inferInstanceAs (Decidable (_ ∧ _))

variable {a b : ByteRange} {size x : Nat}

theorem start_le_top (a : ByteRange) : a.start ≤ top := Nat.le_pred_of_lt a.address.toNat_lt

theorem start_le_exactStop (a : ByteRange) : a.start ≤ a.exactStop := Nat.le_add_right _ _

theorem stop_eq (a : ByteRange) : a.stop = min a.exactStop top := rfl

theorem length_eq_zero_iff : a.length = 0 ↔ a.exactStop = a.start := by
  rw [exactStop, Nat.add_eq_left, ← UInt64.toNat_inj]
  rfl

theorem start_lt_exactStop (h : a.length ≠ 0) : a.start < a.exactStop :=
  Nat.lt_of_le_of_ne a.start_le_exactStop fun heq ↦ h (length_eq_zero_iff.2 heq.symm)

theorem shares_iff : a.Shares b ↔ max a.start b.start < min a.exactStop b.exactStop := by
  constructor
  · rintro ⟨x, ⟨ha, hxa⟩, hb, hxb⟩
    exact Nat.lt_of_le_of_lt (Nat.max_le.2 ⟨ha, hb⟩) (Nat.lt_min.2 ⟨hxa, hxb⟩)
  · intro h
    obtain ⟨ha, hb⟩ := Nat.lt_min.1 h
    exact ⟨_, ⟨Nat.le_max_left _ _, ha⟩, Nat.le_max_right _ _, hb⟩

theorem sharesTop_iff : a.SharesTop b ↔ a.Shares b ∧ top ≤ max a.start b.start := by
  refine and_congr_right fun h ↦ ⟨fun htop ↦ ?_, fun htop x ha hb ↦ ?_⟩
  · obtain ⟨ha, hb⟩ := Nat.lt_min.1 (shares_iff.1 h)
    exact htop _ ⟨Nat.le_max_left _ _, ha⟩ ⟨Nat.le_max_right _ _, hb⟩
  · exact Nat.le_trans htop (Nat.max_le.2 ⟨ha.1, hb.1⟩)

instance (a b : ByteRange) : Decidable (a.Shares b) := decidable_of_iff _ shares_iff.symm

instance (a b : ByteRange) : Decidable (a.SharesTop b) := decidable_of_iff _ sharesTop_iff.symm

theorem overlaps_iff : a.overlaps b = true ↔
    (a.start < b.exactStop ∧ b.start < a.exactStop) ∧ max a.start b.start < top := by
  rw [overlaps, Bool.and_eq_true, decide_eq_true_iff, decide_eq_true_iff, stop_eq, stop_eq,
    Nat.lt_min, Nat.lt_min, Nat.max_lt, and_and_and_comm]

theorem overlaps_comm (a b : ByteRange) : a.overlaps b = b.overlaps a := Bool.and_comm _ _

/-- To share a byte the ranges need to have one each, and this may be the one at the largest address. -/
theorem overlaps_iff_shares_iff : (a.overlaps b = true ↔ a.Shares b) ↔
    ¬ a.EmptyIn b ∧ ¬ b.EmptyIn a ∧ ¬ a.SharesTop b := by
  have ha := a.start_le_exactStop
  have hb := b.start_le_exactStop
  rw [EmptyIn, EmptyIn, stop_eq, stop_eq, length_eq_zero_iff, length_eq_zero_iff, sharesTop_iff,
    overlaps_iff, shares_iff]
  -- All that is left is inequalities between the two starts, the two exact stops and the largest address.
  omega

theorem overlaps_self_iff (h : a.length ≠ 0) : a.overlaps a = true ↔ a.start ≠ top := by
  rw [overlaps_iff, and_self, and_iff_right (start_lt_exactStop h), Nat.max_self,
    Nat.lt_iff_le_and_ne, and_iff_right a.start_le_top]

theorem div_eq_div_iff (hsize : 0 < size) (hx : a.start ≤ x) :
    a.start / size = x / size ↔ x < a.lineStop size := by
  rw [lineStop, ← Nat.div_lt_iff_lt_mul hsize, Nat.lt_succ_iff]
  exact ⟨fun h ↦ Nat.le_of_eq h.symm, fun h ↦ Nat.le_antisymm (Nat.div_le_div_right hx) h⟩

theorem inOneLine_iff (hsize : 0 < size) :
    a.inOneLine size = true ↔ min a.exactStop top ≤ a.lineStop size := by
  have hstart : a.start < a.lineStop size := (div_eq_div_iff hsize (Nat.le_refl _)).1 rfl
  rw [inOneLine, beq_iff_eq, div_eq_div_iff hsize (Nat.le_max_right _ _), stop_eq]
  omega

theorem inOneLine_iff_iff (hsize : 0 < size) (h : a.length ≠ 0) :
    (a.inOneLine size = true ↔ a.start / size = (a.exactStop - 1) / size) ↔ ¬ a.LeavesTop size := by
  have hlt := start_lt_exactStop h
  rw [inOneLine_iff hsize, div_eq_div_iff hsize (Nat.le_sub_one_of_lt hlt), LeavesTop]
  omega

/-- Two ranges overlap exactly if they have a byte in common, unless one is empty and inside the other one,
or they have nothing in common below the largest address. A range is in one line exactly if its first and
its last byte are, unless it leaves the line that the addresses end with. -/
theorem overlaps_inOneLine_exact (a b : ByteRange) :
    ((a.overlaps b = true ↔ a.Shares b) ↔ ¬ a.EmptyIn b ∧ ¬ b.EmptyIn a ∧ ¬ a.SharesTop b) ∧
      a.overlaps b = b.overlaps a ∧
      (a.length ≠ 0 → (a.overlaps a = true ↔ a.start ≠ top)) ∧
      ∀ size, 0 < size → a.length ≠ 0 →
        ((a.inOneLine size = true ↔ a.start / size = (a.exactStop - 1) / size) ↔ ¬ a.LeavesTop size) :=
  ⟨overlaps_iff_shares_iff, overlaps_comm a b, overlaps_self_iff, fun _ ↦ inOneLine_iff_iff⟩

theorem overlaps_inOneLine_exact_lastLine :
    let a : ByteRange := ⟨0xffffffffffffffc0, 63⟩
    let b : ByteRange := ⟨0xfffffffffffffffe, 1⟩
    (a.overlaps b = true ↔ a.Shares b) ∧ a.length ≠ 0 ∧ a.overlaps a = true ∧ 0 < 64 ∧
      (a.inOneLine 64 = true ↔ a.start / 64 = (a.exactStop - 1) / 64) := by
  intro a b
  have hlength : a.length ≠ 0 := by decide
  obtain ⟨hshares, -, hself, hline⟩ := overlaps_inOneLine_exact a b
  exact ⟨hshares.2 (by decide), hlength, (hself hlength).2 (by decide), by decide,
    (hline 64 (by decide) hlength).2 (by decide)⟩

/-- No byte at all overlaps a word around it, the last byte does not overlap itself, and the last two bytes
are in one line of one byte. -/
theorem overlaps_inOneLine_not_exact :
    let empty : ByteRange := ⟨0x1004, 0⟩
    let last : ByteRange := ⟨0xffffffffffffffff, 1⟩
    let two : ByteRange := ⟨0xfffffffffffffffe, 2⟩
    (empty.overlaps Sample.word = true ∧ ¬ empty.Shares Sample.word) ∧
      (last.overlaps last = false ∧ last.Shares last) ∧
      two.inOneLine 1 = true ∧ two.start / 1 ≠ (two.exactStop - 1) / 1 := by
  decide

end Durability.ByteRange
