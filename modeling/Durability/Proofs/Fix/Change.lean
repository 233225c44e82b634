import Durability.Fix.Map
import Durability.Proofs.Attempt

namespace Durability

variable {i j : InstrId} {fix existing incoming : Fix} {m m' m'' : FixMap} {new newer : Bool}

/-- How many edits come together in a fix. -/
def Fix.amount (fix : Fix) : Nat := if fix.kind = .addFlushAndFence then 2 else 1

namespace FixMap

def amountAt (m : FixMap) (i : InstrId) : Nat := (m.get? i).elim 0 Fix.amount

theorem amount_lt_of_merge (h : merge i existing incoming = .ok fix) (hne : fix ≠ existing) :
    existing.amount < fix.amount := by
  rw [merge.eq_def] at h
  split at h
  · cases h
    exact absurd rfl hne
  · split at h
    · next hk _ =>
      cases h
      rw [Fix.amount, hk]
      decide
    · next hk _ =>
      cases h
      rw [Fix.amount, hk]
      decide
    all_goals cases h

/-- From `m` to `m'` nothing has gone, and `new` tells whether anything has come in. -/
structure Reports (new : Bool) (m m' : FixMap) : Prop where
  grows : ∀ i, m'.get? i = m.get? i ∨ m.amountAt i < m'.amountAt i
  same : new = false → m' = m
  more : new = true → ∃ i, m.amountAt i < m'.amountAt i

namespace Reports

theorem refl (m : FixMap) : Reports false m m := ⟨fun _ ↦ .inl rfl, fun _ ↦ rfl, nofun⟩

theorem le (h : Reports new m m') (i : InstrId) : m.amountAt i ≤ m'.amountAt i := by
  obtain hget | hlt := h.grows i
  · exact Nat.le_of_eq (by rw [amountAt, amountAt, hget])
  · exact Nat.le_of_lt hlt

theorem trans (h : Reports new m m') (h' : Reports newer m' m'') :
    Reports (new || newer) m m'' where
  grows i := by
    obtain hget | hlt := h.grows i
    · rw [← hget, amountAt, ← hget]
      exact h'.grows i
    · exact .inr (Nat.lt_of_lt_of_le hlt (h'.le i))
  same hnew := by
    rw [Bool.or_eq_false_iff] at hnew
    rw [h'.same hnew.2, h.same hnew.1]
  more hnew := by
    rw [Bool.or_eq_true] at hnew
    obtain hnew | hnewer := hnew
    · obtain ⟨i, hi⟩ := h.more hnew
      exact ⟨i, Nat.lt_of_lt_of_le hi (h'.le i)⟩
    · obtain ⟨i, hi⟩ := h'.more hnewer
      exact ⟨i, Nat.lt_of_le_of_lt (h.le i) hi⟩

theorem iff_ne (h : Reports new m m') : new = true ↔ m' ≠ m := by
  constructor
  · intro hnew heq
    obtain ⟨i, hi⟩ := h.more hnew
    rw [heq] at hi
    exact Nat.lt_irrefl _ hi
  · intro hne
    rw [← Bool.not_eq_false]
    exact fun hnew ↦ hne (h.same hnew)

theorem isEmpty_eq_false (h : Reports true m m') : m'.isEmpty = false := by
  obtain ⟨i, hi⟩ := h.more rfl
  rw [Bool.eq_false_iff]
  intro hempty
  have hentries : m'.entries = [] := List.isEmpty_iff.1 hempty
  have hzero : m'.amountAt i = 0 := by
    rw [amountAt, SortedMap.get?, hentries]
    rfl
  omega

theorem insert (h : m.amountAt i < fix.amount) : Reports true m (SortedMap.insert m i fix) := by
  have hlt : m.amountAt i < amountAt (SortedMap.insert m i fix) i := by
    rw [amountAt.eq_def (SortedMap.insert m i fix), SortedMap.get?_insert, if_pos rfl]
    exact h
  refine ⟨fun j ↦ ?_, nofun, fun _ ↦ ⟨i, hlt⟩⟩
  by_cases hij : i = j
  · exact .inr (hij ▸ hlt)
  · exact .inl (by rw [SortedMap.get?_insert, if_neg hij])

theorem of_add (h : m.add i incoming = .ok (new, m')) : Reports new m m' := by
  rw [FixMap.add_eq] at h
  cases hexisting : m.get? i with
  | none =>
    rw [hexisting] at h
    cases h
    refine .insert ?_
    rw [amountAt, hexisting, Fix.amount]
    dsimp only [Option.elim]
    split <;> decide
  | some existing =>
    rw [hexisting] at h
    obtain ⟨merged, hmerge, h⟩ := bind_eq_ok_iff.1 h
    have h := pure_eq_ok_iff.1 h
    split at h
    · cases h
      exact .refl m
    · next hne =>
      cases h
      refine .insert ?_
      rw [amountAt, hexisting]
      exact amount_lt_of_merge hmerge hne

end Reports

end FixMap

end Durability
