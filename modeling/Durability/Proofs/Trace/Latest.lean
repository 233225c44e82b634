import Durability.Trace.Event

namespace Durability.Trace

variable {t : Trace} {P : Event → Prop} {e f : Event} {k l n start : Nat}

def NoneIn (t : Trace) (P : Event → Prop) (start n : Nat) : Prop :=
  ∀ k e, start ≤ k → k < n → t.events[k]? = some e → ¬ P e

/-- The latest event before `n` with the property `P` is `e`, at `k`. -/
structure Latest (t : Trace) (n : Nat) (P : Event → Prop) (k : Nat) (e : Event) : Prop where
  lt : k < n
  event : t.events[k]? = some e
  holds : P e
  later : t.NoneIn P (k + 1) n

theorem NoneIn.mono (h : t.NoneIn P start n) (hk : start ≤ k) (hl : l ≤ n) : t.NoneIn P k l :=
  fun i e hi hin hevent ↦ h i e (Nat.le_trans hk hi) (Nat.lt_of_lt_of_le hin hl) hevent

theorem Latest.le (h : t.Latest n P k e) (hl : l < n) (hevent : t.events[l]? = some f) (hf : P f) :
    l ≤ k :=
  Nat.le_of_not_lt fun hkl ↦ h.later l f hkl hl hevent hf

theorem Latest.unique (h : t.Latest n P k e) (h' : t.Latest n P l f) : k = l ∧ e = f := by
  obtain rfl : k = l :=
    Nat.le_antisymm (h'.le h.lt h.event h.holds) (h.le h'.lt h'.event h'.holds)
  exact ⟨rfl, Option.some.inj (h.event.symm.trans h'.event)⟩

theorem latest_or_noneIn (t : Trace) (P : Event → Prop) (n : Nat) :
    (∃ k e, t.Latest n P k e) ∨ t.NoneIn P 0 n := by
  induction n with
  | zero => exact .inr fun k e _ hk ↦ absurd hk (Nat.not_lt_zero k)
  | succ n ih =>
    have hlast {start : Nat} (h : ∀ e, t.events[n]? = some e → ¬ P e) (hnone : t.NoneIn P start n) :
        t.NoneIn P start (n + 1) := by
      intro k e hstart hk hevent
      obtain hlt | rfl := Nat.lt_succ_iff_lt_or_eq.1 hk
      · exact hnone k e hstart hlt hevent
      · exact h e hevent
    by_cases h : ∃ e, t.events[n]? = some e ∧ P e
    · obtain ⟨e, hevent, he⟩ := h
      exact .inl ⟨n, e, n.lt_succ_self, hevent, he, fun k _ hk hkn ↦ absurd hkn (by omega)⟩
    · have h : ∀ e, t.events[n]? = some e → ¬ P e := fun e hevent he ↦ h ⟨e, hevent, he⟩
      refine ih.imp ?_ (hlast h)
      rintro ⟨k, e, hlt, hevent, he, hlater⟩
      exact ⟨k, e, Nat.lt_succ_of_lt hlt, hevent, he, hlast h hlater⟩

theorem noneIn_of_latest_lt (h : ∀ l f, t.Latest n P l f → l < k) : t.NoneIn P k n := by
  intro i e hi hin hevent he
  obtain ⟨l, f, hl⟩ | hnone := t.latest_or_noneIn P n
  · exact Nat.lt_irrefl k (Nat.lt_of_le_of_lt (Nat.le_trans hi (hl.le hin hevent he)) (h l f hl))
  · exact hnone i e (Nat.zero_le i) hin hevent he

theorem before_succ (h : t.events[n]? = some e) : t.before (n + 1) = (e, n) :: t.before n := by
  have hlength : (t.events.take n).length = n := by
    have := (List.getElem?_eq_some_iff.1 h).1
    rw [List.length_take]
    omega
  rw [before, before, List.take_add_one, h, List.zipIdx_append, hlength]
  simp

theorem before_succ_of_none (h : t.events[n]? = none) : t.before (n + 1) = t.before n := by
  rw [before, before, List.take_add_one, h]
  simp

end Durability.Trace
