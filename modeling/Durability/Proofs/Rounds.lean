import Durability.Rounds
import Mathlib.Logic.Relation

namespace Durability.Rounds

open Relation

variable {σ α : Type} {step : σ → α → Option σ} {l : List α} {s s' : σ}

def Changes (step : σ → α → Option σ) (l : List α) (s s' : σ) : Prop :=
  ∃ a ∈ l, step s a = some s'

theorem Changes.transGen_cons {a : α} (h : TransGen (Changes step l) s s') :
    TransGen (Changes step (a :: l)) s s' := by
  refine TransGen.mono (fun t t' ht ↦ ?_) s s' h
  obtain ⟨b, hb, ht⟩ := ht
  exact ⟨b, List.mem_cons_of_mem a hb, ht⟩

theorem round_eq_none_iff : round step l s = none ↔ ∀ a ∈ l, step s a = none := by
  induction l generalizing s with
  | nil => simp [round]
  | cons a l ih =>
    rw [round, List.forall_mem_cons, ← ih]
    cases step s a with
    | none => simp
    | some s => simp

theorem transGen_of_round (h : round step l s = some s') : TransGen (Changes step l) s s' := by
  induction l generalizing s s' with
  | nil => cases h
  | cons a l ih =>
    rw [round] at h
    cases ha : step s a with
    | none =>
      simp only [ha] at h
      exact Changes.transGen_cons (ih h)
    | some t =>
      simp only [ha, Option.some.injEq] at h
      have hfirst : TransGen (Changes step (a :: l)) s t := .single ⟨a, List.mem_cons_self, ha⟩
      cases hrest : round step l t with
      | none =>
        rw [hrest] at h
        exact h ▸ hfirst
      | some u =>
        rw [hrest] at h
        obtain rfl : u = s' := h
        exact hfirst.trans (Changes.transGen_cons (ih hrest))

variable {P : σ → Prop} {measure : σ → Nat}

theorem lowered_of_transGen
    (lowers : ∀ s s', P s → Changes step l s s' → P s' ∧ measure s' < measure s)
    (h : TransGen (Changes step l) s s') (hs : P s) : P s' ∧ measure s' < measure s := by
  induction h with
  | single h => exact lowers _ _ hs h
  | tail _ h ih =>
    obtain ⟨ht, hlt⟩ := ih
    obtain ⟨ht', hlt'⟩ := lowers _ _ ht h
    exact ⟨ht', Nat.lt_trans hlt' hlt⟩

/-- Rounds come to an end if every change lowers `measure` as long as `P` holds, which it keeps. -/
theorem settle_eq_ok {rounds : Nat}
    (lowers : ∀ s s', P s → Changes step l s s' → P s' ∧ measure s' < measure s)
    (hs : P s) (hrounds : measure s < rounds) :
    ∃ r, settle step l rounds s = .ok r ∧ P r ∧ ∀ a ∈ l, step r a = none := by
  induction rounds generalizing s with
  | zero => omega
  | succ rounds ih =>
    rw [settle]
    cases h : round step l s with
    | none => exact ⟨s, rfl, hs, round_eq_none_iff.1 h⟩
    | some t =>
      obtain ⟨ht, hlt⟩ := lowered_of_transGen lowers (transGen_of_round h) hs
      exact ih ht (by omega)

end Durability.Rounds
