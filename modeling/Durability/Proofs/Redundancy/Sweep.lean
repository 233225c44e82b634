import Durability.Proofs.Rounds
import Durability.Redundancy.Basic
import Mathlib.Logic.Relation

namespace Durability.FlowProblem

open Relation

section Sweep

variable (stays : Nat → Bool) (next : Nat → List Nat) (good : Nat → Bool)

def sweep (flags : List Bool) (n : Nat) : Bool :=
  stays n || (next n).all fun m ↦ good m && flags.getD m false

def DependsOn (n m : Nat) : Prop := stays n = false ∧ m ∈ next n

def MeetsGood (n : Nat) : Prop := ∀ m, TransGen (DependsOn stays next) n m → good m = true

/-- Flags that have only been taken back where they had to be. -/
structure Retracted (size : Nat) (flags : List Bool) : Prop where
  length : flags.length = size
  kept : ∀ n < size, sweep stays next good flags n = true → flags.getD n false = true
  meetsGood : ∀ n < size, MeetsGood stays next good n → flags.getD n false = true

variable {stays next good} {size n m : Nat} {flags flags' : List Bool} {nodes : List Nat}

theorem sweep_eq_true_iff : sweep stays next good flags n = true ↔
    ∀ m, DependsOn stays next n m → good m = true ∧ flags.getD m false = true := by
  rw [sweep, Bool.or_eq_true, List.all_eq_true]
  simp only [DependsOn, Bool.and_eq_true]
  cases stays n <;> simp

theorem getD_set (hn : n < flags.length) (b : Bool) :
    (flags.set n b).getD m false = if n = m then b else flags.getD m false := by
  rw [List.getD_eq_getElem?_getD, List.getD_eq_getElem?_getD, List.getElem?_set]
  split
  · next h =>
    subst h
    rfl
  · rfl

theorem MeetsGood.of_dependsOn (h : MeetsGood stays next good n) (hm : DependsOn stays next n m) :
    good m = true ∧ MeetsGood stays next good m :=
  ⟨h m (.single hm), fun k hk ↦ h k (.head hm hk)⟩

theorem renew_eq_some_iff {clean : List Bool → Nat → Bool} : renew clean flags n = some flags' ↔
    clean flags n ≠ flags.getD n false ∧ flags' = flags.set n (clean flags n) := by
  rw [renew]
  split
  · next h => exact iff_of_false nofun fun hne ↦ hne.1 h
  · next h => rw [Option.some.injEq, eq_comm, and_iff_right h]

theorem count_set_lt (hn : n < flags.length) (hflag : flags.getD n false = true) :
    (flags.set n false).count true < flags.count true := by
  have hget : flags[n] = true := by
    rw [← hflag, List.getD_eq_getElem?_getD, List.getElem?_eq_getElem hn]
    rfl
  have hpos : 0 < flags.count true := List.count_pos_iff.2 (hget ▸ List.getElem_mem hn)
  rw [List.count_set hn, hget]
  exact Nat.sub_lt hpos Nat.one_pos

theorem Retracted.set_false (h : Retracted stays next good size flags)
    (hnext : ∀ a b, b ∈ next a → b < size) (hn : n < size)
    (hsweep : sweep stays next good flags n = false) :
    Retracted stays next good size (flags.set n false) := by
  have hlt : n < flags.length := h.length ▸ hn
  have hle {m : Nat} (hm : (flags.set n false).getD m false = true) : flags.getD m false = true := by
    rw [getD_set hlt] at hm
    split at hm
    · cases hm
    · exact hm
  refine ⟨by rw [List.length_set, h.length], fun k hk hsweep' ↦ ?_, fun k hk hgood ↦ ?_⟩
  · have hold : sweep stays next good flags k = true := sweep_eq_true_iff.2 fun m hm ↦
      (sweep_eq_true_iff.1 hsweep' m hm).imp_right hle
    rw [getD_set hlt, if_neg, h.kept k hk hold]
    rintro rfl
    cases hsweep.symm.trans hold
  · rw [getD_set hlt, if_neg, h.meetsGood k hk hgood]
    rintro rfl
    have hold : sweep stays next good flags n = true := sweep_eq_true_iff.2 fun m hm ↦ by
      obtain ⟨hm', hmeets⟩ := hgood.of_dependsOn hm
      exact ⟨hm', h.meetsGood m (hnext n m hm.2) hmeets⟩
    cases hsweep.symm.trans hold

/-- A change takes back a flag, and that of a node from which a bad one is met. -/
theorem Retracted.of_renew (h : Retracted stays next good size flags) (hn : n < size)
    (hnext : ∀ a b, b ∈ next a → b < size)
    (hrenew : renew (sweep stays next good) flags n = some flags') :
    Retracted stays next good size flags' ∧ flags'.count true < flags.count true := by
  obtain ⟨hne, rfl⟩ := renew_eq_some_iff.1 hrenew
  cases hsweep : sweep stays next good flags n with
  | true =>
    rw [hsweep, h.kept n hn hsweep] at hne
    exact absurd rfl hne
  | false =>
    rw [hsweep] at hne
    exact ⟨h.set_false hnext hn hsweep,
      count_set_lt (h.length ▸ hn) (Bool.of_not_eq_false (Ne.symm hne))⟩

theorem MeetsGood.of_settled (hnext : ∀ a b, b ∈ next a → b < size)
    (hsettled : ∀ n < size, sweep stays next good flags n = flags.getD n false) (hn : n < size)
    (hflag : flags.getD n false = true) : MeetsGood stays next good n := by
  intro m hm
  induction hm using TransGen.head_induction_on with
  | single hstep =>
    rw [← hsettled _ hn, sweep_eq_true_iff] at hflag
    exact (hflag m hstep).1
  | head hstep _ ih =>
    rw [← hsettled _ hn, sweep_eq_true_iff] at hflag
    exact ih (hnext _ _ hstep.2) (hflag _ hstep).2

/-- The sweeps come to an end, and the flags that are left are those of the nodes from which only good
ones are met, in whatever order the nodes are swept. -/
theorem settle_sweep (stays : Nat → Bool) (next : Nat → List Nat) (good : Nat → Bool)
    (hnodes : ∀ n, n ∈ nodes ↔ n < size) (hnext : ∀ a b, b ∈ next a → b < size)
    (hlength : flags.length = size) (hset : ∀ n < size, flags.getD n false = true) :
    ∃ flags', Rounds.settle (FlowProblem.renew (sweep stays next good)) nodes (size + 1) flags =
        .ok flags' ∧ ∀ n < size, flags'.getD n false = true ↔ MeetsGood stays next good n := by
  have hstart : Retracted stays next good size flags :=
    ⟨hlength, fun n hn _ ↦ hset n hn, fun n hn _ ↦ hset n hn⟩
  have hcount : flags.count true < size + 1 := by
    have := List.count_le_length (a := true) (l := flags)
    omega
  obtain ⟨flags', hsettle, hretracted, hdone⟩ := Rounds.settle_eq_ok
    (P := Retracted stays next good size) (fun r r' hr hchange ↦ by
      obtain ⟨n, hn, hrenew⟩ := hchange
      exact hr.of_renew ((hnodes n).1 hn) hnext hrenew) hstart hcount
  have hsettled (n : Nat) (hn : n < size) :
      sweep stays next good flags' n = flags'.getD n false := Decidable.byContradiction fun hne ↦ by
    cases (hdone n ((hnodes n).2 hn)).symm.trans (renew_eq_some_iff.2 ⟨hne, rfl⟩)
  refine ⟨flags', hsettle, fun n hn ↦ ⟨?_, hretracted.meetsGood n hn⟩⟩
  exact MeetsGood.of_settled hnext hsettled hn

end Sweep

end Durability.FlowProblem
