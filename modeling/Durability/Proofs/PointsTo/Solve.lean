import Durability.PointsTo.Solve
import Durability.Proofs.Rounds
import Mathlib.Data.Finset.Prod
import Mathlib.Data.Finset.Sum
import Mathlib.Data.Set.Lattice
import Mathlib.Order.CompletePartialOrder
import Mathlib.Order.ConditionallyCompleteLattice.Basic

namespace Durability

/-- Where values point and where what memory holds points, ordered pointwise. -/
abbrev Flows := (Value → Set Storage) × (Storage → Set Storage)

namespace Flows

abbrev points (r : Flows) : Value → Set Storage := r.1

abbrev holds (r : Flows) : Storage → Set Storage := r.2

def pointing (v : Value) (os : Set Storage) : Flows :=
  (fun w ↦ {o | w = v ∧ o ∈ os}, fun _ ↦ ∅)

def holding (os ts : Set Storage) : Flows :=
  (fun _ ↦ ∅, fun o ↦ {t | o ∈ os ∧ t ∈ ts})

variable {r r' : Flows} {v : Value} {os ts : Set Storage}

theorem pointing_le_iff : pointing v os ≤ r ↔ os ⊆ r.points v := by
  constructor
  · intro h o ho
    exact h.1 v ⟨rfl, ho⟩
  · intro h
    refine ⟨fun w o ho ↦ ?_, fun o t ht ↦ ht.elim⟩
    obtain ⟨rfl, ho⟩ := ho
    exact h ho

theorem holding_le_iff : holding os ts ≤ r ↔ ∀ o ∈ os, ts ⊆ r.holds o := by
  constructor
  · intro h o ho t ht
    exact h.2 o ⟨ho, ht⟩
  · intro h
    exact ⟨fun v o ho ↦ ho.elim, fun o t ht ↦ h o ht.1 ht.2⟩

end Flows

namespace Constraint

open Flows

def asked (r : Flows) : Constraint → Flows
  | address v o => pointing v {o}
  | copy dst src => pointing dst (r.points src)
  | load dst ptr => pointing dst {t | ∃ o ∈ r.points ptr, t ∈ r.holds o}
  | store ptr src => holding (r.points ptr) (r.points src)

def Holds (r : Flows) (c : Constraint) : Prop := c.asked r ≤ r

variable {r r' : Flows} {v w : Value} {o : Storage} {c : Constraint}

theorem holds_address : (address v o).Holds r ↔ o ∈ r.points v := by
  rw [Holds, asked, pointing_le_iff, Set.singleton_subset_iff]

theorem holds_copy : (copy v w).Holds r ↔ r.points w ⊆ r.points v := by
  rw [Holds, asked, pointing_le_iff]

theorem holds_load : (load v w).Holds r ↔ ∀ o ∈ r.points w, r.holds o ⊆ r.points v := by
  rw [Holds, asked, pointing_le_iff]
  constructor
  · intro h o ho t ht
    exact h ⟨o, ho, ht⟩
  · intro h t ht
    obtain ⟨o, ho, ht⟩ := ht
    exact h o ho ht

theorem holds_store : (store v w).Holds r ↔ ∀ o ∈ r.points v, r.points w ⊆ r.holds o := by
  rw [Holds, asked, holding_le_iff]

theorem asked_mono (h : r ≤ r') : c.asked r ≤ c.asked r' := by
  cases c with
  | address v o => exact le_refl _
  | copy dst src =>
    rw [asked, pointing_le_iff]
    exact fun o ho ↦ ⟨rfl, h.1 src ho⟩
  | load dst ptr =>
    rw [asked, pointing_le_iff]
    intro t ht
    obtain ⟨o, ho, ht⟩ := ht
    exact ⟨rfl, o, h.1 ptr ho, h.2 o ht⟩
  | store ptr src =>
    rw [asked, holding_le_iff]
    exact fun o ho t ht ↦ ⟨h.1 ptr ho, h.1 src ht⟩

def target? : Constraint → Option Value
  | address v _ | copy v _ | load v _ => some v
  | store _ _ => none

def origin? : Constraint → Option Storage
  | address _ o => some o
  | _ => none

end Constraint

namespace Solution

variable {s s' : Solution} {v : Value} {o : Storage} {new old all : SortedSet Storage}

def reading (s : Solution) : Flows :=
  (fun v ↦ {o | o ∈ s.pointsTo v}, fun o ↦ {t | t ∈ s.holds o})

theorem eq_of_reading (h : s.reading = s'.reading) :
    s.pointsTo = s'.pointsTo ∧ s.holds = s'.holds := by
  obtain ⟨hpoints, hholds⟩ := Prod.ext_iff.1 h
  exact ⟨funext fun v ↦ SortedSet.ext fun o ↦ Set.ext_iff.1 (congrFun hpoints v) o,
    funext fun o ↦ SortedSet.ext fun t ↦ Set.ext_iff.1 (congrFun hholds o) t⟩

theorem reading_empty_le (r : Flows) : (∅ : Solution).reading ≤ r :=
  ⟨fun _ o ho ↦ absurd ho (SortedSet.not_mem_empty o),
    fun _ t ht ↦ absurd ht (SortedSet.not_mem_empty t)⟩

theorem widen_eq_none_iff : widen old new = none ↔ ∀ o ∈ new, o ∈ old := by
  rw [widen, ← SortedSet.isSubset_iff]
  split <;> simp_all

theorem widen_eq_some (h : widen old new = some all) :
    all = old ∪ new ∧ ¬ ∀ o ∈ new, o ∈ old := by
  rw [widen] at h
  split at h
  · cases h
  · next hnew =>
    rw [SortedSet.isSubset_iff] at hnew
    exact ⟨(Option.some.inj h).symm, hnew⟩

theorem point_eq_none_iff : s.point v new = none ↔ Flows.pointing v {o | o ∈ new} ≤ s.reading := by
  rw [point, Option.map_eq_none_iff, widen_eq_none_iff, Flows.pointing_le_iff]
  rfl

theorem hold_eq_none_iff :
    s.hold o new = none ↔ Flows.holding {o} {t | t ∈ new} ≤ s.reading := by
  rw [hold, Option.map_eq_none_iff, widen_eq_none_iff, Flows.holding_le_iff]
  simp only [Set.mem_singleton_iff, forall_eq]
  rfl

theorem reading_of_point (h : s.point v new = some s') :
    s'.reading = s.reading ⊔ Flows.pointing v {o | o ∈ new} := by
  obtain ⟨all, hall, rfl⟩ := Option.map_eq_some_iff.1 h
  obtain ⟨rfl, -⟩ := widen_eq_some hall
  refine Prod.ext (funext fun w ↦ Set.ext fun o ↦ ?_) (funext fun t ↦ ?_)
  · change o ∈ ((s.points.insert v (s.pointsTo v ∪ new)).get? w).getD ∅ ↔
      o ∈ s.pointsTo w ∨ w = v ∧ o ∈ new
    rw [SortedMap.get?_insert]
    by_cases hw : v = w
    · subst hw
      simp
    · rw [if_neg hw, or_iff_left fun hv ↦ hw hv.1.symm]
      rfl
  · exact (Set.union_empty _).symm

theorem reading_of_hold (h : s.hold o new = some s') :
    s'.reading = s.reading ⊔ Flows.holding {o} {t | t ∈ new} := by
  obtain ⟨all, hall, rfl⟩ := Option.map_eq_some_iff.1 h
  obtain ⟨rfl, -⟩ := widen_eq_some hall
  refine Prod.ext (funext fun w ↦ ?_) (funext fun u ↦ Set.ext fun t ↦ ?_)
  · exact (Set.union_empty _).symm
  · change t ∈ ((s.contents.insert o (s.holds o ∪ new)).get? u).getD ∅ ↔
      t ∈ s.holds u ∨ u = o ∧ t ∈ new
    rw [SortedMap.get?_insert]
    by_cases hu : o = u
    · subst hu
      simp
    · rw [if_neg hu, or_iff_left fun hv ↦ hu hv.1.symm]
      rfl

theorem reading_of_round_hold (new : SortedSet Storage) (l : List Storage) (s : Solution) :
    ((Rounds.round (fun t o ↦ t.hold o new) l s).getD s).reading =
      s.reading ⊔ Flows.holding {o | o ∈ l} {t | t ∈ new} := by
  have holding_cons (o : Storage) (l : List Storage) : Flows.holding {u | u ∈ o :: l} {t | t ∈ new} =
      Flows.holding {o} {t | t ∈ new} ⊔ Flows.holding {u | u ∈ l} {t | t ∈ new} := by
    refine Prod.ext (funext fun _ ↦ (Set.union_empty _).symm) (funext fun u ↦ Set.ext fun t ↦ ?_)
    change u ∈ o :: l ∧ t ∈ new ↔ u = o ∧ t ∈ new ∨ u ∈ l ∧ t ∈ new
    rw [List.mem_cons, or_and_right]
  induction l generalizing s with
  | nil =>
    refine (sup_eq_left.2 ?_).symm
    rw [Flows.holding_le_iff]
    exact fun o ho ↦ absurd ho List.not_mem_nil
  | cons o l ih =>
    rw [Rounds.round, holding_cons, ← sup_assoc]
    cases h : s.hold o new with
    | none =>
      rw [sup_eq_left.2 (hold_eq_none_iff.1 h)]
      exact ih s
    | some t =>
      rw [← reading_of_hold h]
      exact ih t

theorem asked_reading_load {ptr : Value} :
    (Constraint.load v ptr).asked s.reading = Flows.pointing v {o | o ∈ s.behind ptr} := by
  refine congrArg (Flows.pointing v) (Set.ext fun t ↦ ?_)
  change (∃ o, o ∈ s.pointsTo ptr ∧ t ∈ s.holds o) ↔ t ∈ s.behind ptr
  rw [behind, SortedSet.mem_ofList, List.mem_flatMap]
  rfl

theorem asked_reading_address :
    (Constraint.address v o).asked s.reading = Flows.pointing v {t | t ∈ SortedSet.ofList [o]} := by
  refine congrArg (Flows.pointing v) (Set.ext fun t ↦ ?_)
  simp

variable {c : Constraint}

theorem apply_eq_none_iff : s.apply c = none ↔ c.Holds s.reading := by
  rw [Constraint.Holds]
  cases c with
  | address v o => rw [apply, point_eq_none_iff, asked_reading_address]
  | copy dst src => exact point_eq_none_iff
  | load dst ptr => rw [apply, point_eq_none_iff, asked_reading_load]
  | store ptr src =>
    rw [apply, Rounds.round_eq_none_iff, Constraint.asked, Flows.holding_le_iff]
    refine forall₂_congr fun o _ ↦ ?_
    rw [hold_eq_none_iff, Flows.holding_le_iff]
    simp only [Set.mem_singleton_iff, forall_eq]
    rfl

theorem reading_of_apply (h : s.apply c = some s') : s'.reading = s.reading ⊔ c.asked s.reading := by
  cases c with
  | address v o => rw [asked_reading_address, reading_of_point h]
  | copy dst src => exact reading_of_point h
  | load dst ptr => rw [asked_reading_load, reading_of_point h]
  | store ptr src =>
    have hround := reading_of_round_hold (s.pointsTo src) (s.pointsTo ptr).toList s
    rw [apply] at h
    rw [h] at hround
    exact hround

theorem reading_lt_of_apply (h : s.apply c = some s') : s.reading < s'.reading := by
  rw [reading_of_apply h, left_lt_sup]
  intro hc
  rw [apply_eq_none_iff.2 hc] at h
  cases h

theorem reading_le_of_apply {r : Flows} (h : s.apply c = some s') (hs : s.reading ≤ r)
    (hc : c.Holds r) : s'.reading ≤ r := by
  rw [reading_of_apply h]
  exact sup_le hs ((Constraint.asked_mono hs).trans hc)

section Bound

variable (cs : List Constraint)

def targets : Finset Value := (cs.filterMap Constraint.target?).toFinset

def origins : Finset Storage := (cs.filterMap Constraint.origin?).toFinset

/-- All that can be found at all: targets point to origins, and origins hold origins. -/
def ceiling : Flows :=
  (fun v ↦ {o | v ∈ targets cs ∧ o ∈ origins cs}, fun o ↦ {t | o ∈ origins cs ∧ t ∈ origins cs})

variable {cs}

theorem mem_targets (hc : c ∈ cs) (hv : c.target? = some v) : v ∈ targets cs :=
  List.mem_toFinset.2 (List.mem_filterMap.2 ⟨c, hc, hv⟩)

theorem mem_origins (hc : c ∈ cs) (ho : c.origin? = some o) : o ∈ origins cs :=
  List.mem_toFinset.2 (List.mem_filterMap.2 ⟨c, hc, ho⟩)

theorem holds_ceiling (hc : c ∈ cs) : c.Holds (ceiling cs) := by
  cases c with
  | address v o => exact Constraint.holds_address.2 ⟨mem_targets hc rfl, mem_origins hc rfl⟩
  | copy dst src => exact Constraint.holds_copy.2 fun o ho ↦ ⟨mem_targets hc rfl, ho.2⟩
  | load dst ptr => exact Constraint.holds_load.2 fun o _ t ht ↦ ⟨mem_targets hc rfl, ht.2⟩
  | store ptr src => exact Constraint.holds_store.2 fun o ho t ht ↦ ⟨ho.2, ht.2⟩

/-- What is below the ceiling and has not been found. -/
def missing (cs : List Constraint) (s : Solution) : Finset (Value × Storage ⊕ Storage × Storage) :=
  ((targets cs ×ˢ origins cs).filter fun f ↦ f.2 ∉ s.pointsTo f.1).disjSum
    ((origins cs ×ˢ origins cs).filter fun f ↦ f.2 ∉ s.holds f.1)

theorem card_missing_le (s : Solution) : (missing cs s).card ≤ 2 * (cs.length * cs.length) := by
  have htargets : (targets cs).card ≤ cs.length :=
    (List.toFinset_card_le _).trans (List.length_filterMap_le _ _)
  have horigins : (origins cs).card ≤ cs.length :=
    (List.toFinset_card_le _).trans (List.length_filterMap_le _ _)
  have hpoints : ((targets cs ×ˢ origins cs).filter fun f ↦ f.2 ∉ s.pointsTo f.1).card ≤
      cs.length * cs.length := by
    refine (Finset.card_filter_le _ _).trans ?_
    rw [Finset.card_product]
    exact Nat.mul_le_mul htargets horigins
  have hholds : ((origins cs ×ˢ origins cs).filter fun f ↦ f.2 ∉ s.holds f.1).card ≤
      cs.length * cs.length := by
    refine (Finset.card_filter_le _ _).trans ?_
    rw [Finset.card_product]
    exact Nat.mul_le_mul horigins horigins
  rw [missing, Finset.card_disjSum]
  omega

theorem card_missing_lt (h : s.reading < s'.reading) (hs' : s'.reading ≤ ceiling cs) :
    (missing cs s').card < (missing cs s).card := by
  obtain ⟨hle, hnot⟩ := lt_iff_le_not_ge.1 h
  refine Finset.card_lt_card (Finset.ssubset_iff_subset_ne.2 ⟨?_, fun heq ↦ hnot ?_⟩)
  · refine Finset.disjSum_mono (Finset.monotone_filter_right _ ?_) (Finset.monotone_filter_right _ ?_)
    · exact fun f _ hf hmem ↦ hf (hle.1 f.1 hmem)
    · exact fun f _ hf hmem ↦ hf (hle.2 f.1 hmem)
  · constructor
    · intro v o ho
      by_contra hmissing
      have hmem : Sum.inl (v, o) ∈ missing cs s := by
        simp only [missing, Finset.inl_mem_disjSum, Finset.mem_filter, Finset.mem_product]
        exact ⟨hs'.1 v ho, hmissing⟩
      rw [← heq] at hmem
      simp only [missing, Finset.inl_mem_disjSum, Finset.mem_filter] at hmem
      exact hmem.2 ho
    · intro o t ht
      by_contra hmissing
      have hmem : Sum.inr (o, t) ∈ missing cs s := by
        simp only [missing, Finset.inr_mem_disjSum, Finset.mem_filter, Finset.mem_product]
        exact ⟨hs'.2 o ht, hmissing⟩
      rw [← heq] at hmem
      simp only [missing, Finset.inr_mem_disjSum, Finset.mem_filter] at hmem
      exact hmem.2 ht

end Bound

/-- Rounds over the constraints stop at the least flows that satisfy all of them. -/
theorem solve_eq_ok (cs : List Constraint) :
    ∃ s, solve cs = .ok s ∧ IsLeast {r | ∀ c ∈ cs, c.Holds r} s.reading := by
  have lowers (s s' : Solution) (hs : s.reading ∈ lowerBounds {r | ∀ c ∈ cs, c.Holds r})
      (h : Rounds.Changes apply cs s s') :
      s'.reading ∈ lowerBounds {r | ∀ c ∈ cs, c.Holds r} ∧
        (missing cs s').card < (missing cs s).card := by
    obtain ⟨c, hc, h⟩ := h
    have hs' : s'.reading ∈ lowerBounds {r | ∀ c ∈ cs, c.Holds r} :=
      fun r hr ↦ reading_le_of_apply h (hs hr) (hr c hc)
    exact ⟨hs', card_missing_lt (reading_lt_of_apply h) (hs' fun _ ↦ holds_ceiling)⟩
  have hstart : (∅ : Solution).reading ∈ lowerBounds {r | ∀ c ∈ cs, c.Holds r} :=
    fun r _ ↦ reading_empty_le r
  obtain ⟨s, hsolve, hs, hdone⟩ := Rounds.settle_eq_ok (P := fun s : Solution ↦
    s.reading ∈ lowerBounds {r | ∀ c ∈ cs, c.Holds r}) lowers hstart
    (Nat.lt_succ_of_le (card_missing_le ∅))
  exact ⟨s, hsolve, fun c hc ↦ apply_eq_none_iff.1 (hdone c hc), hs⟩

end Solution

end Durability
