import Durability.Traversal
import Mathlib.Logic.Relation

namespace Durability.Traversal

open Relation

variable {next : Nat → List Nat} {unvisited queue : List Nat} {n m : Nat}

theorem mem_unvisited_of_mem_order (hn : n ∈ order next unvisited queue) : n ∈ unvisited := by
  induction unvisited, queue using order.induct next with
  | case1 =>
    rw [order] at hn
    cases hn
  | case2 unvisited k queue hk ih =>
    rw [order, if_pos hk] at hn
    obtain rfl | hn := List.mem_cons.1 hn
    · exact hk
    · exact List.mem_of_mem_erase (ih hn)
  | case3 unvisited k queue hk ih =>
    rw [order, if_neg hk] at hn
    exact ih hn

theorem mem_order_of_mem_queue (hn : n ∈ queue) (hmem : n ∈ unvisited) :
    n ∈ order next unvisited queue := by
  induction unvisited, queue using order.induct next with
  | case1 => cases hn
  | case2 unvisited k queue hk ih =>
    rw [order, if_pos hk]
    by_cases hnk : n = k
    · exact hnk ▸ List.mem_cons_self
    · have hn := List.mem_of_ne_of_mem hnk hn
      exact List.mem_cons_of_mem k
        (ih (List.mem_append_left _ hn) ((List.mem_erase_of_ne hnk).2 hmem))
  | case3 unvisited k queue hk ih =>
    rw [order, if_neg hk]
    refine ih (List.mem_of_ne_of_mem ?_ hn) hmem
    rintro rfl
    exact hk hmem

theorem mem_order_of_mem_next (hm : m ∈ order next unvisited queue) (hn : n ∈ next m)
    (hmem : n ∈ unvisited) : n ∈ order next unvisited queue := by
  induction unvisited, queue using order.induct next with
  | case1 =>
    rw [order] at hm
    cases hm
  | case2 unvisited k queue hk ih =>
    rw [order, if_pos hk] at hm ⊢
    by_cases hnk : n = k
    · exact hnk ▸ List.mem_cons_self
    · have hmem := (List.mem_erase_of_ne hnk).2 hmem
      obtain rfl | hm := List.mem_cons.1 hm
      · exact List.mem_cons_of_mem m (mem_order_of_mem_queue (List.mem_append_right _ hn) hmem)
      · exact List.mem_cons_of_mem k (ih hm hmem)
  | case3 unvisited k queue hk ih =>
    rw [order, if_neg hk] at hm ⊢
    exact ih hm hmem

theorem mem_order_of_reaches (hnext : ∀ a b, b ∈ next a → a ∈ unvisited)
    (h : ReflTransGen (fun a b ↦ b ∈ next a) n m) (hn : n ∈ queue) (hm : m ∈ unvisited) :
    m ∈ order next unvisited queue := by
  induction h with
  | refl => exact mem_order_of_mem_queue hn hm
  | tail _ hstep ih => exact mem_order_of_mem_next (ih (hnext _ _ hstep)) hstep hm

theorem mem_order_iff : m ∈ order next unvisited queue ↔
    ∃ n ∈ queue, n ∈ unvisited ∧ ReflTransGen (fun a b ↦ b ∈ next a ∧ b ∈ unvisited) n m := by
  constructor
  · intro hm
    induction unvisited, queue using order.induct next with
    | case1 =>
      rw [order] at hm
      cases hm
    | case2 unvisited k queue hk ih =>
      rw [order, if_pos hk] at hm
      obtain rfl | hm := List.mem_cons.1 hm
      · exact ⟨m, List.mem_cons_self, hk, .refl⟩
      · obtain ⟨n, hn, hmem, hreaches⟩ := ih hm
        have hreaches := ReflTransGen.mono
          (fun a b hb ↦ (⟨hb.1, List.mem_of_mem_erase hb.2⟩ : b ∈ next a ∧ b ∈ unvisited)) n m hreaches
        have hmem := List.mem_of_mem_erase hmem
        obtain hn | hn := List.mem_append.1 hn
        · exact ⟨n, List.mem_cons_of_mem k hn, hmem, hreaches⟩
        · exact ⟨k, List.mem_cons_self, hk, hreaches.head ⟨hn, hmem⟩⟩
    | case3 unvisited k queue hk ih =>
      rw [order, if_neg hk] at hm
      obtain ⟨n, hn, hmem, hreaches⟩ := ih hm
      exact ⟨n, List.mem_cons_of_mem k hn, hmem, hreaches⟩
  · intro hm
    obtain ⟨n, hn, hmem, hreaches⟩ := hm
    induction hreaches with
    | refl => exact mem_order_of_mem_queue hn hmem
    | tail _ hstep ih => exact mem_order_of_mem_next ih hstep.1 hstep.2

section Early

theorem mem_before_of_lt {l before after : List Nat} (hl : l.Pairwise (· < ·))
    (hsplit : l = before ++ n :: after) (hm : m ∈ l) (hlt : m < n) : m ∈ before := by
  subst hsplit
  obtain ⟨-, hafter, -⟩ := List.pairwise_append.1 hl
  obtain hm | hm := List.mem_append.1 hm
  · exact hm
  · obtain rfl | hm := List.mem_cons.1 hm
    · exact absurd hlt (Nat.lt_irrefl m)
    · exact absurd ((List.pairwise_cons.1 hafter).1 m hm) (Nat.lt_asymm hlt)

theorem split_append {l before after : List Nat} (h : queue ++ l = before ++ n :: after) :
    (∃ rest, queue = before ++ n :: rest) ∨
      ∃ rest, before = queue ++ rest ∧ l = rest ++ n :: after := by
  obtain ⟨rest, hbefore, hl⟩ | ⟨rest, hqueue, hrest⟩ := List.append_eq_append_iff.1 h
  · exact .inr ⟨rest, hbefore, hl⟩
  · cases rest with
    | nil => exact .inr ⟨[], by rw [hqueue, List.append_nil, List.append_nil], hrest.symm⟩
    | cons k rest =>
      cases hrest
      exact .inl ⟨rest, hqueue⟩

/-- The line on the way to an order in which an early node comes before all nodes of larger numbers: it
is a child of an early node of no larger number than the parents of those, and stands before them. -/
structure Lined (next : Nat → List Nat) (early : Nat → Prop) (unvisited queue : List Nat) : Prop where
  nodup : unvisited.Nodup
  found : ∀ m ∈ unvisited, early m → ∀ n k, k ∈ next n → m < k → ∃ d ≤ n, early d ∧ m ∈ next d
  line : ∀ before n after, queue = before ++ n :: after → n ∈ unvisited →
    ∀ m ∈ unvisited, early m → m < n → m ∈ before
  waits : ∀ d m, early d → d ∉ unvisited → m ∈ next d → m ∈ unvisited → m ∈ queue

variable {early : Nat → Prop} {k : Nat}

theorem Lined.not_lt (h : Lined next early unvisited (k :: queue)) (hk : k ∈ unvisited)
    (hm : m ∈ unvisited) (hearly : early m) : ¬ m < k := fun hlt ↦
  List.not_mem_nil (h.line [] k queue rfl hk m hm hearly hlt)

theorem Lined.visit (hsorted : (next k).Pairwise (· < ·))
    (h : Lined next early unvisited (k :: queue)) (hk : k ∈ unvisited) :
    Lined next early (unvisited.erase k) (queue ++ next k) := by
  have herase {m : Nat} : m ∈ unvisited.erase k ↔ m ≠ k ∧ m ∈ unvisited := h.nodup.mem_erase_iff
  refine ⟨h.nodup.erase k, fun m hm ↦ h.found m (herase.1 hm).2, ?_, fun d m hearly hd hmd hm ↦ ?_⟩
  · intro before n after hsplit hn m hm hearly hlt
    obtain ⟨-, hn⟩ := herase.1 hn
    obtain ⟨hmk, hm⟩ := herase.1 hm
    obtain ⟨rest, hqueue⟩ | ⟨rest, rfl, hrest⟩ := split_append hsplit
    · have hmem := h.line (k :: before) n rest (by rw [hqueue]; rfl) hn m hm hearly hlt
      exact List.mem_of_ne_of_mem hmk hmem
    · -- the larger node has come into line as a child of `k`
      obtain ⟨d, hd, hdearly, hmd⟩ := h.found m hm hearly k n
        (hrest ▸ List.mem_append_right rest List.mem_cons_self) hlt
      obtain rfl | hd := Nat.eq_or_lt_of_le hd
      · exact List.mem_append_right queue (mem_before_of_lt hsorted hrest hmd hlt)
      · have hvisited : d ∉ unvisited := fun hmem ↦ h.not_lt hk hmem hdearly hd
        have hwaits := h.waits d m hdearly hvisited hmd hm
        exact List.mem_append_left rest (List.mem_of_ne_of_mem hmk hwaits)
  · obtain ⟨hmk, hm⟩ := herase.1 hm
    by_cases hdk : d = k
    · exact List.mem_append_right queue (hdk ▸ hmd)
    · have hd : d ∉ unvisited := fun hmem ↦ hd (herase.2 ⟨hdk, hmem⟩)
      exact List.mem_append_left _ (List.mem_of_ne_of_mem hmk (h.waits d m hearly hd hmd hm))

theorem Lined.skip (h : Lined next early unvisited (k :: queue)) (hk : k ∉ unvisited) :
    Lined next early unvisited queue := by
  have htail {m : Nat} {l : List Nat} (hm : m ∈ k :: l) (hmem : m ∈ unvisited) : m ∈ l :=
    List.mem_of_ne_of_mem (fun hmk : m = k ↦ hk (hmk ▸ hmem)) hm
  refine ⟨h.nodup, h.found, fun before n after hsplit hn m hm hearly hlt ↦ ?_,
    fun d m hearly hd hmd hm ↦ htail (h.waits d m hearly hd hmd hm) hm⟩
  exact htail (h.line (k :: before) n after (by rw [hsplit]; rfl) hn m hm hearly hlt) hm

theorem Lined.pairwise_order (hsorted : ∀ n, (next n).Pairwise (· < ·))
    (h : Lined next early unvisited queue) :
    (order next unvisited queue).Pairwise fun n m ↦ early m → n < m := by
  induction unvisited, queue using order.induct next with
  | case1 =>
    rw [order]
    exact .nil
  | case2 unvisited k queue hk ih =>
    rw [order, if_pos hk]
    refine List.pairwise_cons.2 ⟨fun m hm hearly ↦ ?_, ih (h.visit (hsorted k) hk)⟩
    obtain ⟨hne, hm⟩ := h.nodup.mem_erase_iff.1 (mem_unvisited_of_mem_order hm)
    have hlt := h.not_lt hk hm hearly
    omega
  | case3 unvisited k queue hk ih =>
    rw [order, if_neg hk]
    exact ih (h.skip hk)

end Early

end Durability.Traversal
