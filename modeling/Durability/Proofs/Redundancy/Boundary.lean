import Durability.Proofs.Redundancy.Flags
import Durability.Proofs.WindowGraph.Discovery

namespace Durability.FlowProblem

open Relation WindowGraph

variable {env : Surroundings} {pts : PointsTo} {first last : Event} {g : WindowGraph}
  {a : FlowProblem} {x x' : Findings} {n m k : Nat} {l : List Nat} {bad : Nat → Bool}

/-- Node `n` has both flags, and a walk from the root that is at `n` only at its end passes no other
node with both. -/
structure Earliest (a : FlowProblem) (x : Findings) (n : Nat) : Prop where
  both : hasBoth x n = true
  alone : ∀ l, n ∉ root :: l → a.graph.Path (root :: l ++ [n]) →
    ∀ m ∈ root :: l, hasBoth x m = false

section Around

def Around (g : WindowGraph) (n m k : Nat) : Prop := k ∈ g.children m ∧ k ≠ n

theorem around_of_path (hn : n ∉ k :: l) (hpath : g.Path (k :: l ++ [n])) (hm : m ∈ k :: l) :
    ReflTransGen (Around g n) k m ∧ ∃ p, ReflTransGen (Around g n) m p ∧ n ∈ g.children p := by
  induction l generalizing k m with
  | nil =>
    obtain rfl := List.mem_singleton.1 hm
    exact ⟨.refl, m, .refl, (List.isChain_cons_cons.1 hpath).1⟩
  | cons j l ih =>
    obtain ⟨-, hn'⟩ := List.ne_and_not_mem_of_not_mem_cons hn
    obtain ⟨hedge, hrest⟩ := List.isChain_cons_cons.1 hpath
    have hstep : Around g n k j := ⟨hedge, fun hj ↦ hn' (hj ▸ List.mem_cons_self)⟩
    obtain rfl | hm := List.mem_cons.1 hm
    · obtain ⟨-, p, hp, hlast⟩ := ih hn' hrest List.mem_cons_self
      exact ⟨.refl, p, hp.head hstep, hlast⟩
    · obtain ⟨hfirst, hlast⟩ := ih hn' hrest hm
      exact ⟨hfirst.head hstep, hlast⟩

theorem exists_path_of_around (h : ReflTransGen (Around g n) k m) (hk : k ≠ n) (hn : n ∉ l)
    (hpath : g.Path (l ++ [k])) :
    m ≠ n ∧ ∃ l', n ∉ l ++ l' ∧ g.Path (l ++ l' ++ [m]) ∧ (l' ++ [m]).head? = some k := by
  induction h with
  | refl => exact ⟨hk, [], by rwa [List.append_nil], by rwa [List.append_nil], rfl⟩
  | @tail b c _ hstep ih =>
    obtain ⟨hb, l', hn, hpath, hhead⟩ := ih
    refine ⟨hstep.2, l' ++ [b], ?_, ?_, by rw [List.head?_append, hhead]; rfl⟩
    · rw [← List.append_assoc, List.mem_append, List.mem_singleton, not_or]
      exact ⟨hn, Ne.symm hb⟩
    · rw [← List.append_assoc, List.append_assoc, List.singleton_append]
      exact List.isChain_append_cons_cons.2 ⟨hpath, hstep.1, .singleton c⟩

theorem exists_path_past (hroot : root ≠ n) (hm : ReflTransGen (Around g n) root m)
    (hk : ReflTransGen (Around g n) m k) (hedge : n ∈ g.children k) :
    ∃ l, n ∉ root :: l ∧ g.Path (root :: l ++ [n]) ∧ m ∈ root :: l := by
  obtain ⟨hmn, l₁, hn₁, hpath₁, hhead₁⟩ := exists_path_of_around (l := []) hm hroot
    List.not_mem_nil (.singleton root)
  rw [List.nil_append] at hn₁ hpath₁
  obtain ⟨hkn, l₂, hn₂, hpath₂, hhead₂⟩ := exists_path_of_around hk hmn hn₁ hpath₁
  have hhead : (l₁ ++ (l₂ ++ [k])).head? = some root := by
    rw [List.head?_append, hhead₂]
    rwa [List.head?_append] at hhead₁
  obtain ⟨l, hl⟩ : ∃ l, l₁ ++ (l₂ ++ [k]) = root :: l := by
    rw [List.head?_eq_some_iff] at hhead
    exact hhead
  refine ⟨l, ?_, ?_, ?_⟩
  · rw [← hl, ← List.append_assoc, List.mem_append, List.mem_singleton, not_or]
    exact ⟨hn₂, Ne.symm hkn⟩
  · rw [← hl, ← List.append_assoc, List.append_assoc, List.singleton_append]
    exact List.isChain_append_cons_cons.2 ⟨hpath₂, hedge, .singleton n⟩
  · rw [← hl]
    exact List.mem_append_right l₁ (List.mem_of_head? hhead₂)

end Around

section Ancestor

variable (h : a.graph.Searched a.program a.pts []) (hn : n ≠ root)
include h hn

theorem mem_before_iff : m ∈ Traversal.order a.graph.children (a.graph.nodeIds.erase n) [root] ↔
    ReflTransGen (Around a.graph n) root m := by
  have herase {m : Nat} : m ∈ a.graph.nodeIds.erase n ↔ m ≠ n ∧ m ∈ a.graph.nodeIds :=
    List.Nodup.mem_erase_iff List.nodup_range
  have hroot : root ∈ a.graph.nodeIds.erase n :=
    herase.2 ⟨Ne.symm hn, mem_nodeIds_iff.2 ⟨a.graph.start, h.connected.root⟩⟩
  have hedge : (fun m k ↦ k ∈ a.graph.children m ∧ k ∈ a.graph.nodeIds.erase n) =
      Around a.graph n := by
    funext m k
    refine propext (and_congr_right fun hk ↦ ?_)
    rw [herase]
    exact and_iff_left (mem_nodeIds_of_edge h hk).2
  rw [Traversal.mem_order_iff, hedge]
  constructor
  · intro hm
    obtain ⟨k, hk, -, hm⟩ := hm
    rwa [List.mem_singleton.1 hk] at hm
  · exact fun hm ↦ ⟨root, List.mem_singleton.2 rfl, hroot, hm⟩

/-- The search back from the parents of `n` goes through the walks that lead to `n`. -/
theorem mem_ancestors_iff :
    m ∈ Traversal.order a.graph.parents
        (Traversal.order a.graph.children (a.graph.nodeIds.erase n) [root]) (a.graph.parents n) ↔
      ReflTransGen (Around a.graph n) root m ∧
        ∃ k, ReflTransGen (Around a.graph n) m k ∧ n ∈ a.graph.children k := by
  rw [Traversal.mem_order_iff]
  simp only [mem_before_iff h hn, h.parents]
  constructor
  · intro hm
    obtain ⟨k, hk, hbefore, hm⟩ := hm
    suffices ReflTransGen (Around a.graph n) root m ∧ ReflTransGen (Around a.graph n) m k from
      ⟨this.1, k, this.2, hk⟩
    induction hm with
    | refl => exact ⟨hbefore, .refl⟩
    | @tail b c _ hstep ih =>
      obtain ⟨hb, hbk⟩ := ih
      have hbn : b ≠ n := (exists_path_of_around (l := []) hb (Ne.symm hn) List.not_mem_nil
        (.singleton root)).1
      exact ⟨hstep.2, hbk.head ⟨hstep.1, hbn⟩⟩
  · intro hm
    obtain ⟨hbefore, k, hmk, hk⟩ := hm
    refine ⟨k, hk, hbefore.trans hmk, ?_⟩
    clear hk
    induction hmk with
    | refl => exact .refl
    | @tail b c hmb hstep ih => exact ih.head ⟨hstep.1, hbefore.trans hmb⟩

end Ancestor

theorem hasRedundantAncestor_iff (h : a.graph.Searched a.program a.pts []) :
    a.hasRedundantAncestor x n = true ↔ ∃ l, n ∉ root :: l ∧ a.graph.Path (root :: l ++ [n]) ∧
      ∃ m ∈ root :: l, hasBoth x m = true := by
  rw [hasRedundantAncestor]
  by_cases hn : n = root
  · have hroot : isRoot n = true := beq_iff_eq.2 hn
    rw [if_pos hroot]
    exact iff_of_false Bool.false_ne_true fun ⟨_, hmem, _⟩ ↦ hmem (hn ▸ List.mem_cons_self)
  · have hroot : ¬ isRoot n = true := fun hroot ↦ hn (beq_iff_eq.1 hroot)
    rw [if_neg hroot, List.any_eq_true]
    simp only [mem_ancestors_iff h hn]
    constructor
    · intro hm
      obtain ⟨m, ⟨hbefore, k, hmk, hk⟩, hboth⟩ := hm
      obtain ⟨l, hnl, hpath, hm⟩ := exists_path_past (Ne.symm hn) hbefore hmk hk
      exact ⟨l, hnl, hpath, m, hm, hboth⟩
    · intro hm
      obtain ⟨l, hnl, hpath, m, hm, hboth⟩ := hm
      exact ⟨m, around_of_path hnl hpath hm, hboth⟩

section Early

/-- A node that has been discovered through nodes that are not bad. -/
inductive Early (g : WindowGraph) (bad : Nat → Bool) : Nat → Prop
  | start : Early g bad root
  | child {d m : Nat} : Early g bad d → bad d = false → m ∈ g.children d →
      (∀ n m', m' ∈ g.children n → m ≤ m' → d ≤ n) → Early g bad m

theorem exists_discovery (h : g.Discovered k []) (hn : n ∈ g.nodeIds) :
    n = root ∨ ∃ l, n ∉ root :: l ∧ g.Path (root :: l ++ [n]) ∧
      ((∀ m ∈ root :: l, bad m = false) → Early g bad n) := by
  suffices n = root ∨ ∃ l, (∀ m ∈ root :: l, m < n) ∧ g.Path (root :: l ++ [n]) ∧
      ((∀ m ∈ root :: l, bad m = false) → Early g bad n) by
    refine this.imp_right fun ⟨l, hlt, hrest⟩ ↦ ⟨l, fun hmem ↦ ?_, hrest⟩
    exact Nat.lt_irrefl n (hlt n hmem)
  -- the parent that `n` is discovered from comes earlier
  induction n using Nat.strongRecOn with
  | ind n ih =>
    by_cases hroot : n = root
    · exact .inl hroot
    obtain ⟨d, hdn, hd, hle⟩ := h.exists_first hn hroot
    refine .inr ?_
    obtain rfl | ⟨l, hlt, hpath, hearly⟩ := ih d hdn (mem_nodeIds_of_mem_children hd)
    · refine ⟨[], fun m hm ↦ ?_, .cons_cons hd (.singleton n), fun hgood ↦ ?_⟩
      · rwa [List.mem_singleton.1 hm]
      · exact .child .start (hgood _ List.mem_cons_self) hd hle
    · refine ⟨l ++ [d], fun m hm ↦ ?_, ?_, fun hgood ↦ ?_⟩
      · rw [← List.cons_append, List.mem_append, List.mem_singleton] at hm
        obtain hm | rfl := hm
        · exact Nat.lt_trans (hlt m hm) hdn
        · exact hdn
      · rw [← List.cons_append, List.append_assoc]
        exact List.isChain_append_cons_cons.2 ⟨hpath, hd, .singleton n⟩
      · rw [← List.cons_append, List.forall_mem_append] at hgood
        exact .child (hearly hgood.1) (hgood.2 d (List.mem_singleton.2 rfl)) hd hle

theorem Early.mem_order (h : Early g bad n) (hroot : root ∈ g.nodeIds) (hn : n ∈ g.nodeIds) :
    n ∈ Traversal.order (fun n ↦ if bad n then [] else g.children n) g.nodeIds [root] := by
  induction h with
  | start => exact Traversal.mem_order_of_mem_queue (List.mem_singleton.2 rfl) hroot
  | @child d m _ hgood hd _ ih =>
    refine Traversal.mem_order_of_mem_next (ih (mem_nodeIds_of_mem_children hd)) ?_ hn
    rwa [if_neg (by rw [hgood]; exact Bool.false_ne_true)]

end Early

theorem mem_nodeIds_of_hasBoth (hx : a.Interpreted x) (hn : hasBoth x n = true) :
    n ∈ a.graph.nodeIds := by
  by_contra hmem
  have hlen : x.marks.length ≤ n := by
    rw [hx.length]
    exact Nat.not_lt.1 fun hlt ↦ hmem (List.mem_range.2 hlt)
  rw [hasBoth, Findings.mark, List.getElem?_eq_none hlen] at hn
  cases hn

section Nodes

variable (h : a.graph.Searched a.program a.pts []) (hd : a.graph.Discovered k [])
  (hx : a.Interpreted x)
include h hd hx

omit h in
theorem Earliest.early (hn : a.Earliest x n) : Early a.graph (hasBoth x) n := by
  obtain rfl | ⟨l, hnl, hpath, hearly⟩ := exists_discovery hd (mem_nodeIds_of_hasBoth hx hn.both)
  · exact .start
  · exact hearly (hn.alone l hnl hpath)

theorem mem_boundaryNodes_iff : n ∈ a.boundaryNodes x ↔ a.Earliest x n := by
  rw [boundaryNodes, List.mem_filter, candidates, List.mem_filter, Bool.not_eq_true',
    ← Bool.not_eq_true, hasRedundantAncestor_iff h]
  constructor
  · intro hn
    obtain ⟨⟨-, hboth⟩, hanc⟩ := hn
    refine ⟨hboth, fun l hnl hpath m hm ↦ Bool.eq_false_iff.2 fun hm' ↦ ?_⟩
    exact hanc ⟨l, hnl, hpath, m, hm, hm'⟩
  · intro hn
    have hmem := mem_nodeIds_of_hasBoth hx hn.both
    have hroot : root ∈ a.graph.nodeIds := mem_nodeIds_iff.2 ⟨a.graph.start, h.connected.root⟩
    refine ⟨⟨(hn.early hd hx).mem_order hroot hmem, hn.both⟩, fun hanc ↦ ?_⟩
    obtain ⟨l, hnl, hpath, m, hm, hboth⟩ := hanc
    exact Bool.false_ne_true ((hn.alone l hnl hpath m hm).symm.trans hboth)

theorem boundaryNodes_increasing : (a.boundaryNodes x).Pairwise (· < ·) := by
  have hroot : root ∈ a.graph.nodeIds := mem_nodeIds_iff.2 ⟨a.graph.start, h.connected.root⟩
  have hpairwise : (Traversal.order (fun n ↦ if hasBoth x n then [] else a.graph.children n)
      a.graph.nodeIds [root]).Pairwise fun n m ↦ Early a.graph (hasBoth x) m → n < m := by
    refine Discovered.pairwise_order (fun n ↦ ?_) (fun n m hm ↦ ?_) hroot fun m hm hne ↦ ?_
    · split
      · exact .nil
      · exact children_sorted
    · split at hm
      · cases hm
      · exact hm
    · cases hm with
      | start => exact absurd rfl hne
      | @child d m hearly hgood hmd hle =>
        refine ⟨d, hearly, ?_, fun n m' hm' hlt ↦ hle n m' hm' (Nat.le_of_lt hlt)⟩
        rwa [if_neg (by rw [hgood]; exact Bool.false_ne_true)]
  exact ((hpairwise.filter _).filter _).imp_of_mem fun _ hm hlt ↦
    hlt (((mem_boundaryNodes_iff h hd hx).1 hm).early hd hx)

theorem boundaryNodes_sublist : (a.boundaryNodes x).Sublist a.graph.order := by
  rw [hd.order_eq h.connected]
  refine List.sublist_of_subperm_of_pairwise ?_ (boundaryNodes_increasing h hd hx)
    List.pairwise_lt_range
  have hnodup : (a.boundaryNodes x).Nodup := (boundaryNodes_increasing h hd hx).imp Nat.ne_of_lt
  exact hnodup.subperm fun n hn ↦ mem_nodeIds_of_mem_boundaryNodes hn

end Nodes

theorem between_discovered (ha : FlowProblem.between env pts first last = .ok a) :
    a.graph.Searched a.program a.pts [] ∧ ∃ k, a.graph.Discovered k [] :=
  ⟨between_searched ha, construct_discovered (between_eq_ok ha).2.2⟩

/-- Only nodes of both `S` and `T` can be passed on the way to `n`. -/
theorem Earliest.of_closed {S T : List Nat} (hboth : hasBoth x n = true)
    (hroot : root ∈ S)
    (hS : ∀ m ∈ S, ∀ k ∈ a.graph.children m, k ≠ n → k ∈ S)
    (hT : ∀ k ∈ a.graph.nodeIds, ∀ m ∈ a.graph.children k, m = n ∨ m ∈ T → k ∈ T)
    (hnone : ∀ m ∈ S, m ∈ T → hasBoth x m = false) : a.Earliest x n := by
  refine ⟨hboth, fun l hl hpath m hm ↦ ?_⟩
  obtain ⟨hfirst, p, hp, hlast⟩ := around_of_path hl hpath hm
  clear hm
  refine hnone m ?_ ?_
  · clear hp
    induction hfirst with
    | refl => exact hroot
    | tail _ hstep ih => exact hS _ ih _ hstep.1 hstep.2
  · clear hfirst
    induction hp using ReflTransGen.head_induction_on with
    | refl => exact hT p (mem_nodeIds_of_mem_children hlast) n hlast (.inl rfl)
    | head hstep _ ih => exact hT _ (mem_nodeIds_of_mem_children hstep.1) _ hstep.1 (.inr ih)

theorem loopBesideStore_hasBoth
    (h : a.Drawn [[1, 2], [3], [3, 4], [], [2]] [false, true, false, false, false])
    (hboth : ∀ n ∈ a.graph.nodeIds, hasBoth x n = true ↔ a.SparedBefore n ∧ a.SparedAfter n) :
    hasBoth x 0 = false ∧ hasBoth x 2 = true ∧ hasBoth x 4 = true := by
  have hflags (n : Nat) (hn : n < 5) := hboth n (by rw [h.nodeIds]; exact List.mem_range.2 hn)
  have hbefore (n : Nat) (hn : n = 2 ∨ n = 4) : a.SparedBefore n := by
    refine .of_closed (S := [0, 2, 4]) ?_ (h.not_spoils (by decide))
    simp only [h.nodeIds, h.children]
    obtain rfl | rfl := hn <;> decide
  have hafter (n : Nat) (hn : n = 2 ∨ n = 4) : a.SparedAfter n := by
    refine .of_closed (S := [2, 3, 4]) ?_ (h.not_spoils (by decide))
    simp only [h.children]
    obtain rfl | rfl := hn <;> simp
  refine ⟨Bool.eq_false_iff.2 fun hboth ↦ ?_,
    (hflags 2 (by decide)).2 ⟨hbefore 2 (.inl rfl), hafter 2 (.inl rfl)⟩,
    (hflags 4 (by decide)).2 ⟨hbefore 4 (.inr rfl), hafter 4 (.inr rfl)⟩⟩
  refine ((hflags 0 (by decide)).1 hboth).2 1 (.single ?_) ((h.spoils_iff 1 (by decide)).2 rfl)
  rw [h.children]
  decide

/-- The search for redundant paths names the nodes with both flags that are not behind another one,
each of them once and in the order of discovery. -/
theorem redundantPaths_boundaries (hv : env.program.validate = .ok ())
    (ha : FlowProblem.between env pts first last = .ok a) (hx : x.Fits a) :
    ∃ points x', a.redundantPaths x = (.ok points, x') ∧
      List.Forall₂ (fun n i ↦ ∃ w, a.graph.windowAt? n = some w ∧ w.anchor = i)
        x'.boundaries points ∧
      (∀ n, n ∈ x'.boundaries ↔ a.Earliest x' n) ∧ x'.boundaries.Nodup ∧
      x'.boundaries.Sublist a.graph.order ∧ a.graph.order = a.graph.nodeIds ∧
      ∀ n ∈ a.graph.nodeIds, hasBoth x' n = true ↔ a.SparedBefore n ∧ a.SparedAfter n := by
  obtain ⟨points, x', hrun, hflagged, hboundaries, hpoints⟩ := exists_redundantPaths hv ha hx
  obtain ⟨hsearched, k, hd⟩ := between_discovered ha
  have hx' := hflagged.toInterpreted
  refine ⟨points, x', hrun, hpoints, ?_, ?_, ?_, hd.order_eq hsearched.connected, hflagged.both_iff⟩
  · intro n
    rw [hboundaries]
    exact mem_boundaryNodes_iff hsearched hd hx'
  · rw [hboundaries]
    exact (boundaryNodes_increasing hsearched hd hx').imp Nat.ne_of_lt
  · rw [hboundaries]
    exact boundaryNodes_sublist hsearched hd hx'

/-- The head of the loop is named, and its body, which has both flags too, is not. -/
theorem redundantPaths_boundaries_loopBesideStore : ∃ task a points x', RepairTask.make .usual
      Sample.loopBesideStore.program (.new .generic) = .ok task ∧
    FlowProblem.between task.toSurroundings task.pts (flushAt ("main", 11)) (flushAt ("main", 16)) =
      .ok a ∧
    a.redundantPaths (.initial a.graph) = (.ok points, x') ∧ 2 ∈ x'.boundaries ∧
    4 ∈ a.graph.children 2 ∧ 2 ∈ a.graph.children 4 ∧ hasBoth x' 4 = true ∧ 4 ∉ x'.boundaries := by
  obtain ⟨task, a, htask, ha, hv, hdrawn⟩ := loopBesideStore_drawn
  obtain ⟨points, x', hx', -, hmem, -, -, -, hboth⟩ :=
    redundantPaths_boundaries hv ha Findings.fits_initial
  obtain ⟨hstart, hhead, hbody⟩ := loopBesideStore_hasBoth hdrawn hboth
  have hedge {n m : Nat}
      (hm : m ∈ [[1, 2], [3], [3, 4], [], [2]].getD n []) : m ∈ a.graph.children n := by
    rwa [hdrawn.children]
  refine ⟨task, a, points, x', htask, ha, hx', ?_, hedge (by decide), hedge (by decide), hbody,
    fun hnamed ↦ ?_⟩
  · refine (hmem 2).2 (.of_closed (S := [0, 1, 3]) (T := [0, 2, 4]) hhead (by decide) ?_ ?_ ?_)
    · simp only [hdrawn.children]
      decide
    · simp only [hdrawn.nodeIds, hdrawn.children]
      decide
    · simpa using hstart
  · have hwalk : a.graph.Path [0, 2, 4] :=
      .cons_cons (hedge (by decide)) (.cons_cons (hedge (by decide)) (.singleton 4))
    have hnone := ((hmem 4).1 hnamed).alone [2] (by decide) hwalk 2 (by decide)
    exact Bool.false_ne_true (hnone.symm.trans hhead)

end Durability.FlowProblem
