import Durability.Proofs.Redundancy.Execution
import Durability.Proofs.Redundancy.Interpret
import Durability.Proofs.Redundancy.Sweep
import Mathlib.Data.List.Chain

namespace Durability

open Relation

variable {env : Surroundings} {pts : PointsTo} {first last : Event} {g : WindowGraph} {n m : Nat}
  {l : List Nat}

namespace WindowGraph

def Path (g : WindowGraph) (l : List Nat) : Prop := l.IsChain fun n m ↦ m ∈ g.children n

theorem Reached.exists_path (h : g.Reached n) :
    n = root ∨ ∃ l, root ∉ l ∧ g.Path (root :: l ++ [n]) := by
  induction h with
  | refl => exact .inl rfl
  | @tail b c _ hstep ih =>
    obtain hb | ⟨l, hroot, hpath⟩ := ih
    · exact .inr ⟨[], List.not_mem_nil, .cons_cons (hb ▸ hstep) (.singleton c)⟩
    · by_cases hb : b = root
      · exact .inr ⟨[], List.not_mem_nil, .cons_cons (hb ▸ hstep) (.singleton c)⟩
      · refine .inr ⟨l ++ [b], fun hmem ↦ ?_, ?_⟩
        · obtain hmem | hmem := List.mem_append.1 hmem
          · exact hroot hmem
          · exact hb (List.mem_singleton.1 hmem).symm
        · rw [← List.cons_append, List.append_assoc]
          exact List.isChain_append_cons_cons.2 ⟨hpath, hstep, .singleton c⟩

end WindowGraph

namespace FlowProblem

open WindowGraph

variable {a : FlowProblem} {x : Findings} {good : Nat → Bool}

/-- Node `n` leaves a store to persistent storage without a flush. -/
def Spoils (a : FlowProblem) (n : Nat) : Prop :=
  a.graph.leavesUnflushed a.program a.pts n = .ok true

/-- No walk from the root to `n` that has not been at the root again has passed a spoiling node. -/
def SparedBefore (a : FlowProblem) (n : Nat) : Prop :=
  n = root ∨ ∀ l, root ∉ l → a.graph.Path (root :: l ++ [n]) → ∀ m ∈ root :: l, ¬ a.Spoils m

/-- No walk from `n` comes to a spoiling node. -/
def SparedAfter (a : FlowProblem) (n : Nat) : Prop :=
  ∀ m, TransGen (fun n m ↦ m ∈ a.graph.children n) n m → ¬ a.Spoils m

section Paths

variable (hparents : ∀ n m, n ∈ g.parents m ↔ m ∈ g.children n)
include hparents

theorem dependsOn_parents_iff :
    DependsOn isRoot g.parents n m ↔ n ≠ root ∧ n ∈ g.children m := by
  rw [DependsOn, hparents, isRoot, beq_eq_false_iff_ne]

theorem transGen_of_path (hn : n ≠ root) (hl : root ∉ l) (hpath : g.Path (m :: l ++ [n])) :
    TransGen (DependsOn isRoot g.parents) n m := by
  induction l generalizing m with
  | nil =>
    obtain ⟨hstep, -⟩ := List.isChain_cons_cons.1 hpath
    exact .single ((dependsOn_parents_iff hparents).2 ⟨hn, hstep⟩)
  | cons k l ih =>
    obtain ⟨hk, hl⟩ := List.ne_and_not_mem_of_not_mem_cons hl
    obtain ⟨hstep, hpath⟩ := List.isChain_cons_cons.1 hpath
    exact (ih hl hpath).tail ((dependsOn_parents_iff hparents).2 ⟨Ne.symm hk, hstep⟩)

theorem exists_path_of_transGen (h : TransGen (DependsOn isRoot g.parents) n m) :
    ∃ l, root ∉ l ∧ g.Path (m :: l ++ [n]) := by
  induction h with
  | @single m hstep =>
    obtain ⟨-, hstep⟩ := (dependsOn_parents_iff hparents).1 hstep
    exact ⟨[], List.not_mem_nil, .cons_cons hstep (.singleton n)⟩
  | @tail b c _ hstep ih =>
    obtain ⟨hb, hstep⟩ := (dependsOn_parents_iff hparents).1 hstep
    obtain ⟨l, hl, hpath⟩ := ih
    exact ⟨b :: l, List.not_mem_cons_of_ne_of_not_mem (Ne.symm hb) hl, .cons_cons hstep hpath⟩

theorem exists_path_through (hreached : ∀ n m, m ∈ g.children n → g.Reached n)
    (h : TransGen (DependsOn isRoot g.parents) n m) :
    n ≠ root ∧ ∃ l, root ∉ l ∧ g.Path (root :: l ++ [n]) ∧ m ∈ root :: l := by
  obtain ⟨k, hfirst, -⟩ := TransGen.head'_iff.1 h
  obtain ⟨hn, -⟩ := (dependsOn_parents_iff hparents).1 hfirst
  obtain ⟨k, -, hlast⟩ := TransGen.tail'_iff.1 h
  obtain ⟨-, hlast⟩ := (dependsOn_parents_iff hparents).1 hlast
  obtain ⟨l, hl, hpath⟩ := exists_path_of_transGen hparents h
  refine ⟨hn, ?_⟩
  obtain rfl | ⟨l', hl', hpath'⟩ := (hreached m k hlast).exists_path
  · exact ⟨l, hl, hpath, List.mem_cons_self⟩
  · by_cases hm : m = root
    · subst hm
      exact ⟨l, hl, hpath, List.mem_cons_self⟩
    refine ⟨l' ++ m :: l, fun hmem ↦ ?_, ?_, ?_⟩
    · obtain hmem | hmem := List.mem_append.1 hmem
      · exact hl' hmem
      · exact List.not_mem_cons_of_ne_of_not_mem (Ne.symm hm) hl hmem
    · rw [← List.cons_append, List.append_assoc]
      exact List.isChain_split.2 ⟨hpath', hpath⟩
    · exact List.mem_cons_of_mem _ (List.mem_append_right _ List.mem_cons_self)

end Paths

section Settled

variable (h : a.graph.Searched a.program a.pts [])
include h

theorem mem_nodeIds_of_edge (hm : m ∈ a.graph.children n) :
    n ∈ a.graph.nodeIds ∧ m ∈ a.graph.nodeIds := by
  obtain ⟨hn, hm⟩ := h.edges n m hm
  exact ⟨mem_nodeIds_iff.2 (Option.isSome_iff_exists.1 hn),
    mem_nodeIds_iff.2 (Option.isSome_iff_exists.1 hm)⟩

variable (hgood : ∀ m ∈ a.graph.nodeIds, good m = true ↔ ¬ a.Spoils m)
include hgood

theorem meetsGood_parents_iff :
    MeetsGood isRoot a.graph.parents good n ↔ a.SparedBefore n := by
  have hreached (n m : Nat) (hm : m ∈ a.graph.children n) : a.graph.Reached n := by
    obtain ⟨w, hw⟩ := mem_nodeIds_iff.1 (mem_nodeIds_of_edge h hm).1
    exact h.connected.reached n w hw
  have hmem {m : Nat} (hm : TransGen (DependsOn isRoot a.graph.parents) n m) :
      m ∈ a.graph.nodeIds := by
    obtain ⟨k, -, hlast⟩ := TransGen.tail'_iff.1 hm
    exact (mem_nodeIds_of_edge h ((dependsOn_parents_iff h.parents).1 hlast).2).1
  constructor
  · intro hmeets
    by_cases hn : n = root
    · exact .inl hn
    refine .inr fun l hl hpath m hm ↦ ?_
    obtain ⟨before, after, hsplit⟩ := List.append_of_mem hm
    rw [hsplit, List.append_assoc] at hpath
    have hafter : root ∉ after := by
      intro hmem
      cases before with
      | nil =>
        cases hsplit
        exact hl hmem
      | cons _ before =>
        cases hsplit
        exact hl (List.mem_append_right _ (List.mem_cons_of_mem _ hmem))
    have hdepends := transGen_of_path h.parents hn hafter (List.isChain_split.1 hpath).2
    exact (hgood m (hmem hdepends)).1 (hmeets m hdepends)
  · intro hspared m hm
    obtain ⟨hn, l, hl, hpath, hml⟩ := exists_path_through h.parents hreached hm
    exact (hgood m (hmem hm)).2 (hspared.resolve_left hn l hl hpath m hml)

theorem meetsGood_children_iff :
    MeetsGood (fun _ ↦ false) a.graph.children good n ↔ a.SparedAfter n := by
  have hedge : DependsOn (fun _ ↦ false) a.graph.children = fun n m ↦ m ∈ a.graph.children n :=
    funext₂ fun n m ↦ propext (and_iff_right rfl)
  rw [MeetsGood, hedge]
  refine forall₂_congr fun m hm ↦ hgood m ?_
  obtain ⟨k, -, hlast⟩ := TransGen.tail'_iff.1 hm
  exact (mem_nodeIds_of_edge h hlast).2

end Settled

theorem settleFlags_sweep (stays : Nat → Bool) (next : Nat → List Nat) (good : Nat → Bool)
    {nodes : List Nat} (hg : a.graph.Connected) (hnodes : ∀ n, n ∈ nodes ↔ n ∈ a.graph.nodeIds)
    (hnext : ∀ n m, m ∈ next n → m ∈ a.graph.nodeIds) :
    ∃ flags, a.settleFlags (sweep stays next good) nodes = .ok flags ∧
      ∀ n ∈ a.graph.nodeIds, flags.getD n false = true ↔ MeetsGood stays next good n := by
  have hlt {n : Nat} : n ∈ a.graph.nodeIds ↔ n < a.graph.nodes.length := List.mem_range
  have hset (n : Nat) (hn : n < a.graph.nodes.length) :
      (a.graph.nodeIds.map fun n ↦ a.graph.order.contains n).getD n false = true := by
    rw [List.getD_eq_getElem?_getD, List.getElem?_map, nodeIds, List.getElem?_range hn]
    exact List.contains_iff_mem.2 (hg.mem_order_iff.2 (hlt.2 hn))
  obtain ⟨flags, hflags, hmeets⟩ := settle_sweep stays next good (fun n ↦ (hnodes n).trans hlt)
    (fun n m hm ↦ hlt.1 (hnext n m hm)) ((List.length_map _).trans List.length_range) hset
  exact ⟨flags, hflags, fun n hn ↦ hmeets n (hlt.1 hn)⟩

structure Interpreted (a : FlowProblem) (x : Findings) : Prop extends x.Fits a where
  knows : ∀ n ∈ a.graph.nodeIds, x.Knows n

theorem Interpreted.not_spoils_iff (hx : a.Interpreted x) (hn : n ∈ a.graph.nodeIds) :
    (!x.spoils n) = true ↔ ¬ a.Spoils n := by
  obtain ⟨b, hb⟩ := hx.knows n hn
  rw [Findings.spoils, Spoils, hb, hx.consistent n b hb]
  cases b <;> decide

section Flags

variable (h : a.graph.Searched a.program a.pts []) (hx : a.Interpreted x) {nodes : List Nat}
  (hnodes : ∀ n, n ∈ nodes ↔ n ∈ a.graph.nodeIds)
include h hx hnodes

theorem settleFlags_cleanBefore : ∃ flags, a.settleFlags (a.cleanBefore x) nodes = .ok flags ∧
    ∀ n ∈ a.graph.nodeIds, flags.getD n false = true ↔ a.SparedBefore n := by
  obtain ⟨flags, hflags, hmeets⟩ := settleFlags_sweep isRoot a.graph.parents (!x.spoils ·)
    h.connected hnodes fun n m hm ↦ (mem_nodeIds_of_edge h ((h.parents m n).1 hm)).1
  refine ⟨flags, hflags, fun n hn ↦ (hmeets n hn).trans ?_⟩
  exact meetsGood_parents_iff h fun m hm ↦ hx.not_spoils_iff hm

theorem settleFlags_cleanAfter : ∃ flags, a.settleFlags (a.cleanAfter x) nodes = .ok flags ∧
    ∀ n ∈ a.graph.nodeIds, flags.getD n false = true ↔ a.SparedAfter n := by
  obtain ⟨flags, hflags, hmeets⟩ := settleFlags_sweep (fun _ ↦ false) a.graph.children
    (!x.spoils ·) h.connected hnodes fun n m hm ↦ (mem_nodeIds_of_edge h hm).2
  refine ⟨flags, hflags, fun n hn ↦ (hmeets n hn).trans ?_⟩
  exact meetsGood_children_iff h fun m hm ↦ hx.not_spoils_iff hm

end Flags

/-- The flags of `x` are facts about the walks of the graph. -/
structure Flagged (a : FlowProblem) (x : Findings) : Prop extends a.Interpreted x where
  inParents_iff : ∀ n ∈ a.graph.nodeIds, (x.mark n).inParents = true ↔ a.SparedBefore n
  inChildren_iff : ∀ n ∈ a.graph.nodeIds, (x.mark n).inChildren = true ↔ a.SparedAfter n

theorem Flagged.both_iff (hx : a.Flagged x) (n : Nat) (hn : n ∈ a.graph.nodeIds) :
    hasBoth x n = true ↔ a.SparedBefore n ∧ a.SparedAfter n :=
  (Bool.and_eq_true _ _).to_iff.trans (and_congr (hx.inParents_iff n hn) (hx.inChildren_iff n hn))

theorem setFlags_eq_ok (h : a.graph.Searched a.program a.pts []) (hx : a.Interpreted x) :
    ∃ x', a.setFlags x = .ok x' ∧ a.Flagged x' := by
  obtain ⟨before, hbefore, hparents⟩ :=
    settleFlags_cleanBefore h hx fun n ↦ h.connected.mem_order_iff
  obtain ⟨after, hafter, hchildren⟩ :=
    settleFlags_cleanAfter h hx fun n ↦ List.mem_reverse.trans h.connected.mem_order_iff
  refine ⟨_, bind_eq_ok_iff.2 ⟨before, hbefore, bind_eq_ok_iff.2 ⟨after, hafter, rfl⟩⟩, ?_⟩
  set x' : Findings := { x with marks := x.marks.mapIdx fun n m ↦
    { m with inParents := before.getD n false, inChildren := after.getD n false } } with hx'
  have hmark (n : Nat) : (x'.mark n).spoils = (x.mark n).spoils ∧ (n ∈ a.graph.nodeIds →
      (x'.mark n).inParents = before.getD n false ∧ (x'.mark n).inChildren = after.getD n false) := by
    rw [Findings.mark, Findings.mark, hx', List.getElem?_mapIdx]
    cases hn : x.marks[n]? with
    | none =>
      refine ⟨rfl, fun hmem ↦ ?_⟩
      have := List.getElem?_eq_none_iff.1 hn
      rw [hx.length] at this
      exact absurd (List.mem_range.1 hmem) (Nat.not_lt.2 this)
    | some m => exact ⟨rfl, fun _ ↦ ⟨rfl, rfl⟩⟩
  refine ⟨⟨⟨fun n b hb ↦ ?_, ?_⟩, fun n hn ↦ ?_⟩, fun n hn ↦ ?_, fun n hn ↦ ?_⟩
  · rw [(hmark n).1] at hb
    exact hx.consistent n b hb
  · rw [hx', List.length_mapIdx, hx.length]
  · obtain ⟨b, hb⟩ := hx.knows n hn
    exact ⟨b, (hmark n).1.trans hb⟩
  · rw [((hmark n).2 hn).1]
    exact hparents n hn
  · rw [((hmark n).2 hn).2]
    exact hchildren n hn

theorem mem_nodeIds_of_mem_boundaryNodes (hn : n ∈ a.boundaryNodes x) : n ∈ a.graph.nodeIds :=
  Traversal.mem_unvisited_of_mem_order (List.mem_of_mem_filter (List.mem_of_mem_filter hn))

section Closed

variable {S : List Nat}

theorem SparedBefore.of_closed (hclosed : ∀ k ∈ a.graph.nodeIds, ∀ m ∈ a.graph.children k,
    m = n ∨ m ∈ S → m ≠ root → k ∈ S) (hclean : ∀ m ∈ S, ¬ a.Spoils m) : a.SparedBefore n := by
  by_cases hn : n = root
  · exact .inl hn
  have hmem (l : List Nat) (k : Nat) (hl : root ∉ l) (hpath : a.graph.Path (k :: l ++ [n])) :
      ∀ m ∈ k :: l, m ∈ S := by
    induction l generalizing k with
    | nil =>
      obtain ⟨hstep, -⟩ := List.isChain_cons_cons.1 hpath
      exact List.forall_mem_singleton.2
        (hclosed k (mem_nodeIds_of_mem_children hstep) n hstep (.inl rfl) hn)
    | cons j l ih =>
      obtain ⟨hj, hl⟩ := List.ne_and_not_mem_of_not_mem_cons hl
      obtain ⟨hstep, hrest⟩ := List.isChain_cons_cons.1 hpath
      have htail := ih j hl hrest
      exact List.forall_mem_cons.2 ⟨hclosed k (mem_nodeIds_of_mem_children hstep) j hstep
        (.inr (htail j List.mem_cons_self)) (Ne.symm hj), htail⟩
  exact .inr fun l hl hpath m hm ↦ hclean m (hmem l root hl hpath m hm)

theorem SparedAfter.of_closed (hclosed : ∀ m, m = n ∨ m ∈ S → ∀ k ∈ a.graph.children m, k ∈ S)
    (hclean : ∀ m ∈ S, ¬ a.Spoils m) : a.SparedAfter n := by
  intro m hm
  refine hclean m ?_
  induction hm with
  | single hstep => exact hclosed n (.inl rfl) _ hstep
  | tail _ hstep ih => exact hclosed _ (.inr ih) _ hstep

/-- The children of the nodes are those in `edges`, and `spoils` says which nodes spoil. -/
structure Drawn (a : FlowProblem) (edges : List (List Nat)) (spoils : List Bool) : Prop where
  edges : a.graph.nodes.map (·.children.toList) = edges
  spoils : a.graph.nodeIds.map (a.graph.leavesUnflushed a.program a.pts) = spoils.map .ok

variable {edges : List (List Nat)} {spoils : List Bool} (h : a.Drawn edges spoils)
include h

theorem Drawn.children (n : Nat) : a.graph.children n = edges.getD n [] := by
  rw [← h.edges, List.getD_eq_getElem?_getD, List.getElem?_map]
  rfl

theorem Drawn.nodeIds : a.graph.nodeIds = List.range edges.length := by
  rw [← h.edges, List.length_map]
  rfl

theorem Drawn.spoils_iff (n : Nat) (hn : n < edges.length) :
    a.Spoils n ↔ spoils.getD n false = true := by
  have hget := congrArg (·[n]?) h.spoils
  simp only [List.getElem?_map, h.nodeIds, List.getElem?_range hn, Option.map_some] at hget
  obtain ⟨b, hb, hleaves⟩ := Option.map_eq_some_iff.1 hget.symm
  rw [Spoils, ← hleaves, List.getD_eq_getElem?_getD, hb, Except.ok.injEq]
  rfl

theorem Drawn.not_spoils {S : List Nat}
    (hS : ∀ m ∈ S, m < edges.length ∧ spoils.getD m false = false) : ∀ m ∈ S, ¬ a.Spoils m := by
  intro m hm
  obtain ⟨hlt, hclean⟩ := hS m hm
  rw [h.spoils_iff m hlt, hclean]
  exact Bool.false_ne_true

end Closed

theorem exists_anchors {nodes : List Nat} (hnodes : ∀ n ∈ nodes, n ∈ a.graph.nodeIds) :
    ∃ points, (nodes.mapM fun n ↦ do return (← Fault.lookup a.graph.nodes n).window.anchor :
        Analyzing (List InstrId)) x = (.ok points, x) ∧
      List.Forall₂ (fun n i ↦ ∃ w, a.graph.windowAt? n = some w ∧ w.anchor = i) nodes points := by
  induction nodes with
  | nil => exact ⟨[], rfl, .nil⟩
  | cons n nodes ih =>
    obtain ⟨hn, hnodes⟩ := List.forall_mem_cons.1 hnodes
    obtain ⟨points, hrun, hpoints⟩ := ih hnodes
    obtain ⟨y, hy⟩ : ∃ y, a.graph.nodes[n]? = some y :=
      ⟨_, List.getElem?_eq_getElem (List.mem_range.1 hn)⟩
    have hw : a.graph.windowAt? n = some y.window := by
      rw [windowAt?, hy]
      rfl
    refine ⟨y.window.anchor :: points, ?_, .cons ⟨y.window, hw, rfl⟩ hpoints⟩
    have hlookup := Fault.lookup_eq_ok_iff.2 hy
    rw [List.mapM_cons]
    refine Stateful.bind_eq_ok_iff.2 ⟨y.window.anchor, x, ?_, ?_⟩
    · exact Stateful.bind_eq_ok_iff.2 ⟨y, x, Stateful.liftFault_eq_ok_iff.2 ⟨hlookup, rfl⟩, rfl⟩
    · exact Stateful.bind_eq_ok_iff.2 ⟨points, x, hrun, rfl⟩

theorem between_searched (ha : FlowProblem.between env pts first last = .ok a) :
    a.graph.Searched a.program a.pts [] := by
  obtain ⟨hp, hpts, hg⟩ := between_eq_ok ha
  rw [hp, hpts]
  exact (construct_searched hg).1

/-- The search comes to an end: all nodes are interpreted, the flags are settled, and the boundary nodes
are named. -/
theorem exists_redundantPaths (hv : env.program.validate = .ok ())
    (ha : FlowProblem.between env pts first last = .ok a) (hx : x.Fits a) :
    ∃ points x', a.redundantPaths x = (.ok points, x') ∧ a.Flagged x' ∧
      x'.boundaries = a.boundaryNodes x' ∧
      List.Forall₂ (fun n i ↦ ∃ w, a.graph.windowAt? n = some w ∧ w.anchor = i)
        x'.boundaries points := by
  have hsearched := between_searched ha
  obtain ⟨hp, hpts, hg⟩ := between_eq_ok ha
  have hmem {n : Nat} : n ∈ a.graph.order ↔ n ∈ a.graph.nodeIds := hsearched.connected.mem_order_iff
  have hnodes (n : Nat) (hn : n ∈ a.graph.order) : n < a.graph.nodes.length ∧
      ∃ b, a.graph.leavesUnflushed a.program a.pts n = .ok b := by
    refine ⟨List.mem_range.1 (hmem.1 hn), ?_⟩
    rw [hp, hpts]
    exact construct_leavesUnflushed (Program.validate_eq_ok_iff.1 hv) hg (hmem.1 hn)
  obtain ⟨y, hy, hfits, hknows⟩ := forM_interpret hx hnodes
  obtain ⟨z, hz, hflagged⟩ :=
    setFlags_eq_ok hsearched ⟨hfits, fun n hn ↦ hknows n (.inl (hmem.2 hn))⟩
  set x' : Findings := { z with boundaries := a.boundaryNodes z }
  obtain ⟨points, hrun, hpoints⟩ := exists_anchors (a := a) (x := x')
    fun n (hn : n ∈ a.boundaryNodes z) ↦ mem_nodeIds_of_mem_boundaryNodes hn
  refine ⟨points, x', ?_, ?_, rfl, hpoints⟩
  · have hget (x : Findings) : (get : Analyzing Findings) x = (.ok x, x) :=
      Stateful.get_eq_ok_iff.2 ⟨rfl, rfl⟩
    refine Stateful.bind_eq_ok_iff.2 ⟨(), y, hy, Stateful.bind_eq_ok_iff.2 ⟨y, y, hget y, ?_⟩⟩
    refine Stateful.bind_eq_ok_iff.2 ⟨z, y, Stateful.liftFault_eq_ok_iff.2 ⟨hz, rfl⟩, ?_⟩
    exact Stateful.bind_eq_ok_iff.2
      ⟨(), x', rfl, Stateful.bind_eq_ok_iff.2 ⟨x', x', hget x', hrun⟩⟩
  · exact ⟨⟨⟨hflagged.consistent, hflagged.length⟩, hflagged.knows⟩, hflagged.inParents_iff,
      hflagged.inChildren_iff⟩

/-- The search for redundant paths comes to an end, with flags that are facts about the walks of the
graph, and sweeps in any other order come to the same flags. -/
theorem redundantPaths_flags (hv : env.program.validate = .ok ())
    (ha : FlowProblem.between env pts first last = .ok a) (hx : x.Fits a) :
    ∃ points x', a.redundantPaths x = (.ok points, x') ∧ a.Interpreted x' ∧
      (∀ n ∈ a.graph.nodeIds, ((x'.mark n).inParents = true ↔ a.SparedBefore n) ∧
        ((x'.mark n).inChildren = true ↔ a.SparedAfter n)) ∧
      ∀ nodes, (∀ n, n ∈ nodes ↔ n ∈ a.graph.nodeIds) → ∃ before after,
        a.settleFlags (a.cleanBefore x') nodes = .ok before ∧
        a.settleFlags (a.cleanAfter x') nodes = .ok after ∧
        ∀ n ∈ a.graph.nodeIds, before.getD n false = (x'.mark n).inParents ∧
          after.getD n false = (x'.mark n).inChildren := by
  have hsearched := between_searched ha
  obtain ⟨points, x', hrun, hflagged, -, -⟩ := exists_redundantPaths hv ha hx
  refine ⟨points, x', hrun, hflagged.toInterpreted,
    fun n hn ↦ ⟨hflagged.inParents_iff n hn, hflagged.inChildren_iff n hn⟩, fun nodes hnodes ↦ ?_⟩
  obtain ⟨before, hbefore, hparents⟩ :=
    settleFlags_cleanBefore hsearched hflagged.toInterpreted hnodes
  obtain ⟨after, hafter, hchildren⟩ :=
    settleFlags_cleanAfter hsearched hflagged.toInterpreted hnodes
  refine ⟨before, after, hbefore, hafter, fun n hn ↦ ⟨?_, ?_⟩⟩
  · exact Bool.eq_iff_iff.2 ((hparents n hn).trans (hflagged.inParents_iff n hn).symm)
  · exact Bool.eq_iff_iff.2 ((hchildren n hn).trans (hflagged.inChildren_iff n hn).symm)

theorem loopBesideStore_drawn : ∃ task a, RepairTask.make .usual
      Sample.loopBesideStore.program (.new .generic) = .ok task ∧
    FlowProblem.between task.toSurroundings task.pts (flushAt ("main", 11)) (flushAt ("main", 16)) =
      .ok a ∧
    task.program.validate = .ok () ∧
    a.Drawn [[1, 2], [3], [3, 4], [], [2]] [false, true, false, false, false] := by
  obtain ⟨task, a, htask, ha, -, hedges, hspoils⟩ := exists_between
    Sample.loopBesideStore.program (.new .generic) (flushAt ("main", 11)) (flushAt ("main", 16))
    (fun _ a ↦ a.graph.nodes.map (·.children.toList) = [[1, 2], [3], [3, 4], [], [2]] ∧
      a.graph.nodeIds.map (a.graph.leavesUnflushed a.program a.pts) =
        [false, true, false, false, false].map .ok)
    (by decide +kernel)
  obtain ⟨hp, -, -, -⟩ := RepairTask.make_eq_ok htask
  refine ⟨task, a, htask, ha, ?_, hedges, hspoils⟩
  rw [hp]
  decide +kernel

/-- The loop that does not store leads to the end, and past the store leads another way. -/
theorem redundantPaths_flags_loopBesideStore : ∃ task a points x', RepairTask.make .usual
      Sample.loopBesideStore.program (.new .generic) = .ok task ∧
    FlowProblem.between task.toSurroundings task.pts (flushAt ("main", 11)) (flushAt ("main", 16)) =
      .ok a ∧
    a.redundantPaths (.initial a.graph) = (.ok points, x') ∧
    (x'.mark 2).inChildren = true ∧ (x'.mark 0).inChildren = false ∧
    (x'.mark 3).inChildren = true ∧ (x'.mark 3).inParents = false := by
  obtain ⟨task, a, htask, ha, hv, hdrawn⟩ := loopBesideStore_drawn
  obtain ⟨points, x', hx', -, hflags, -⟩ := redundantPaths_flags hv ha Findings.fits_initial
  have hmem (n : Nat) (hn : n < 5) : n ∈ a.graph.nodeIds := by
    rw [hdrawn.nodeIds]
    exact List.mem_range.2 hn
  have hedge {n m : Nat} (hm : m ∈ [[1, 2], [3], [3, 4], [], [2]].getD n []) :
      m ∈ a.graph.children n := by
    rwa [hdrawn.children]
  have hstore : a.Spoils 1 := (hdrawn.spoils_iff 1 (by decide)).2 rfl
  have hloop : a.SparedAfter 2 := by
    refine .of_closed (S := [2, 3, 4]) ?_ (hdrawn.not_spoils (by decide))
    simp only [hdrawn.children]
    simp
  have hend : a.SparedAfter 3 := by
    refine .of_closed (S := []) ?_ (List.forall_mem_nil _)
    simp only [hdrawn.children]
    simp
  refine ⟨task, a, points, x', htask, ha, hx', (hflags 2 (hmem 2 (by decide))).2.2 hloop, ?_,
    (hflags 3 (hmem 3 (by decide))).2.2 hend, ?_⟩
  · refine Bool.eq_false_iff.2 fun hspared ↦ ?_
    exact (hflags 0 (hmem 0 (by decide))).2.1 hspared 1 (.single (hedge (by decide))) hstore
  · refine Bool.eq_false_iff.2 fun hspared ↦ ?_
    obtain hroot | hwalks := (hflags 3 (hmem 3 (by decide))).1.1 hspared
    · cases hroot
    · refine hwalks [1] (by decide) ?_ 1 (by decide) hstore
      exact .cons_cons (hedge (by decide)) (.cons_cons (hedge (by decide)) (.singleton 3))

end FlowProblem

end Durability
