import Durability.Proofs.Traversal
import Durability.Proofs.Window.Event
import Durability.Proofs.WindowGraph.Search

namespace Durability

variable {a : FlowProblem} {x x' : Findings} {n m : Nat} {b : Bool} {w : Window}

namespace Findings

def Consistent (a : FlowProblem) (x : Findings) : Prop :=
  ∀ n b, (x.mark n).spoils = some b → a.graph.leavesUnflushed a.program a.pts n = .ok b

theorem consistent_initial : (Findings.initial a.graph).Consistent a := by
  intro n b h
  rw [mark, initial, List.getElem?_map] at h
  cases hn : a.graph.nodes[n]? <;> rw [hn] at h <;> cases h

theorem spoils_setSpoils : ((x.setSpoils n b).mark m).spoils =
    if n = m ∧ n < x.marks.length then some b else (x.mark m).spoils := by
  rw [mark, setSpoils, List.getElem?_modify, mark]
  cases hm : x.marks[m]? with
  | none =>
    rw [if_neg fun h ↦ ?_]
    · rfl
    · exact Nat.not_lt.2 (List.getElem?_eq_none_iff.1 hm) (h.1 ▸ h.2)
  | some y =>
    have hlt := (List.getElem?_eq_some_iff.1 hm).1
    simp only [Option.map_eq_map, Option.map_some, Option.getD_some]
    by_cases hnm : n = m
    · rw [if_pos hnm, if_pos ⟨hnm, hnm ▸ hlt⟩]
    · rw [if_neg hnm, if_neg fun h ↦ hnm h.1]

theorem Consistent.setSpoils (hx : x.Consistent a)
    (hb : a.graph.leavesUnflushed a.program a.pts n = .ok b) : (x.setSpoils n b).Consistent a := by
  intro m b' hm
  rw [spoils_setSpoils] at hm
  split at hm
  · next h =>
    cases hm
    exact h.1 ▸ hb
  · exact hx m b' hm

end Findings

namespace WindowGraph

variable {g : WindowGraph}

theorem mem_nodeIds_iff : n ∈ g.nodeIds ↔ ∃ w, g.windowAt? n = some w := by
  rw [nodeIds, List.mem_range]
  constructor
  · exact fun hn ↦ ⟨_, by rw [windowAt?, List.getElem?_eq_getElem hn]; rfl⟩
  · rintro ⟨w, hn⟩
    obtain ⟨x, hx, -⟩ := Option.map_eq_some_iff.1 hn
    exact (List.getElem?_eq_some_iff.1 hx).1

theorem mem_nodeIds_of_mem_children (h : m ∈ g.children n) : n ∈ g.nodeIds := by
  rw [nodeIds, List.mem_range]
  by_contra hn
  rw [children, List.getElem?_eq_none (Nat.not_lt.1 hn)] at h
  cases h

theorem Connected.mem_order_iff (hg : g.Connected) : n ∈ g.order ↔ n ∈ g.nodeIds := by
  constructor
  · exact Traversal.mem_unvisited_of_mem_order
  · intro hn
    obtain ⟨w, hw⟩ := mem_nodeIds_iff.1 hn
    exact Traversal.mem_order_of_reaches (fun a b ↦ mem_nodeIds_of_mem_children)
      (hg.reached n w hw) (List.mem_singleton.2 rfl) hn

end WindowGraph

namespace FlowProblem

def Clean (a : FlowProblem) : Prop :=
  ∀ n ∈ a.graph.nodeIds, a.isRelevant n = true →
    a.graph.leavesUnflushed a.program a.pts n = .ok false

instance : Decidable a.Clean :=
  inferInstanceAs (Decidable (∀ n ∈ a.graph.nodeIds, a.isRelevant n = true →
    a.graph.leavesUnflushed a.program a.pts n = .ok false))

theorem interpret_cases (x : Findings) :
    (∃ b, (x.mark n).spoils = some b ∧ a.interpret n x = (.ok b, x)) ∨
      (x.mark n).spoils = none ∧ ((∃ b, a.graph.leavesUnflushed a.program a.pts n = .ok b ∧
        a.interpret n x = (.ok b, x.setSpoils n b)) ∨
      ∃ f, a.graph.leavesUnflushed a.program a.pts n = .error f ∧
        a.interpret n x = (.error (.fault f), x)) := by
  have hget : (get : Analyzing Findings) x = (.ok x, x) := Stateful.get_eq_ok_iff.2 ⟨rfl, rfl⟩
  rw [interpret, Stateful.bind_apply, hget]
  dsimp only
  cases hspoils : (x.mark n).spoils with
  | some b => exact .inl ⟨b, rfl, rfl⟩
  | none =>
    refine .inr ⟨rfl, ?_⟩
    cases hb : a.graph.leavesUnflushed a.program a.pts n with
    | ok b => exact .inl ⟨b, rfl, rfl⟩
    | error f => exact .inr ⟨f, rfl, rfl⟩

theorem interpret_eq_ok (hx : x.Consistent a) (h : a.interpret n x = (.ok b, x')) :
    x'.Consistent a ∧ a.graph.leavesUnflushed a.program a.pts n = .ok b := by
  obtain ⟨b', hspoils, hb'⟩ | ⟨-, ⟨b', hleaves, hb'⟩ | ⟨f, -, hf⟩⟩ :=
    interpret_cases (a := a) (n := n) x
  · cases h.symm.trans hb'
    exact ⟨hx, hx n b hspoils⟩
  · cases h.symm.trans hb'
    exact ⟨hx.setSpoils hleaves, hleaves⟩
  · cases h.symm.trans hf

theorem noneSpoils_eq_ok {ns : List Nat} (hx : x.Consistent a)
    (h : a.noneSpoils ns x = (.ok true, x')) : ∀ n ∈ ns, a.isRelevant n = true →
      a.graph.leavesUnflushed a.program a.pts n = .ok false := by
  induction ns generalizing x with
  | nil => exact fun _ hn ↦ absurd hn List.not_mem_nil
  | cons m ns ih =>
    rw [noneSpoils] at h
    split at h
    · obtain ⟨b, s, hb, h⟩ := Stateful.bind_eq_ok_iff.1 h
      obtain ⟨hs, hm⟩ := interpret_eq_ok hx hb
      cases b with
      | true => cases h
      | false => exact List.forall_mem_cons.2 ⟨fun _ ↦ hm, ih hs h⟩
    · next hm => exact List.forall_mem_cons.2 ⟨fun hm' ↦ absurd hm' hm, ih hx h⟩

theorem interpret_of_leavesUnflushed (hx : x.Consistent a)
    (hb : a.graph.leavesUnflushed a.program a.pts n = .ok b) :
    ∃ x', a.interpret n x = (.ok b, x') ∧
      (x' = x ∧ (x.mark n).spoils = some b ∨ x' = x.setSpoils n b) := by
  obtain ⟨b', hspoils, hb'⟩ | ⟨-, ⟨b', hleaves, hb'⟩ | ⟨f, hleaves, -⟩⟩ :=
    interpret_cases (a := a) (n := n) x
  · cases hb.symm.trans (hx n b' hspoils)
    exact ⟨x, hb', .inl ⟨rfl, hspoils⟩⟩
  · cases hb.symm.trans hleaves
    exact ⟨x.setSpoils n b, hb', .inr rfl⟩
  · cases hb.symm.trans hleaves

theorem noneSpoils_of_leavesUnflushed {ns : List Nat} (hx : x.Consistent a)
    (h : ∀ n ∈ ns, a.isRelevant n = true →
      a.graph.leavesUnflushed a.program a.pts n = .ok false) :
    ∃ x', a.noneSpoils ns x = (.ok true, x') := by
  induction ns generalizing x with
  | nil => exact ⟨x, rfl⟩
  | cons m ns ih =>
    obtain ⟨hm, hns⟩ := List.forall_mem_cons.1 h
    rw [noneSpoils]
    split
    · next hrelevant =>
      obtain ⟨y, hy, -⟩ := interpret_of_leavesUnflushed hx (hm hrelevant)
      obtain ⟨x', hx'⟩ := ih (interpret_eq_ok hx hy).1 hns
      exact ⟨x', Stateful.bind_eq_ok_iff.2 ⟨false, y, hy, hx'⟩⟩
    · exact ih hx hns

/-- A flush is found to be always redundant exactly if no relevant node leaves anything unflushed. -/
theorem alwaysRedundant_iff (hg : a.graph.Connected) :
    (∃ x', a.alwaysRedundant (.initial a.graph) = (.ok true, x')) ↔ a.Clean := by
  simp only [Clean, ← hg.mem_order_iff]
  constructor
  · rintro ⟨x', h⟩
    obtain ⟨y, s, hget, h⟩ := Stateful.bind_eq_ok_iff.1 h
    obtain ⟨rfl, rfl⟩ := Stateful.get_eq_ok_iff.1 hget
    obtain ⟨b, s, hb, h⟩ := Stateful.bind_eq_ok_iff.1 h
    cases h
    exact noneSpoils_eq_ok Findings.consistent_initial hb
  · intro h
    obtain ⟨x', hx'⟩ := noneSpoils_of_leavesUnflushed Findings.consistent_initial h
    exact ⟨{ x' with always := some true }, Stateful.bind_eq_ok_iff.2
      ⟨_, _, Stateful.get_eq_ok_iff.2 ⟨rfl, rfl⟩, Stateful.bind_eq_ok_iff.2 ⟨true, x', hx', rfl⟩⟩⟩

end FlowProblem

end Durability
