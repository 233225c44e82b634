import Durability.Proofs.Redundancy.Execution
import Durability.Proofs.WindowGraph.Terminates
import Durability.Redundancy.Dot

namespace Durability

variable {env : Surroundings} {pts : PointsTo} {first last : Event}

namespace FlowProblem

variable {a : FlowProblem} {x : Findings} {w : Window} {n : Nat}

open WindowGraph

theorem exists_nodeText (hv : a.program.Valid) (h : a.graph.Ready a.program a.pts [])
    (hn : a.graph.windowAt? n = some w) : ∃ text, a.nodeText x n w = .ok text := by
  obtain ⟨⟨c, hc⟩, hfirst⟩ := h.begins n w hn
  have hfunction := h.placed.function w.context c hc
  obtain ⟨instrs, hinstrs⟩ := Program.scanTo_of_scanForward (h.windows n w hn)
  obtain ⟨rest, rfl, hrest⟩ := Program.standsAt_of_scanTo hinstrs
  have hlines : ∀ i ∈ w.first :: rest, ∃ line, a.instrLine w i = .ok line := by
    intro i hi
    obtain ⟨b, k, hstands⟩ := List.forall_mem_cons (p := fun i ↦ ∃ b k, a.program.StandsAt b k i).2
      ⟨hfirst, hrest⟩ i hi
    obtain ⟨B, ins, -, hins, -⟩ := hstands.instr hv
    exact exists_bind_eq_ok hins ⟨_, rfl⟩
  obtain ⟨lines, hlines⟩ := mapM_eq_ok hlines
  refine exists_bind_eq_ok hc (exists_bind_eq_ok
    (Program.function_eq_ok_iff.2 (List.getElem?_eq_getElem hfunction)) ?_)
  exact exists_bind_eq_ok hinstrs (exists_bind_eq_ok hlines ⟨_, rfl⟩)

theorem exists_dot (hv : env.program.Valid)
    (hindex : LocationIndex.ofProgram env.program = .ok env.index)
    (ha : FlowProblem.between env pts first last = .ok a) (x : Findings) :
    ∃ text, a.dot x = .ok text := by
  obtain ⟨hp, hpts, hg⟩ := between_eq_ok ha
  have hready := construct_ready hv hindex hg
  rw [← hp, ← hpts] at hready
  rw [← hp] at hv
  obtain ⟨nodes, hnodes⟩ := mapM_eq_ok (l := a.graph.nodes.zipIdx)
    (f := fun e ↦ do return Dot.nodeLine e.2 (← a.nodeText x e.2 e.1.window) (a.shape x e.2))
    fun e he ↦ by
      have hw : a.graph.windowAt? e.2 = some e.1.window := by
        rw [windowAt?, List.mem_zipIdx_iff_getElem?.1 he]
        rfl
      obtain ⟨text, htext⟩ := exists_nodeText (x := x) hv hready hw
      exact exists_bind_eq_ok htext ⟨_, rfl⟩
  exact exists_bind_eq_ok hnodes ⟨_, rfl⟩

end FlowProblem

end Durability
