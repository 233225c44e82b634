import Durability.Proofs.Window.Total
import Durability.Proofs.WindowGraph.Exact

namespace Durability.WindowGraph

variable {p : Program} {pts : PointsTo} {t t' : ContextTable} {w : Window} {i : InstrId}
  {x : Context} {next : List WindowKey} {g : WindowGraph} {n : Nat} {todo : List Nat}
  {E : Failure RepairError → Prop}

theorem exists_targetsOf (hv : p.Valid) (hi : ∃ b m, p.StandsAt b m i) :
    ∃ l, targetsOf p i = .ok l := by
  obtain ⟨b, m, hi⟩ := hi
  obtain ⟨bs, hbs⟩ := hi.exists_successors hv
  obtain ⟨B, hB, -⟩ := id hi
  have hfirsts : ∀ b' ∈ bs, ∃ j?, p.firstInBlock b' = .ok j? := by
    intro b' hb'
    obtain ⟨B', hB', -⟩ := Program.function_of_mem_successors hv hB hbs hb'
    exact exists_bind_eq_ok hB' ⟨_, rfl⟩
  obtain ⟨js, hjs⟩ := mapM_eq_ok hfirsts
  exact exists_bind_eq_ok (hi.blockOf hv) (exists_bind_eq_ok hbs (exists_bind_eq_ok hjs ⟨_, rfl⟩))

theorem standsAt_last (hfirst : ∃ b m, p.StandsAt b m w.first)
    (hscan : p.scanForward p.walkBound w.first = .ok w.last) : ∃ b m, p.StandsAt b m w.last := by
  obtain ⟨l, hl⟩ := Program.run_of_scanForward hscan
  exact Program.standsAt_of_falls (hl.falls_of_mem hl.last_mem) hfirst

section Successors

variable (ht : t.Placed p) (hlast : ∃ b m, p.StandsAt b m w.last)
include ht hlast

theorem successors_placed (h : successors p pts t w = .ok (next, t')) : t'.Placed p := by
  obtain ⟨ins, -, ⟨f, d, i, -, -, hcall, -⟩ | ⟨x, c?, -, -, hret, -⟩ | ⟨l, -, -, -, -, rfl⟩⟩ :=
    successors_cases h
  · exact ht.doCall hlast hcall
  · exact ht.doReturn hret
  · exact ht

theorem successors_failsOnly (hE : p.Expects E) (hv : p.Valid) (hx : t.get w.context = .ok x) :
    FailsOnly E (successors p pts t w) := by
  obtain ⟨b, m, hstands⟩ := id hlast
  obtain ⟨B, ins, -, hins, -⟩ := hstands.instr hv
  have hflow : FailsOnly E (successors.flow p w t) :=
    .bind (.lift_ok (exists_targetsOf hv hlast)) fun l _ ↦ .of_ok ⟨_, rfl⟩
  rw [successors]
  refine .bind (.lift_ok ⟨ins, hins⟩) fun ins' hins' ↦ ?_
  cases hins.symm.trans (Attempt.lift_eq_ok_iff.1 hins')
  split
  · next f hop =>
    refine .bind (.lift_ok (hstands.exists_isDefinedCall hv)) fun defined hdefined ↦ ?_
    cases defined with
    | false => exact hflow
    | true =>
      have hdefined := Attempt.lift_eq_ok_iff.1 hdefined
      have hcall : p.calledFunction w.last = .ok (some f) :=
        Program.calledFunction_eq_ok_iff.2 ⟨ins, hins, hop⟩
      obtain ⟨i, hi⟩ := hv.entry_eq_ok hcall hdefined
      refine .bind (ContextTable.doCall_failsOnly hdefined hx fun name ↦ hE.recursion name w.last)
        fun r _ ↦ .bind (.lift_ok ⟨some i, hi⟩) fun i? hi? ↦ ?_
      cases hi.symm.trans (Attempt.lift_eq_ok_iff.1 hi?)
      exact .of_ok ⟨_, rfl⟩
  · refine .bind (.map (.lift_ok ⟨x, hx⟩)) fun call? hcall? ↦ ?_
    obtain ⟨y, hy, rfl⟩ := map_eq_ok_iff.1 hcall?
    cases hx.symm.trans (Attempt.lift_eq_ok_iff.1 hy)
    refine .bind (.lift_ok (ContextTable.exists_doReturn ht.toInterned hx hins)) fun r _ ↦ ?_
    split
    · next c t call hcall _ =>
      obtain ⟨b, m, hstands⟩ := ht.stands w.context x hx call (List.mem_of_getLast? hcall)
      exact .bind (.lift_ok (hstands.exists_nextInBlock hv)) fun j? _ ↦ .of_ok ⟨_, rfl⟩
    · exact .of_ok ⟨_, rfl⟩
  · exact hflow

end Successors

theorem link_failsOnly (hE : p.Expects E) (hv : p.Valid) {k : WindowKey}
    (hk : ∃ b m, p.StandsAt b m k.2) (s : Search) :
    FailsOnly E (Attempt.lift (Search.link p n s k) : Attempt RepairError Search) := by
  refine .lift (.bind ?_ fun _ _ ↦ .of_ok ⟨_, rfl⟩)
  rw [nodeAt]
  split
  · exact .of_ok ⟨_, rfl⟩
  · exact .bind (Window.startingAt_failsOnly hE hv hk) fun _ _ ↦ .of_ok ⟨_, rfl⟩

/-- What a window may begin with. -/
structure Possible (p : Program) (t : ContextTable) (k : WindowKey) : Prop where
  context : ∃ x, t.get k.1 = .ok x
  stands : ∃ b m, p.StandsAt b m k.2

/-- What holds of a graph of which the nodes in `todo` are still to be visited, and what their visits
need. -/
structure Ready (p : Program) (pts : PointsTo) (g : WindowGraph) (todo : List Nat) : Prop
    extends Searched p pts g todo where
  placed : g.contexts.Placed p
  begins : ∀ n w, g.windowAt? n = some w → Possible p g.contexts w.key

section Ready

variable (hv : p.Valid) (h : g.Ready p pts (n :: todo))
include hv h

theorem Ready.visit_failsOnly (hE : p.Expects E) : FailsOnly E (Search.visit p pts g todo n) := by
  obtain ⟨hsome, -⟩ := h.waiting n List.mem_cons_self
  obtain ⟨w, hn⟩ := Option.isSome_iff_exists.1 hsome
  obtain ⟨⟨x, hx⟩, hfirst⟩ := h.begins n w hn
  have hlast := standsAt_last hfirst (h.windows n w hn)
  obtain ⟨y, hy, rfl⟩ := Option.map_eq_some_iff.1 hn
  refine .bind (.lift_ok ⟨y, node_eq_ok_iff.2 hy⟩) fun z hz ↦ ?_
  cases (node_eq_ok_iff.2 hy).symm.trans (Attempt.lift_eq_ok_iff.1 hz)
  dsimp only
  split
  · exact .of_ok ⟨_, rfl⟩
  · refine .bind (successors_failsOnly h.placed hlast hE hv hx) fun r hr ↦ ?_
    obtain ⟨next, t⟩ := r
    obtain ⟨-, ht⟩ := successors_grows h.table hr
    dsimp only
    split
    · exact .of_ok ⟨_, rfl⟩
    · refine .foldlM (fun s k hk ↦ link_failsOnly hE hv ?_ s) _
      exact ((mem_successors_iff h.table hr (.refl t) ht).1 hk).standsAt

omit hv in
theorem Ready.visit {s : Search} (hvisit : Search.visit p pts g todo n = .ok s) :
    s.graph.Ready p pts s.frontier ∧
      (∀ k w, g.windowAt? k = some w → s.graph.windowAt? k = some w) ∧
      s.graph.nodes.length + todo.length = g.nodes.length + s.frontier.length := by
  obtain ⟨hsearched, -⟩ := h.toSearched.visit hvisit
  obtain ⟨w, hn, ⟨-, rfl⟩ | ⟨-, next, t, hnext, hlinks⟩⟩ := visit_cases hvisit
  · exact ⟨⟨hsearched, h.placed, h.begins⟩, fun _ _ hk ↦ hk, rfl⟩
  obtain ⟨⟨x, hx⟩, hfirst⟩ := h.begins n w hn
  obtain ⟨hgrows, ht⟩ := successors_grows h.table hnext
  have hplaced := successors_placed h.placed (standsAt_last hfirst (h.windows n w hn)) hnext
  have hold (k : Nat) (v : Window) (hk : g.windowAt? k = some v) : Possible p t v.key := by
    obtain ⟨⟨y, hy⟩, hstands⟩ := h.begins k v hk
    obtain ⟨z, hz, -⟩ := hgrows v.context y hy
    exact ⟨⟨z, hz⟩, hstands⟩
  obtain ⟨-, rfl⟩ | ⟨-, hlinks⟩ := hlinks
  · exact ⟨⟨hsearched, hplaced, hold⟩, fun _ _ hk ↦ hk, rfl⟩
  · have hlinks := links_of_foldlM (s := ⟨{ g with contexts := t }, todo⟩) h.indexed
      (show (g.windowAt? n).isSome by rw [hn]; rfl) hlinks
    obtain ⟨-, -, -, hcontexts⟩ := hlinks.same
    obtain ⟨new, -, -, -, hnew⟩ := hlinks.new
    refine ⟨⟨hsearched, hcontexts ▸ hplaced, fun k v hk ↦ ?_⟩, hlinks.windows, hlinks.length⟩
    rw [hcontexts]
    obtain hk | ⟨-, hmem, -⟩ := hnew k v hk
    · exact hold k v hk
    · have hcontinues := (mem_successors_iff h.table hnext (.refl t) ht).1 hmem
      obtain ⟨y, hy, -⟩ := hgrows w.context x hx
      exact ⟨hcontinues.context ht hy, hcontinues.standsAt⟩

end Ready

end Durability.WindowGraph
