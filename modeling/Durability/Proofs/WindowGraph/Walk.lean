import Durability.Proofs.WindowGraph.Construct

namespace Durability.WindowGraph

variable {p : Program} {pts : PointsTo} {g : WindowGraph} {n : Nat} {w : Window} {x z : Context}
  {i j : InstrId} {l before rest : List InstrId} {L : List Config}

/-- The configurations up to the second event. A walk goes on from node `n`, in whose window it has
the instructions `rest` before it. -/
inductive Walk (p : Program) (g : WindowGraph) : Nat → List InstrId → List Config → Prop
  | stop {n : Nat} {w : Window} {x : Context} {before after : List InstrId} :
      g.windowAt? n = some w → g.contexts.get w.context = .ok x → g.isStop n = true →
        Walk p g n (before ++ g.stop.anchor :: after) (before.map (Config.mk x.callStack))
  | pass {n m : Nat} {w v : Window} {x : Context} {rest l : List InstrId} {L : List Config} :
      g.windowAt? n = some w → g.contexts.get w.context = .ok x → g.isStop n = false →
        m ∈ g.children n → g.windowAt? m = some v → v.Spans p l → Walk p g m l L →
          Walk p g n rest (rest.map (Config.mk x.callStack) ++ L)

theorem Walk.cons (h : g.Walk p n rest L) (hn : g.windowAt? n = some w)
    (hx : g.contexts.get w.context = .ok x) :
    g.Walk p n (j :: rest) (⟨x.callStack, j⟩ :: L) := by
  cases h with
  | stop hn' hx' hstop =>
    cases hn.symm.trans hn'
    cases hx.symm.trans hx'
    rw [← List.cons_append, ← List.map_cons (f := Config.mk x.callStack)]
    exact .stop hn hx hstop
  | pass hn' hx' hstop hm hv hl hwalk =>
    cases hn.symm.trans hn'
    cases hx.symm.trans hx'
    exact .pass hn hx hstop hm hv hl hwalk

theorem Walk.exists_isStop (h : g.Walk p n rest L) : ∃ m, g.isStop m = true := by
  induction h with
  | stop _ _ hstop => exact ⟨_, hstop⟩
  | pass _ _ _ _ _ _ _ ih => exact ih

namespace Complete

variable (hg : g.Complete p pts) (hn : g.windowAt? n = some w)

include hg hn

theorem isStop_eq : g.isStop n = w.same g.stop := by
  rw [Bool.eq_iff_iff, isStop, beq_iff_eq]
  constructor
  · intro hstop
    obtain ⟨w', hn', hsame⟩ := hg.connected.stopNode n hstop
    cases hn.symm.trans hn'
    exact hsame
  · intro hsame
    obtain hmem | ⟨-, hstop⟩ | ⟨hsame', -⟩ := hg.sound.settled n w hn
    · cases hmem
    · exact hstop
    · cases hsame.symm.trans hsame'

theorem mem_of_isStop (hstop : g.isStop n = true) (hw : w.Spans p l) :
    g.stop.anchor ∈ l ∧ w.context = g.stop.context := by
  rw [hg.isStop_eq hn, Window.same_iff] at hstop
  obtain ⟨l', hl', hmem⟩ := hg.stop
  refine ⟨?_, hstop.1⟩
  rwa [(hw.run.unique (hstop.2 ▸ hl'.run)).1]

theorem expanded (hstop : g.isStop n = false) : g.Expanded p n w := by
  rw [hg.isStop_eq hn] at hstop
  obtain hmem | ⟨hsame, -⟩ | ⟨-, hexpanded⟩ := hg.sound.settled n w hn
  · cases hmem
  · cases hsame.symm.trans hstop
  · exact hexpanded

variable (hv : p.Valid) (once : p.ListsOnce) (hx : g.contexts.get w.context = .ok x)
  (hz : g.contexts.get g.stop.context = .ok z)

include hv once hx hz

theorem isStop_of_mem (hw : w.Spans p l) (hmem : g.stop.anchor ∈ l)
    (hstack : x.callStack = z.callStack) : g.isStop n = true := by
  obtain ⟨l', hstop, hmem'⟩ := hg.stop
  have hfirst := hw.first_eq hv once hstop hmem hmem'
  rw [hg.isStop_eq hn, Window.same_iff]
  refine ⟨hg.sound.table.eq_of_callStack hx hz rfl hstack.symm fun hnil ↦ ?_, hfirst⟩
  obtain ⟨x', hx', hroot⟩ := (hg.sound.fits n w hn).1.context
  obtain ⟨z', hz', hroot'⟩ := hg.stopFits.context
  cases hx.symm.trans hx'
  cases hz.symm.trans hz'
  have hf := hroot (hg.sound.table.parent_eq_none hx hnil)
  have hf' := hroot' (hg.sound.table.parent_eq_none hz (hstack ▸ hnil))
  rw [hfirst] at hf
  exact Option.some.inj (Except.ok.inj (hf.symm.trans hf'))

/-- An execution up to the first arrival at the second event is a walk through the graph. -/
theorem walk (hw : w.Spans p (before ++ i :: rest))
    (hexec : p.Execution ⟨x.callStack, i⟩ L ⟨z.callStack, g.stop.anchor⟩)
    (hfirst : ⟨z.callStack, g.stop.anchor⟩ ∉ L)
    (hahead : g.isStop n = true → g.stop.anchor ∈ rest) : g.Walk p n rest L := by
  -- the part of an execution that comes after a window is shorter than the whole
  induction hlength : L.length using Nat.strongRecOn generalizing n w x before i rest L with
  | ind k ih =>
    obtain ⟨inside, after, hrest, hstack, rfl⟩ | ⟨L', rfl, hleft⟩ :=
      hexec.through (hw.run.split rfl)
    · have hstop : g.isStop n = true := hg.isStop_of_mem hn hv once hx hz hw
        (by simp [hrest]) hstack.symm
      rw [hrest]
      exact .stop hn hx hstop
    · have hpass : g.isStop n = false := Bool.eq_false_iff.2 fun hstop ↦ by
        rw [(hg.mem_of_isStop hn hstop hw).2] at hx
        cases hx.symm.trans hz
        exact hfirst (List.mem_append_left _ (List.mem_map_of_mem (hahead hstop)))
      obtain ⟨⟨s, j⟩, hstep, hL⟩ := hleft.head
      obtain ⟨m, hm, v, y, hvm, rfl, hy, rfl⟩ := hg.expanded hn hpass x s j hx hstep
      obtain ⟨l, hl⟩ := (hg.sound.fits m v hvm).1.spans
      obtain ⟨rest', rfl⟩ := hl.run.eq_cons
      refine .pass hn hx hpass hm hvm hl ?_
      obtain ⟨hd, rfl⟩ | ⟨L'', rfl, hexec'⟩ := hL
      · obtain ⟨hstack, hanchor⟩ := Config.mk.inj hd
        have hstop : g.isStop m = true := hg.isStop_of_mem hvm hv once hy hz hl
          (hanchor ▸ List.mem_cons_self) hstack
        rw [hanchor]
        change g.Walk p m ([] ++ g.stop.anchor :: rest') ([].map (Config.mk y.callStack))
        exact .stop hvm hy hstop
      · change v.Spans p ([] ++ v.first :: rest') at hl
        refine Walk.cons
          (ih L''.length ?_ hvm hy hl hexec' (fun hmem ↦ ?_) (fun hstop ↦ ?_) rfl) hvm hy
        · rw [← hlength, List.length_append, List.length_cons]
          omega
        · exact hfirst (List.mem_append_right _ (List.mem_cons_of_mem _ hmem))
        · obtain ⟨hmem, hcontext⟩ := hg.mem_of_isStop hvm hstop hl
          refine (List.mem_cons.1 hmem).resolve_left fun hanchor ↦ hfirst ?_
          rw [hcontext] at hy
          cases hy.symm.trans hz
          rw [hanchor]
          exact List.mem_append_right _ List.mem_cons_self

omit hn hx in
theorem not_execution (hx : g.contexts.get g.start.context = .ok x) (hstop : g.stopNode = none) :
    ¬ p.Execution ⟨x.callStack, g.start.anchor⟩ L ⟨z.callStack, g.stop.anchor⟩ := by
  intro hexec
  have hnone : ∀ m, g.isStop m = false := fun m ↦ by simp [isStop, hstop]
  obtain ⟨L', hexec, hfirst⟩ := hexec.first
  obtain ⟨l, hl, hmem⟩ := hg.start
  obtain ⟨b, rest, rfl⟩ := List.append_of_mem hmem
  obtain ⟨m, hm⟩ := (hg.walk hg.connected.root hv once hx hz hl hexec hfirst
    (fun hroot ↦ by cases (hnone root).symm.trans hroot)).exists_isStop
  cases (hnone m).symm.trans hm

end Complete

end Durability.WindowGraph
