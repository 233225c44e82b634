import Durability.Proofs.Window.Partition
import Durability.Proofs.WindowGraph.Exact
import Durability.Proofs.WindowGraph.Walk

namespace Durability.WindowGraph

variable {p : Program} {pts : PointsTo} {env : Surroundings} {first last : Event}
  {g : WindowGraph} {n m : Nat} {w v : Window} {l l' : List InstrId}

/-- The nodes of a context are apart from each other, and the node of the second event is the one whose
window holds the anchor of that event in its context. -/
structure Apart (p : Program) (g : WindowGraph) : Prop where
  instrs : ∀ n w, g.windowAt? n = some w → ∃ l, w.instrs p = .ok l
  disjoint : ∀ n m w v l l', g.windowAt? n = some w → g.windowAt? m = some v →
    w.context = v.context → w.instrs p = .ok l → v.instrs p = .ok l' → n = m ∨ l.Disjoint l'
  stopNode : ∀ n w l, g.windowAt? n = some w → w.instrs p = .ok l →
    (g.stopNode = some n ↔ w.context = g.stop.context ∧ g.stop.anchor ∈ l)
  ends : ∀ n, g.stopNode = some n → n ∈ g.leaves ∧ ∀ m, m ∉ g.children n

namespace Complete

variable (hg : g.Complete p pts) (hn : g.windowAt? n = some w) (hl : w.instrs p = .ok l)

include hg hn hl

theorem spans_of_instrs : w.Spans p l := by
  obtain ⟨l', hspans⟩ := (hg.sound.fits n w hn).1.spans
  exact hspans.instrs_eq_ok hl ▸ hspans

variable (hv : p.Valid) (once : p.ListsOnce)

include hv once

theorem eq_or_disjoint (hm : g.windowAt? m = some v) (hcontext : w.context = v.context)
    (hl' : v.instrs p = .ok l') : n = m ∨ l.Disjoint l' := by
  refine or_iff_not_imp_left.2 fun hne i hi hi' ↦ hne ?_
  have hfirst := (hg.spans_of_instrs hn hl).first_eq hv once (hg.spans_of_instrs hm hl') hi hi'
  exact hg.sound.distinct n m w v hn hm (Window.same_iff.2 ⟨hcontext, hfirst⟩)

theorem stopNode_eq_some_iff_mem :
    g.stopNode = some n ↔ w.context = g.stop.context ∧ g.stop.anchor ∈ l := by
  have hspans := hg.spans_of_instrs hn hl
  rw [← beq_iff_eq, ← isStop]
  constructor
  · intro hstop
    obtain ⟨hmem, hcontext⟩ := hg.mem_of_isStop hn hstop hspans
    exact ⟨hcontext, hmem⟩
  · intro h
    obtain ⟨hcontext, hmem⟩ := h
    obtain ⟨l', hstop, hmem'⟩ := hg.stop
    rw [hg.isStop_eq hn, Window.same_iff]
    exact ⟨hcontext, hspans.first_eq hv once hstop hmem hmem'⟩

end Complete

theorem construct_apart (hv : env.program.Valid) (once : env.program.ListsOnce)
    (hindex : LocationIndex.ofProgram env.program = .ok env.index)
    (h : construct env pts first last = .ok g) : g.Apart env.program where
  instrs n w hn := Program.scanTo_of_scanForward ((construct_exact h).1.windows n w hn)
  disjoint n m w v l l' hn hm hcontext hl hl' :=
    (construct_complete hv once hindex h).eq_or_disjoint hn hl hv once hm hcontext hl'
  stopNode n w l hn hl :=
    (construct_complete hv once hindex h).stopNode_eq_some_iff_mem hn hl hv once
  ends n hn := by
    obtain ⟨hsearched, -⟩ := construct_searched h
    obtain ⟨w, hw, hkey⟩ := hsearched.stopNode_eq_some_iff.1 hn
    obtain ⟨-, -, hleaf, hnone⟩ | ⟨hne, -⟩ := hsearched.visited n w hw List.not_mem_nil
    · exact ⟨hleaf, hnone⟩
    · exact absurd hkey hne

/-- Where no block lists an instruction twice, windows divide every block, whatever the context, and the
window around anything that a block lists is one of these. The windows of a graph overlap in no context, so
the anchor of the second event tells its window. -/
theorem windows_partition (hv : p.validate = .ok ()) (once : p.ListsOnce) :
    (∀ b B c, p.block b = .ok B → ∃ ws, Window.Partition p c B ws) ∧
    ∀ env pts first last g, env.program = p → LocationIndex.ofProgram p = .ok env.index →
      construct env pts first last = .ok g →
        g.Apart p ∧ ∃ t t', Window.ofEvent env last t = (.ok g.stop, t') := by
  have hv := Program.validate_eq_ok_iff.1 hv
  refine ⟨fun b B c hB ↦ Window.exists_partition hv once hB c, ?_⟩
  rintro env pts first last g rfl hindex h
  obtain ⟨-, t, t', -, hlast⟩ := construct_exact h
  exact ⟨construct_apart hv once hindex h, t, t', hlast⟩

theorem windows_partition_acrossCalls : ∃ env pts g ws,
    env.program = (Sample.acrossCalls true).program ∧
    env.program.validate = .ok () ∧ env.program.ListsOnce ∧
    Window.Partition env.program ⟨0⟩ ⟨⟨2⟩, [⟨5⟩, ⟨6⟩, ⟨7⟩, ⟨8⟩]⟩ ws ∧ ws.length = 3 ∧
    construct env pts (Sample.event .flush ("write_and_flush", 6) [("main", 20)] Sample.cacheLine false)
      (Sample.event .flush ("flush_only", 10) [("main", 22)] Sample.cacheLine false) = .ok g ∧
    g.stopNode = some 2 ∧ g.Apart env.program := by
  obtain ⟨env, pts, g, hp, hindex, hg, hstop⟩ := exists_construct (Sample.acrossCalls true).program
    (Sample.event .flush ("write_and_flush", 6) [("main", 20)] Sample.cacheLine false)
    (Sample.event .flush ("flush_only", 10) [("main", 22)] Sample.cacheLine false)
    (fun g ↦ g.stopNode = some 2) (by decide +kernel)
  have hv : env.program.validate = .ok () := by
    rw [hp]
    decide +kernel
  have once : env.program.ListsOnce := by
    rw [hp]
    decide +kernel
  obtain ⟨hblocks, hgraphs⟩ := windows_partition hv once
  have hB : env.program.block ⟨2⟩ = .ok ⟨⟨2⟩, [⟨5⟩, ⟨6⟩, ⟨7⟩, ⟨8⟩]⟩ := by
    rw [hp]
    decide +kernel
  obtain ⟨ws, hws⟩ := hblocks ⟨2⟩ _ ⟨0⟩ hB
  have hthree : ((env.program.starts [⟨5⟩, ⟨6⟩, ⟨7⟩, ⟨8⟩]).mapM
      (Window.startingAt env.program ⟨0⟩)).map List.length = .ok 3 := by
    rw [hp]
    decide +kernel
  have hlength : ws.length = 3 := by
    rw [hws.starts] at hthree
    exact Except.ok.inj hthree
  obtain ⟨happart, -⟩ := hgraphs env pts _ _ g rfl (hp ▸ hindex) hg
  exact ⟨env, pts, g, ws, hp, hv, once, hws, hlength, hg, hstop, happart⟩

end Durability.WindowGraph
