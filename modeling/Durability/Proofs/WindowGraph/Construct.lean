import Durability.PointsTo.Solve
import Durability.Proofs.WindowGraph.Search

namespace Durability

variable {p : Program} {pts : PointsTo} {env : Surroundings} {first last : Event}
  {t t' : ContextTable} {w : Window}

def Program.Accesses (p : Program) (pts : PointsTo) (i : InstrId) (s : Storage) : Prop :=
  ∃ ins v, p.instr i = .ok ins ∧ ins.pointer? = some v ∧ s ∈ pts v

namespace WindowGraph

variable {g : WindowGraph} {n : Nat}

/-- What the search for the windows between two events ends with. -/
structure Complete (p : Program) (pts : PointsTo) (g : WindowGraph) : Prop where
  connected : g.Connected
  sound : g.Sound p (p.Accesses pts g.start.anchor) []
  start : ∃ l, g.start.Spans p l ∧ g.start.anchor ∈ l
  stop : ∃ l, g.stop.Spans p l ∧ g.stop.anchor ∈ l
  stopFits : g.stop.Fits p g.contexts

theorem ofEvents_eq_ok {s : Search} (h : Search.ofEvents env pts first last = .ok s) :
    ∃ start t₁ stop t₂ t₃, Window.ofEvent env first ∅ = (.ok start, t₁) ∧
      Window.ofEvent env last t₁ = (.ok stop, t₂) ∧ seed env.program pts start t₂ = .ok t₃ ∧
      s = .initial start stop t₃ := by
  rw [Search.ofEvents] at h
  rcases hfirst : Window.ofEvent env first ∅ with ⟨start?, t₁⟩
  rw [hfirst] at h
  obtain ⟨start, hstart, h₁⟩ := bind_eq_ok_iff.1 h
  rcases hlast : Window.ofEvent env last t₁ with ⟨stop?, t₂⟩
  rw [hlast] at h₁
  obtain ⟨stop, hstop, h₂⟩ := bind_eq_ok_iff.1 h₁
  obtain ⟨t₃, hseed, h₃⟩ := bind_eq_ok_iff.1 h₂
  cases h₃
  subst hstart hstop
  exact ⟨start, t₁, stop, t₂, t₃, rfl, hlast, Attempt.lift_eq_ok_iff.1 hseed, rfl⟩

theorem construct_eq_ok (h : construct env pts first last = .ok g) :
    ∃ s, Search.ofEvents env pts first last = .ok s ∧
      Search.run env.program pts (searchBound env.program) s = .ok g ∧
      g.checkLeaves env.program first last = .ok () := by
  obtain ⟨s, hs, h⟩ := bind_eq_ok_iff.1 h
  obtain ⟨g', hrun, h⟩ := bind_eq_ok_iff.1 h
  obtain ⟨⟨⟩, hleaves, hg⟩ := bind_eq_ok_iff.1 h
  cases hg
  exact ⟨s, hs, hrun, hleaves⟩

section Initial

variable {start stop : Window}

theorem windowAt?_initial (h : (Search.initial start stop t).graph.windowAt? n = some w) :
    n = root ∧ w = start := by
  cases n with
  | zero =>
    cases h
    exact ⟨rfl, rfl⟩
  | succ n => cases h

theorem indexed_initial : (Search.initial start stop t).graph.Indexed := by
  have hempty : Indexed ⟨[], [], start, stop, none, t, ∅⟩ := fun c i k ↦
    ⟨fun h ↦ (nomatch h), fun ⟨_, h, _⟩ ↦ (nomatch h)⟩
  exact hempty.insert rfl

theorem connected_initial : (Search.initial start stop t).graph.Connected := by
  refine ⟨rfl, fun n w hn ↦ ?_, nofun⟩
  obtain ⟨rfl, -⟩ := windowAt?_initial hn
  exact .refl

end Initial

theorem construct_connected (h : construct env pts first last = .ok g) : g.Connected := by
  obtain ⟨s, hs, hrun, -⟩ := construct_eq_ok h
  obtain ⟨start, t₁, stop, t₂, t₃, -, -, -, rfl⟩ := ofEvents_eq_ok hs
  exact (run_induction (P := fun g _ ↦ g.Connected ∧ g.Indexed)
    (fun g todo n s hg h ↦ ⟨hg.1.visit hg.2 h, hg.2.visit h⟩)
    ⟨connected_initial, indexed_initial⟩ hrun).1

theorem seed_knows (hx : ∃ x, t.get w.context = .ok x) (h : seed p pts w t = .ok t') :
    t'.Knows (p.Accesses pts w.anchor) w.context := by
  obtain ⟨ins, hins, h⟩ := bind_eq_ok_iff.1 h
  obtain ⟨x, hx⟩ := hx
  split at h
  · next hnone =>
    cases pure_eq_ok_iff.1 h
    refine ⟨x, hx, fun s hs ↦ ?_⟩
    obtain ⟨ins', v, hins', hv, -⟩ := hs
    cases hins.symm.trans hins'
    cases hnone.symm.trans hv
  · next v hv =>
    cases pure_eq_ok_iff.1 h
    refine ⟨_, ContextTable.get_update.2 ⟨x, hx, rfl⟩, fun s hs ↦ ?_⟩
    obtain ⟨ins', v', hins', hv', hs⟩ := hs
    cases hins.symm.trans hins'
    cases hv.symm.trans hv'
    rw [if_pos rfl]
    exact PmFacts.has_learn.2 (.inl hs)

theorem seed_eq_ok (ht : t.Sound p) (hw : w.Fits p t) (h : seed p pts w t = .ok t') :
    t.Grows t' ∧ t'.Sound p ∧ t'.Knows (p.Accesses pts w.anchor) w.context := by
  obtain ⟨x, hx, -⟩ := hw.context
  have hknows := seed_knows ⟨x, hx⟩ h
  obtain ⟨ins, -, h⟩ := bind_eq_ok_iff.1 h
  split at h
  · cases pure_eq_ok_iff.1 h
    exact ⟨.refl t, ht, hknows⟩
  · cases pure_eq_ok_iff.1 h
    exact ⟨ContextTable.grows_update fun pm s hs ↦ PmFacts.has_learn.2 (.inr hs), ht.update, hknows⟩

theorem construct_complete (hv : env.program.Valid) (once : env.program.ListsOnce)
    (hindex : LocationIndex.ofProgram env.program = .ok env.index)
    (h : construct env pts first last = .ok g) : g.Complete env.program pts := by
  obtain ⟨s, hs, hrun, -⟩ := construct_eq_ok h
  obtain ⟨start, t₁, stop, t₂, t₃, hfirst, hlast, hseed, rfl⟩ := ofEvents_eq_ok hs
  obtain ⟨-, hsound₁, hstart, hstartSpans⟩ := Window.ofEvent_eq_ok hv once hindex .empty hfirst
  obtain ⟨hgrows₂, hsound₂, hstop, hstopSpans⟩ := Window.ofEvent_eq_ok hv once hindex hsound₁ hlast
  obtain ⟨hgrows₃, hsound₃, hknows⟩ := seed_eq_ok hsound₂ (hstart.mono hgrows₂) hseed
  have hinitial : (Search.initial start stop t₃).graph.Sound env.program
      (env.program.Accesses pts start.anchor) [root] := by
    refine ⟨hsound₃, fun n w hn ↦ ?_, fun n m w v hn hm _ ↦ ?_, fun n w hn ↦ ?_⟩
    · obtain ⟨-, rfl⟩ := windowAt?_initial hn
      exact ⟨hstart.mono (hgrows₂.trans hgrows₃), hknows⟩
    · rw [(windowAt?_initial hn).1, (windowAt?_initial hm).1]
    · exact .inl (List.mem_singleton.2 (windowAt?_initial hn).1)
  obtain ⟨hsound, hext, -⟩ := run_induction
    (P := fun g todo ↦ g.Sound env.program (env.program.Accesses pts start.anchor) todo ∧
      (Search.initial start stop t₃).graph.Extends g ∧ g.Indexed)
    (fun g todo n s hg hvisit ↦ by
      obtain ⟨hs, hext⟩ := hg.1.visit hv once hg.2.2 hvisit
      exact ⟨hs, hg.2.1.trans hext, hg.2.2.visit hvisit⟩)
    ⟨hinitial, .refl _, indexed_initial⟩ hrun
  have hstart' : g.start = start := hext.start
  have hstop' : g.stop = stop := hext.stop
  refine ⟨construct_connected h, hstart' ▸ hsound, hstart' ▸ hstartSpans, hstop' ▸ hstopSpans, ?_⟩
  rw [hstop']
  exact (hstop.mono hgrows₃).mono hext.contexts

/-- Where the search has not come upon the second event, control can go nowhere from its leaves. -/
theorem construct_leaves (h : construct env pts first last = .ok g) : g.leaves ≠ [] ∧
    ∀ n ∈ g.leaves, g.isStop n = true ∨ g.isTerminal env.program n = .ok true := by
  obtain ⟨-, -, -, hleaves⟩ := construct_eq_ok h
  obtain ⟨⟨⟩, hsome, hall⟩ := bind_eq_ok_iff.1 hleaves
  refine ⟨fun hnil ↦ ?_, fun n hn ↦ ?_⟩
  · rw [hnil] at hsome
    cases Attempt.refuseIf_eq_ok_iff.1 hsome
  · have hn := forM_eq_ok_iff.1 hall n hn
    cases hstop : g.isStop n with
    | true => exact .inl rfl
    | false =>
      rw [hstop] at hn
      obtain ⟨terminal, hterminal, hn⟩ := bind_eq_ok_iff.1 hn
      rw [Attempt.lift_eq_ok_iff.1 hterminal]
      exact .inr (congrArg Except.ok (by simpa using Attempt.refuseIf_eq_ok_iff.1 hn))

theorem exists_analyzed (p : Program) (P : Surroundings → PointsTo → Prop)
    [∀ env pts, Decidable (P env pts)]
    (h : (do
      let index ← LocationIndex.ofProgram p
      let pts ← p.pointsTo
      return decide (P ⟨p, index, .usual⟩ pts) : Except Fault Bool) = .ok true) :
    ∃ env pts, env.program = p ∧ LocationIndex.ofProgram p = .ok env.index ∧
      p.pointsTo = .ok pts ∧ P env pts := by
  obtain ⟨index, hindex, h⟩ := bind_eq_ok_iff.1 h
  obtain ⟨pts, hpts, h⟩ := bind_eq_ok_iff.1 h
  exact ⟨⟨p, index, .usual⟩, pts, rfl, hindex, hpts, of_decide_eq_true (pure_eq_ok_iff.1 h)⟩

theorem exists_surroundings (p : Program) (P : Surroundings → PointsTo → Prop)
    [∀ env pts, Decidable (P env pts)]
    (h : (do
      let index ← LocationIndex.ofProgram p
      let pts ← p.pointsTo
      return decide (P ⟨p, index, .usual⟩ pts) : Except Fault Bool) = .ok true) :
    ∃ env pts, env.program = p ∧ LocationIndex.ofProgram p = .ok env.index ∧ P env pts := by
  obtain ⟨env, pts, hp, hindex, -, h⟩ := exists_analyzed p P h
  exact ⟨env, pts, hp, hindex, h⟩

theorem exists_construct (p : Program) (first last : Event) (P : WindowGraph → Prop)
    [DecidablePred P]
    (h : (do
      let index ← LocationIndex.ofProgram p
      let pts ← p.pointsTo
      return decide ((construct ⟨p, index, .usual⟩ pts first last).map (fun g ↦ decide (P g)) =
        .ok true) : Except Fault Bool) = .ok true) :
    ∃ env pts g, env.program = p ∧ LocationIndex.ofProgram p = .ok env.index ∧
      construct env pts first last = .ok g ∧ P g := by
  obtain ⟨env, pts, hp, hindex, h⟩ := exists_surroundings p
    (fun env pts ↦ (construct env pts first last).map (fun g ↦ decide (P g)) = .ok true) h
  obtain ⟨g, hg, h⟩ := map_eq_ok_iff.1 h
  exact ⟨env, pts, g, hp, hindex, hg, of_decide_eq_true h⟩

end WindowGraph

end Durability
