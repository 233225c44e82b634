import Durability.Proofs.Redundancy.Interpret

namespace Durability

variable {p : Program} {pts : PointsTo} {env : Surroundings} {first last : Event}
  {t t' : ContextTable} {w : Window} {v : Value} {i : InstrId} {l : List InstrId} {pm : PmFacts}
  {facts : Storage → Prop}

namespace Program

/-- A store in `l` goes to `v`, and no flush behind it may reach that. -/
def LeavesUnflushed (p : Program) (pts : PointsTo) (l : List InstrId) (v : Value) : Prop :=
  ∃ before i after, l = before ++ i :: after ∧ p.Stores i v ∧ ¬ p.FlushedIn pts v after

theorem not_leavesUnflushed_nil : ¬ p.LeavesUnflushed pts [] v := by
  intro h
  obtain ⟨before, i, after, heq, -⟩ := h
  cases before <;> cases heq

theorem leavesUnflushed_cons : p.LeavesUnflushed pts (i :: l) v ↔
    p.Stores i v ∧ ¬ p.FlushedIn pts v l ∨ p.LeavesUnflushed pts l v := by
  constructor
  · intro h
    obtain ⟨before, j, after, heq, hstores, hflushed⟩ := h
    cases before with
    | nil =>
      obtain ⟨rfl, rfl⟩ := List.cons.inj heq
      exact .inl ⟨hstores, hflushed⟩
    | cons k before =>
      obtain ⟨-, rfl⟩ := List.cons.inj heq
      exact .inr ⟨before, j, after, rfl, hstores, hflushed⟩
  · intro h
    obtain ⟨hstores, hflushed⟩ | ⟨before, j, after, rfl, hstores, hflushed⟩ := h
    · exact ⟨[], i, l, rfl, hstores, hflushed⟩
    · exact ⟨i :: before, j, after, rfl, hstores, hflushed⟩

theorem flushedIn_cons : p.FlushedIn pts v (i :: l) ↔ p.FlushedIn pts v [i] ∨ p.FlushedIn pts v l := by
  simp [FlushedIn]

end Program

namespace WindowGraph

variable {g : WindowGraph} {n : Nat} {todo : List Nat} {pending pending' : List Value}

theorem mem_foldlM_pendingAfter_iff (h : l.foldlM (pendingAfter p pts pm) pending = .ok pending') :
    v ∈ pending' ↔ v ∈ pending ∧ ¬ p.FlushedIn pts v l ∨
      p.LeavesUnflushed pts l v ∧ pm.reaches pts v = true := by
  induction l generalizing pending with
  | nil =>
    cases h
    simp [Program.FlushedIn, Program.not_leavesUnflushed_nil]
  | cons i l ih =>
    obtain ⟨mid, hi, h⟩ := foldlM_cons_eq_ok_iff.1 h
    rw [ih h, mem_pendingAfter_iff hi, Program.leavesUnflushed_cons, Program.flushedIn_cons (l := l)]
    tauto

/-- A node leaves something unflushed exactly if a store of its window that may go to persistent storage
is not flushed later in it. -/
theorem leavesUnflushed_iff {x : Context} (hn : g.windowAt? n = some w)
    (hx : g.contexts.get w.context = .ok x) (hl : g.effectiveWindow p n = .ok l) {b : Bool}
    (hb : g.leavesUnflushed p pts n = .ok b) :
    b = true ↔ ∃ v, p.LeavesUnflushed pts l v ∧ x.pm.reaches pts v = true := by
  obtain ⟨l', pending, hl', hpending, rfl⟩ := leavesUnflushed_eq_ok hn hx hb
  cases hl.symm.trans hl'
  have hmem (v : Value) : v ∈ pending ↔ p.LeavesUnflushed pts l v ∧ x.pm.reaches pts v = true := by
    simp [mem_foldlM_pendingAfter_iff hpending]
  cases pending with
  | nil => simp [← hmem]
  | cons v pending => simp [← hmem]

theorem successors_knows {next : List WindowKey} (ht : t.Interned p) (hknows : t.Knows facts w.context)
    (h : successors p pts t w = .ok (next, t')) : ∀ k ∈ next, t'.Knows facts k.1 := by
  obtain ⟨x, hx, hfacts⟩ := hknows
  intro k hk
  obtain ⟨ins, -, ⟨f, d, i, -, -, hcall, -, rfl⟩ | ⟨y, c?, -, -, hret, hnext⟩ |
    ⟨l, -, -, -, rfl, rfl⟩⟩ := successors_cases h
  · obtain ⟨-, -, -, x', y, hx', hy, -, -, hpm⟩ := ContextTable.doCall_eq_ok ht hcall
    cases hx.symm.trans hx'
    rw [List.mem_singleton.1 hk]
    exact ⟨y, hy, fun s hs ↦ hpm s (hfacts s hs)⟩
  · obtain ⟨d, call, j?, rfl, -, -, rfl⟩ | ⟨-, rfl⟩ := hnext
    · obtain ⟨j, -, rfl⟩ := List.mem_map.1 hk
      obtain ⟨-, -, -, x', hx', ⟨hnone, -⟩ | ⟨e, z, call', he, -, hz, -, hpm⟩⟩ :=
        ContextTable.doReturn_eq_ok ht hret
      · cases hnone
      · cases he
        cases hx.symm.trans hx'
        exact ⟨z, hz, fun s hs ↦ hpm s (hfacts s hs)⟩
    · cases hk
  · obtain ⟨j, -, rfl⟩ := List.mem_map.1 hk
    exact ⟨x, hx, hfacts⟩

/-- The context of every node knows of `facts`. -/
def Informed (facts : Storage → Prop) (g : WindowGraph) : Prop :=
  ∀ n w, g.windowAt? n = some w → g.contexts.Knows facts w.context

theorem Informed.visit {s : Search} (h : g.Informed facts) (hg : g.Searched p pts (n :: todo))
    (hvisit : Search.visit p pts g todo n = .ok s) : s.graph.Informed facts := by
  obtain ⟨w, hn, ⟨-, rfl⟩ | ⟨-, next, t, hnext, hcases⟩⟩ := visit_cases hvisit
  · exact h
  obtain ⟨hgrows, -⟩ := successors_grows hg.table hnext
  have hold (k : Nat) (v : Window) (hk : g.windowAt? k = some v) : t.Knows facts v.context :=
    (h k v hk).mono hgrows
  obtain ⟨-, rfl⟩ | ⟨-, hlinks⟩ := hcases
  · exact hold
  have hsome : (g.windowAt? n).isSome := by rw [hn]; rfl
  have hlinks := links_of_foldlM (s := ⟨{ g with contexts := t }, todo⟩) hg.indexed hsome hlinks
  have hcontexts : s.graph.contexts = t := hlinks.same.2.2.2
  obtain ⟨_, -, -, -, hnew⟩ := hlinks.new
  intro k v hk
  rw [hcontexts]
  obtain hk | ⟨-, hkey, -⟩ := hnew k v hk
  · exact hold k v hk
  · exact successors_knows hg.table (h n w hn) hnext v.key hkey

/-- What the first event accesses is known to be persistent wherever control gets to. -/
theorem construct_informed (h : construct env pts first last = .ok g) :
    g.Informed (env.program.Accesses pts g.start.anchor) := by
  obtain ⟨s, hs, hrun, -⟩ := construct_eq_ok h
  obtain ⟨start, t₁, stop, t₂, t₃, hfirst, hlast, hseed, rfl⟩ := ofEvents_eq_ok hs
  obtain ⟨-, ht₁⟩ := Window.ofEvent_interned .empty hfirst
  obtain ⟨hgrows₂, ht₂⟩ := Window.ofEvent_interned ht₁ hlast
  obtain ⟨-, ht₃⟩ := seed_interned ht₂ hseed
  obtain ⟨haround, x, hx⟩ := Window.around_of_ofEvent hfirst
  obtain ⟨-, -, -, hscan⟩ := Window.around_cases haround
  obtain ⟨y, hy, -⟩ := hgrows₂ _ x hx
  have hinitial : (Search.initial start stop t₃).graph.Informed
      (env.program.Accesses pts start.anchor) := by
    intro n w hn
    obtain ⟨-, rfl⟩ := windowAt?_initial hn
    exact seed_knows ⟨y, hy⟩ hseed
  obtain ⟨-, hstart, hinformed⟩ := run_induction
    (P := fun g todo ↦ g.Searched env.program pts todo ∧ g.start = start ∧
      g.Informed (env.program.Accesses pts start.anchor))
    (fun g todo n s hg hvisit ↦ by
      obtain ⟨hsearched, hstart, hinformed⟩ := hg
      obtain ⟨hsearched', hstart', -⟩ := hsearched.visit hvisit
      exact ⟨hsearched', hstart'.trans hstart, hinformed.visit hsearched hvisit⟩)
    ⟨searched_initial ht₃ hscan, rfl, hinitial⟩ hrun
  rw [hstart]
  exact hinformed

/-- Interpreted in any order, a node spoils exactly if its window leaves a store unflushed that the facts
of its context say may go to persistent storage. These contain all that the first event may access, so
a store that may alias it is never overlooked. -/
theorem construct_spoils (hv : env.program.validate = .ok ())
    (h : construct env pts first last = .ok g) {nodes : List Nat} (hnodes : ∀ n ∈ nodes, n ∈ g.nodeIds) :
    ∃ y, (nodes.forM fun n ↦ discard (FlowProblem.interpret ⟨env.program, pts, g⟩ n)) (.initial g) =
        (.ok (), y) ∧
      ∀ n ∈ nodes, ∃ w x l, g.windowAt? n = some w ∧ g.contexts.get w.context = .ok x ∧
        g.effectiveWindow env.program n = .ok l ∧ (y.mark n).spoils.isSome ∧
        (y.spoils n = true ↔
          ∃ v, env.program.LeavesUnflushed pts l v ∧ x.pm.reaches pts v = true) ∧
        (∀ s, env.program.Accesses pts g.start.anchor s → x.pm.Has s) ∧
        ∀ ins u v, env.program.instr g.start.anchor = .ok ins → ins.pointer? = some u →
          env.program.LeavesUnflushed pts l v → pts.mayAlias v u = true → y.spoils n = true := by
  have hvalid := Program.validate_eq_ok_iff.1 hv
  have hleaves (n : Nat) (hn : n ∈ nodes) := construct_leavesUnflushed hvalid h (hnodes n hn)
  have hfits : (Findings.initial g).Fits ⟨env.program, pts, g⟩ := Findings.fits_initial
  obtain ⟨y, hy, hyfits, hknows⟩ := FlowProblem.forM_interpret hfits fun n hn ↦
    ⟨List.mem_range.1 (hnodes n hn), hleaves n hn⟩
  refine ⟨y, hy, fun n hn ↦ ?_⟩
  obtain ⟨w, hw⟩ := mem_nodeIds_iff.1 (hnodes n hn)
  obtain ⟨x, hx, hfacts⟩ := construct_informed h n w hw
  obtain ⟨b, hmark⟩ := hknows n (.inl hn)
  have hb := hyfits.consistent n b hmark
  obtain ⟨l, -, hl, -⟩ := leavesUnflushed_eq_ok hw hx hb
  have hspoils : y.spoils n = true ↔
      ∃ v, env.program.LeavesUnflushed pts l v ∧ x.pm.reaches pts v = true := by
    rw [← leavesUnflushed_iff hw hx hl hb, Findings.spoils, hmark]
    cases b <;> decide
  refine ⟨w, x, l, hw, hx, hl, by rw [hmark]; rfl, hspoils, hfacts, fun ins u v hins hu hleft halias ↦ ?_⟩
  obtain ⟨s, hsv, hsu⟩ := SortedSet.intersects_iff.1 halias
  exact hspoils.2 ⟨v, hleft, PmFacts.reaches_of_has hsv (hfacts s ⟨ins, u, hins, hu, hsu⟩)⟩

section StoreBetween

open Sample

def flushInside : Event := event .flush ("write_and_flush", 6) [("main", 20)] cacheLine false

def flushAgain : Event := event .flush ("flush_only", 10) [("main", 22)] cacheLine false

/-- The first flush is in a function that returns, and the store comes after the return: its node
spoils, though the caller's own context was made before anything was known. -/
theorem construct_spoils_storeBetween : ∃ env pts g y, env.program = (acrossCalls true).program ∧
    env.program.validate = .ok () ∧ LocationIndex.ofProgram env.program = .ok env.index ∧
    env.program.pointsTo = .ok pts ∧ construct env pts flushInside flushAgain = .ok g ∧
    ([2, 1, 0, 1].forM fun n ↦ discard (FlowProblem.interpret ⟨env.program, pts, g⟩ n))
      (.initial g) = (.ok (), y) ∧ y.spoils 1 = true := by
  obtain ⟨env, pts, hp, hindex, hpts, halias, hgraph⟩ := exists_analyzed (acrossCalls true).program
    (fun env pts ↦ pts.mayAlias pool pool = true ∧
      (construct env pts flushInside flushAgain).map (fun g ↦ decide (g.nodeIds = [0, 1, 2] ∧
        g.effectiveWindow (acrossCalls true).program 1 = .ok [⟨6⟩, ⟨7⟩] ∧
        g.start.anchor = ⟨1⟩)) = .ok true) (by decide +kernel)
  obtain ⟨g, hg, hgraph⟩ := map_eq_ok_iff.1 hgraph
  obtain ⟨hids, hwindow, hanchor⟩ := of_decide_eq_true hgraph
  have hv : env.program.validate = .ok () := by
    rw [hp]
    decide +kernel
  obtain ⟨y, hy, hspoils⟩ := construct_spoils hv hg (hids ▸ (by decide) : ∀ n ∈ [2, 1, 0, 1], n ∈ g.nodeIds)
  obtain ⟨w, x, l, -, -, hl, -, -, -, hmust⟩ := hspoils 1 (by decide)
  rw [hp, hwindow] at hl
  obtain rfl := Except.ok.inj hl
  refine ⟨env, pts, g, y, hp, hv, hp ▸ hindex, hp ▸ hpts, hg, hy, ?_⟩
  rw [hp, hanchor] at hmust
  refine hmust ⟨.flush .clwb, [pool], some ⟨file, 6⟩, some ⟨0⟩⟩ pool pool (by decide +kernel) rfl ?_ halias
  refine ⟨[], ⟨6⟩, [⟨7⟩], rfl, ?_, fun hflushed ↦ ?_⟩
  · exact ⟨⟨.store, [pool, .const 1], some ⟨file, 21⟩, some ⟨2⟩⟩, by decide +kernel, rfl, rfl⟩
  · obtain ⟨i, hi, u, ⟨ins, how, hins, hop, -⟩, -⟩ := hflushed
    obtain rfl := List.mem_singleton.1 hi
    have hcall : (acrossCalls true).program.instr ⟨7⟩ =
        .ok ⟨.call ⟨1⟩, [], some ⟨file, 22⟩, some ⟨2⟩⟩ := by decide +kernel
    cases hcall.symm.trans hins
    cases hop

end StoreBetween

end WindowGraph

end Durability
