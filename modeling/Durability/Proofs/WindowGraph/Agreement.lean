import Durability.Proofs.Context.Agreement
import Durability.Proofs.Program.Total
import Durability.Proofs.WindowGraph.Exact

namespace Durability

variable {p : Program} {pts : PointsTo} {env : Surroundings} {first last : Event}
  {t t' : ContextTable} {w : Window} {c : ContextId} {k : WindowKey} {x : Context}

theorem Window.functionOf_of_instrs (hv : p.Valid)
    (hscan : p.scanForward p.walkBound w.first = .ok w.last) : ∃ l, w.instrs p = .ok l ∧
      w.last ∈ l ∧ ∀ i ∈ l, p.functionOf i = p.functionOf w.first := by
  obtain ⟨l, hrun⟩ := Program.run_of_scanForward hscan
  obtain ⟨l', hl'⟩ := Program.scanTo_of_scanForward hscan
  obtain rfl := hrun.scanTo_eq_ok hl'
  exact ⟨l', hl', hrun.last_mem,
    fun i hi ↦ (Program.functionOf_eq_of_falls hv (hrun.falls_of_mem hi)).symm⟩

theorem Continues.functionOf {i : InstrId} (h : Continues p t c i k) (hv : p.Valid)
    (ht : t.Interned p) (hagrees : t.Agrees p) (hx : t.get c = .ok x)
    (hi : p.functionOf i = .ok (some x.function)) :
    ∃ y, t.get k.1 = .ok y ∧ p.functionOf k.2 = .ok (some y.function) := by
  cases h with
  | call _ _ _ hy _ _ hf hentry =>
    refine ⟨_, hy, ?_⟩
    rw [hf]
    exact Program.functionOf_of_entry hv hentry
  | ret _ _ hz hp hlast hnext =>
    obtain ⟨-, y, -, hy, -⟩ := ht.child _ _ _ hz hp
    obtain ⟨f, hcall, hj⟩ := Program.functionOf_of_nextInBlock hnext hv
    refine ⟨y, hy, ?_⟩
    rw [hj, ← hcall]
    exact hagrees _ _ _ y _ hz hp hy hlast
  | flow _ _ _ hb hbs hb' hfirst =>
    obtain ⟨b, B, hb₁, hB, hfunction⟩ := Program.functionOf_eq_some_iff.1 hi
    cases hb.symm.trans hb₁
    obtain ⟨B', hB', hfunction'⟩ := Program.function_of_mem_successors hv hB hbs hb'
    refine ⟨x, hx, ?_⟩
    rw [(Program.standsAt_of_firstInBlock hfirst).functionOf hv hB', hfunction', hfunction]

theorem Window.ofEvent_agrees {e : Event} (hv : env.program.Valid) (ht : t.Interned env.program)
    (hevent : ofEvent env e t = (.ok w, t')) :
    (t'.Agrees env.program ↔ t.Agrees env.program ∧ Chains env e) ∧
      ∃ x, t'.get w.context = .ok x ∧ env.program.functionOf w.first = .ok (some x.function) := by
  obtain ⟨c?, r, hframes, hevent⟩ := Stateful.bind_eq_ok_iff.1 hevent
  obtain ⟨l, hl, hr, -, hagrees⟩ := enterFrames_agrees ht .none hframes
  have hchains : env.program.Chained none l ↔ Chains env e := by
    refine ⟨fun h ↦ ⟨l, hl, h⟩, fun ⟨l', hl', h⟩ ↦ ?_⟩
    cases hl.symm.trans hl'
    exact h
  obtain ⟨i, r', hlookup, hevent⟩ := Stateful.bind_eq_ok_iff.1 hevent
  obtain ⟨-, rfl⟩ := Stateful.lift_eq_ok_iff.1 hlookup
  obtain ⟨f?, r', hfun, hevent⟩ := Stateful.bind_eq_ok_iff.1 hevent
  obtain ⟨hf, rfl⟩ := Stateful.liftFault_eq_ok_iff.1 hfun
  cases f? with
  | none => cases hevent
  | some f =>
    obtain ⟨c, r', hcontext, hevent⟩ := Stateful.bind_eq_ok_iff.1 hevent
    obtain ⟨haround, rfl⟩ := Stateful.liftFault_eq_ok_iff.1 hevent
    obtain ⟨rfl, -, hback, -⟩ := around_cases haround
    rw [Program.functionOf_of_scanBackward hv hback, hf, ← hchains]
    obtain ⟨rfl, x, hx, rfl⟩ | hroot := contextFor_cases hcontext
    · exact ⟨hagrees, x, hx, rfl⟩
    · have hroot := Stateful.modifyGet_eq_ok_iff.1 hroot
      obtain ⟨-, -, -, x, hx, -, rfl⟩ := ContextTable.root_eq (p := env.program) hroot
      exact ⟨(ContextTable.root_agrees_iff hr hroot).trans hagrees, x, hx, rfl⟩

namespace WindowGraph

variable {g : WindowGraph} {n : Nat} {todo : List Nat}

/-- The windows lie in the functions of their contexts, and the calls are made from those of the
callers. -/
structure Agrees (p : Program) (g : WindowGraph) : Prop where
  windows : ∀ n w, g.windowAt? n = some w → ∃ x l, g.contexts.get w.context = .ok x ∧
    w.instrs p = .ok l ∧ ∀ i ∈ l, p.functionOf i = .ok (some x.function)
  contexts : g.contexts.Agrees p

theorem seed_agrees (h : t.Agrees p) (hseed : seed p pts w t = .ok t') : t'.Agrees p := by
  obtain ⟨ins, -, hseed⟩ := bind_eq_ok_iff.1 hseed
  split at hseed
  · cases pure_eq_ok_iff.1 hseed
    exact h
  · cases pure_eq_ok_iff.1 hseed
    exact h.update

theorem successors_agrees {next : List WindowKey} (ht : t.Interned p) (hagrees : t.Agrees p)
    (hx : t.get w.context = .ok x) (hlast : p.functionOf w.last = .ok (some x.function))
    (h : successors p pts t w = .ok (next, t')) : t'.Agrees p := by
  obtain ⟨ins, -, ⟨f, d, i, -, -, hcall, -⟩ | ⟨z, c?, -, -, hret, -⟩ | ⟨l, -, -, -, -, rfl⟩⟩ :=
    successors_cases h
  · exact (ContextTable.doCall_agrees_iff ht hcall hx).2 ⟨hagrees, hlast⟩
  · exact ContextTable.doReturn_agrees ht hagrees hret
  · exact hagrees

theorem Agrees.visit {s : Search} (hv : p.Valid) (hg : g.Searched p pts (n :: todo))
    (h : g.Agrees p) (hvisit : Search.visit p pts g todo n = .ok s) : s.graph.Agrees p := by
  obtain ⟨w, hn, ⟨-, rfl⟩ | ⟨-, next, t, hnext, hcases⟩⟩ := visit_cases hvisit
  · exact ⟨h.windows, h.contexts⟩
  obtain ⟨x, l, hx, hl, hfunction⟩ := h.windows n w hn
  have hlast : p.functionOf w.last = .ok (some x.function) := by
    obtain ⟨l', hl', hmem, -⟩ := Window.functionOf_of_instrs hv (hg.windows n w hn)
    cases hl.symm.trans hl'
    exact hfunction w.last hmem
  have ht := successors_agrees hg.table h.contexts hx hlast hnext
  obtain ⟨hgrows, hinterned⟩ := successors_grows hg.table hnext
  have hold (k : Nat) (v : Window) (hv : g.windowAt? k = some v) : ∃ y l, t.get v.context = .ok y ∧
      v.instrs p = .ok l ∧ ∀ i ∈ l, p.functionOf i = .ok (some y.function) := by
    obtain ⟨z, l, hz, hl, hfunction⟩ := h.windows k v hv
    obtain ⟨y, hy, hzy⟩ := hgrows _ z hz
    exact ⟨y, l, hy, hl, fun i hi ↦ hzy.function ▸ hfunction i hi⟩
  obtain ⟨-, rfl⟩ | ⟨-, hlinks⟩ := hcases
  · exact ⟨hold, ht⟩
  · have hlinks := links_of_foldlM (s := ⟨{ g with contexts := t }, todo⟩) hg.indexed
      (show (g.windowAt? n).isSome by rw [hn]; rfl) hlinks
    have hcontexts : s.graph.contexts = t := hlinks.same.2.2.2
    obtain ⟨_, -, -, -, hnew⟩ := hlinks.new
    refine ⟨fun k v hk ↦ ?_, by rwa [hcontexts]⟩
    rw [hcontexts]
    obtain hk | ⟨-, hkey, hscan⟩ := hnew k v hk
    · exact hold k v hk
    · obtain ⟨x', hx', hxx'⟩ := hgrows _ x hx
      have hcontinues := (mem_successors_iff hg.table hnext (.refl t) hinterned).1 hkey
      obtain ⟨y, hy, hfirst⟩ :=
        hcontinues.functionOf hv hinterned ht hx' (by rw [hlast, hxx'.function])
      obtain ⟨l, hl, -, hfunction⟩ := Window.functionOf_of_instrs hv hscan
      exact ⟨y, l, hy, hl, fun i hi ↦ (hfunction i hi).trans hfirst⟩

/-- A graph agrees with the program exactly if the frames of both events that are known stand for
calls each of which is made in the function that the one before it enters. -/
theorem construct_agrees_iff (hv : env.program.validate = .ok ())
    (h : construct env pts first last = .ok g) :
    g.Agrees env.program ↔ Window.Chains env first ∧ Window.Chains env last := by
  have hv := Program.validate_eq_ok_iff.1 hv
  obtain ⟨s, hs, hrun, -⟩ := construct_eq_ok h
  obtain ⟨start, t₁, stop, t₂, t₃, hfirst, hlast, hseed, rfl⟩ := ofEvents_eq_ok hs
  obtain ⟨-, ht₁⟩ := Window.ofEvent_interned .empty hfirst
  obtain ⟨hgrows₂, ht₂⟩ := Window.ofEvent_interned ht₁ hlast
  obtain ⟨hgrows₃, ht₃⟩ := seed_interned ht₂ hseed
  obtain ⟨hagrees₁, x, hx, hstart⟩ := Window.ofEvent_agrees hv .empty hfirst
  obtain ⟨hagrees₂, -⟩ := Window.ofEvent_agrees hv ht₁ hlast
  have hchains : t₂.Agrees env.program ↔ Window.Chains env first ∧ Window.Chains env last := by
    rw [hagrees₂, hagrees₁, and_iff_right ContextTable.Agrees.empty]
  obtain ⟨-, -, -, hscan⟩ := Window.around_cases (Window.around_of_ofEvent hfirst).1
  have hinitial (hagrees : t₂.Agrees env.program) :
      (Search.initial start stop t₃).graph.Agrees env.program := by
    refine ⟨fun n w hn ↦ ?_, seed_agrees hagrees hseed⟩
    obtain ⟨-, rfl⟩ := windowAt?_initial hn
    obtain ⟨y, hy, hxy⟩ := hgrows₂.trans hgrows₃ _ x hx
    obtain ⟨l, hl, -, hfunction⟩ := Window.functionOf_of_instrs hv hscan
    exact ⟨y, l, hy, hl, fun i hi ↦ (hfunction i hi).trans (hstart.trans (by rw [hxy.function]))⟩
  obtain ⟨-, hgrows, hagrees⟩ := run_induction
    (P := fun g todo ↦ g.Searched env.program pts todo ∧ t₂.Grows g.contexts ∧
      (t₂.Agrees env.program → g.Agrees env.program))
    (fun g todo n s hg hvisit ↦ by
      obtain ⟨hsearched, hgrows, hagrees⟩ := hg
      obtain ⟨hsearched', -, -, hgrows'⟩ := hsearched.visit hvisit
      exact ⟨hsearched', hgrows.trans hgrows',
        fun ht ↦ (hagrees ht).visit hv hsearched hvisit⟩)
    ⟨searched_initial ht₃ hscan, hgrows₃, hinitial⟩ hrun
  rw [← hchains]
  exact ⟨fun h ↦ h.contexts.of_grows hgrows, hagrees⟩

section Nested

open Sample

/-- Four functions each of which calls the next, and a flush in the innermost one. -/
def nested : Program :=
  (build ([.reserve "inner" 0, .reserve "middle" 0, .reserve "outer" 0, .reserve "main" 0]
      ++ body 0 0 [[flush 40, ret 41]] ++ body 1 1 [[call 0 30, ret 31]]
      ++ body 2 2 [[call 1 20, ret 21]] ++ body 3 3 [[call 2 10, flush 11, ret 12]]) []).program

def innerFlush (line : Int64) : Event :=
  event .flush ("inner", 40) [("middle", 30), ("outer", line), ("main", 10)] cacheLine false

def outerFlush : Event := event .flush ("main", 11) [] cacheLine false

theorem construct_agrees_nested : ∃ env pts g, env.program = nested ∧
    LocationIndex.ofProgram nested = .ok env.index ∧ nested.pointsTo = .ok pts ∧
    construct env pts (innerFlush 20) outerFlush = .ok g ∧ g.nodes.length = 4 ∧ g.Agrees nested := by
  obtain ⟨env, pts, hp, hindex, hpts, hlength, hfirst, hlast⟩ := exists_analyzed nested (fun env pts ↦
    (construct env pts (innerFlush 20) outerFlush).map (·.nodes.length) = .ok 4 ∧
      Window.calls env (innerFlush 20) = .ok [⟨6⟩, ⟨4⟩, ⟨2⟩] ∧
      Window.calls env outerFlush = .ok []) (by decide +kernel)
  obtain ⟨g, hg, hlength⟩ := map_eq_ok_iff.1 hlength
  have hv : nested.validate = .ok () := by decide +kernel
  have hcall (f : FunctionId) (hf : some ⟨2⟩ = some f) : nested.functionOf ⟨4⟩ = .ok (some f) := by
    obtain rfl := Option.some.inj hf
    decide +kernel
  have hcall' (f : FunctionId) (hf : some ⟨1⟩ = some f) : nested.functionOf ⟨2⟩ = .ok (some f) := by
    obtain rfl := Option.some.inj hf
    decide +kernel
  have hchained : nested.Chained none [⟨6⟩, ⟨4⟩, ⟨2⟩] :=
    ⟨nofun, ⟨2⟩, by decide +kernel, hcall, ⟨1⟩, by decide +kernel, hcall', ⟨0⟩, by decide +kernel,
      trivial⟩
  refine ⟨env, pts, g, hp, hindex, hpts, hg, hlength,
    hp ▸ (construct_agrees_iff (hp ▸ hv) hg).2 ⟨?_, ?_⟩⟩
  · exact ⟨_, hfirst, hp ▸ hchained⟩
  · exact ⟨_, hlast, trivial⟩

/-- Without the frame of the outer function, what follows the call in the middle one is taken for a
part of the outer one. -/
theorem not_agrees_nested : nested.validate = .ok () ∧ ∃ env pts g, env.program = nested ∧
    LocationIndex.ofProgram nested = .ok env.index ∧ nested.pointsTo = .ok pts ∧
    construct env pts (innerFlush 99) outerFlush = .ok g ∧ ¬ g.Agrees nested := by
  obtain ⟨env, pts, hp, hindex, hpts, hgraph⟩ := exists_analyzed nested (fun env pts ↦
    (construct env pts (innerFlush 99) outerFlush).map (fun g ↦
      (g.windowAt? 1, (g.contexts.get ⟨1⟩).map (·.function))) =
        .ok (some ⟨⟨1⟩, ⟨3⟩, ⟨3⟩, ⟨3⟩⟩, .ok ⟨2⟩)) (by decide +kernel)
  obtain ⟨g, hg, hgraph⟩ := map_eq_ok_iff.1 hgraph
  obtain ⟨hw, hcontext⟩ := Prod.mk.inj hgraph
  refine ⟨by decide +kernel, env, pts, g, hp, hindex, hpts, hg, fun hagrees ↦ ?_⟩
  obtain ⟨x, l, hx, hl, hfunction⟩ := hagrees.windows 1 _ hw
  obtain ⟨x', hx', houter⟩ := map_eq_ok_iff.1 hcontext
  cases hx.symm.trans hx'
  have hl' : Window.instrs ⟨⟨1⟩, ⟨3⟩, ⟨3⟩, ⟨3⟩⟩ nested = .ok [⟨3⟩] := by decide +kernel
  cases hl.symm.trans hl'
  have hmiddle : nested.functionOf ⟨3⟩ = .ok (some ⟨1⟩) := by decide +kernel
  have hthere := hfunction ⟨3⟩ List.mem_cons_self
  rw [hmiddle, houter] at hthere
  cases hthere

end Nested

end WindowGraph

end Durability
