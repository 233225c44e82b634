import Durability.Proofs.WindowGraph.Discovery
import Durability.Proofs.WindowGraph.Terminates

namespace Durability

variable {p : Program} {pts : PointsTo} {env : Surroundings} {first last : Event}
  {t t' t'' : ContextTable} {w : Window} {c d : ContextId} {x : Context} {s : Storage}

namespace ContextTable

def Has (t : ContextTable) (c : ContextId) (s : Storage) : Prop :=
  ∃ x, t.get c = .ok x ∧ x.pm.Has s

theorem has_iff (hx : t.get c = .ok x) : t.Has c s ↔ x.pm.Has s := by
  refine ⟨fun ⟨y, hy, hs⟩ ↦ ?_, fun hs ↦ ⟨x, hx, hs⟩⟩
  cases hx.symm.trans hy
  exact hs

theorem Has.mono (h : t.Has c s) (hgrows : t.Grows t') : t'.Has c s := by
  obtain ⟨x, hx, hs⟩ := h
  obtain ⟨y, hy, hxy⟩ := hgrows c x hx
  exact ⟨y, hy, hxy.pm s hs⟩

end ContextTable

/-- What the context of `w` knows in `t` has got in `t'` to `c`, the context of a window that follows:
from the caller to the callee, and back with the result of the call if that may be persistent. -/
structure Relayed (p : Program) (pts : PointsTo) (t t' : ContextTable) (w : Window) (c : ContextId) :
    Prop where
  call : p.isDefinedCall w.last = .ok true → ∀ s, t.Has w.context s → t'.Has c s
  ret : ∀ ins, p.instr w.last = .ok ins → ins.op = .ret → ∀ s, t.Has w.context s → t'.Has c s
  result : ∀ ins x call v, p.instr w.last = .ok ins → ins.op = .ret → t.get w.context = .ok x →
    x.callStack.getLast? = some call → ins.inputs.head? = some v → x.pm.reaches pts v = true →
      ∀ s ∈ pts (.instr call), t'.Has c s

theorem Relayed.mono (h : Relayed p pts t t' w c) (hgrows : t'.Grows t'') : Relayed p pts t t'' w c where
  call hcall s hs := (h.call hcall s hs).mono hgrows
  ret ins hins hop s hs := (h.ret ins hins hop s hs).mono hgrows
  result ins x call v hins hop hx hlast hv hreaches s hs :=
    (h.result ins x call v hins hop hx hlast hv hreaches s hs).mono hgrows

/-- A context that has learnt nothing since has passed on all that it knows. -/
theorem Relayed.of_settled (h : Relayed p pts t t'' w c) (hgrows : t.Grows t')
    (hsettled : ∀ s, t'.Has w.context s → t.Has w.context s) : Relayed p pts t' t'' w c where
  call hcall s hs := h.call hcall s (hsettled s hs)
  ret ins hins hop s hs := h.ret ins hins hop s (hsettled s hs)
  result ins y call v hins hop hy hlast hv hreaches := by
    obtain ⟨s, hs, hhas⟩ := PmFacts.reaches_iff.1 hreaches
    obtain ⟨x, hx, hxs⟩ := hsettled s ⟨y, hy, hhas⟩
    obtain ⟨y', hy', hxy⟩ := hgrows _ x hx
    cases hy.symm.trans hy'
    exact h.result ins x call v hins hop hx (hxy.callStack ▸ hlast) hv
      (PmFacts.reaches_iff.2 ⟨s, hs, hxs⟩)

theorem ContextTable.has_update {g : PmFacts → PmFacts} :
    (t.update c g).Has c s ↔ ∃ x, t.get c = .ok x ∧ (g x.pm).Has s := by
  constructor
  · rintro ⟨y, hy, hs⟩
    obtain ⟨x, hx, rfl⟩ := get_update.1 hy
    rw [if_pos rfl] at hs
    exact ⟨x, hx, hs⟩
  · rintro ⟨x, hx, hs⟩
    exact ⟨_, get_update.2 ⟨x, hx, rfl⟩, by rwa [if_pos rfl]⟩

theorem Relayed.of_doCall (ht : t.Interned p) (hcall : t.doCall p w.context w.last = .ok (d, t')) :
    Relayed p pts t t' w d := by
  obtain ⟨-, -, hdefined, x, y, hx, hy, -, -, hpm⟩ := ContextTable.doCall_eq_ok ht hcall
  have hnot {ins : Instruction} (hins : p.instr w.last = .ok ins) : ins.op ≠ .ret := by
    obtain ⟨f, hop⟩ := Program.op_of_isDefinedCall hdefined hins
    rw [hop]
    exact nofun
  exact ⟨fun _ s hs ↦ ⟨y, hy, hpm s ((ContextTable.has_iff hx).1 hs)⟩,
    fun ins hins hop ↦ absurd hop (hnot hins), fun ins _ _ _ hins hop ↦ absurd hop (hnot hins)⟩

theorem Relayed.of_doReturn {ins : Instruction} (ht : t.Interned p)
    (hins : p.instr w.last = .ok ins) (hop : ins.op = .ret)
    (hret : t.doReturn p pts w.context w.last = .ok (some d, t')) : Relayed p pts t t' w d := by
  obtain ⟨x, hx, ⟨hnone, -⟩ | ⟨e, y, call, ins', he, -, hy, hstack, hins', rfl⟩⟩ :=
    ContextTable.doReturn_cases ht hret
  · cases hnone
  cases he
  cases hins.symm.trans hins'
  refine ⟨fun hdefined ↦ ?_, fun _ _ _ s hs ↦ ?_,
    fun ins' x' call' v hins' _ hx' hlast hv hreaches s hs ↦ ?_⟩
  · obtain ⟨f, hcall⟩ := Program.op_of_isDefinedCall hdefined hins
    cases hop.symm.trans hcall
  · exact ContextTable.has_update.2
      ⟨y, hy, PmFacts.has_join.2 (.inl ((ContextTable.has_iff hx).1 hs))⟩
  · cases hins.symm.trans hins'
    cases hx.symm.trans hx'
    rw [hstack, List.getLast?_concat] at hlast
    cases hlast
    refine ContextTable.has_update.2 ⟨y, hy, PmFacts.has_join.2 (.inr ?_)⟩
    rw [if_pos (by rw [hv]; exact hreaches)]
    exact PmFacts.has_learn.2 (.inl hs)

namespace WindowGraph

variable {g : WindowGraph} {n m k : Nat} {todo : List Nat}

theorem successors_relayed {next : List WindowKey} (ht : t.Interned p)
    (h : successors p pts t w = .ok (next, t')) : ∀ l ∈ next, Relayed p pts t t' w l.1 := by
  intro l hl
  obtain ⟨ins, hins, ⟨f, d, i, -, -, hcall, -, rfl⟩ | ⟨x, c?, hop, -, hret, hnext⟩ |
    ⟨l', hop, hdefined, -, -, rfl⟩⟩ := successors_cases h
  · rw [List.mem_singleton.1 hl]
    exact .of_doCall ht hcall
  · obtain ⟨d, call, j?, rfl, -, -, rfl⟩ | ⟨-, rfl⟩ := hnext
    · obtain ⟨j, -, rfl⟩ := List.mem_map.1 hl
      exact .of_doReturn ht hins hop hret
    · cases hl
  · have hnot {ins' : Instruction} (hins' : p.instr w.last = .ok ins') : ins'.op ≠ .ret := by
      cases hins.symm.trans hins'
      exact hop
    exact ⟨fun hcall ↦ (nomatch hcall.symm.trans hdefined),
      fun _ hins' hret ↦ absurd hret (hnot hins'),
      fun _ _ _ _ hins' hret ↦ absurd hret (hnot hins')⟩

theorem Searched.visit_extends {s : Search} (h : g.Searched p pts (n :: todo))
    (hvisit : Search.visit p pts g todo n = .ok s) : g.Extends s.graph := by
  obtain ⟨w, hn, ⟨-, rfl⟩ | ⟨-, next, t, hnext, hcases⟩⟩ := visit_cases hvisit
  · exact ⟨rfl, rfl, .refl _, fun _ _ h ↦ h, fun _ _ h ↦ h⟩
  obtain ⟨hgrows, -⟩ := successors_grows h.table hnext
  obtain ⟨-, rfl⟩ | ⟨-, hlinks⟩ := hcases
  · exact ⟨rfl, rfl, hgrows, fun _ _ h ↦ h, fun _ _ h ↦ h⟩
  · have hext : g.Extends { g with contexts := t } :=
      ⟨rfl, rfl, hgrows, fun _ _ h ↦ h, fun _ _ h ↦ h⟩
    obtain ⟨hext', -⟩ := links_eq_ok (s := ⟨{ g with contexts := t }, todo⟩) h.indexed hn hlinks
    exact hext.trans hext'

theorem Searched.visit_relayed {s : Search} {v : Window} (h : g.Searched p pts (n :: todo))
    (hvisit : Search.visit p pts g todo n = .ok s) (hn : g.windowAt? n = some w)
    (hkey : w.key ≠ g.stop.key) (hgrows : s.graph.contexts.Grows t) (ht : t.Interned p)
    (hv : Continues p t w.context w.last v.key) :
    Relayed p pts g.contexts t w v.context := by
  obtain ⟨w', hn', ⟨hsame, -⟩ | ⟨-, next, t', hnext, hcases⟩⟩ := visit_cases hvisit
  · cases hn.symm.trans hn'
    exact absurd (Window.same_iff_key.1 hsame) hkey
  cases hn.symm.trans hn'
  have hcontexts : s.graph.contexts = t' := by
    obtain ⟨-, rfl⟩ | ⟨-, hlinks⟩ := hcases
    · rfl
    · obtain ⟨-, hcontexts, -⟩ :=
        links_eq_ok (s := ⟨{ g with contexts := t' }, todo⟩) h.indexed hn hlinks
      exact hcontexts
  rw [hcontexts] at hgrows
  have hmem := (mem_successors_iff h.table hnext hgrows ht).2 hv
  exact (successors_relayed h.table hnext _ hmem).mono hgrows

theorem Steps.exists_visit {s₀ s : Search} (h : s₀.graph.Searched p pts s₀.frontier)
    (hd : s₀.graph.Discovered 0 s₀.frontier) (hsteps : Steps p pts k s₀ s) :
    s.graph.Searched p pts s.frontier ∧ s.graph.Discovered k s.frontier ∧
      ∀ n < k, ∃ g todo r, Steps p pts n s₀ ⟨g, n :: todo⟩ ∧
        Search.visit p pts g todo n = .ok r ∧ r.graph.Extends s.graph := by
  induction hsteps with
  | zero s => exact ⟨h, hd, nofun⟩
  | @snoc k n g todo s₀ s hsteps hvisit ih =>
    obtain ⟨hg, hk, hbefore⟩ := ih h hd
    obtain ⟨rfl, -⟩ := hk.head
    refine ⟨(hg.visit hvisit).1, hk.visit hg.indexed hvisit, fun m hm ↦ ?_⟩
    obtain hm | rfl := Nat.lt_or_eq_of_le (Nat.le_of_lt_succ hm)
    · obtain ⟨g', todo', r, hm, hvisit', hext⟩ := hbefore m hm
      exact ⟨g', todo', r, hm, hvisit', hext.trans (hg.visit_extends hvisit)⟩
    · exact ⟨g, todo, s, hsteps, hvisit, .refl _⟩

theorem searched_of_ofEvents {s : Search} (h : Search.ofEvents env pts first last = .ok s) :
    s.graph.Searched env.program pts s.frontier ∧ s.graph.Discovered 0 s.frontier := by
  obtain ⟨start, t₁, stop, t₂, t₃, hfirst, hlast, hseed, rfl⟩ := ofEvents_eq_ok h
  obtain ⟨-, ht₁⟩ := Window.ofEvent_interned .empty hfirst
  obtain ⟨-, ht₂⟩ := Window.ofEvent_interned ht₁ hlast
  obtain ⟨-, ht₃⟩ := seed_interned ht₂ hseed
  obtain ⟨-, -, -, hscan⟩ := Window.around_cases (Window.around_of_ofEvent hfirst).1
  exact ⟨searched_initial ht₃ hscan, discovered_initial⟩

/-- Along every edge all is passed on that is known in the end. -/
def Closed (p : Program) (pts : PointsTo) (g : WindowGraph) : Prop :=
  ∀ n m w v, m ∈ g.children n → g.windowAt? n = some w → g.windowAt? m = some v →
    Relayed p pts g.contexts g.contexts w v.context

/-- What is known to be persistent is not closed under calls and returns: an edge passes on what the
context before it knows when its node is visited, so all that it knows in the end only where it has
learnt nothing since. -/
theorem construct_facts (h : construct env pts first last = .ok g) :
    ∃ s₀, Search.ofEvents env pts first last = .ok s₀ ∧ ∀ n w, g.windowAt? n = some w →
      ∃ g₀ todo, Steps env.program pts n s₀ ⟨g₀, n :: todo⟩ ∧ g₀.contexts.Grows g.contexts ∧
        ∀ m v, m ∈ g.children n → g.windowAt? m = some v →
          Relayed env.program pts g₀.contexts g.contexts w v.context ∧
          ((∀ s, g.contexts.Has w.context s → g₀.contexts.Has w.context s) →
            Relayed env.program pts g.contexts g.contexts w v.context) := by
  obtain ⟨s₀, hs₀, hrun, -⟩ := construct_eq_ok h
  refine ⟨s₀, hs₀, fun n w hn ↦ ?_⟩
  obtain ⟨hsearched₀, hd₀⟩ := searched_of_ofEvents hs₀
  obtain ⟨k, hsteps⟩ := Steps.of_run hrun
  obtain ⟨hsearched, hd, hvisits⟩ := hsteps.exists_visit hsearched₀ hd₀
  have hnk : n < k := by
    have hlength := lt_length_of_windowAt? (show (g.windowAt? n).isSome by rw [hn]; rfl)
    have hline := congrArg List.length hd.line
    rw [List.length_range'] at hline
    change 0 = g.nodes.length - k at hline
    omega
  obtain ⟨g₀, todo, r, hbefore, hvisit, hext⟩ := hvisits n hnk
  obtain ⟨hg₀, -⟩ := hbefore.exists_visit hsearched₀ hd₀
  have hext₀ := hg₀.visit_extends hvisit
  have hn₀ : g₀.windowAt? n = some w := by
    obtain ⟨w₀, hw₀⟩ := Option.isSome_iff_exists.1 (hg₀.waiting n List.mem_cons_self).1
    cases hn.symm.trans ((hext₀.trans hext).windows n w₀ hw₀)
    exact hw₀
  have hgrows := (hext₀.trans hext).contexts
  refine ⟨g₀, todo, hbefore, hgrows, fun m v hm hv ↦ ?_⟩
  obtain ⟨hkey, hprecedes⟩ := (hsearched.precedes_of_mem_children hn hv).1 hm
  have hrelayed := hg₀.visit_relayed hvisit hn₀ (by rwa [(hext₀.trans hext).stop] at hkey)
    hext.contexts hsearched.table ((precedes_iff (hsearched.windows n w hn)).1 hprecedes)
  exact ⟨hrelayed, hrelayed.of_settled hgrows⟩

section Later

open Sample

/-- Two calls, and only the second hands back something that may be persistent. -/
def learnsLater : Program :=
  (build ([.reserve "touch" 0, .reserve "pick" 0, .reserve "main" 0]
      ++ body 0 0 [[ret 20]]
      ++ body 1 1 [[(.alloca, [], 30), (.phi, [pool, .instr ⟨1⟩], 31), (.ret, [.instr ⟨2⟩], 32)]]
      ++ body 2 2 [[flush 10, call 0 11, call 1 12, flush 13, ret 14]]) []).program

def firstFlush : Event := event .flush ("main", 10) [] cacheLine false

def lastFlush : Event := event .flush ("main", 13) [] cacheLine false

theorem construct_facts_learnsLater : ∃ env pts g, env.program = learnsLater ∧
    LocationIndex.ofProgram learnsLater = .ok env.index ∧ learnsLater.pointsTo = .ok pts ∧
    construct env pts firstFlush lastFlush = .ok g ∧ 1 ∈ g.children 0 ∧
    g.contexts.Has ⟨1⟩ (.global ⟨0⟩) := by
  obtain ⟨env, pts, hp, hindex, hpts, hgraph, hstart⟩ := exists_analyzed learnsLater (fun env pts ↦
    (construct env pts firstFlush lastFlush).map (fun g ↦
        (g.children 0, g.windowAt? 0, (g.windowAt? 1).map (·.context))) =
      .ok ([1], some ⟨⟨0⟩, ⟨4⟩, ⟨5⟩, ⟨4⟩⟩, some ⟨1⟩) ∧
    (Search.ofEvents env pts firstFlush lastFlush).map (fun s ↦
      (s.graph.contexts.get ⟨0⟩).map (·.pm.toList)) = .ok (.ok [.global ⟨0⟩])) (by decide +kernel)
  obtain ⟨g, hg, hgraph⟩ := map_eq_ok_iff.1 hgraph
  obtain ⟨hchildren, hwindows⟩ := Prod.mk.inj hgraph
  obtain ⟨hw, hv⟩ := Prod.mk.inj hwindows
  obtain ⟨v, hv, hcontext⟩ := Option.map_eq_some_iff.1 hv
  obtain ⟨s₀, hs₀, hfacts⟩ := construct_facts hg
  obtain ⟨g₀, todo, hsteps, -, hedges⟩ := hfacts 0 _ hw
  have hchild : 1 ∈ g.children 0 := hchildren ▸ List.mem_cons_self
  have hrelayed := (hedges 1 v hchild hv).1.call (by rw [hp]; decide +kernel) (.global ⟨0⟩)
  rw [hcontext] at hrelayed
  refine ⟨env, pts, g, hp, hindex, hpts, hg, hchild, hrelayed ?_⟩
  cases hsteps
  obtain ⟨s, hs, hstart⟩ := map_eq_ok_iff.1 hstart
  cases hs₀.symm.trans hs
  obtain ⟨x, hx, hfacts⟩ := map_eq_ok_iff.1 hstart
  exact ⟨x, hx, PmFacts.mem_toList.1 (hfacts ▸ List.mem_cons_self)⟩

/-- The caller learns of the slot from the second callee, and the first one does not. -/
theorem not_closed_learnsLater : learnsLater.validate = .ok () ∧ ∃ env pts g,
    env.program = learnsLater ∧ LocationIndex.ofProgram learnsLater = .ok env.index ∧
    learnsLater.pointsTo = .ok pts ∧ construct env pts firstFlush lastFlush = .ok g ∧
    ¬ g.Closed learnsLater pts := by
  obtain ⟨env, pts, hp, hindex, hpts, hgraph⟩ := exists_analyzed learnsLater (fun env pts ↦
    (construct env pts firstFlush lastFlush).map (fun g ↦ decide (
      g.children 0 = [1] ∧ g.windowAt? 0 = some ⟨⟨0⟩, ⟨4⟩, ⟨5⟩, ⟨4⟩⟩ ∧
      (g.windowAt? 1).map (·.context) = some ⟨1⟩ ∧
      (g.contexts.get ⟨0⟩).map (·.pm.toList) = .ok [.stack ⟨1⟩, .global ⟨0⟩] ∧
      (g.contexts.get ⟨1⟩).map (·.pm.toList) = .ok [.global ⟨0⟩])) = .ok true) (by decide +kernel)
  obtain ⟨g, hg, hgraph⟩ := map_eq_ok_iff.1 hgraph
  obtain ⟨hchildren, hw, hv, hcaller, hcallee⟩ := of_decide_eq_true hgraph
  refine ⟨by decide +kernel, env, pts, g, hp, hindex, hpts, hg, fun hclosed ↦ ?_⟩
  obtain ⟨v, hv, hcontext⟩ := Option.map_eq_some_iff.1 hv
  obtain ⟨x, hx, hcaller⟩ := map_eq_ok_iff.1 hcaller
  obtain ⟨y, hy, hcallee⟩ := map_eq_ok_iff.1 hcallee
  have hslot : g.contexts.Has ⟨0⟩ (.stack ⟨1⟩) :=
    ⟨x, hx, PmFacts.mem_toList.1 (hcaller ▸ List.mem_cons_self)⟩
  have hrelayed := (hclosed 0 1 _ v (hchildren ▸ List.mem_cons_self) hw hv).call (by decide +kernel)
    (.stack ⟨1⟩) hslot
  rw [hcontext, ContextTable.has_iff hy, ← PmFacts.mem_toList, hcallee] at hrelayed
  exact absurd hrelayed (by decide)

end Later

end WindowGraph

end Durability
