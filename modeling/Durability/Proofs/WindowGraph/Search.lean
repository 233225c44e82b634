import Durability.Proofs.WindowGraph.Successors
import Durability.Redundancy.Basic

namespace Durability

open Relation

variable {p : Program} {pts : PointsTo} {facts : Storage → Prop}

theorem Window.same_iff {w v : Window} :
    w.same v = true ↔ w.context = v.context ∧ w.first = v.first := by
  simp [Window.same]

namespace WindowGraph

variable {g g' : WindowGraph} {n m k : Nat} {w v : Window} {c : ContextId} {i : InstrId}
  {todo frontier : List Nat}

theorem node_eq_ok_iff {x : Node} : g.node n = .ok x ↔ g.nodes[n]? = some x := Fault.lookup_eq_ok_iff

def windowAt? (g : WindowGraph) (n : Nat) : Option Window := g.nodes[n]?.map (·.window)

def Reached (g : WindowGraph) (n : Nat) : Prop :=
  ReflTransGen (fun a b ↦ b ∈ g.children a) root n

/-- A child of `n` begins where control may go from the end of `w`. -/
def Expanded (p : Program) (g : WindowGraph) (n : Nat) (w : Window) : Prop :=
  ∀ x s j, g.contexts.get w.context = .ok x → p.Step ⟨x.callStack, w.last⟩ ⟨s, j⟩ →
    ∃ m ∈ g.children n, ∃ v y, g.windowAt? m = some v ∧ v.first = j ∧
      g.contexts.get v.context = .ok y ∧ y.callStack = s

def Settled (p : Program) (g : WindowGraph) (n : Nat) (w : Window) : Prop :=
  w.same g.stop = true ∧ g.stopNode = some n ∨ w.same g.stop = false ∧ g.Expanded p n w

/-- The cache finds the nodes that there are by the beginnings of their windows, and no others. -/
def Indexed (g : WindowGraph) : Prop :=
  ∀ c i n, g.find? c i = some n ↔ ∃ w, g.windowAt? n = some w ∧ w.context = c ∧ w.first = i

structure Connected (g : WindowGraph) : Prop where
  root : g.windowAt? root = some g.start
  reached : ∀ n w, g.windowAt? n = some w → g.Reached n
  stopNode : ∀ n, g.stopNode = some n → ∃ w, g.windowAt? n = some w ∧ w.same g.stop = true

/-- What holds of a graph of which the nodes in `todo` are still to be visited. -/
structure Sound (p : Program) (facts : Storage → Prop) (g : WindowGraph) (todo : List Nat) : Prop where
  table : g.contexts.Sound p
  fits : ∀ n w, g.windowAt? n = some w → w.Fits p g.contexts ∧ g.contexts.Knows facts w.context
  distinct : ∀ n m w v, g.windowAt? n = some w → g.windowAt? m = some v → w.same v = true → n = m
  settled : ∀ n w, g.windowAt? n = some w → n ∈ todo ∨ g.Settled p n w

structure Extends (g g' : WindowGraph) : Prop where
  start : g'.start = g.start
  stop : g'.stop = g.stop
  contexts : g.contexts.Grows g'.contexts
  windows : ∀ n w, g.windowAt? n = some w → g'.windowAt? n = some w
  children : ∀ n, ∀ m ∈ g.children n, m ∈ g'.children n

theorem Extends.refl (g : WindowGraph) : g.Extends g :=
  ⟨rfl, rfl, .refl _, fun _ _ h ↦ h, fun _ _ h ↦ h⟩

theorem Extends.trans {g'' : WindowGraph} (h : g.Extends g') (h' : g'.Extends g'') :
    g.Extends g'' :=
  ⟨h'.start.trans h.start, h'.stop.trans h.stop, h.contexts.trans h'.contexts,
    fun n w hw ↦ h'.windows n w (h.windows n w hw),
    fun n m hm ↦ h'.children n m (h.children n m hm)⟩

theorem Reached.mono (h : g.Reached n) (hext : g.Extends g') : g'.Reached n :=
  ReflTransGen.mono hext.children _ _ h

theorem Expanded.mono (h : g.Expanded p n w) (hw : w.Fits p g.contexts) (hext : g.Extends g') :
    g'.Expanded p n w := by
  intro x' s j hx' hstep
  obtain ⟨x, hx, -⟩ := hw.context
  obtain ⟨_, hy, hxy⟩ := hext.contexts _ x hx
  cases hx'.symm.trans hy
  obtain ⟨m, hm, v, y, hv, hfirst, hcontext, hstack⟩ := h x s j hx (hxy.callStack ▸ hstep)
  obtain ⟨y', hy', hyy'⟩ := hext.contexts _ y hcontext
  exact ⟨m, hext.children n m hm, v, y', hext.windows m v hv, hfirst, hy', hyy'.callStack.trans hstack⟩

section Edge

theorem windowAt?_addEdge : (g.addEdge n m).windowAt? k = g.windowAt? k := by
  simp only [windowAt?, addEdge, List.getElem?_modify, Option.map_eq_map, Option.map_map]
  cases g.nodes[k]? with
  | none => rfl
  | some x =>
    simp only [Option.map_some, Function.comp]
    split <;> split <;> rfl

theorem mem_children_addEdge (hn : (g.windowAt? n).isSome) {a b : Nat} :
    b ∈ (g.addEdge n m).children a ↔ b ∈ g.children a ∨ a = n ∧ b = m := by
  simp only [children, addEdge, List.getElem?_modify, Option.map_eq_map, Option.map_map]
  cases ha : g.nodes[a]? with
  | none =>
    have hne : a ≠ n := by
      rintro rfl
      simp [windowAt?, ha] at hn
    simp [hne]
  | some x =>
    simp only [Option.map_some, Function.comp, Option.getD_some]
    by_cases hna : n = a
    · subst hna
      by_cases hma : m = n <;> simp [hma, SortedSet.mem_toList, or_comm]
    · by_cases hma : m = a <;> simp [hna, hma, Ne.symm hna]

theorem mem_parents_addEdge (hm : (g.windowAt? m).isSome) {a b : Nat} :
    a ∈ (g.addEdge n m).parents b ↔ a ∈ g.parents b ∨ a = n ∧ b = m := by
  simp only [parents, addEdge, List.getElem?_modify, Option.map_eq_map, Option.map_map]
  cases hb : g.nodes[b]? with
  | none =>
    have hne : b ≠ m := by
      rintro rfl
      simp [windowAt?, hb] at hm
    simp [hne]
  | some x =>
    simp only [Option.map_some, Function.comp, Option.getD_some]
    by_cases hmb : m = b
    · subst hmb
      by_cases hnm : n = m <;> simp [hnm, SortedSet.mem_toList, or_comm]
    · by_cases hnb : n = b <;> simp [hmb, hnb, Ne.symm hmb]

theorem length_addEdge : (g.addEdge n m).nodes.length = g.nodes.length := by simp [addEdge]

section Append

variable {cache : SortedMap WindowKey Nat}

theorem windowAt?_append (w : Window) :
    ({ g with nodes := g.nodes ++ [⟨w, ∅, ∅⟩], cache } : WindowGraph).windowAt? k =
      if k = g.nodes.length then some w else g.windowAt? k := by
  simp only [windowAt?, List.getElem?_append, List.getElem?_singleton]
  grind

theorem children_append (w : Window) :
    ({ g with nodes := g.nodes ++ [⟨w, ∅, ∅⟩], cache } : WindowGraph).children k = g.children k := by
  simp only [children, List.getElem?_append, List.getElem?_singleton]
  by_cases hk : k < g.nodes.length
  · rw [if_pos hk]
  · rw [if_neg hk, List.getElem?_eq_none (Nat.not_lt.1 hk)]
    split <;> rfl

theorem parents_append (w : Window) :
    ({ g with nodes := g.nodes ++ [⟨w, ∅, ∅⟩], cache } : WindowGraph).parents k = g.parents k := by
  simp only [parents, List.getElem?_append, List.getElem?_singleton]
  by_cases hk : k < g.nodes.length
  · rw [if_pos hk]
  · rw [if_neg hk, List.getElem?_eq_none (Nat.not_lt.1 hk)]
    split <;> rfl

end Append

theorem windowAt?_length : g.windowAt? g.nodes.length = none := by
  rw [windowAt?, List.getElem?_eq_none (Nat.le_refl _)]
  rfl

end Edge

/-- What an edge from `n` to the window that begins with `i` in `c` does to a graph. The window is a
node already or becomes one, which then waits to be visited. -/
structure Linked (p : Program) (n : Nat) (c : ContextId) (i : InstrId) (g g' : WindowGraph)
    (frontier frontier' : List Nat) (m : Nat) (v : Window) : Prop where
  context : v.context = c
  first : v.first = i
  same : g'.start = g.start ∧ g'.stop = g.stop ∧ g'.stopNode = g.stopNode ∧ g'.contexts = g.contexts
  leaves : g'.leaves = g.leaves
  length : g'.nodes.length + frontier.length = g.nodes.length + frontier'.length
  indexed : g'.Indexed
  windows : g.windowAt? m = some v ∧ frontier' = frontier ∧ (∀ k, g'.windowAt? k = g.windowAt? k) ∨
    g.windowAt? m = none ∧ Window.startingAt p c i = .ok v ∧
      (∀ k u, g.windowAt? k = some u → ¬ u.same v = true) ∧ frontier' = frontier ++ [m] ∧
      ∀ k, g'.windowAt? k = if k = m then some v else g.windowAt? k
  children : ∀ a b, b ∈ g'.children a ↔ b ∈ g.children a ∨ a = n ∧ b = m
  parents : ∀ a b, a ∈ g'.parents b ↔ a ∈ g.parents b ∨ a = n ∧ b = m

theorem startingAt_eq (h : Window.startingAt p c i = .ok w) : w.context = c ∧ w.first = i := by
  obtain ⟨k, -, h⟩ := bind_eq_ok_iff.1 h
  cases h
  exact ⟨rfl, rfl⟩

theorem find?_cases (h : g.Indexed) (c : ContextId) (i : InstrId) :
    (∃ m v, g.find? c i = some m ∧ g.windowAt? m = some v ∧ v.context = c ∧ v.first = i) ∨
      g.find? c i = none ∧ ∀ k u, g.windowAt? k = some u → ¬ (u.context = c ∧ u.first = i) := by
  cases hfind : g.find? c i with
  | some m =>
    obtain ⟨v, hv, hcontext, hfirst⟩ := (h c i m).1 hfind
    exact .inl ⟨m, v, rfl, hv, hcontext, hfirst⟩
  | none =>
    refine .inr ⟨rfl, fun k u hu hkey ↦ ?_⟩
    cases hfind.symm.trans ((h c i k).2 ⟨u, hu, hkey⟩)

theorem Indexed.addEdge (h : g.Indexed) : (g.addEdge n m).Indexed := by
  intro c i k
  simp only [windowAt?_addEdge]
  exact h c i k

theorem Indexed.insert (h : g.Indexed) (hnew : g.find? w.context w.first = none) :
    Indexed { g with nodes := g.nodes ++ [⟨w, ∅, ∅⟩],
                     cache := g.cache.insert w.key g.nodes.length } := by
  intro c i k
  have hfind : (g.cache.insert w.key g.nodes.length).get? (c, i) =
      if w.key = (c, i) then some g.nodes.length else g.find? c i := SortedMap.get?_insert ..
  rw [find?, hfind]
  simp only [windowAt?_append]
  split
  · next hkey =>
    cases hkey
    constructor
    · intro hk
      cases hk
      exact ⟨w, if_pos rfl, rfl, rfl⟩
    · rintro ⟨u, hu, hc, hi⟩
      split at hu
      · next hk => rw [hk]
      · cases hnew.symm.trans ((h _ _ k).2 ⟨u, hu, hc, hi⟩)
  · next hkey =>
    rw [h c i k]
    constructor
    · rintro ⟨u, hu, hc, hi⟩
      refine ⟨u, ?_, hc, hi⟩
      rw [if_neg, hu]
      rintro rfl
      cases windowAt?_length.symm.trans hu
    · rintro ⟨u, hu, hc, hi⟩
      split at hu
      · cases hu
        exact absurd (by rw [Window.key, hc, hi]) hkey
      · exact ⟨u, hu, hc, hi⟩

theorem link_eq_ok {s : Search} (hindexed : g.Indexed) (hn : (g.windowAt? n).isSome)
    (h : Search.link p n ⟨g, frontier⟩ (c, i) = .ok s) :
    ∃ m v, Linked p n c i g s.graph frontier s.frontier m v := by
  obtain ⟨⟨⟨m, isNew⟩, g₁⟩, hnode, h⟩ := bind_eq_ok_iff.1 h
  cases h
  rw [nodeAt] at hnode
  obtain ⟨m', v, hfind, hv, hcontext, hfirst⟩ | ⟨hfind, hnone⟩ := find?_cases hindexed c i
  · rw [hfind] at hnode
    cases hnode
    exact ⟨m, v, hcontext, hfirst, ⟨rfl, rfl, rfl, rfl⟩, rfl, by rw [length_addEdge]; rfl,
      hindexed.addEdge, .inl ⟨hv, rfl, fun k ↦ windowAt?_addEdge⟩, fun a b ↦ mem_children_addEdge hn,
      fun a b ↦ mem_parents_addEdge (by rw [hv]; rfl)⟩
  · rw [hfind] at hnode
    obtain ⟨w, hw, hnode⟩ := bind_eq_ok_iff.1 hnode
    obtain ⟨hcontext, hfirst⟩ := startingAt_eq hw
    have hnew : g.cache.get? w.key = none := by rw [Window.key, hcontext, hfirst]; exact hfind
    rw [insertNode, hnew] at hnode
    cases hnode
    refine ⟨g.nodes.length, w, hcontext, hfirst, ⟨rfl, rfl, rfl, rfl⟩, rfl, ?_,
      (hindexed.insert hnew).addEdge,
      .inr ⟨windowAt?_length, hw, fun k u hu hsame ↦ ?_, rfl, fun k ↦ ?_⟩, fun a b ↦ ?_,
      fun a b ↦ ?_⟩
    · rw [length_addEdge]
      simp only [List.length_append, List.length_singleton, if_true]
      omega
    · obtain ⟨h, h'⟩ := Window.same_iff.1 hsame
      exact hnone k u hu ⟨h.trans hcontext, h'.trans hfirst⟩
    · rw [windowAt?_addEdge, windowAt?_append]
    · rw [mem_children_addEdge, children_append]
      rw [windowAt?_append]
      split
      · rfl
      · exact hn
    · rw [mem_parents_addEdge, parents_append]
      rw [windowAt?_append, if_pos rfl]
      rfl

section Step

variable {frontier' : List Nat} (h : Linked p n c i g g' frontier frontier' m v)

include h

theorem Linked.extends : g.Extends g' := by
  obtain ⟨hstart, hstop, -, hcontexts⟩ := h.same
  refine ⟨hstart, hstop, hcontexts ▸ .refl _, fun k w hw ↦ ?_,
    fun a b hb ↦ (h.children a b).2 (.inl hb)⟩
  obtain ⟨-, -, hwindows⟩ | ⟨hm, -, -, -, hwindows⟩ := h.windows
  · rw [hwindows, hw]
  · rw [hwindows, if_neg, hw]
    rintro rfl
    cases hm.symm.trans hw

theorem Linked.target : m ∈ g'.children n ∧ g'.windowAt? m = some v := by
  refine ⟨(h.children n m).2 (.inr ⟨rfl, rfl⟩), ?_⟩
  obtain ⟨hm, -, hwindows⟩ | ⟨-, -, -, -, hwindows⟩ := h.windows
  · rw [hwindows, hm]
  · rw [hwindows, if_pos rfl]

theorem Linked.windowAt?_cases (hw : g'.windowAt? k = some w) :
    g.windowAt? k = some w ∨ k = m ∧ w = v ∧ Window.startingAt p c i = .ok v ∧ m ∈ frontier' ∧
      ∀ k u, g.windowAt? k = some u → ¬ u.same v = true := by
  obtain ⟨-, -, hwindows⟩ | ⟨-, hv, hnew, hfrontier, hwindows⟩ := h.windows
  · exact .inl (hwindows k ▸ hw)
  · rw [hwindows] at hw
    split at hw
    · next hk =>
      cases hw
      exact .inr ⟨hk, rfl, hv, by simp [hfrontier], hnew⟩
    · exact .inl hw

theorem Linked.frontier_subset : ∀ k ∈ frontier, k ∈ frontier' := by
  obtain ⟨-, hfrontier, -⟩ | ⟨-, -, -, hfrontier, -⟩ := h.windows
  · exact hfrontier ▸ fun _ hk ↦ hk
  · exact hfrontier ▸ fun _ hk ↦ List.mem_append_left _ hk

theorem Linked.connected (hg : g.Connected) (hn : g.windowAt? n = some w) : g'.Connected := by
  have hext := h.extends
  obtain ⟨hstart, hstop, hstopNode, -⟩ := h.same
  refine ⟨?_, fun k u hu ↦ ?_, fun k hk ↦ ?_⟩
  · rw [hstart]
    exact hext.windows _ _ hg.root
  · obtain hu | ⟨rfl, -⟩ := h.windowAt?_cases hu
    · exact (hg.reached k u hu).mono hext
    · exact ((hg.reached n w hn).mono hext).tail h.target.1
  · rw [hstopNode] at hk
    obtain ⟨u, hu, hsame⟩ := hg.stopNode k hk
    exact ⟨u, hext.windows k u hu, hstop ▸ hsame⟩

theorem Linked.sound (hg : g.Sound p facts (n :: frontier)) (hbegins : Begins p g.contexts c i)
    (hknows : g.contexts.Knows facts c) : g'.Sound p facts (n :: frontier') := by
  have hext := h.extends
  obtain ⟨-, hstop, hstopNode, hcontexts⟩ := h.same
  refine ⟨hcontexts ▸ hg.table, fun k u hu ↦ ?_, fun k k' u u' hu hu' hsame ↦ ?_,
    fun k u hu ↦ ?_⟩
  · rw [hcontexts]
    obtain hu | ⟨-, rfl, hu, -⟩ := h.windowAt?_cases hu
    · exact hg.fits k u hu
    · obtain ⟨rfl, -, hfits⟩ := hbegins.fits hu
      exact ⟨hfits, hknows⟩
  · obtain hu | ⟨rfl, rfl, -, -, hnew⟩ := h.windowAt?_cases hu <;>
      obtain hu' | ⟨rfl, rfl, -, -, hnew'⟩ := h.windowAt?_cases hu'
    · exact hg.distinct k k' u u' hu hu' hsame
    · exact absurd hsame (hnew' k u hu)
    · refine absurd ?_ (hnew k' u' hu')
      exact Window.same_iff.2 ((Window.same_iff.1 hsame).imp Eq.symm Eq.symm)
    · rfl
  · obtain hu | ⟨rfl, -, -, hmem, -⟩ := h.windowAt?_cases hu
    · obtain hk | ⟨hsame, hk⟩ | ⟨hsame, hk⟩ := hg.settled k u hu
      · exact .inl ((List.mem_cons.1 hk).elim (fun hk ↦ hk ▸ List.mem_cons_self)
          fun hk ↦ List.mem_cons_of_mem n (h.frontier_subset k hk))
      · exact .inr (.inl ⟨hstop ▸ hsame, hstopNode.trans hk⟩)
      · exact .inr (.inr ⟨hstop ▸ hsame, hk.mono (hg.fits k u hu).1 hext⟩)
    · exact .inl (List.mem_cons_of_mem n hmem)

end Step

theorem links_eq_ok {next : List (ContextId × InstrId)} {s s' : Search}
    (hindexed : s.graph.Indexed) (hn : s.graph.windowAt? n = some w)
    (h : next.foldlM (fun s x ↦ Attempt.lift (Search.link p n s x) : Search → ContextId × InstrId →
      Attempt RepairError Search) s = .ok s') :
    s.graph.Extends s'.graph ∧ s'.graph.contexts = s.graph.contexts ∧ s'.graph.Indexed ∧
      (∀ x ∈ next, ∃ m ∈ s'.graph.children n, ∃ v, s'.graph.windowAt? m = some v ∧
        v.context = x.1 ∧ v.first = x.2) ∧
      (s.graph.Connected → s'.graph.Connected) ∧
      ∀ facts, s.graph.Sound p facts (n :: s.frontier) →
        (∀ x ∈ next, Begins p s.graph.contexts x.1 x.2 ∧ s.graph.contexts.Knows facts x.1) →
          s'.graph.Sound p facts (n :: s'.frontier) := by
  induction next generalizing s with
  | nil =>
    cases h
    exact ⟨.refl _, rfl, hindexed, fun _ hx ↦ absurd hx List.not_mem_nil, id, fun _ hs _ ↦ hs⟩
  | cons x next ih =>
    obtain ⟨r, hlink, h⟩ := foldlM_cons_eq_ok_iff.1 h
    obtain ⟨m, v, hlinked⟩ := link_eq_ok hindexed (by rw [hn]; rfl) (Attempt.lift_eq_ok_iff.1 hlink)
    have hcontexts := hlinked.same.2.2.2
    have hext := hlinked.extends
    obtain ⟨hext', hcontexts', hindexed', hchildren, hconnected, hsound⟩ :=
      ih hlinked.indexed (hext.windows n w hn) h
    refine ⟨hext.trans hext', hcontexts'.trans hcontexts, hindexed', List.forall_mem_cons.2 ⟨?_, hchildren⟩,
      fun hs ↦ hconnected (hlinked.connected hs hn), fun facts hs hbegins ↦ ?_⟩
    · obtain ⟨hchild, hv⟩ := hlinked.target
      exact ⟨m, hext'.children n m hchild, v, hext'.windows m v hv, hlinked.context, hlinked.first⟩
    · obtain ⟨hx, hnext⟩ := List.forall_mem_cons.1 hbegins
      exact hsound facts (hlinked.sound hs hx.1 hx.2) (hcontexts ▸ hnext)

theorem Sound.grow {t : ContextTable} (h : g.Sound p facts todo) (hgrows : g.contexts.Grows t)
    (ht : t.Sound p) : Sound p facts { g with contexts := t } todo := by
  have hext : g.Extends { g with contexts := t } :=
    ⟨rfl, rfl, hgrows, fun _ _ h ↦ h, fun _ _ h ↦ h⟩
  refine ⟨ht, fun k u hu ↦ ?_, h.distinct, fun k u hu ↦ ?_⟩
  · exact ⟨(h.fits k u hu).1.mono hgrows, (h.fits k u hu).2.mono hgrows⟩
  · exact (h.settled k u hu).imp_right (Or.imp_right (And.imp_right
      fun hk ↦ hk.mono (h.fits k u hu).1 hext))

theorem Sound.settle {leaves : List Nat} (h : g.Sound p facts (n :: todo))
    (hn : g.windowAt? n = some w) (hw : g.Settled p n w) :
    Sound p facts { g with leaves := leaves } todo := by
  refine ⟨h.table, h.fits, h.distinct, fun k u hu ↦ ?_⟩
  obtain hk | hk := h.settled k u hu
  · obtain rfl | hk := List.mem_cons.1 hk
    · cases hn.symm.trans hu
      exact .inr hw
    · exact .inl hk
  · exact .inr hk

theorem Sound.stopAt {leaves : List Nat} (h : g.Sound p facts (n :: todo))
    (hn : g.windowAt? n = some w) (hsame : w.same g.stop = true) :
    Sound p facts { g with stopNode := some n, leaves := leaves } todo := by
  refine ⟨h.table, h.fits, h.distinct, fun k u hu ↦ ?_⟩
  obtain hk | ⟨hk, -⟩ | hk := h.settled k u hu
  · obtain rfl | hk := List.mem_cons.1 hk
    · cases hn.symm.trans hu
      exact .inr (.inl ⟨hsame, rfl⟩)
    · exact .inl hk
  · have huw : u.same w = true := by
      obtain ⟨hc, hi⟩ := Window.same_iff.1 hk
      obtain ⟨hc', hi'⟩ := Window.same_iff.1 hsame
      exact Window.same_iff.2 ⟨hc.trans hc'.symm, hi.trans hi'.symm⟩
    exact .inr (.inl ⟨hk, by rw [h.distinct k n u w hu hn huw]⟩)
  · exact .inr (.inr hk)

theorem Follows.expanded {next : List (ContextId × InstrId)}
    (h : Follows p facts g.contexts w next g'.contexts) (hw : w.Fits p g.contexts)
    (hchildren : ∀ x ∈ next, ∃ m ∈ g'.children n, ∃ v, g'.windowAt? m = some v ∧
      v.context = x.1 ∧ v.first = x.2) : g'.Expanded p n w := by
  intro x' s j hx' hstep
  obtain ⟨x, hx, -⟩ := hw.context
  obtain ⟨_, hy, hgrows⟩ := h.grows _ x hx
  cases hx'.symm.trans hy
  obtain ⟨next, hnext, rfl, y, hy, rfl⟩ := h.covers x s j hx (hgrows.callStack ▸ hstep)
  obtain ⟨m, hm, v, hv, hcontext, hfirst⟩ := hchildren next hnext
  exact ⟨m, hm, v, y, hv, hfirst, by rw [hcontext]; exact hy, rfl⟩

section Visit

variable {s : Search}

theorem visit_cases (h : Search.visit p pts g todo n = .ok s) : ∃ w, g.windowAt? n = some w ∧
    (w.same g.stop = true ∧
        s = ⟨{ g with stopNode := some n, leaves := g.leaves ++ [n] }, todo⟩ ∨
      w.same g.stop = false ∧ ∃ next t, successors p pts g.contexts w = .ok (next, t) ∧
        (next = [] ∧ s = ⟨{ g with contexts := t, leaves := g.leaves ++ [n] }, todo⟩ ∨
          next ≠ [] ∧ next.foldlM (fun s x ↦ Attempt.lift (Search.link p n s x) :
            Search → ContextId × InstrId → Attempt RepairError Search)
              ⟨{ g with contexts := t }, todo⟩ = .ok s)) := by
  obtain ⟨x, hx, h⟩ := bind_eq_ok_iff.1 h
  refine ⟨x.window, ?_, ?_⟩
  · rw [windowAt?, node_eq_ok_iff.1 (Attempt.lift_eq_ok_iff.1 hx)]
    rfl
  · dsimp only at h
    split at h
    · next hsame =>
      cases h
      exact .inl ⟨hsame, rfl⟩
    · next hsame =>
      obtain ⟨⟨next, t⟩, hnext, h⟩ := bind_eq_ok_iff.1 h
      refine .inr ⟨Bool.eq_false_iff.2 hsame, next, t, hnext, ?_⟩
      dsimp only at h
      split at h
      · next hempty =>
        cases h
        exact .inl ⟨List.isEmpty_iff.1 hempty, rfl⟩
      · next hempty => exact .inr ⟨fun hnil ↦ hempty (List.isEmpty_iff.2 hnil), h⟩

theorem Indexed.visit (hg : g.Indexed) (h : Search.visit p pts g todo n = .ok s) :
    s.graph.Indexed := by
  obtain ⟨w, hn, ⟨-, rfl⟩ | ⟨-, next, t, -, ⟨-, rfl⟩ | ⟨-, h⟩⟩⟩ := visit_cases h
  · exact hg
  · exact hg
  · obtain ⟨-, -, hindexed, -⟩ := links_eq_ok (s := ⟨{ g with contexts := t }, todo⟩) hg hn h
    exact hindexed

theorem Connected.visit (hg : g.Connected) (hindexed : g.Indexed)
    (h : Search.visit p pts g todo n = .ok s) : s.graph.Connected := by
  obtain ⟨w, hn, ⟨hsame, rfl⟩ | ⟨-, next, t, -, ⟨-, rfl⟩ | ⟨-, h⟩⟩⟩ := visit_cases h
  · refine ⟨hg.root, hg.reached, fun k hk ↦ ?_⟩
    cases hk
    exact ⟨w, hn, hsame⟩
  · exact ⟨hg.root, hg.reached, hg.stopNode⟩
  · obtain ⟨-, -, -, -, hconnected, -⟩ := links_eq_ok
      (s := ⟨{ g with contexts := t }, todo⟩) hindexed hn h
    exact hconnected ⟨hg.root, hg.reached, hg.stopNode⟩

theorem Sound.visit (hv : p.Valid) (once : p.ListsOnce) (hg : g.Sound p facts (n :: todo))
    (hindexed : g.Indexed) (h : Search.visit p pts g todo n = .ok s) :
    s.graph.Sound p facts s.frontier ∧ g.Extends s.graph := by
  obtain ⟨w, hn, ⟨hsame, rfl⟩ | ⟨hsame, next, t, hnext, h⟩⟩ := visit_cases h
  · exact ⟨hg.stopAt hn hsame, rfl, rfl, .refl _, fun _ _ h ↦ h, fun _ _ h ↦ h⟩
  · obtain ⟨hfits, hknows⟩ := hg.fits n w hn
    have hfollows := successors_follows hv once hg.table hfits hknows hnext
    have hgrown := hg.grow hfollows.grows hfollows.sound
    have hext : g.Extends { g with contexts := t } :=
      ⟨rfl, rfl, hfollows.grows, fun _ _ h ↦ h, fun _ _ h ↦ h⟩
    obtain ⟨rfl, rfl⟩ | ⟨-, h⟩ := h
    · have hexpanded : Expanded p { g with contexts := t } n w :=
        hfollows.expanded hfits fun _ hx ↦ absurd hx List.not_mem_nil
      exact ⟨hgrown.settle hn (.inr ⟨hsame, hexpanded⟩),
        hext.start, hext.stop, hext.contexts, hext.windows, hext.children⟩
    · obtain ⟨hext', hcontexts, -, hchildren, -, hsound⟩ := links_eq_ok
        (s := ⟨{ g with contexts := t }, todo⟩) hindexed hn h
      have hext := hext.trans hext'
      have hexpanded : s.graph.Expanded p n w :=
        Follows.expanded (by rw [hcontexts]; exact hfollows) hfits hchildren
      exact ⟨(hsound facts hgrown hfollows.begins).settle (hext.windows n w hn)
        (.inr ⟨hext.stop ▸ hsame, hexpanded⟩), hext⟩

/-- What every visit preserves holds when the search is over. -/
theorem run_induction {P : WindowGraph → List Nat → Prop}
    (hvisit : ∀ g todo n s, P g (n :: todo) → Search.visit p pts g todo n = .ok s →
      P s.graph s.frontier)
    (hs : P s.graph s.frontier) (h : Search.run p pts k s = .ok g) : P g [] := by
  induction k generalizing s with
  | zero =>
    obtain ⟨g', _ | ⟨n, todo⟩⟩ := s
    · cases h
      exact hs
    · cases h
  | succ k ih =>
    obtain ⟨g', _ | ⟨n, todo⟩⟩ := s
    · cases h
      exact hs
    · obtain ⟨r, hr, h⟩ := bind_eq_ok_iff.1 h
      exact ih (hvisit g' todo n r hs hr) h

end Visit

end WindowGraph

end Durability
