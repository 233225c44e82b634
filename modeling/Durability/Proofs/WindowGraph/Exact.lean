import Durability.Proofs.WindowGraph.Construct
import Durability.Proofs.WindowGraph.Next
import Durability.Sample.Programs
import Durability.Sample.Traces

namespace Durability.WindowGraph

open Relation

variable {p : Program} {pts : PointsTo} {env : Surroundings} {first last : Event}
  {g g' : WindowGraph} {n m k : Nat} {w v : Window} {todo frontier frontier' : List Nat}
  {next : List WindowKey}

/-- Control can come from one window to another without going on from the window of the second
event. -/
def Leads (p : Program) (g : WindowGraph) : WindowKey → WindowKey → Prop :=
  ReflTransGen fun k l ↦ k ≠ g.stop.key ∧ Precedes p g.contexts k l

/-- The graph is that of the windows that can be come to from its start. -/
structure Exact (p : Program) (g : WindowGraph) : Prop where
  root : g.windowAt? root = some g.start
  windows : ∀ n w, g.windowAt? n = some w → p.scanForward p.walkBound w.first = .ok w.last
  distinct : ∀ n m w v, g.windowAt? n = some w → g.windowAt? m = some v → w.key = v.key → n = m
  cache : ∀ c i n, g.find? c i = some n ↔ ∃ w, g.windowAt? n = some w ∧ w.key = (c, i)
  nodes : ∀ k, (∃ n w, g.windowAt? n = some w ∧ w.key = k) ↔ g.Leads p g.start.key k
  children : ∀ n w, g.windowAt? n = some w → ∀ k, (∃ m ∈ g.children n, ∃ v,
    g.windowAt? m = some v ∧ v.key = k) ↔ w.key ≠ g.stop.key ∧ Precedes p g.contexts w.key k
  edges : ∀ n m, m ∈ g.children n → (g.windowAt? n).isSome ∧ (g.windowAt? m).isSome
  parents : ∀ n m, n ∈ g.parents m ↔ m ∈ g.children n
  leavesOnce : g.leaves.Nodup
  leaves : ∀ n, n ∈ g.leaves ↔ ∃ w, g.windowAt? n = some w ∧
    (w.key = g.stop.key ∨ ∀ k, ¬ Precedes p g.contexts w.key k)
  stopNode : ∀ n, g.stopNode = some n ↔ ∃ w, g.windowAt? n = some w ∧ w.key = g.stop.key
  stopReached : g.stopNode.isSome ↔ g.Leads p g.start.key g.stop.key

theorem Window.same_iff_key : w.same v = true ↔ w.key = v.key := by
  rw [Window.same_iff, Window.key, Window.key, Prod.mk.injEq]

theorem Indexed.eq_of_key (h : g.Indexed) (hn : g.windowAt? n = some w)
    (hm : g.windowAt? m = some v) (hkey : w.key = v.key) : n = m := by
  obtain ⟨hc, hi⟩ := Prod.mk.inj hkey
  have hfind := (h v.context v.first n).2 ⟨w, hn, hc, hi⟩
  rw [(h v.context v.first m).2 ⟨v, hm, rfl, rfl⟩] at hfind
  exact (Option.some.inj hfind).symm

/-- What edges from `n` to the windows that begin at `next` do to a graph. -/
structure Links (p : Program) (n : Nat) (next : List WindowKey) (g g' : WindowGraph)
    (frontier frontier' : List Nat) : Prop where
  same : g'.start = g.start ∧ g'.stop = g.stop ∧ g'.stopNode = g.stopNode ∧ g'.contexts = g.contexts
  leaves : g'.leaves = g.leaves
  indexed : g'.Indexed
  windows : ∀ k w, g.windowAt? k = some w → g'.windowAt? k = some w
  new : ∃ new, frontier' = frontier ++ new ∧ new.Nodup ∧
    (∀ k ∈ new, g.windowAt? k = none ∧ (g'.windowAt? k).isSome) ∧
    ∀ k w, g'.windowAt? k = some w → g.windowAt? k = some w ∨
      k ∈ new ∧ w.key ∈ next ∧ p.scanForward p.walkBound w.first = .ok w.last
  length : g'.nodes.length + frontier.length = g.nodes.length + frontier'.length
  linked : ∀ x ∈ next, ∃ m v, g'.windowAt? m = some v ∧ v.key = x
  children : ∀ a b, b ∈ g'.children a ↔
    b ∈ g.children a ∨ a = n ∧ ∃ v, g'.windowAt? b = some v ∧ v.key ∈ next
  parents : ∀ a b, a ∈ g'.parents b ↔
    a ∈ g.parents b ∨ a = n ∧ ∃ v, g'.windowAt? b = some v ∧ v.key ∈ next

theorem Links.mem_children_of_ne (h : Links p n next g g' frontier frontier') (hk : k ≠ n) :
    m ∈ g'.children k ↔ m ∈ g.children k :=
  (h.children k m).trans (or_iff_left fun hm ↦ hk hm.1)

theorem Links.isSome (h : Links p n next g g' frontier frontier') (hk : (g.windowAt? k).isSome) :
    (g'.windowAt? k).isSome := by
  obtain ⟨v, hv⟩ := Option.isSome_iff_exists.1 hk
  rw [h.windows k v hv]
  rfl

theorem Links.nil (h : g.Indexed) : Links p n [] g g frontier frontier := by
  have hnone (a b : Nat) : ¬ (a = n ∧ ∃ v, g.windowAt? b = some v ∧ v.key ∈ ([] : List WindowKey)) :=
    fun ⟨_, _, _, hv⟩ ↦ absurd hv List.not_mem_nil
  exact ⟨⟨rfl, rfl, rfl, rfl⟩, rfl, h, fun _ _ hw ↦ hw,
    ⟨[], (List.append_nil _).symm, .nil, fun _ hk ↦ absurd hk List.not_mem_nil, fun _ _ ↦ .inl⟩, rfl,
    fun _ hx ↦ absurd hx List.not_mem_nil, fun a b ↦ (or_iff_left (hnone a b)).symm,
    fun a b ↦ (or_iff_left (hnone a b)).symm⟩

theorem scanForward_of_startingAt {c : ContextId} {i : InstrId}
    (h : Window.startingAt p c i = .ok w) : p.scanForward p.walkBound w.first = .ok w.last := by
  obtain ⟨j, hscan, h⟩ := bind_eq_ok_iff.1 h
  cases pure_eq_ok_iff.1 h
  exact hscan

section Cons

variable {g₁ : WindowGraph} {frontier₁ : List Nat} {x : WindowKey}
  (hlinked : Linked p n x.1 x.2 g g₁ frontier frontier₁ m v)
  (h : Links p n next g₁ g' frontier₁ frontier')
include hlinked h

theorem Links.exists_new : ∃ new, frontier' = frontier ++ new ∧ new.Nodup ∧
    (∀ k ∈ new, g.windowAt? k = none ∧ (g'.windowAt? k).isSome) ∧
    ∀ k w, g'.windowAt? k = some w → g.windowAt? k = some w ∨
      k ∈ new ∧ w.key ∈ x :: next ∧ p.scanForward p.walkBound w.first = .ok w.last := by
  obtain ⟨new, hfrontier, hnodup, hfresh, hnew⟩ := h.new
  obtain ⟨-, hsame, hwindows⟩ | ⟨hnone, hv, -, hfrontier₁, hwindows⟩ := hlinked.windows
  · refine ⟨new, by rw [hfrontier, hsame], hnodup, fun k hk ↦ ?_, fun k w hw ↦ ?_⟩
    · rw [← hwindows k]
      exact hfresh k hk
    · rw [← hwindows k]
      exact (hnew k w hw).imp_right (And.imp_right (And.imp_left (List.mem_cons_of_mem x)))
  · refine ⟨m :: new, by rw [hfrontier, hfrontier₁, List.append_assoc]; rfl,
      List.nodup_cons.2 ⟨fun hmem ↦ ?_, hnodup⟩, fun k hk ↦ ?_, fun k w hw ↦ ?_⟩
    · obtain ⟨hm₁, -⟩ := hfresh m hmem
      rw [hwindows, if_pos rfl] at hm₁
      cases hm₁
    · obtain rfl | hk := List.mem_cons.1 hk
      · exact ⟨hnone, by rw [h.windows k v hlinked.target.2]; rfl⟩
      · obtain ⟨hk₁, hk'⟩ := hfresh k hk
        rw [hwindows] at hk₁
        split at hk₁
        · cases hk₁
        · exact ⟨hk₁, hk'⟩
    · obtain hw₁ | ⟨hk, hmem, hscan⟩ := hnew k w hw
      · rw [hwindows] at hw₁
        split at hw₁
        · next hkm =>
          cases hw₁
          have hkey : v.key = x := Prod.ext hlinked.context hlinked.first
          exact .inr ⟨hkm ▸ List.mem_cons_self, hkey ▸ List.mem_cons_self,
            scanForward_of_startingAt hv⟩
        · exact .inl hw₁
      · exact .inr ⟨List.mem_cons_of_mem m hk, List.mem_cons_of_mem x hmem, hscan⟩

theorem Links.cons : Links p n (x :: next) g g' frontier frontier' := by
  obtain ⟨hstart, hstop, hstopNode, hcontexts⟩ := h.same
  obtain ⟨hstart₁, hstop₁, hstopNode₁, hcontexts₁⟩ := hlinked.same
  have hkey : v.key = x := Prod.ext hlinked.context hlinked.first
  have hm : g'.windowAt? m = some v := h.windows m v hlinked.target.2
  have htarget (a b : Nat) : (a = n ∧ b = m) ∨
      (a = n ∧ ∃ u, g'.windowAt? b = some u ∧ u.key ∈ next) ↔
      a = n ∧ ∃ u, g'.windowAt? b = some u ∧ u.key ∈ x :: next := by
    rw [← and_or_left]
    refine and_congr_right fun _ ↦ ?_
    constructor
    · rintro (rfl | ⟨u, hu, hmem⟩)
      · exact ⟨v, hm, List.mem_cons.2 (.inl hkey)⟩
      · exact ⟨u, hu, List.mem_cons_of_mem x hmem⟩
    · rintro ⟨u, hu, hmem⟩
      obtain hux | hmem := List.mem_cons.1 hmem
      · exact .inl (h.indexed.eq_of_key hu hm (hux.trans hkey.symm))
      · exact .inr ⟨u, hu, hmem⟩
  refine ⟨⟨hstart.trans hstart₁, hstop.trans hstop₁, hstopNode.trans hstopNode₁,
    hcontexts.trans hcontexts₁⟩, h.leaves.trans hlinked.leaves, h.indexed,
    fun k w hw ↦ h.windows k w (hlinked.extends.windows k w hw), h.exists_new hlinked, ?_,
    List.forall_mem_cons.2 ⟨⟨m, v, hm, hkey⟩, h.linked⟩, fun a b ↦ ?_, fun a b ↦ ?_⟩
  · have hlength := hlinked.length
    have hlength' := h.length
    omega
  · rw [h.children, hlinked.children, or_assoc, htarget]
  · rw [h.parents, hlinked.parents, or_assoc, htarget]

end Cons

theorem links_of_foldlM {s s' : Search} (hindexed : s.graph.Indexed)
    (hn : (s.graph.windowAt? n).isSome)
    (h : next.foldlM (fun s x ↦ Attempt.lift (Search.link p n s x) : Search → WindowKey →
      Attempt RepairError Search) s = .ok s') :
    Links p n next s.graph s'.graph s.frontier s'.frontier := by
  induction next generalizing s with
  | nil =>
    cases h
    exact .nil hindexed
  | cons x next ih =>
    obtain ⟨r, hlink, h⟩ := foldlM_cons_eq_ok_iff.1 h
    obtain ⟨m, v, hlinked⟩ := link_eq_ok hindexed hn (Attempt.lift_eq_ok_iff.1 hlink)
    obtain ⟨w, hw⟩ := Option.isSome_iff_exists.1 hn
    have hn' : (r.graph.windowAt? n).isSome := by rw [hlinked.extends.windows n w hw]; rfl
    exact .cons hlinked (ih hlinked.indexed hn' h)

def Visited (p : Program) (pts : PointsTo) (g : WindowGraph) (n : Nat) (w : Window) : Prop :=
  w.key = g.stop.key ∧ g.stopNode = some n ∧ n ∈ g.leaves ∧ (∀ m, m ∉ g.children n) ∨
    w.key ≠ g.stop.key ∧ ∃ t next t', t.Interned p ∧ successors p pts t w = .ok (next, t') ∧
      t'.Grows g.contexts ∧ (∀ x ∈ next, ∃ m v, g.windowAt? m = some v ∧ v.key = x) ∧
      (∀ m, m ∈ g.children n ↔ ∃ v, g.windowAt? m = some v ∧ v.key ∈ next) ∧
      (n ∈ g.leaves ↔ next = [])

/-- What holds of a graph of which the nodes in `todo` are still to be visited. -/
structure Searched (p : Program) (pts : PointsTo) (g : WindowGraph) (todo : List Nat) : Prop where
  connected : g.Connected
  indexed : g.Indexed
  table : g.contexts.Interned p
  windows : ∀ n w, g.windowAt? n = some w → p.scanForward p.walkBound w.first = .ok w.last
  edges : ∀ n m, m ∈ g.children n → (g.windowAt? n).isSome ∧ (g.windowAt? m).isSome
  parents : ∀ n m, n ∈ g.parents m ↔ m ∈ g.children n
  leavesOnce : g.leaves.Nodup
  leaves : ∀ n ∈ g.leaves, (g.windowAt? n).isSome
  todoOnce : todo.Nodup
  waiting : ∀ n ∈ todo, (g.windowAt? n).isSome ∧ (∀ m, m ∉ g.children n) ∧ n ∉ g.leaves
  visited : ∀ n w, g.windowAt? n = some w → n ∉ todo → g.Visited p pts n w

theorem Visited.mono (h : g.Visited p pts n w) (hindexed : g'.Indexed) (hstop : g'.stop = g.stop)
    (hcontexts : g.contexts.Grows g'.contexts)
    (hwindows : ∀ m v, g.windowAt? m = some v → g'.windowAt? m = some v)
    (hchildren : ∀ m, m ∈ g'.children n ↔ m ∈ g.children n)
    (hleaves : n ∈ g'.leaves ↔ n ∈ g.leaves)
    (hstopNode : w.key = g.stop.key → g'.stopNode = g.stopNode) : g'.Visited p pts n w := by
  obtain ⟨hkey, hnode, hleaf, hnone⟩ | ⟨hkey, t, next, t', ht, hnext, hgrows, hnodes, hedges, hleaf⟩ := h
  · refine .inl ⟨hstop ▸ hkey, (hstopNode hkey).trans hnode, hleaves.2 hleaf, fun m hm ↦ ?_⟩
    exact hnone m ((hchildren m).1 hm)
  · refine .inr ⟨hstop ▸ hkey, t, next, t', ht, hnext, hgrows.trans hcontexts, fun x hx ↦ ?_,
      fun m ↦ ?_, hleaves.trans hleaf⟩
    · obtain ⟨m, v, hv, hx⟩ := hnodes x hx
      exact ⟨m, v, hwindows m v hv, hx⟩
    · rw [hchildren, hedges]
      constructor
      · rintro ⟨v, hv, hmem⟩
        exact ⟨v, hwindows m v hv, hmem⟩
      · rintro ⟨v, hv, hmem⟩
        obtain ⟨m', v', hv', hx⟩ := hnodes _ hmem
        cases hindexed.eq_of_key hv (hwindows m' v' hv') hx.symm
        cases hv.symm.trans (hwindows m v' hv')
        exact ⟨v, hv', hmem⟩

section Visit

variable (h : g.Searched p pts (n :: todo)) (hn : g.windowAt? n = some w)

include h hn

theorem Searched.leave {t : ContextTable} {stopNode : Option Nat} (hgrows : g.contexts.Grows t)
    (ht : t.Interned p) (hstop : stopNode = g.stopNode ∨ stopNode = some n ∧ w.key = g.stop.key)
    (hvisited : Visited p pts { g with contexts := t, stopNode, leaves := g.leaves ++ [n] } n w) :
    Searched p pts { g with contexts := t, stopNode, leaves := g.leaves ++ [n] } todo := by
  obtain ⟨hnew, hnodup⟩ := List.nodup_cons.1 h.todoOnce
  obtain ⟨hsome, -, hleaf⟩ := h.waiting n List.mem_cons_self
  refine ⟨⟨h.connected.root, h.connected.reached, fun k hk ↦ ?_⟩, h.indexed, ht, h.windows,
    h.edges, h.parents, ?_, fun k hk ↦ ?_, hnodup, fun k hk ↦ ?_, fun k v hv hk ↦ ?_⟩
  · obtain rfl | ⟨rfl, hkey⟩ := hstop
    · exact h.connected.stopNode k hk
    · cases hk
      exact ⟨w, hn, Window.same_iff_key.2 hkey⟩
  · rw [← List.concat_eq_append]
    exact List.Nodup.concat hleaf h.leavesOnce
  · obtain hk | hk := List.mem_append.1 hk
    · exact h.leaves k hk
    · rw [List.mem_singleton.1 hk]
      exact hsome
  · obtain ⟨hk', hnone', hleaf'⟩ := h.waiting k (List.mem_cons_of_mem n hk)
    refine ⟨hk', hnone', fun hmem ↦ ?_⟩
    obtain hmem | hmem := List.mem_append.1 hmem
    · exact hleaf' hmem
    · rw [List.mem_singleton.1 hmem] at hk
      exact hnew hk
  · by_cases hkn : k = n
    · subst hkn
      cases hn.symm.trans hv
      exact hvisited
    · refine (h.visited k v hv fun hmem ↦ (List.mem_cons.1 hmem).elim hkn hk).mono h.indexed rfl
        hgrows (fun _ _ hu ↦ hu) (fun _ ↦ .rfl) (by simp [hkn]) fun hkey ↦ ?_
      obtain rfl | ⟨-, hstopKey⟩ := hstop
      · rfl
      · exact absurd (h.indexed.eq_of_key hv hn (hkey.trans hstopKey.symm)) hkn

theorem Searched.visit_stop (hkey : w.key = g.stop.key) :
    Searched p pts { g with stopNode := some n, leaves := g.leaves ++ [n] } todo :=
  h.leave hn (.refl _) h.table (.inr ⟨rfl, hkey⟩)
    (.inl ⟨hkey, rfl, List.mem_append_right _ List.mem_cons_self, (h.waiting n List.mem_cons_self).2.1⟩)

variable {t : ContextTable} (hkey : w.key ≠ g.stop.key)

include hkey

theorem Searched.visit_leaf (hnext : successors p pts g.contexts w = .ok ([], t)) :
    Searched p pts { g with contexts := t, leaves := g.leaves ++ [n] } todo := by
  obtain ⟨hgrows, ht⟩ := successors_grows h.table hnext
  obtain ⟨-, hnone, -⟩ := h.waiting n List.mem_cons_self
  refine h.leave hn hgrows ht (.inl rfl) (.inr ⟨hkey, g.contexts, [], t, h.table, hnext, .refl t,
    fun x hx ↦ absurd hx List.not_mem_nil, fun m ↦ ?_, ?_⟩)
  · exact iff_of_false (hnone m) fun ⟨_, _, hm⟩ ↦ List.not_mem_nil hm
  · exact iff_of_true (List.mem_append_right _ List.mem_cons_self) rfl

section Links

variable (hlinks : Links p n next { g with contexts := t } g' todo frontier')
include hlinks

omit hn hkey in
theorem Searched.waiting_links (hsome : (g.windowAt? n).isSome) : ∀ k ∈ frontier',
    (g'.windowAt? k).isSome ∧ (∀ m, m ∉ g'.children k) ∧ k ∉ g'.leaves := by
  obtain ⟨new, rfl, -, hfresh, -⟩ := hlinks.new
  obtain ⟨hntodo, -⟩ := List.nodup_cons.1 h.todoOnce
  intro k hk
  rw [hlinks.leaves]
  obtain hk | hk := List.mem_append.1 hk
  · obtain ⟨hwindow, hnone, hleaf⟩ := h.waiting k (List.mem_cons_of_mem n hk)
    refine ⟨hlinks.isSome hwindow, fun m hm ↦ hnone m ?_, hleaf⟩
    exact (hlinks.mem_children_of_ne fun hkn ↦ hntodo (hkn ▸ hk)).1 hm
  · obtain ⟨hnone, hwindow⟩ := hfresh k hk
    have hnot : ¬ (g.windowAt? k).isSome := by
      rw [show g.windowAt? k = none from hnone]
      exact Bool.false_ne_true
    refine ⟨hwindow, fun m hm ↦ hnot (h.edges k m ?_).1, fun hmem ↦ hnot (h.leaves k hmem)⟩
    exact (hlinks.mem_children_of_ne (k := k) fun hkn ↦ hnot (hkn ▸ hsome)).1 hm

variable (hnext : successors p pts g.contexts w = .ok (next, t)) (hne : next ≠ [])
include hnext hne

theorem Searched.visited_links : ∀ k v, g'.windowAt? k = some v → k ∉ frontier' →
    g'.Visited p pts k v := by
  obtain ⟨hgrows, -⟩ := successors_grows h.table hnext
  obtain ⟨-, hstop, hstopNode, hcontexts⟩ := hlinks.same
  obtain ⟨new, rfl, -, -, hnew⟩ := hlinks.new
  obtain ⟨-, hnone, hleaf⟩ := h.waiting n List.mem_cons_self
  intro k v hv hk
  obtain hv | ⟨hmem, -⟩ := hnew k v hv
  · by_cases hkn : k = n
    · subst hkn
      cases hn.symm.trans hv
      refine .inr ⟨hstop ▸ hkey, g.contexts, next, t, h.table, hnext, hcontexts ▸ .refl t,
        hlinks.linked, fun m ↦ ?_, ?_⟩
      · exact (hlinks.children k m).trans ((or_iff_right (hnone m)).trans (and_iff_right rfl))
      · rw [hlinks.leaves]
        exact iff_of_false hleaf hne
    · have hkt : k ∉ n :: todo := fun hmem ↦ (List.mem_cons.1 hmem).elim hkn
        fun hmem ↦ hk (List.mem_append_left new hmem)
      exact (h.visited k v hv hkt).mono hlinks.indexed hstop (hcontexts ▸ hgrows) hlinks.windows
        (fun m ↦ hlinks.mem_children_of_ne hkn) (by rw [hlinks.leaves]) fun _ ↦ hstopNode
  · exact absurd (List.mem_append_right todo hmem) hk

theorem Searched.visit_links (hconnected : g'.Connected) : Searched p pts g' frontier' := by
  obtain ⟨-, ht⟩ := successors_grows h.table hnext
  obtain ⟨-, -, -, hcontexts⟩ := hlinks.same
  have hsome : (g.windowAt? n).isSome := by rw [hn]; rfl
  refine ⟨hconnected, hlinks.indexed, hcontexts ▸ ht, fun k v hv ↦ ?_, fun a b hb ↦ ?_, fun a b ↦ ?_,
    hlinks.leaves ▸ h.leavesOnce, fun k hk ↦ ?_, ?_, h.waiting_links hlinks hsome,
    h.visited_links hn hkey hlinks hnext hne⟩
  · obtain ⟨_, -, -, -, hnew⟩ := hlinks.new
    obtain hv | ⟨-, -, hscan⟩ := hnew k v hv
    · exact h.windows k v hv
    · exact hscan
  · obtain hb | ⟨rfl, v, hv, -⟩ := (hlinks.children a b).1 hb
    · exact (h.edges a b hb).imp hlinks.isSome hlinks.isSome
    · exact ⟨hlinks.isSome hsome, by rw [hv]; rfl⟩
  · rw [hlinks.parents, hlinks.children]
    exact or_congr_left (h.parents a b)
  · rw [hlinks.leaves] at hk
    exact hlinks.isSome (h.leaves k hk)
  · obtain ⟨new, rfl, hnewOnce, hfresh, -⟩ := hlinks.new
    obtain ⟨-, hnodup⟩ := List.nodup_cons.1 h.todoOnce
    refine List.nodup_append.2 ⟨hnodup, hnewOnce, fun a ha b hb hab ↦ ?_⟩
    subst hab
    have hwindow := (h.waiting a (List.mem_cons_of_mem n ha)).1
    rw [show g.windowAt? a = none from (hfresh a hb).1] at hwindow
    cases hwindow

end Links

end Visit

theorem Searched.visit {s : Search} (h : g.Searched p pts (n :: todo))
    (hvisit : Search.visit p pts g todo n = .ok s) : s.graph.Searched p pts s.frontier ∧
      s.graph.start = g.start ∧ s.graph.stop = g.stop ∧ g.contexts.Grows s.graph.contexts := by
  have hconnected := h.connected.visit h.indexed hvisit
  obtain ⟨w, hn, ⟨hsame, rfl⟩ | ⟨hsame, next, t, hnext, hleaf⟩⟩ := visit_cases hvisit
  · exact ⟨h.visit_stop hn (Window.same_iff_key.1 hsame), rfl, rfl, .refl _⟩
  · have hkey : w.key ≠ g.stop.key := fun hkey ↦
      Bool.eq_false_iff.1 hsame (Window.same_iff_key.2 hkey)
    obtain ⟨hgrows, -⟩ := successors_grows h.table hnext
    obtain ⟨rfl, rfl⟩ | ⟨hne, hlinks⟩ := hleaf
    · exact ⟨h.visit_leaf hn hkey hnext, rfl, rfl, hgrows⟩
    · have hsome : (g.windowAt? n).isSome := by rw [hn]; rfl
      have hlinks := links_of_foldlM (s := ⟨{ g with contexts := t }, todo⟩) h.indexed hsome hlinks
      obtain ⟨hstart, hstop, -, hcontexts⟩ := hlinks.same
      exact ⟨h.visit_links hn hkey hlinks hnext hne hconnected, hstart, hstop, hcontexts ▸ hgrows⟩

theorem seed_interned {t t' : ContextTable} (ht : t.Interned p) (h : seed p pts w t = .ok t') :
    t.Grows t' ∧ t'.Interned p := by
  obtain ⟨ins, -, h⟩ := bind_eq_ok_iff.1 h
  split at h
  · cases pure_eq_ok_iff.1 h
    exact ⟨.refl t, ht⟩
  · cases pure_eq_ok_iff.1 h
    exact ⟨ContextTable.grows_update fun pm s hs ↦ PmFacts.has_learn.2 (.inr hs), ht.update⟩

theorem searched_initial {start stop : Window} {t : ContextTable} (ht : t.Interned p)
    (hstart : p.scanForward p.walkBound start.first = .ok start.last) :
    (Search.initial start stop t).graph.Searched p pts [root] := by
  have hchildren (n m : Nat) : m ∉ (Search.initial start stop t).graph.children n := by
    cases n <;> exact List.not_mem_nil
  have hparents (n m : Nat) : m ∉ (Search.initial start stop t).graph.parents n := by
    cases n <;> exact List.not_mem_nil
  refine ⟨connected_initial, indexed_initial, ht, fun n w hn ↦ ?_, fun n m hm ↦ ?_, fun n m ↦ ?_,
    .nil, fun n hn ↦ absurd hn List.not_mem_nil, List.nodup_singleton root, fun n hn ↦ ?_,
    fun n w hn hnot ↦ ?_⟩
  · obtain ⟨-, rfl⟩ := windowAt?_initial hn
    exact hstart
  · exact absurd hm (hchildren n m)
  · exact iff_of_false (hparents m n) (hchildren n m)
  · obtain rfl := List.mem_singleton.1 hn
    exact ⟨rfl, hchildren root, List.not_mem_nil⟩
  · obtain ⟨rfl, -⟩ := windowAt?_initial hn
    exact absurd List.mem_cons_self hnot

theorem construct_searched (h : construct env pts first last = .ok g) :
    g.Searched env.program pts [] ∧ ∃ t t', Window.ofEvent env first ∅ = (.ok g.start, t) ∧
      Window.ofEvent env last t = (.ok g.stop, t') ∧ t.Grows g.contexts := by
  obtain ⟨s, hs, hrun, -⟩ := construct_eq_ok h
  obtain ⟨start, t₁, stop, t₂, t₃, hfirst, hlast, hseed, rfl⟩ := ofEvents_eq_ok hs
  obtain ⟨-, ht₁⟩ := Window.ofEvent_interned .empty hfirst
  obtain ⟨hgrows₂, ht₂⟩ := Window.ofEvent_interned ht₁ hlast
  obtain ⟨hgrows₃, ht₃⟩ := seed_interned ht₂ hseed
  obtain ⟨-, -, -, hscan⟩ := Window.around_cases (Window.around_of_ofEvent hfirst).1
  obtain ⟨hsearched, hstart, hstop, hgrows⟩ := run_induction
    (P := fun g todo ↦ g.Searched env.program pts todo ∧ g.start = start ∧ g.stop = stop ∧
      t₃.Grows g.contexts)
    (fun g todo n s hg hvisit ↦ by
      obtain ⟨hsearched, hstart, hstop, hgrows⟩ := hg.1.visit hvisit
      exact ⟨hsearched, hstart.trans hg.2.1, hstop.trans hg.2.2.1, hg.2.2.2.trans hgrows⟩)
    ⟨searched_initial ht₃ hscan, rfl, rfl, .refl _⟩ hrun
  exact ⟨hsearched, t₁, t₂, hstart ▸ hfirst, hstop ▸ hlast, (hgrows₂.trans hgrows₃).trans hgrows⟩

section Result

variable (h : g.Searched p pts [])

include h

theorem Searched.precedes_of_mem_children (hn : g.windowAt? n = some w)
    (hm : g.windowAt? m = some v) : m ∈ g.children n ↔
      w.key ≠ g.stop.key ∧ Precedes p g.contexts w.key v.key := by
  rw [precedes_iff (h.windows n w hn)]
  obtain ⟨hkey, -, -, hnone⟩ | ⟨hkey, t, next, t', ht, hnext, hgrows, hnodes, hedges, -⟩ :=
    h.visited n w hn List.not_mem_nil
  · exact iff_of_false (hnone m) fun hne ↦ hne.1 hkey
  · rw [hedges, ← mem_successors_iff ht hnext hgrows h.table]
    constructor
    · intro hv
      obtain ⟨v', hv', hmem⟩ := hv
      cases hm.symm.trans hv'
      exact ⟨hkey, hmem⟩
    · exact fun hmem ↦ ⟨v, hm, hmem.2⟩

theorem Searched.exists_of_precedes (hn : g.windowAt? n = some w) (hkey : w.key ≠ g.stop.key)
    {k : WindowKey} (hk : Precedes p g.contexts w.key k) :
    ∃ m v, g.windowAt? m = some v ∧ v.key = k := by
  obtain ⟨hstop, -⟩ | ⟨-, t, next, t', ht, hnext, hgrows, hnodes, -⟩ :=
    h.visited n w hn List.not_mem_nil
  · exact absurd hstop hkey
  · refine hnodes k ((mem_successors_iff ht hnext hgrows h.table).2 ?_)
    exact (precedes_iff (h.windows n w hn)).1 hk

theorem Searched.leads_of_reached (hn : g.Reached n) (hw : g.windowAt? n = some w) :
    g.Leads p g.start.key w.key := by
  induction hn generalizing w with
  | refl =>
    cases hw.symm.trans h.connected.root
    exact .refl
  | @tail a b _ hstep ih =>
    obtain ⟨v, hv⟩ := Option.isSome_iff_exists.1 (h.edges a b hstep).1
    exact (ih hv).tail ((h.precedes_of_mem_children hv hw).1 hstep)

theorem Searched.exists_iff_leads {k : WindowKey} :
    (∃ n w, g.windowAt? n = some w ∧ w.key = k) ↔ g.Leads p g.start.key k := by
  constructor
  · intro hk
    obtain ⟨n, w, hn, rfl⟩ := hk
    exact h.leads_of_reached (h.connected.reached n w hn) hn
  · intro hk
    induction hk with
    | refl => exact ⟨root, g.start, h.connected.root, rfl⟩
    | tail _ hstep ih =>
      obtain ⟨n, w, hn, rfl⟩ := ih
      exact h.exists_of_precedes hn hstep.1 hstep.2

theorem Searched.mem_leaves_iff : n ∈ g.leaves ↔ ∃ w, g.windowAt? n = some w ∧
    (w.key = g.stop.key ∨ ∀ k, ¬ Precedes p g.contexts w.key k) := by
  cases hn : g.windowAt? n with
  | none =>
    refine iff_of_false (fun hleaf ↦ ?_) (fun ⟨_, hw, _⟩ ↦ nomatch hw)
    have hsome := h.leaves n hleaf
    rw [hn] at hsome
    cases hsome
  | some w =>
    simp only [Option.some.injEq, exists_eq_left']
    obtain ⟨hkey, -, hleaf, -⟩ | ⟨hkey, t, next, t', ht, hnext, hgrows, -, -, hleaf⟩ :=
      h.visited n w hn List.not_mem_nil
    · exact iff_of_true hleaf (.inl hkey)
    · rw [hleaf, or_iff_right hkey, List.eq_nil_iff_forall_not_mem]
      refine forall_congr' fun k ↦ not_congr ?_
      rw [mem_successors_iff ht hnext hgrows h.table, precedes_iff (h.windows n w hn)]

theorem Searched.stopNode_eq_some_iff :
    g.stopNode = some n ↔ ∃ w, g.windowAt? n = some w ∧ w.key = g.stop.key := by
  constructor
  · intro hn
    obtain ⟨w, hw, hsame⟩ := h.connected.stopNode n hn
    exact ⟨w, hw, Window.same_iff_key.1 hsame⟩
  · intro hn
    obtain ⟨w, hw, hkey⟩ := hn
    obtain ⟨-, hstop, -⟩ | ⟨hne, -⟩ := h.visited n w hw List.not_mem_nil
    · exact hstop
    · exact absurd hkey hne

theorem Searched.exact : g.Exact p where
  root := h.connected.root
  windows := h.windows
  distinct _ _ _ _ := h.indexed.eq_of_key
  cache c i n := by
    rw [h.indexed c i n]
    simp only [Window.key, Prod.mk.injEq]
  nodes _ := h.exists_iff_leads
  children n w hn k := by
    constructor
    · intro hk
      obtain ⟨m, hm, v, hv, rfl⟩ := hk
      exact (h.precedes_of_mem_children hn hv).1 hm
    · intro hk
      obtain ⟨hkey, hk⟩ := hk
      obtain ⟨m, v, hv, rfl⟩ := h.exists_of_precedes hn hkey hk
      exact ⟨m, (h.precedes_of_mem_children hn hv).2 ⟨hkey, hk⟩, v, hv, rfl⟩
  edges := h.edges
  parents := h.parents
  leavesOnce := h.leavesOnce
  leaves _ := h.mem_leaves_iff
  stopNode _ := h.stopNode_eq_some_iff
  stopReached := by
    rw [← h.exists_iff_leads, Option.isSome_iff_exists]
    exact exists_congr fun _ ↦ h.stopNode_eq_some_iff

end Result

/-- The graph that is constructed for two events is the one of the windows that control can come to
from the window of the first event without going beyond the window of the second. -/
theorem construct_exact (h : construct env pts first last = .ok g) :
    g.Exact env.program ∧ ∃ t t', Window.ofEvent env first ∅ = (.ok g.start, t) ∧
      Window.ofEvent env last t = (.ok g.stop, t') := by
  obtain ⟨hsearched, t, t', hfirst, hlast, -⟩ := construct_searched h
  exact ⟨hsearched.exact, t, t', hfirst, hlast⟩

theorem construct_exact_loop : ∃ env pts g, env.program = (Sample.loop true).program ∧
    construct env pts (Sample.event .flush ("main", 11) [] Sample.cacheLine false)
      (Sample.event .flush ("main", 16) [] Sample.cacheLine false) = .ok g ∧
    g.nodes.length = 4 ∧ g.Exact env.program := by
  obtain ⟨env, pts, g, hp, -, hg, hlength⟩ := exists_construct (Sample.loop true).program
    (Sample.event .flush ("main", 11) [] Sample.cacheLine false)
    (Sample.event .flush ("main", 16) [] Sample.cacheLine false) (fun g ↦ g.nodes.length = 4)
    (by decide +kernel)
  exact ⟨env, pts, g, hp, hg, hlength, (construct_exact hg).1⟩

end Durability.WindowGraph
