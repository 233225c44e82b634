import Durability.Proofs.Redundancy.Always
import Durability.Proofs.WindowGraph.Exact
import Mathlib.Data.List.Sort
import Mathlib.Data.Nat.Find

namespace Durability.WindowGraph

variable {p : Program} {pts : PointsTo} {env : Surroundings} {first last : Event}
  {g g' : WindowGraph} {n m k : Nat} {w v : Window} {c : ContextId} {i : InstrId}
  {frontier frontier' : List Nat}

/-- What the numbers of nodes say when the first `k` of them have been visited. -/
structure Discovered (g : WindowGraph) (k : Nat) (frontier : List Nat) : Prop where
  bound : k ≤ g.nodes.length
  line : frontier = List.range' k (g.nodes.length - k)
  found : ∀ m < g.nodes.length, m ≠ root → ∃ d < k, d < m ∧ m ∈ g.children d
  inOrder : ∀ n m', m' ∈ g.children n → ∀ m < m', m ≠ root → ∃ d ≤ n, d < m ∧ m ∈ g.children d

theorem discovered_initial {start stop : Window} {t : ContextTable} :
    (Search.initial start stop t).graph.Discovered 0 [root] := by
  refine ⟨Nat.zero_le _, rfl, fun m hm hroot ↦ absurd (Nat.lt_one_iff.1 hm) hroot, fun n m' hm' ↦ ?_⟩
  cases n <;> exact absurd hm' List.not_mem_nil

theorem Discovered.head (h : g.Discovered k (n :: frontier)) :
    n = k ∧ k < g.nodes.length ∧ frontier = List.range' (k + 1) (g.nodes.length - (k + 1)) := by
  have hline := h.line
  cases hrest : g.nodes.length - k with
  | zero =>
    rw [hrest] at hline
    cases hline
  | succ rest =>
    rw [hrest, List.range'_succ] at hline
    obtain ⟨hn, hfrontier⟩ := List.cons.inj hline
    refine ⟨hn, by omega, ?_⟩
    rw [hfrontier, show g.nodes.length - (k + 1) = rest by omega]

theorem Discovered.pop (h : g.Discovered k (n :: frontier)) (hnodes : g'.nodes = g.nodes) :
    g'.Discovered (k + 1) frontier := by
  obtain ⟨-, hlt, hfrontier⟩ := h.head
  have hchildren : g'.children = g.children := funext fun n ↦ by rw [children, children, hnodes]
  refine ⟨hnodes ▸ hlt, hnodes ▸ hfrontier, fun m hm hroot ↦ ?_, hchildren ▸ h.inOrder⟩
  obtain ⟨d, hd, hdm⟩ := h.found m (hnodes ▸ hm) hroot
  exact ⟨d, Nat.lt_succ_of_lt hd, hchildren ▸ hdm⟩

theorem lt_length_of_windowAt? (h : (g.windowAt? n).isSome) : n < g.nodes.length := by
  obtain ⟨w, hw⟩ := Option.isSome_iff_exists.1 h
  exact List.mem_range.1 (mem_nodeIds_iff.2 ⟨w, hw⟩)

theorem length_le_of_windowAt? (h : g.windowAt? n = none) : g.nodes.length ≤ n := by
  rw [windowAt?, Option.map_eq_none_iff] at h
  exact List.getElem?_eq_none_iff.1 h

/-- An edge from the node that is being visited leads to a node of some parent already or to a new one,
which gets the next number. -/
theorem Discovered.link (h : g.Discovered (n + 1) frontier)
    (hlinked : Linked p n c i g g' frontier frontier' m v) : g'.Discovered (n + 1) frontier' := by
  have hmono (d m' : Nat) (hm' : m' ∈ g.children d) : m' ∈ g'.children d :=
    (hlinked.children d m').2 (.inl hm')
  have hold (m' : Nat) (hm' : m' < g.nodes.length) (hroot : m' ≠ root) :
      ∃ d < n + 1, d < m' ∧ m' ∈ g'.children d := by
    obtain ⟨d, hd, hdm, hmem⟩ := h.found m' hm' hroot
    exact ⟨d, hd, hdm, hmono d m' hmem⟩
  have hbound := h.bound
  have hlength := hlinked.length
  have hm' : m < g'.nodes.length := lt_length_of_windowAt? (by rw [hlinked.target.2]; rfl)
  have hinOrder (hm : m ≤ g.nodes.length) (d m' : Nat) (hmem : m' ∈ g'.children d) (k : Nat)
      (hk : k < m') (hroot : k ≠ root) : ∃ e ≤ d, e < k ∧ k ∈ g'.children e := by
    obtain hmem | ⟨rfl, rfl⟩ := (hlinked.children d m').1 hmem
    · obtain ⟨e, he, hek, hmem⟩ := h.inOrder d m' hmem k hk hroot
      exact ⟨e, he, hek, hmono e k hmem⟩
    · obtain ⟨e, he, hek⟩ := hold k (Nat.lt_of_lt_of_le hk hm) hroot
      exact ⟨e, Nat.le_of_lt_succ he, hek⟩
  obtain ⟨-, hfrontier, -⟩ | ⟨hnone, -, -, hfrontier, -⟩ := hlinked.windows
  · have hsame : g'.nodes.length = g.nodes.length := by
      rw [hfrontier] at hlength
      omega
    exact ⟨by omega, by rw [hfrontier, h.line, hsame], fun m' hlt ↦ hold m' (hsame ▸ hlt),
      hinOrder (by omega)⟩
  · have hnext : g'.nodes.length = g.nodes.length + 1 := by
      rw [hfrontier, List.length_append, List.length_singleton] at hlength
      omega
    have hm : m = g.nodes.length := by
      have := length_le_of_windowAt? hnone
      omega
    refine ⟨by omega, ?_, fun m' hlt hroot ↦ ?_, hinOrder hm.le⟩
    · rw [hfrontier, h.line, hnext, show g.nodes.length + 1 - (n + 1) = g.nodes.length - (n + 1) + 1 by
        omega, List.range'_concat, hm, Nat.one_mul, Nat.add_sub_cancel' hbound]
    · obtain hlt | rfl := Nat.lt_or_eq_of_le (Nat.le_of_lt_succ (hnext ▸ hlt))
      · exact hold m' hlt hroot
      · exact ⟨n, n.lt_succ_self, hbound, hm ▸ hlinked.target.1⟩

theorem Discovered.links {next : List WindowKey} {s s' : Search} (hindexed : s.graph.Indexed)
    (hn : (s.graph.windowAt? n).isSome) (h : s.graph.Discovered (n + 1) s.frontier)
    (hlinks : next.foldlM (fun s x ↦ Attempt.lift (Search.link p n s x) : Search → WindowKey →
      Attempt RepairError Search) s = .ok s') : s'.graph.Discovered (n + 1) s'.frontier := by
  induction next generalizing s with
  | nil =>
    cases hlinks
    exact h
  | cons x next ih =>
    obtain ⟨r, hlink, hrest⟩ := foldlM_cons_eq_ok_iff.1 hlinks
    obtain ⟨m, v, hlinked⟩ := link_eq_ok hindexed hn (Attempt.lift_eq_ok_iff.1 hlink)
    obtain ⟨w, hw⟩ := Option.isSome_iff_exists.1 hn
    have hn' : (r.graph.windowAt? n).isSome := by rw [hlinked.extends.windows n w hw]; rfl
    exact ih hlinked.indexed hn' (h.link hlinked) hrest

theorem Discovered.visit {s : Search} (hindexed : g.Indexed) (h : g.Discovered k (n :: frontier))
    (hvisit : Search.visit p pts g frontier n = .ok s) :
    s.graph.Discovered (k + 1) s.frontier := by
  obtain ⟨rfl, -⟩ := h.head
  obtain ⟨w, hn, ⟨-, rfl⟩ | ⟨-, next, t, -, ⟨-, rfl⟩ | ⟨-, hlinks⟩⟩⟩ := visit_cases hvisit
  · exact h.pop rfl
  · exact h.pop rfl
  · exact Discovered.links (s := ⟨{ g with contexts := t }, frontier⟩) hindexed
      (show (g.windowAt? n).isSome by rw [hn]; rfl) (h.pop rfl) hlinks

theorem construct_discovered (h : construct env pts first last = .ok g) :
    ∃ k, g.Discovered k [] := by
  obtain ⟨s, hs, hrun, -⟩ := construct_eq_ok h
  obtain ⟨start, t₁, stop, t₂, t₃, -, -, -, rfl⟩ := ofEvents_eq_ok hs
  exact (run_induction (P := fun g todo ↦ g.Indexed ∧ ∃ k, g.Discovered k todo)
    (fun g todo n s hg hvisit ↦ by
      obtain ⟨hindexed, k, hg⟩ := hg
      exact ⟨hindexed.visit hvisit, k + 1, hg.visit hindexed hvisit⟩)
    ⟨indexed_initial, 0, discovered_initial⟩ hrun).2

theorem children_sorted : (g.children n).Pairwise (· < ·) := by
  rw [children]
  cases g.nodes[n]? with
  | none => exact .nil
  | some x => exact x.children.increasing.imp Nat.compare_eq_lt.1

/-- The parent that a node is discovered from, which is smaller than all parents of later nodes. -/
theorem Discovered.exists_first (h : g.Discovered k []) (hm : m ∈ g.nodeIds) (hroot : m ≠ root) :
    ∃ d < m, m ∈ g.children d ∧ ∀ n m', m' ∈ g.children n → m ≤ m' → d ≤ n := by
  classical
  obtain ⟨d, -, hdm, hd⟩ := h.found m (List.mem_range.1 hm) hroot
  have hexists : ∃ d, m ∈ g.children d := ⟨d, hd⟩
  refine ⟨Nat.find hexists, Nat.lt_of_le_of_lt (Nat.find_min' hexists hd) hdm,
    Nat.find_spec hexists, fun n m' hm' hle ↦ ?_⟩
  obtain rfl | hlt := Nat.eq_or_lt_of_le hle
  · exact Nat.find_min' hexists hm'
  · obtain ⟨e, he, -, hme⟩ := h.inOrder n m' hm' m hlt hroot
    exact Nat.le_trans (Nat.find_min' hexists hme) he

/-- Nodes that are discovered through nodes of `next` alone are met in the order of their numbers by
whatever goes over the edges of `next`. -/
theorem Discovered.pairwise_order {early : Nat → Prop} {next : Nat → List Nat}
    (hsorted : ∀ n, (next n).Pairwise (· < ·)) (hnext : ∀ n m, m ∈ next n → m ∈ g.children n)
    (hroot : root ∈ g.nodeIds)
    (hearly : ∀ m, early m → m ≠ root → ∃ d, early d ∧ m ∈ next d ∧
      ∀ n m', m' ∈ g.children n → m < m' → d ≤ n) :
    (Traversal.order next g.nodeIds [root]).Pairwise fun n m ↦ early m → n < m := by
  have hnodup : g.nodeIds.Nodup := List.nodup_range
  have herase {m : Nat} : m ∈ g.nodeIds.erase root ↔ m ≠ root ∧ m ∈ g.nodeIds :=
    hnodup.mem_erase_iff
  rw [Traversal.order, if_pos hroot]
  refine List.pairwise_cons.2 ⟨fun m hm _ ↦ ?_, Traversal.Lined.pairwise_order hsorted
    ⟨hnodup.erase root, fun m hm hmearly n k hk hlt ↦ ?_,
      fun before n after hsplit _ m hm hmearly hlt ↦ ?_, fun d m hdearly hd hmd hm ↦ ?_⟩⟩
  · exact Nat.pos_of_ne_zero (herase.1 (Traversal.mem_unvisited_of_mem_order hm)).1
  · obtain ⟨d, hdearly, hmd, hle⟩ := hearly m hmearly (herase.1 hm).1
    exact ⟨d, hle n k (hnext n k hk) hlt, hdearly, hmd⟩
  · obtain ⟨d, -, hmd, hle⟩ := hearly m hmearly (herase.1 hm).1
    have hn : n ∈ next root := by
      rw [show next root = before ++ n :: after from hsplit]
      exact List.mem_append_right before List.mem_cons_self
    obtain rfl : d = root := Nat.le_zero.1 (hle root n (hnext root n hn) hlt)
    exact Traversal.mem_before_of_lt (hsorted root) hsplit hmd hlt
  · by_cases hdroot : d = root
    · exact hdroot ▸ hmd
    · exact absurd (herase.2 ⟨hdroot, mem_nodeIds_of_mem_children (hnext d m hmd)⟩) hd

theorem Discovered.order_eq (h : g.Discovered k []) (hg : g.Connected) : g.order = g.nodeIds := by
  have hroot : root ∈ g.nodeIds := mem_nodeIds_iff.2 ⟨g.start, hg.root⟩
  have hpairwise : g.order.Pairwise fun n m ↦ m ∈ g.nodeIds → n < m := by
    refine Discovered.pairwise_order (fun _ ↦ children_sorted) (fun _ _ hm ↦ hm) hroot
      fun m hm hne ↦ ?_
    obtain ⟨d, -, hd, hle⟩ := h.exists_first hm hne
    exact ⟨d, mem_nodeIds_of_mem_children hd, hd, fun n m' hm' hlt ↦ hle n m' hm' (Nat.le_of_lt hlt)⟩
  refine List.Pairwise.eq_of_mem_iff (r := (· < ·)) ?_ List.pairwise_lt_range
    fun n ↦ hg.mem_order_iff
  exact hpairwise.imp_of_mem fun _ hm hlt ↦ hlt (hg.mem_order_iff.1 hm)

end Durability.WindowGraph
