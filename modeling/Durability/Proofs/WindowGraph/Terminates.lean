import Mathlib.Data.Fintype.BigOperators
import Durability.Proofs.WindowGraph.Total

namespace Durability

variable {p : Program} {pts : PointsTo} {t : ContextTable} {c : ContextId} {x : Context}
  {E : Failure RepairError → Prop}

def ContextTable.sites (t : ContextTable) (c : ContextId) : List InstrId :=
  t.contexts[c.index]?.elim [] (·.callStack)

theorem ContextTable.sites_eq (hc : t.get c = .ok x) : t.sites c = x.callStack := by
  rw [sites, get_eq_ok_iff.1 hc]
  rfl

namespace WindowGraph

variable {g : WindowGraph} {n k : Nat} {todo : List Nat} {s s₀ : Search}

section Count

/-- The beginning of a window in numbers: its outermost function, call sites and first instruction. -/
def code (p : Program) (t : ContextTable) (k : WindowKey) :
    Fin (p.functions.length + 1) ×
      (Fin (p.functions.length + 1) → Fin (p.instructions.length + 1)) ×
      Fin (p.instructions.length + 1) :=
  (.ofNat _ ((t.outermost k.1).elim 0 (·.index)),
    fun j ↦ .ofNat _ ((t.sites k.1)[j.val]?.elim 0 (·.index + 1)), .ofNat _ k.2.index)

theorem ofNat_inj {n a b : Nat} (ha : a ≤ n) (hb : b ≤ n)
    (h : Fin.ofNat (n + 1) a = Fin.ofNat (n + 1) b) : a = b := by
  have hval := congrArg Fin.val h
  simp only [Fin.val_ofNat] at hval
  rwa [Nat.mod_eq_of_lt (by omega), Nat.mod_eq_of_lt (by omega)] at hval

theorem elim_index_inj {i? j? : Option InstrId}
    (h : i?.elim 0 (·.index + 1) = j?.elim 0 (·.index + 1)) : i? = j? := by
  cases i? with
  | none =>
    cases j? with
    | none => rfl
    | some j => exact absurd h.symm (Nat.succ_ne_zero _)
  | some i =>
    cases j? with
    | none => exact absurd h (Nat.succ_ne_zero _)
    | some j => rw [Program.instrIndex_injective (Nat.succ.inj h)]

variable (ht : t.Placed p) (hv : p.Valid)
include ht hv

theorem elim_callStack_le (hc : t.get c = .ok x) (n : Nat) :
    x.callStack[n]?.elim 0 (·.index + 1) ≤ p.instructions.length := by
  cases hi : x.callStack[n]? with
  | none => exact Nat.zero_le _
  | some i =>
    obtain ⟨b, m, B, hB, hstands⟩ := ht.stands c x hc i (List.mem_of_getElem? hi)
    exact hv.index_lt hB (List.mem_of_getElem? hstands)

theorem Possible.eq_of_code {k l : WindowKey} (hk : Possible p t k) (hl : Possible p t l)
    (h : code p t k = code p t l) : k = l := by
  obtain ⟨⟨x, hx⟩, b, m, B, hB, hi⟩ := hk
  obtain ⟨⟨y, hy⟩, b', m', B', hB', hj⟩ := hl
  simp only [code, Prod.mk.injEq, ContextTable.sites_eq hx, ContextTable.sites_eq hy] at h
  obtain ⟨houtermost, hsites, hfirst⟩ := h
  have hlt := hv.index_lt hB (List.mem_of_getElem? hi)
  have hlt' := hv.index_lt hB' (List.mem_of_getElem? hj)
  have hfunctions : t.outermost k.1 = t.outermost l.1 := by
    obtain ⟨f, hf, hflt⟩ := ht.exists_outermost hx
    obtain ⟨f', hf', hflt'⟩ := ht.exists_outermost hy
    rw [hf, hf'] at houtermost
    have hindex : f.index = f'.index :=
      ofNat_inj (Nat.le_of_lt hflt) (Nat.le_of_lt hflt') houtermost
    rw [hf, hf', Program.functionIndex_injective hindex]
  have hstacks : x.callStack = y.callStack := by
    have hlength := ht.length_callStack_lt hx
    have hlength' := ht.length_callStack_lt hy
    refine List.ext_getElem? fun n ↦ ?_
    by_cases hn : n < p.functions.length + 1
    · exact elim_index_inj (ofNat_inj (elim_callStack_le ht hv hx n) (elim_callStack_le ht hv hy n)
        (congrFun hsites ⟨n, hn⟩))
    · rw [List.getElem?_eq_none (by omega), List.getElem?_eq_none (by omega)]
  have hindex := ofNat_inj (Nat.le_of_lt hlt) (Nat.le_of_lt hlt') hfirst
  exact Prod.ext (ht.eq_of_outermost hx hy hfunctions hstacks)
    (Program.instrIndex_injective hindex)

/-- Windows that begin differently are no more than the bound. -/
theorem length_le_searchBound {l : List WindowKey} (hl : l.Nodup) (h : ∀ k ∈ l, Possible p t k) :
    l.length ≤ searchBound p := by
  have hcodes : (l.map (code p t)).Nodup :=
    hl.map_on fun k hk k' hk' heq ↦ (h k hk).eq_of_code ht hv (h k' hk') heq
  have hcard := hcodes.length_le_card
  simp only [List.length_map, Fintype.card_prod, Fintype.card_fun, Fintype.card_fin] at hcard
  rw [searchBound, Nat.mul_assoc]
  exact hcard

end Count

section Run

def keys (g : WindowGraph) : List WindowKey := g.nodes.map (·.window.key)

theorem mem_keys {key : WindowKey} : key ∈ g.keys ↔ ∃ n w, g.windowAt? n = some w ∧ w.key = key := by
  rw [keys, List.mem_map]
  constructor
  · intro h
    obtain ⟨y, hy, hkey⟩ := h
    obtain ⟨n, hn⟩ := List.mem_iff_getElem?.1 hy
    exact ⟨n, y.window, by rw [windowAt?, hn]; rfl, hkey⟩
  · intro h
    obtain ⟨n, w, hn, hkey⟩ := h
    obtain ⟨y, hy, rfl⟩ := Option.map_eq_some_iff.1 hn
    exact ⟨y, List.mem_of_getElem? hy, hkey⟩

theorem Ready.nodup_keys (h : g.Ready p pts todo) : g.keys.Nodup := by
  rw [keys, List.nodup_iff_injective_getElem]
  intro ⟨n, hn⟩ ⟨m, hm⟩ heq
  rw [List.length_map] at hn hm
  simp only [List.getElem_map] at heq
  have hwindow {k : Nat} (hk : k < g.nodes.length) : g.windowAt? k = some g.nodes[k].window := by
    rw [windowAt?, List.getElem?_eq_getElem hk]
    rfl
  exact Fin.ext (h.indexed.eq_of_key (hwindow hn) (hwindow hm) heq)

theorem Ready.length_le (h : g.Ready p pts todo) (hv : p.Valid) :
    g.keys.length ≤ searchBound p := by
  refine length_le_searchBound h.placed hv h.nodup_keys fun key hkey ↦ ?_
  obtain ⟨n, w, hn, rfl⟩ := mem_keys.1 hkey
  exact h.begins n w hn

/-- A search that may still take as many visits as there are windows to come does not run out of
them. -/
theorem run_failsOnly (hv : p.Valid) (hE : p.Expects E) (h : g.Ready p pts todo)
    (hk : searchBound p + todo.length ≤ k + g.nodes.length) :
    FailsOnly E (Search.run p pts k ⟨g, todo⟩) := by
  induction k generalizing g todo with
  | zero =>
    cases todo with
    | nil => exact .of_ok ⟨g, rfl⟩
    | cons n todo =>
      have hlength := h.length_le hv
      rw [keys, List.length_map] at hlength
      rw [List.length_cons] at hk
      omega
  | succ k ih =>
    cases todo with
    | nil => exact .of_ok ⟨g, rfl⟩
    | cons n todo =>
      refine .bind (h.visit_failsOnly hv hE) fun s hs ↦ ?_
      obtain ⟨hready, -, hcount⟩ := h.visit hs
      rw [List.length_cons] at hk
      exact ih hready (by omega)

inductive Steps (p : Program) (pts : PointsTo) : Nat → Search → Search → Prop
  | zero (s : Search) : Steps p pts 0 s s
  | snoc {k n : Nat} {g : WindowGraph} {todo : List Nat} {s₀ s : Search} :
      Steps p pts k s₀ ⟨g, n :: todo⟩ → Search.visit p pts g todo n = .ok s →
      Steps p pts (k + 1) s₀ s

namespace Steps

theorem unique {s' : Search} (h : Steps p pts k s₀ s) (h' : Steps p pts k s₀ s') : s = s' := by
  induction h generalizing s' with
  | zero =>
    cases h'
    rfl
  | snoc _ hvisit ih =>
    obtain _ | ⟨h', hvisit'⟩ := h'
    cases ih h'
    exact Except.ok.inj (hvisit.symm.trans hvisit')

theorem of_run {m : Nat} (h : Search.run p pts m s = .ok g) : ∃ k, Steps p pts k s ⟨g, []⟩ := by
  refine run_induction (P := fun g todo ↦ ∃ k, Steps p pts k s ⟨g, todo⟩)
    (fun g todo n r hsteps hvisit ↦ ?_) ⟨0, .zero s⟩ h
  obtain ⟨k, hsteps⟩ := hsteps
  exact ⟨k + 1, hsteps.snoc hvisit⟩

variable (h₀ : s₀.graph.Ready p pts s₀.frontier) (hsteps : Steps p pts k s₀ s)
include h₀ hsteps

theorem ready : s.graph.Ready p pts s.frontier ∧
    s₀.graph.nodes.length + k + s.frontier.length =
      s.graph.nodes.length + s₀.frontier.length := by
  induction hsteps with
  | zero s => exact ⟨h₀, rfl⟩
  | snoc _ hvisit ih =>
    obtain ⟨hready, hcount⟩ := ih h₀
    obtain ⟨hready', -, hcount'⟩ := hready.visit hvisit
    rw [List.length_cons] at hcount
    exact ⟨hready', by omega⟩

theorem keys_subset {m : Nat} {r : Search} (hm : Steps p pts m s₀ r) (hle : m ≤ k) :
    r.graph.keys ⊆ s.graph.keys := by
  induction hsteps with
  | zero =>
    obtain rfl := Nat.le_zero.1 hle
    cases hm
    exact List.Subset.refl _
  | @snoc k n g todo s₀ s hsteps hvisit ih =>
    obtain rfl | hlt := Nat.eq_or_lt_of_le hle
    · rw [hm.unique (hsteps.snoc hvisit)]
      exact List.Subset.refl _
    · obtain ⟨hready, -⟩ := hsteps.ready h₀
      obtain ⟨-, hwindows, -⟩ := hready.visit hvisit
      intro key hkey
      obtain ⟨a, w, ha, rfl⟩ := mem_keys.1 (ih h₀ hm (Nat.le_of_lt_succ hlt) hkey)
      exact mem_keys.2 ⟨a, w, hwindows a w ha, rfl⟩

end Steps

structure Ends (p : Program) (pts : PointsTo) (s₀ : Search) : Prop where
  visits : ∀ k s, Steps p pts k s₀ s → k ≤ searchBound p
  active : ∀ k s, Steps p pts k s₀ s → ∀ c fs, s.graph.contexts.activeFunctions c = .ok fs → fs.Nodup
  once : ∀ k s, Steps p pts k s₀ s → s.graph.keys.Nodup
  keys : ∃ l : List WindowKey, l.length ≤ searchBound p ∧
    ∀ k s, Steps p pts k s₀ s → s.graph.keys ⊆ l

theorem Ready.ends (hv : p.Valid) (h : s₀.graph.Ready p pts s₀.frontier)
    (hnodes : s₀.frontier.length ≤ s₀.graph.nodes.length) : Ends p pts s₀ := by
  have hvisits (k : Nat) (s : Search) (hsteps : Steps p pts k s₀ s) : k ≤ searchBound p := by
    obtain ⟨hready, hcount⟩ := hsteps.ready h
    have hlength := hready.length_le hv
    rw [keys, List.length_map] at hlength
    omega
  refine ⟨hvisits, fun k s hsteps c fs hfs ↦ ?_, fun k s hsteps ↦ (hsteps.ready h).1.nodup_keys, ?_⟩
  · obtain ⟨x, hx, hfs⟩ := bind_eq_ok_iff.1 hfs
    cases pure_eq_ok_iff.1 hfs
    exact (hsteps.ready h).1.table.active c x hx
  · classical
    -- Of all searches the longest knows all the keys.
    let P (k : Nat) : Prop := ∃ s, Steps p pts k s₀ s
    obtain ⟨s, hs⟩ : P (Nat.findGreatest P (searchBound p)) :=
      Nat.findGreatest_spec (Nat.zero_le _) ⟨s₀, .zero s₀⟩
    refine ⟨s.graph.keys, (hs.ready h).1.length_le hv, fun k r hr ↦ hs.keys_subset h hr ?_⟩
    exact Nat.le_findGreatest (hvisits k r hr) ⟨r, hr⟩

end Run

section Leaves

variable (hv : p.Valid) (h : g.Ready p pts todo)
include hv h

theorem exists_isTerminal (hn : (g.windowAt? n).isSome) : ∃ b, g.isTerminal p n = .ok b := by
  obtain ⟨w, hw⟩ := Option.isSome_iff_exists.1 hn
  obtain ⟨⟨x, hx⟩, hfirst⟩ := h.begins n w hw
  obtain ⟨b, m, hlast⟩ := standsAt_last hfirst (h.windows n w hw)
  obtain ⟨B, ins, -, hins, -⟩ := hlast.instr hv
  obtain ⟨bs, hbs⟩ := hlast.exists_successors hv
  obtain ⟨y, hy, rfl⟩ := Option.map_eq_some_iff.1 hw
  refine exists_bind_eq_ok (node_eq_ok_iff.2 hy) (exists_bind_eq_ok hins ?_)
  split
  · exact ⟨_, rfl⟩
  · exact exists_bind_eq_ok hx ⟨_, rfl⟩
  · split
    · exact exists_bind_eq_ok (hlast.blockOf hv) (exists_bind_eq_ok hbs ⟨_, rfl⟩)
    · exact ⟨_, rfl⟩

theorem checkLeaves_failsOnly {first last : Event} (hnone : ∀ n m, E (.refused (.noLeaves n m)))
    (hinvalid : ∀ n, E (.refused (.invalidLeaf n))) :
    FailsOnly E (g.checkLeaves p first last) := by
  refine .bind (.refuseIf (hnone _ _)) fun _ _ ↦ .forM fun n hn ↦ ?_
  split
  · refine .bind (.lift_ok (exists_isTerminal hv h (h.leaves n hn))) fun b _ ↦ ?_
    exact .refuseIf (hinvalid n)
  · exact .of_ok ⟨(), rfl⟩

end Leaves

variable {env : Surroundings} {first last : Event} {t' : ContextTable} {w : Window}

theorem seed_placed (ht : t.Placed p) (h : seed p pts w t = .ok t') : t'.Placed p := by
  obtain ⟨ins, -, h⟩ := bind_eq_ok_iff.1 h
  split at h
  · cases pure_eq_ok_iff.1 h
    exact ht
  · cases pure_eq_ok_iff.1 h
    exact ht.update

theorem exists_seed (hv : p.Valid) (hi : ∃ b m, p.StandsAt b m w.anchor) :
    ∃ t', seed p pts w t = .ok t' := by
  obtain ⟨b, m, hi⟩ := hi
  obtain ⟨B, ins, -, hins, -⟩ := hi.instr hv
  refine exists_bind_eq_ok hins ?_
  split <;> exact ⟨_, rfl⟩

section Construct

variable (hv : env.program.Valid) (hindex : LocationIndex.ofProgram env.program = .ok env.index)
include hv hindex

theorem ofEvents_failsOnly (hE : env.program.Expects E) :
    FailsOnly E (Search.ofEvents env pts first last) := by
  have hattached := LocationIndex.holds_attached hv hindex
  have hfirst := Window.ofEvent_meets hE hv hattached (e := first) .empty
  rw [Search.ofEvents]
  rcases hstart : Window.ofEvent env first ∅ with ⟨start?, t₁⟩
  refine .bind (fun e he ↦ hfirst.error e t₁ (by rw [hstart, he])) fun start hok ↦ ?_
  obtain ⟨ht₁, -, -, hanchor⟩ := hfirst.ok start t₁ (by rw [hstart, hok])
  have hlast := Window.ofEvent_meets hE hv hattached (e := last) ht₁
  rcases hstop : Window.ofEvent env last t₁ with ⟨stop?, t₂⟩
  refine .bind (fun e he ↦ hlast.error e t₂ (by rw [hstop, he])) fun stop _ ↦ ?_
  exact .bind (.lift_ok (exists_seed hv hanchor)) fun _ _ ↦ .of_ok ⟨_, rfl⟩

theorem ofEvents_ready (hE : env.program.Expects E)
    (h : Search.ofEvents env pts first last = .ok s) :
    s.graph.Ready env.program pts s.frontier ∧ s.graph.nodes.length = 1 ∧ s.frontier.length = 1 := by
  have hattached := LocationIndex.holds_attached hv hindex
  obtain ⟨start, t₁, stop, t₂, t₃, hfirst, hlast, hseed, rfl⟩ := ofEvents_eq_ok h
  obtain ⟨ht₁, ⟨x, hx⟩, hstands, -⟩ :=
    (Window.ofEvent_meets hE hv hattached .empty).ok start t₁ hfirst
  obtain ⟨ht₂, -⟩ := (Window.ofEvent_meets hE hv hattached ht₁).ok stop t₂ hlast
  have ht₃ := seed_placed ht₂ hseed
  obtain ⟨hgrows₂, -⟩ := Window.ofEvent_interned ht₁.toInterned hlast
  obtain ⟨hgrows₃, -⟩ := seed_interned ht₂.toInterned hseed
  obtain ⟨y, hy, -⟩ := (hgrows₂.trans hgrows₃) start.context x hx
  obtain ⟨-, -, -, hscan⟩ := Window.around_cases (Window.around_of_ofEvent hfirst).1
  refine ⟨⟨searched_initial ht₃.toInterned hscan, ht₃, fun n w hn ↦ ?_⟩, rfl, rfl⟩
  obtain ⟨-, rfl⟩ := windowAt?_initial hn
  exact ⟨⟨y, hy⟩, hstands⟩

theorem construct_ready (h : construct env pts first last = .ok g) :
    g.Ready env.program pts [] := by
  have hE : env.program.Expects fun _ ↦ True :=
    ⟨fun _ ↦ trivial, fun _ _ ↦ trivial, fun _ ↦ trivial, fun _ _ ↦ trivial, fun _ ↦ trivial⟩
  obtain ⟨s, hs, hrun, -⟩ := construct_eq_ok h
  obtain ⟨hready, -, -⟩ := ofEvents_ready hv hindex hE hs
  exact run_induction (P := Ready env.program pts) (fun _ _ _ _ h hvisit ↦ (h.visit hvisit).1)
    hready hrun

/-- What the construction of a graph may fail with. The search itself does not fail to end. -/
theorem construct_failsOnly_of_leaves (hE : env.program.Expects E)
    (hleaves : ∀ g, Ready env.program pts g [] → FailsOnly E (g.checkLeaves env.program first last)) :
    FailsOnly E (construct env pts first last) := by
  refine .bind (ofEvents_failsOnly hv hindex hE) fun s hs ↦ ?_
  obtain ⟨hready, hnodes, hfrontier⟩ := ofEvents_ready hv hindex hE hs
  refine .bind (run_failsOnly hv hE hready (by omega)) fun g hrun ↦ ?_
  have hended : g.Ready env.program pts [] :=
    run_induction (P := Ready env.program pts) (fun _ _ _ _ h hvisit ↦ (h.visit hvisit).1) hready hrun
  exact .bind (hleaves g hended) fun _ _ ↦ .of_ok ⟨g, rfl⟩

theorem construct_failsOnly (hE : env.program.Expects E)
    (hnone : ∀ n m, E (.refused (.noLeaves n m))) (hinvalid : ∀ n, E (.refused (.invalidLeaf n))) :
    FailsOnly E (construct env pts first last) :=
  construct_failsOnly_of_leaves hv hindex hE fun _ hg ↦ checkLeaves_failsOnly hv hg hnone hinvalid

end Construct

/-- The graph between two events is constructed or refused after finitely many visits. A search comes
upon finitely many beginnings of windows, since no chain of calls enters a function twice. -/
theorem construct_terminates (hv : env.program.validate = .ok ()) (once : env.program.ListsOnce)
    (hindex : LocationIndex.ofProgram env.program = .ok env.index) (first last : Event) :
    ((∃ s₀ k g, Search.ofEvents env pts first last = .ok s₀ ∧
        Steps env.program pts k s₀ ⟨g, []⟩ ∧ construct env pts first last = .ok g) ∨
      ∃ cause, construct env pts first last = .error (.refused cause)) ∧
    ∀ s₀, Search.ofEvents env pts first last = .ok s₀ → Ends env.program pts s₀ := by
  have hvalid := Program.validate_eq_ok_iff.1 hv
  have hE : env.program.Expects fun e ↦ ∃ cause, e = .refused cause :=
    ⟨fun _ ↦ ⟨_, rfl⟩, fun _ _ ↦ ⟨_, rfl⟩, fun _ ↦ ⟨_, rfl⟩, fun _ _ ↦ ⟨_, rfl⟩, (absurd once ·)⟩
  have hfails : FailsOnly (fun e ↦ ∃ cause, e = .refused cause) (construct env pts first last) :=
    construct_failsOnly hvalid hindex hE (fun _ _ ↦ ⟨_, rfl⟩) fun _ ↦ ⟨_, rfl⟩
  refine ⟨?_, fun s₀ hs₀ ↦ ?_⟩
  · cases h : construct env pts first last with
    | error e =>
      obtain ⟨cause, rfl⟩ := hfails e h
      exact .inr ⟨cause, rfl⟩
    | ok g =>
      obtain ⟨s₀, hs₀, hrun, -⟩ := construct_eq_ok h
      obtain ⟨k, hsteps⟩ := Steps.of_run hrun
      exact .inl ⟨s₀, k, g, hs₀, hsteps, rfl⟩
  · obtain ⟨hready, hnodes, hfrontier⟩ := ofEvents_ready hvalid hindex hE hs₀
    exact hready.ends hvalid (by omega)

theorem construct_terminates_recursion :
    let first := Sample.event .flush ("rec", 30) [("main", 40)] Sample.word false
    let last := Sample.event .flush ("rec", 30) [] Sample.word false
    ∃ env pts s₀, env.program = Sample.recursion.program ∧
      Search.ofEvents env pts first last = .ok s₀ ∧ Ends env.program pts s₀ ∧
      ∃ cause, construct env pts first last = .error (.refused cause) := by
  intro first last
  obtain ⟨env, pts, hp, hindex, hok, herror⟩ := exists_surroundings Sample.recursion.program
    (fun env pts ↦ (Search.ofEvents env pts first last).isOk = true ∧
      (construct env pts first last).isOk = false) (by decide +kernel)
  cases hs₀ : Search.ofEvents env pts first last with
  | error e =>
    rw [hs₀] at hok
    cases hok
  | ok s₀ =>
    have hv : Sample.recursion.program.validate = .ok () := by decide +kernel
    have once : Sample.recursion.program.ListsOnce := by decide +kernel
    obtain ⟨⟨-, -, g, -, -, hg⟩ | hcause, hends⟩ :=
      construct_terminates (hp ▸ hv) (hp ▸ once) (hp ▸ hindex) first last
    · rw [hg] at herror
      cases herror
    · exact ⟨env, pts, s₀, hp, hs₀, hends s₀ hs₀, hcause⟩

end WindowGraph

end Durability
