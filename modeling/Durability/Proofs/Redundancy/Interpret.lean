import Durability.Proofs.Program.Total
import Durability.Proofs.Redundancy.Always
import Durability.Proofs.Redundancy.Unflushed
import Durability.Proofs.WindowGraph.Exact

namespace Durability

open Relation

variable {p : Program} {pts : PointsTo} {env : Surroundings} {first last : Event} {n : Nat}

namespace WindowGraph

variable {g : WindowGraph} {w : Window} {i : InstrId} {l : List InstrId} {pm : PmFacts}
  {pending : List Value} {k : WindowKey}

theorem exists_pendingAfter (hv : p.Valid) (hi : ∃ b k, p.StandsAt b k i) :
    ∃ pending', pendingAfter p pts pm pending i = .ok pending' := by
  obtain ⟨b, k, hi⟩ := hi
  obtain ⟨B, ins, -, hins, hvalid⟩ := hi.instr hv
  have htakes := Program.takes_of_checkOperands hvalid.operands
  refine exists_bind_eq_ok hins ?_
  cases hop : ins.op with
  | store =>
    rw [hop, Op.takes, beq_iff_eq] at htakes
    obtain ⟨v, hv⟩ := Program.operand_of_lt ins (k := 0) (by omega)
    exact exists_bind_eq_ok hv ⟨_, rfl⟩
  | flush =>
    rw [hop, Op.takes, beq_iff_eq] at htakes
    obtain ⟨v, hv⟩ := Program.operand_of_lt ins (k := 0) (by omega)
    exact exists_bind_eq_ok hv ⟨_, rfl⟩
  | _ => exact ⟨_, rfl⟩

theorem exists_pending (hv : p.Valid) (hl : ∀ i ∈ l, ∃ b k, p.StandsAt b k i) :
    ∃ pending', l.foldlM (pendingAfter p pts pm) pending = .ok pending' := by
  induction l generalizing pending with
  | nil => exact ⟨pending, rfl⟩
  | cons i l ih =>
    obtain ⟨hi, hl⟩ := List.forall_mem_cons.1 hl
    obtain ⟨pending₁, hpending₁⟩ := exists_pendingAfter hv hi
    obtain ⟨pending', hpending'⟩ := ih hl
    exact ⟨pending', foldlM_cons_eq_ok_iff.2 ⟨pending₁, hpending₁, hpending'⟩⟩

theorem Leads.begins (h : g.Leads p g.start.key k) (ht : g.contexts.Interned p)
    (hstart : ∃ x, g.contexts.get g.start.context = .ok x) :
    (∃ x, g.contexts.get k.1 = .ok x) ∧ (k = g.start.key ∨ ∃ b m, p.StandsAt b m k.2) := by
  induction h with
  | refl => exact ⟨hstart, .inl rfl⟩
  | tail _ hstep ih =>
    obtain ⟨-, last, -, hnext⟩ := hstep
    obtain ⟨⟨x, hx⟩, -⟩ := ih
    exact ⟨hnext.context ht hx, .inr hnext.standsAt⟩

theorem mem_drop_of_mem_take {l : List InstrId} {m k : Nat} (hi : i ∈ (l.take m).drop k) :
    i ∈ l.drop k := by
  rw [List.drop_take] at hi
  exact List.mem_of_mem_take hi

/-- All that is looked at of a window stands in blocks. Where no block lists the first event, its window
begins with it. -/
theorem exists_effectiveWindow (hn : g.windowAt? n = some w)
    (hscan : p.scanForward p.walkBound w.first = .ok w.last)
    (hfirst : (∃ b m, p.StandsAt b m w.first) ∨ isRoot n = true ∧ w.first = g.start.anchor) :
    ∃ l, g.effectiveWindow p n = .ok l ∧ ∀ i ∈ l, ∃ b m, p.StandsAt b m i := by
  obtain ⟨instrs, hinstrs⟩ := Program.scanTo_of_scanForward hscan
  obtain ⟨rest, hcons, hrest⟩ := Program.standsAt_of_scanTo hinstrs
  obtain ⟨x, hx, rfl⟩ := Option.map_eq_some_iff.1 hn
  have hbehind : ∀ i ∈ instrs.drop (g.effectiveFrom n instrs), ∃ b m, p.StandsAt b m i := by
    intro i hi
    subst hcons
    obtain hstands | ⟨hroot, hanchor⟩ := hfirst
    · obtain rfl | hi := List.mem_cons.1 (List.mem_of_mem_drop hi)
      · exact hstands
      · exact hrest i hi
    · rw [effectiveFrom, if_pos hroot, hanchor, List.idxOf?_cons, if_pos (beq_self_eq_true _)] at hi
      exact hrest i hi
  refine ⟨if g.effectiveFrom n instrs ≤ g.effectiveUpTo n instrs
    then (instrs.take (g.effectiveUpTo n instrs)).drop (g.effectiveFrom n instrs)
    else instrs.drop (g.effectiveFrom n instrs),
    bind_eq_ok_iff.2 ⟨x, node_eq_ok_iff.2 hx, bind_eq_ok_iff.2 ⟨instrs, hinstrs, rfl⟩⟩, fun i hi ↦ ?_⟩
  apply hbehind i
  split at hi
  · exact mem_drop_of_mem_take hi
  · exact hi

theorem construct_leavesUnflushed (hv : env.program.Valid)
    (h : construct env pts first last = .ok g) (hn : n ∈ g.nodeIds) :
    ∃ b, g.leavesUnflushed env.program pts n = .ok b := by
  obtain ⟨hsearched, t, t', hfirst, -, hgrows⟩ := construct_searched h
  obtain ⟨haround, x, hx⟩ := Window.around_of_ofEvent hfirst
  obtain ⟨y, hy, -⟩ := hgrows _ x hx
  obtain ⟨w, hw⟩ := mem_nodeIds_iff.1 hn
  have hreached := hsearched.connected.reached n w hw
  obtain ⟨⟨z, hz⟩, hbegins⟩ := (hsearched.leads_of_reached hreached hw).begins hsearched.table ⟨y, hy⟩
  have hfirst : (∃ b m, env.program.StandsAt b m w.first) ∨
      isRoot n = true ∧ w.first = g.start.anchor := by
    obtain hkey | hstands := hbegins
    · obtain rfl := hsearched.indexed.eq_of_key hw hsearched.connected.root hkey
      obtain ⟨-, -, hback, -⟩ := Window.around_cases haround
      cases hw.symm.trans hsearched.connected.root
      obtain hanchor | hstands := Program.standsAt_of_scanBackward hback
      · exact .inr ⟨rfl, hanchor⟩
      · exact .inl hstands
    · exact .inl hstands
  obtain ⟨l, hl, hstands⟩ := exists_effectiveWindow hw (hsearched.windows n w hw) hfirst
  obtain ⟨pending, hpending⟩ : ∃ pending, l.foldlM (pendingAfter env.program pts z.pm) [] =
      .ok pending := exists_pending hv hstands
  obtain ⟨x, hx, rfl⟩ := Option.map_eq_some_iff.1 hw
  exact ⟨!pending.isEmpty, bind_eq_ok_iff.2 ⟨x, node_eq_ok_iff.2 hx, bind_eq_ok_iff.2 ⟨z, hz,
    bind_eq_ok_iff.2 ⟨l, hl, bind_eq_ok_iff.2 ⟨pending, hpending, rfl⟩⟩⟩⟩⟩

end WindowGraph

variable {a : FlowProblem} {x : Findings} {b : Bool}

namespace Findings

/-- What is known of a node is so, and there is a place for each node. -/
structure Fits (a : FlowProblem) (x : Findings) : Prop where
  consistent : x.Consistent a
  length : x.marks.length = a.graph.nodes.length

theorem fits_initial : (initial a.graph).Fits a :=
  ⟨consistent_initial, List.length_map _⟩

theorem Fits.setSpoils (hx : x.Fits a) (hb : a.graph.leavesUnflushed a.program a.pts n = .ok b) :
    (x.setSpoils n b).Fits a :=
  ⟨hx.consistent.setSpoils hb, (List.length_modify _ _ _).trans hx.length⟩

def Knows (x : Findings) (n : Nat) : Prop := ∃ b, (x.mark n).spoils = some b

end Findings

namespace FlowProblem

open Stateful

theorem interpret_fits : Preserves (Findings.Fits a) (a.interpret n) := by
  intro x hx
  obtain ⟨b, -, hb⟩ | ⟨-, ⟨b, hleaves, hb⟩ | ⟨f, -, hf⟩⟩ := interpret_cases (a := a) (n := n) x
  · rw [hb]
    exact hx
  · rw [hb]
    exact hx.setSpoils hleaves
  · rw [hf]
    exact hx

theorem noneSpoils_fits {ns : List Nat} : Preserves (Findings.Fits a) (a.noneSpoils ns) := by
  induction ns with
  | nil => exact .pure true
  | cons n ns ih =>
    rw [noneSpoils]
    split
    · refine .bind interpret_fits fun b ↦ ?_
      cases b with
      | true => exact .pure false
      | false => exact ih
    · exact ih

theorem alwaysRedundant_fits : Preserves (Findings.Fits a) a.alwaysRedundant := by
  refine .bind (fun x hx ↦ hx) fun y ↦ ?_
  cases y.always with
  | some b => exact .pure b
  | none =>
    exact .bind noneSpoils_fits fun b ↦
      .bind (fun x hx ↦ ⟨hx.consistent, hx.length⟩) fun _ ↦ .pure b

theorem exists_noneSpoils {ns : List Nat} (hx : x.Consistent a)
    (h : ∀ n ∈ ns, ∃ b, a.graph.leavesUnflushed a.program a.pts n = .ok b) :
    ∃ b x', a.noneSpoils ns x = (.ok b, x') := by
  induction ns generalizing x with
  | nil => exact ⟨true, x, rfl⟩
  | cons n ns ih =>
    obtain ⟨⟨b, hb⟩, hns⟩ := List.forall_mem_cons.1 h
    rw [noneSpoils]
    split
    · obtain ⟨y, hy, -⟩ := interpret_of_leavesUnflushed hx hb
      cases b with
      | true => exact ⟨false, y, Stateful.bind_eq_ok_iff.2 ⟨true, y, hy, rfl⟩⟩
      | false =>
        obtain ⟨b', x', hx'⟩ := ih (interpret_eq_ok hx hy).1 hns
        exact ⟨b', x', Stateful.bind_eq_ok_iff.2 ⟨false, y, hy, hx'⟩⟩
    · exact ih hx hns

theorem exists_alwaysRedundant (hx : x.Fits a)
    (h : ∀ n ∈ a.graph.order, ∃ b, a.graph.leavesUnflushed a.program a.pts n = .ok b) :
    ∃ always y, a.alwaysRedundant x = (.ok always, y) ∧ y.Fits a := by
  have hrun : ∃ always y, a.alwaysRedundant x = (.ok always, y) := by
    obtain ⟨b, y, hy⟩ := exists_noneSpoils hx.consistent h
    have hget : (get : Analyzing Findings) x = (.ok x, x) := Stateful.get_eq_ok_iff.2 ⟨rfl, rfl⟩
    rw [alwaysRedundant, Stateful.bind_apply, hget]
    dsimp only
    cases x.always with
    | some b => exact ⟨b, x, rfl⟩
    | none =>
      exact ⟨b, { y with always := some b }, Stateful.bind_eq_ok_iff.2 ⟨b, y, hy, rfl⟩⟩
  obtain ⟨always, y, hy⟩ := hrun
  have hfits := alwaysRedundant_fits x hx
  rw [hy] at hfits
  exact ⟨always, y, hy, hfits⟩

theorem interpret_knows (hx : x.Fits a) (hn : n < a.graph.nodes.length)
    (hb : a.graph.leavesUnflushed a.program a.pts n = .ok b) :
    ∃ x', a.interpret n x = (.ok b, x') ∧ ∀ m, m = n ∨ x.Knows m → x'.Knows m := by
  obtain ⟨x', hx', ⟨rfl, hspoils⟩ | rfl⟩ := interpret_of_leavesUnflushed hx.consistent hb
  · refine ⟨x', hx', fun m hm ↦ ?_⟩
    obtain rfl | hm := hm
    · exact ⟨b, hspoils⟩
    · exact hm
  · refine ⟨x.setSpoils n b, hx', fun m hm ↦ ?_⟩
    by_cases hnm : n = m
    · exact ⟨b, by rw [Findings.spoils_setSpoils, if_pos ⟨hnm, hx.length ▸ hn⟩]⟩
    · obtain ⟨b', hb'⟩ := hm.resolve_left fun h ↦ hnm h.symm
      exact ⟨b', by rw [Findings.spoils_setSpoils, if_neg fun h ↦ hnm h.1, hb']⟩

theorem forM_interpret {nodes : List Nat} (hx : x.Fits a) (hnodes : ∀ n ∈ nodes,
    n < a.graph.nodes.length ∧ ∃ b, a.graph.leavesUnflushed a.program a.pts n = .ok b) :
    ∃ x', (nodes.forM fun n ↦ discard (a.interpret n)) x = (.ok (), x') ∧ x'.Fits a ∧
      ∀ m, m ∈ nodes ∨ x.Knows m → x'.Knows m := by
  induction nodes generalizing x with
  | nil => exact ⟨x, rfl, hx, fun m hm ↦ hm.resolve_left List.not_mem_nil⟩
  | cons n nodes ih =>
    obtain ⟨⟨hn, b, hb⟩, hnodes⟩ := List.forall_mem_cons.1 hnodes
    obtain ⟨y, hy, hknows⟩ := interpret_knows hx hn hb
    have hfits : y.Fits a := by
      have := interpret_fits (n := n) x hx
      rwa [hy] at this
    obtain ⟨x', hx', hfits', hknows'⟩ := ih hfits hnodes
    refine ⟨x', Stateful.bind_eq_ok_iff.2 ⟨(), y, discard_eq_ok_iff.2 ⟨b, hy⟩, hx'⟩, hfits',
      fun m hm ↦ ?_⟩
    rw [List.mem_cons, or_assoc, or_left_comm] at hm
    exact hknows' m (hm.imp_right (hknows m))

end FlowProblem

end Durability
