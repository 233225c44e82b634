import Durability.Proofs.WindowGraph.Terminates

namespace Durability

variable {p : Program} {pts : PointsTo} {t t' t'' : ContextTable} {w : Window} {i : InstrId}
  {b : BlockId} {B : Block} {k : Nat} {ins : Instruction}

theorem Op.targets_eq_nil_iff {op : Op} (h : op.isTerminator = true) :
    op.targets = [] ↔ op = .ret ∨ op = .unreachable := by
  cases op with
  | condBranch b c => by_cases hbc : b = c <;> simp [targets, hbc]
  | ret | branch _ | unreachable => simp [targets]
  | _ => cases h

namespace Program

theorem StandsAt.exists_next (hi : p.StandsAt b k i) (hv : p.Valid) (hins : p.instr i = .ok ins)
    (hterm : ins.op.isTerminator = false) : ∃ j, p.nextInBlock i = .ok (some j) := by
  have hblock := hi.blockOf hv
  obtain ⟨B, hB, hk⟩ := hi
  obtain ⟨last, ins', hlast, hins', hterm'⟩ := (hv.blocks b B hB).terminated
  cases hm : B.instrs.idxOf? i with
  | none => exact absurd (List.mem_of_getElem? hk) (List.idxOf?_eq_none_iff.1 hm)
  | some m =>
    obtain ⟨hlt, him, -⟩ := List.idxOf?_eq_some_iff.1 hm
    have hnext : m + 1 < B.instrs.length := by
      by_contra hge
      obtain rfl : m = B.instrs.length - 1 := by omega
      rw [List.getLast?_eq_getElem?, List.getElem?_eq_getElem hlt, him] at hlast
      cases hlast
      cases hins.symm.trans hins'
      cases hterm.symm.trans hterm'
    exact ⟨B.instrs[m + 1], bind_eq_ok_iff.2 ⟨_, position?_eq_some_iff.2 ⟨b, B, hblock, hB, rfl, hm⟩,
      congrArg Except.ok (List.getElem?_eq_getElem hnext)⟩⟩

theorem not_isTerminator_of_isDefinedCall (h : p.isDefinedCall i = .ok true)
    (hins : p.instr i = .ok ins) : ins.op.isTerminator = false := by
  obtain ⟨f, hop⟩ := op_of_isDefinedCall h hins
  rw [hop]
  rfl

theorem Stuck.isTerminator (h : p.Stuck i) (hv : p.Valid) (hi : ∃ b k, p.StandsAt b k i)
    (hins : p.instr i = .ok ins) (hcall : p.isDefinedCall i = .ok false) :
    ins.op.isTerminator = true := by
  by_contra hterm
  have hterm := Bool.eq_false_iff.2 hterm
  obtain hends | hnext := h
  · cases hends.symm.trans (endsWindow_eq_false_iff.2 ⟨ins, hins, hterm, hcall⟩)
  · obtain ⟨b, k, hi⟩ := hi
    obtain ⟨j, hj⟩ := hi.exists_next hv hins hterm
    cases hnext.symm.trans hj

end Program

theorem ContextTable.Placed.exists_next {c : ContextId} {x : Context} {call : InstrId}
    (h : t.Placed p) (hv : p.Valid) (hx : t.get c = .ok x)
    (hcall : x.callStack.getLast? = some call) : ∃ j, p.nextInBlock call = .ok (some j) := by
  obtain ⟨b, k, hstands⟩ := h.stands c x hx call (List.mem_of_getLast? hcall)
  obtain ⟨B, ins, -, hins, -⟩ := hstands.instr hv
  cases hp : x.parent with
  | none =>
    rw [h.root c x hx hp] at hcall
    cases hcall
  | some d =>
    obtain ⟨-, y, call', -, hstack, hdefined, -⟩ := h.child c x d hx hp
    rw [hstack, List.getLast?_concat] at hcall
    cases hcall
    exact hstands.exists_next hv hins (Program.not_isTerminator_of_isDefinedCall hdefined hins)

namespace WindowGraph

variable {g : WindowGraph} {n : Nat} {next : List WindowKey}

inductive Halts (p : Program) (t : ContextTable) (w : Window) : Prop
  | unreachable {ins : Instruction} :
      p.instr w.last = .ok ins → ins.op = .unreachable → Halts p t w
  | ret {ins : Instruction} {x : Context} :
      p.instr w.last = .ok ins → ins.op = .ret → t.get w.context = .ok x → x.parent = none →
        Halts p t w

theorem halts_iff (hins : p.instr w.last = .ok ins) : Halts p t w ↔
    ins.op = .unreachable ∨ ins.op = .ret ∧ ∃ x, t.get w.context = .ok x ∧ x.parent = none := by
  constructor
  · intro h
    cases h with
    | unreachable hins' hop =>
      cases hins.symm.trans hins'
      exact .inl hop
    | ret hins' hop hx hp =>
      cases hins.symm.trans hins'
      exact .inr ⟨hop, _, hx, hp⟩
  · rintro (hop | ⟨hop, x, hx, hp⟩)
    · exact .unreachable hins hop
    · exact .ret hins hop hx hp

section Successors

variable (hv : p.Valid) (hlast : ∃ b m, p.StandsAt b m w.last) (hins : p.instr w.last = .ok ins)
include hv hlast hins

theorem targetsOf_eq_nil_iff {l : List InstrId} (hterm : ins.op.isTerminator = true)
    (h : targetsOf p w.last = .ok l) : l = [] ↔ ins.op = .ret ∨ ins.op = .unreachable := by
  obtain ⟨b, m, hstands⟩ := hlast
  rw [← Op.targets_eq_nil_iff hterm, List.eq_nil_iff_forall_not_mem,
    List.eq_nil_iff_forall_not_mem]
  constructor
  · intro hl b' hb'
    obtain ⟨B, ins', -, hins', hvalid⟩ := hstands.instr hv
    cases hins.symm.trans hins'
    obtain ⟨B', hB', -⟩ := Program.block_of_owns (hvalid.targets b' hb')
    obtain ⟨j, hj⟩ := hv.exists_firstInBlock hB'
    exact hl j (mem_targetsOf hv h hstands hins hb' hj)
  · intro htargets j hj
    obtain ⟨b₁, bs, b', hb₁, hbs, hb', -⟩ := (mem_targetsOf_iff h).1 hj
    cases (hstands.blockOf hv).symm.trans hb₁
    cases (hstands.successors hv hins hterm).symm.trans hbs
    exact htargets b' hb'

/-- Nothing follows a window exactly if control stops at its end. -/
theorem successors_eq_nil_iff (ht : t.Interned p) (hplaced : t''.Placed p) (hstuck : p.Stuck w.last)
    (h : successors p pts t w = .ok (next, t')) (hgrows : t'.Grows t'') :
    next = [] ↔ Halts p t'' w := by
  rw [halts_iff hins]
  obtain ⟨ins', hins', hcases⟩ := successors_cases h
  cases hins.symm.trans hins'
  obtain ⟨f, d, i, hop, -, -, -, rfl⟩ | ⟨x, c?, hop, hx, hret, hnext⟩ |
    ⟨l, hop, hdefined, hl, rfl, rfl⟩ := hcases
  · simp [hop]
  · obtain ⟨hgrown, -, -, x', hx', hcases⟩ := ContextTable.doReturn_eq_ok ht hret
    cases hx.symm.trans hx'
    obtain ⟨y, hy, hxy⟩ := (hgrown.trans hgrows) _ x hx
    have hroot : (ins.op = .unreachable ∨
        ins.op = .ret ∧ ∃ x, t''.get w.context = .ok x ∧ x.parent = none) ↔ x.parent = none := by
      simp [hop, hy, ← hxy.parent]
    rw [hroot]
    obtain ⟨rfl, hp⟩ | ⟨d, z, call, rfl, hp, -, hstack, -⟩ := hcases
    · obtain ⟨_, _, _, hc, -⟩ | ⟨-, rfl⟩ := hnext
      · cases hc
      · exact iff_of_true rfl hp
    · have hcall : x.callStack.getLast? = some call := by rw [hstack, List.getLast?_concat]
      obtain ⟨_, _, j?, hc, hcall', hj?, rfl⟩ | ⟨hc | hcall', -⟩ := hnext
      · cases hc
        cases hcall.symm.trans hcall'
        obtain ⟨j, hj⟩ := hplaced.exists_next hv hy (hxy.callStack ▸ hcall)
        cases hj?.symm.trans hj
        exact iff_of_false (List.cons_ne_nil _ _) (by rw [hp]; exact nofun)
      · cases hc
      · cases hcall.symm.trans hcall'
  · have hterm := hstuck.isTerminator hv hlast hins hdefined
    rw [List.map_eq_nil_iff, targetsOf_eq_nil_iff hv hlast hins hterm hl]
    simp [hop]

end Successors

section Ready

variable (hv : p.Valid)
include hv

theorem isTerminal_eq_true_iff {todo : List Nat} (h : g.Ready p pts todo)
    (hw : g.windowAt? n = some w) : g.isTerminal p n = .ok true ↔ Halts p g.contexts w := by
  obtain ⟨⟨x, hx⟩, hfirst⟩ := h.begins n w hw
  obtain ⟨b, m, hlast⟩ := standsAt_last hfirst (h.windows n w hw)
  obtain ⟨B, ins, -, hins, -⟩ := hlast.instr hv
  obtain ⟨y, hy, rfl⟩ := Option.map_eq_some_iff.1 hw
  rw [halts_iff hins]
  constructor
  · intro hterminal
    obtain ⟨z, hz, hterminal⟩ := bind_eq_ok_iff.1 hterminal
    cases (node_eq_ok_iff.2 hy).symm.trans hz
    obtain ⟨ins', hins', hterminal⟩ := bind_eq_ok_iff.1 hterminal
    cases hins.symm.trans hins'
    split at hterminal
    · next hop => exact .inl hop
    · next hop =>
      obtain ⟨z, hz, hnone⟩ := bind_eq_ok_iff.1 hterminal
      exact .inr ⟨hop, z, hz, Option.isNone_iff_eq_none.1 (pure_eq_ok_iff.1 hnone)⟩
    · next hunreachable hret =>
      split at hterminal
      · next hterm =>
        -- A branch has targets, so it is no end.
        obtain ⟨b?, hb, hterminal⟩ := bind_eq_ok_iff.1 hterminal
        cases (hlast.blockOf hv).symm.trans hb
        obtain ⟨bs, hbs, hempty⟩ := bind_eq_ok_iff.1 hterminal
        cases (hlast.successors hv hins hterm).symm.trans hbs
        have htargets := List.isEmpty_iff.1 (pure_eq_ok_iff.1 hempty)
        exact ((Op.targets_eq_nil_iff hterm).1 htargets).elim (absurd · hret)
          (absurd · hunreachable)
      · cases pure_eq_ok_iff.1 hterminal
  · intro hstop
    refine bind_eq_ok_iff.2 ⟨y, node_eq_ok_iff.2 hy, bind_eq_ok_iff.2 ⟨ins, hins, ?_⟩⟩
    obtain hop | ⟨hop, z, hz, hp⟩ := hstop
    · rw [hop]
      rfl
    · rw [hop]
      exact bind_eq_ok_iff.2 ⟨z, hz, by rw [hp]; rfl⟩

theorem Ready.mem_leaves_iff_halts (h : g.Ready p pts []) : n ∈ g.leaves ↔ ∃ w, g.windowAt? n = some w ∧
    (w.key = g.stop.key ∨ Halts p g.contexts w) := by
  cases hn : g.windowAt? n with
  | none =>
    refine iff_of_false (fun hleaf ↦ ?_) (fun ⟨_, hw, _⟩ ↦ nomatch hw)
    have hsome := h.leaves n hleaf
    rw [hn] at hsome
    cases hsome
  | some w =>
    simp only [Option.some.injEq, exists_eq_left']
    obtain ⟨hkey, -, hleaf, -⟩ | ⟨hkey, t, next, t', ht, hnext, hgrows, -, -, hleaf⟩ :=
      h.visited n w hn List.not_mem_nil
    · exact iff_of_true hleaf (.inl hkey)
    · obtain ⟨-, hfirst⟩ := h.begins n w hn
      have hlast := standsAt_last hfirst (h.windows n w hn)
      obtain ⟨l, hrun⟩ := Program.run_of_scanForward (h.windows n w hn)
      obtain ⟨b, m, hstands⟩ := id hlast
      obtain ⟨B, ins, -, hins, -⟩ := hstands.instr hv
      rw [hleaf, or_iff_right hkey]
      exact successors_eq_nil_iff hv hlast hins ht h.placed hrun.last_stuck hnext hgrows

theorem Ready.checkLeaves_failsOnly {E : Failure RepairError → Prop} {first last : Event}
    (h : g.Ready p pts []) (hnone : ∀ n m, E (.refused (.noLeaves n m))) :
    FailsOnly E (g.checkLeaves p first last) := by
  refine .bind (.refuseIf (hnone _ _)) fun _ _ ↦ .forM fun n hn ↦ ?_
  obtain ⟨w, hw, hkey | hhalts⟩ := (h.mem_leaves_iff_halts hv).1 hn
  · have hstop : g.isStop n = true := beq_iff_eq.2 (h.stopNode_eq_some_iff.2 ⟨w, hw, hkey⟩)
    rw [hstop]
    exact .of_ok ⟨(), rfl⟩
  · have hterminal := (isTerminal_eq_true_iff hv h hw).2 hhalts
    split
    · refine .of_ok ⟨(), bind_eq_ok_iff.2 ⟨true, Attempt.lift_eq_ok_iff.2 hterminal, rfl⟩⟩
    · exact .of_ok ⟨(), rfl⟩

end Ready

/-- How there may come to be no graph between two events of a valid program. A scan that goes on for
ever needs a block that lists an instruction twice. -/
def Refusal (p : Program) (e : Failure RepairError) : Prop :=
  (∃ cause, e = .refused cause ∧ cause.kind ∈ ["UnmappedLocation", "AmbiguousLocation",
      "NotACallSite", "UnsupportedRecursion", "NoLeaves"]) ∨
    e = .fault .endless ∧ ¬ p.ListsOnce

theorem expects_refusal (p : Program) : p.Expects (Refusal p) where
  unmapped _ := .inl ⟨_, rfl, List.mem_of_elem_eq_true rfl⟩
  ambiguous _ _ := .inl ⟨_, rfl, List.mem_of_elem_eq_true rfl⟩
  notACallSite _ := .inl ⟨_, rfl, List.mem_of_elem_eq_true rfl⟩
  recursion _ _ := .inl ⟨_, rfl, List.mem_of_elem_eq_true rfl⟩
  endless hnot := .inr ⟨rfl, hnot⟩

/-- The construction of a graph never meets a leaf from which control goes on, nor anything else that a
valid program excludes. Its leaves are the window of the second event and those where control stops. -/
theorem construct_refusal {env : Surroundings} (hv : env.program.validate = .ok ())
    (hindex : LocationIndex.ofProgram env.program = .ok env.index) (pts : PointsTo)
    (first last : Event) :
    (∀ e, construct env pts first last = .error e → Refusal env.program e) ∧
    ∀ s₀ k g, Search.ofEvents env pts first last = .ok s₀ →
      Steps env.program pts k s₀ ⟨g, []⟩ → ∀ n, n ∈ g.leaves ↔ ∃ w, g.windowAt? n = some w ∧
        (w.key = g.stop.key ∨ Halts env.program g.contexts w) := by
  have hvalid := Program.validate_eq_ok_iff.1 hv
  have hE := expects_refusal env.program
  refine ⟨construct_failsOnly_of_leaves hvalid hindex hE fun g hg ↦ ?_,
    fun s₀ k g hs₀ hsteps n ↦ ?_⟩
  · exact hg.checkLeaves_failsOnly hvalid fun _ _ ↦ .inl ⟨_, rfl, List.mem_of_elem_eq_true rfl⟩
  · obtain ⟨hready, -⟩ := ofEvents_ready hvalid hindex hE hs₀
    exact (hsteps.ready hready).1.mem_leaves_iff_halts hvalid

open Sample in
def deadEnd : Program :=
  (build (.reserve "main" 1 :: body 0 0
    [[flush 10, fork (.arg ⟨0⟩ 0) 1 2 11], [(.unreachable, [], 12)], [flush 13, ret 14]]) []).program

theorem construct_refusal_deadEnd :
    let flush (line : Int64) := Sample.event .flush ("main", line) [] Sample.cacheLine false
    ∃ env pts s₀ k g w e, env.program = deadEnd ∧
      Search.ofEvents env pts (flush 10) (flush 13) = .ok s₀ ∧
      Steps env.program pts k s₀ ⟨g, []⟩ ∧ g.leaves = [1, 2] ∧ g.windowAt? 1 = some w ∧
      Halts env.program g.contexts w ∧
      construct env pts (flush 10) (flush 15) = .error e ∧ Refusal env.program e := by
  intro flush
  obtain ⟨env, pts, hp, hindex, hok, herror⟩ := exists_surroundings deadEnd
    (fun env pts ↦ (construct env pts (flush 10) (flush 13)).map (fun g ↦ decide
      (g.leaves = [1, 2] ∧ ∀ w ∈ g.windowAt? 1, w.key ≠ g.stop.key)) = .ok true ∧
      (construct env pts (flush 10) (flush 15)).isOk = false) (by decide +kernel)
  have hv : deadEnd.validate = .ok () := by decide +kernel
  obtain ⟨g, hg, hleaves⟩ := map_eq_ok_iff.1 hok
  obtain ⟨hleaves, hkey⟩ := of_decide_eq_true hleaves
  obtain ⟨s₀, hs₀, hrun, -⟩ := construct_eq_ok hg
  obtain ⟨k, hsteps⟩ := Steps.of_run hrun
  obtain ⟨-, hends⟩ := construct_refusal (hp ▸ hv) (hp ▸ hindex) pts (flush 10) (flush 13)
  obtain ⟨hrefusal, -⟩ := construct_refusal (hp ▸ hv) (hp ▸ hindex) pts (flush 10) (flush 15)
  obtain ⟨w, hw, hstop⟩ := (hends s₀ k g hs₀ hsteps 1).1 (by rw [hleaves]; exact List.mem_cons_self)
  cases he : construct env pts (flush 10) (flush 15) with
  | ok g =>
    rw [he] at herror
    cases herror
  | error e =>
    exact ⟨env, pts, s₀, k, g, w, e, hp, hs₀, hsteps, hleaves, hw, hstop.resolve_left (hkey w hw),
      he, hrefusal e he⟩

end WindowGraph

end Durability
