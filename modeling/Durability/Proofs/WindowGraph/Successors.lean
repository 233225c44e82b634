import Durability.Proofs.Window.Event
import Durability.WindowGraph

namespace Durability

variable {p : Program} {pts : PointsTo} {t t' : ContextTable} {w : Window} {c : ContextId}
  {i j : InstrId} {b b' : BlockId} {facts : Storage → Prop}

structure Begins (p : Program) (t : ContextTable) (c : ContextId) (i : InstrId) : Prop where
  heads : p.Heads i
  stands : ∃ b k, p.StandsAt b k i
  context : ∃ x, t.get c = .ok x ∧ (x.parent = none → p.functionOf i = .ok (some x.function))

def ContextTable.Knows (facts : Storage → Prop) (t : ContextTable) (c : ContextId) : Prop :=
  ∃ x, t.get c = .ok x ∧ ∀ s, facts s → x.pm.Has s

theorem ContextTable.Knows.mono (h : t.Knows facts c) (hgrows : t.Grows t') : t'.Knows facts c := by
  obtain ⟨x, hx, hfacts⟩ := h
  obtain ⟨y, hy, hxy⟩ := hgrows c x hx
  exact ⟨y, hy, fun s hs ↦ hxy.pm s (hfacts s hs)⟩

theorem Begins.fits (h : Begins p t c i) (hw : Window.startingAt p c i = .ok w) :
    w.context = c ∧ w.first = i ∧ w.Fits p t := by
  obtain ⟨rfl, rfl, hspans⟩ := Window.startingAt_eq_ok hw h.heads h.stands
  exact ⟨rfl, rfl, hspans, h.context⟩

namespace Program

theorem StandsAt.successors {k : Nat} {ins : Instruction} (h : p.StandsAt b k i) (hv : p.Valid)
    (hi : p.instr i = .ok ins) (hterm : ins.op.isTerminator = true) :
    p.successors b = .ok ins.op.targets := by
  obtain ⟨B, ins', hB, hi', hvalid⟩ := h.instr hv
  cases hi.symm.trans hi'
  obtain ⟨B', hB', hk⟩ := h
  cases hB.symm.trans hB'
  have hlast : B.instrs.getLast? = some i := by
    rw [List.getLast?_eq_getElem?, ← hvalid.inside hterm, Nat.add_sub_cancel, hk]
  exact bind_eq_ok_iff.2 ⟨some i, terminator_eq_some_iff.2 ⟨B, ins, hB, hlast, hi, hterm⟩,
    bind_eq_ok_iff.2 ⟨ins, hi, rfl⟩⟩

theorem function_of_mem_successors {B : Block} {bs : List BlockId} (hv : p.Valid)
    (hB : p.block b = .ok B) (h : p.successors b = .ok bs) (hb' : b' ∈ bs) :
    ∃ B', p.block b' = .ok B' ∧ B'.function = B.function := by
  obtain ⟨t?, hterm, h⟩ := bind_eq_ok_iff.1 h
  cases t? with
  | none =>
    cases h
    cases hb'
  | some t =>
    obtain ⟨ins, hins, h⟩ := bind_eq_ok_iff.1 h
    cases h
    obtain ⟨B', ins', hB', hlast, hins', -⟩ := terminator_eq_some_iff.1 hterm
    cases hB.symm.trans hB'
    cases hins.symm.trans hins'
    rw [List.getLast?_eq_getElem?] at hlast
    obtain ⟨ins', hins', hvalid⟩ := (hv.blocks b B hB).instrs _ t hlast
    cases hins.symm.trans hins'
    have howns := hvalid.targets b' hb'
    rw [owns] at howns
    split at howns
    · next B' hB' => exact ⟨B', block_eq_ok_iff.2 hB', of_decide_eq_true howns⟩
    · cases howns

end Program

namespace WindowGraph

theorem mem_targetsOf_iff {l : List InstrId} (h : targetsOf p i = .ok l) : j ∈ l ↔
    ∃ b bs b', p.blockOf i = .ok (some b) ∧ p.successors b = .ok bs ∧ b' ∈ bs ∧
      p.firstInBlock b' = .ok (some j) := by
  obtain ⟨b?, hb, h⟩ := bind_eq_ok_iff.1 h
  cases b? with
  | none =>
    obtain rfl := pure_eq_ok_iff.1 h
    refine iff_of_false List.not_mem_nil fun hj ↦ ?_
    obtain ⟨b, _, _, hb', -⟩ := hj
    cases hb.symm.trans hb'
  | some b =>
    obtain ⟨bs, hbs, h⟩ := bind_eq_ok_iff.1 h
    obtain ⟨firsts, hfirsts, h⟩ := bind_eq_ok_iff.1 h
    obtain rfl := pure_eq_ok_iff.1 h
    rw [List.mem_filterMap]
    constructor
    · intro hj
      obtain ⟨_, hmem, rfl⟩ := hj
      obtain ⟨b', hb', hfirst⟩ := exists_of_mem_mapM hfirsts hmem
      exact ⟨b, bs, b', hb, hbs, hb', hfirst⟩
    · intro hj
      obtain ⟨_, _, b', hb', hbs', hmem, hfirst⟩ := hj
      cases hb.symm.trans hb'
      cases hbs.symm.trans hbs'
      obtain ⟨j?, hj?, hfirst'⟩ := mem_mapM_of_mem hfirsts hmem
      cases hfirst.symm.trans hfirst'
      exact ⟨some j, hj?, rfl⟩

theorem targetsOf_eq_ok {l : List InstrId} (hv : p.Valid) (h : targetsOf p i = .ok l) (hj : j ∈ l) :
    (∃ b, p.firstInBlock b = .ok (some j)) ∧ p.functionOf j = p.functionOf i := by
  obtain ⟨b, bs, b', hb, hbs, hb', hfirst⟩ := (mem_targetsOf_iff h).1 hj
  obtain ⟨t?, hterm, -⟩ := bind_eq_ok_iff.1 hbs
  obtain ⟨B, hB, -⟩ := bind_eq_ok_iff.1 hterm
  obtain ⟨B', hB', hfunction⟩ := Program.function_of_mem_successors hv hB hbs hb'
  refine ⟨⟨b', hfirst⟩, ?_⟩
  rw [(Program.standsAt_of_firstInBlock hfirst).functionOf hv hB', hfunction]
  exact (Program.functionOf_eq_some_iff.2 ⟨b, B, hb, hB, rfl⟩).symm

theorem mem_targetsOf {l : List InstrId} {k : Nat} {ins : Instruction} (hv : p.Valid)
    (h : targetsOf p i = .ok l) (hstands : p.StandsAt b k i) (hi : p.instr i = .ok ins)
    (hb' : b' ∈ ins.op.targets) (hj : p.firstInBlock b' = .ok (some j)) : j ∈ l := by
  have hterm : ins.op.isTerminator = true := by
    by_contra hne
    rw [Op.targets_eq_nil (Bool.eq_false_iff.2 hne)] at hb'
    cases hb'
  exact (mem_targetsOf_iff h).2
    ⟨b, _, b', hstands.blockOf hv, hstands.successors hv hi hterm, hb', hj⟩

theorem flow_cases {next : List WindowKey} (h : successors.flow p w t = .ok (next, t')) :
    ∃ l, targetsOf p w.last = .ok l ∧ next = l.map (w.context, ·) ∧ t' = t := by
  obtain ⟨l, hl, h⟩ := bind_eq_ok_iff.1 h
  cases h
  exact ⟨l, Attempt.lift_eq_ok_iff.1 hl, rfl, rfl⟩

/-- What `successors` can do: enter a defined function, go back to the caller or go on in the context
of the window. -/
theorem successors_cases {next : List WindowKey} (h : successors p pts t w = .ok (next, t')) :
    ∃ ins, p.instr w.last = .ok ins ∧
      ((∃ f d i, ins.op = .call f ∧ p.isDefinedCall w.last = .ok true ∧
          t.doCall p w.context w.last = .ok (d, t') ∧ p.entry f = .ok (some i) ∧
          next = [(d, i)]) ∨
        (∃ x c?, ins.op = .ret ∧ t.get w.context = .ok x ∧
          t.doReturn p pts w.context w.last = .ok (c?, t') ∧
          ((∃ c call j?, c? = some c ∧ x.callStack.getLast? = some call ∧
              p.nextInBlock call = .ok j? ∧ next = j?.toList.map (c, ·)) ∨
            (c? = none ∨ x.callStack.getLast? = none) ∧ next = [])) ∨
        ∃ l, ins.op ≠ .ret ∧ p.isDefinedCall w.last = .ok false ∧ targetsOf p w.last = .ok l ∧
          next = l.map (w.context, ·) ∧ t' = t) := by
  obtain ⟨ins, hins, h⟩ := bind_eq_ok_iff.1 h
  have hins := Attempt.lift_eq_ok_iff.1 hins
  refine ⟨ins, hins, ?_⟩
  split at h
  · next f hop =>
    obtain ⟨defined, hdefined, h⟩ := bind_eq_ok_iff.1 h
    have hdefined := Attempt.lift_eq_ok_iff.1 hdefined
    cases defined with
    | true =>
      obtain ⟨⟨d, r⟩, hcall, h⟩ := bind_eq_ok_iff.1 h
      obtain ⟨i?, hentry, h⟩ := bind_eq_ok_iff.1 h
      have hentry := Attempt.lift_eq_ok_iff.1 hentry
      cases i? with
      | none =>
        obtain ⟨_, -, h⟩ := bind_eq_ok_iff.1 h
        cases h
      | some i =>
        cases h
        exact .inl ⟨f, d, i, hop, hdefined, hcall, hentry, rfl⟩
    | false =>
      obtain ⟨l, hl, hnext, ht'⟩ := flow_cases h
      exact .inr (.inr ⟨l, by rw [hop]; exact nofun, hdefined, hl, hnext, ht'⟩)
  · next hop =>
    obtain ⟨last?, hlast, h⟩ := bind_eq_ok_iff.1 h
    obtain ⟨x, hx, rfl⟩ := map_eq_ok_iff.1 hlast
    have hx := Attempt.lift_eq_ok_iff.1 hx
    obtain ⟨⟨c?, r⟩, hret, h⟩ := bind_eq_ok_iff.1 h
    have hret := Attempt.lift_eq_ok_iff.1 hret
    refine .inr (.inl ⟨x, c?, hop, hx, ?_⟩)
    cases c? with
    | none =>
      cases h
      exact ⟨hret, .inr ⟨.inl rfl, rfl⟩⟩
    | some c =>
      cases hl : x.callStack.getLast? with
      | none =>
        rw [hl] at h
        cases h
        exact ⟨hret, .inr ⟨.inr rfl, rfl⟩⟩
      | some call =>
        rw [hl] at h
        obtain ⟨j?, hj, h⟩ := bind_eq_ok_iff.1 h
        cases h
        exact ⟨hret, .inl ⟨c, call, j?, rfl, rfl, Attempt.lift_eq_ok_iff.1 hj, rfl⟩⟩
  · next hnocall hnoret =>
    obtain ⟨l, hl, hnext, ht'⟩ := flow_cases h
    refine .inr (.inr ⟨l, hnoret, ?_, hl, hnext, ht'⟩)
    refine bind_eq_ok_iff.2 ⟨none, bind_eq_ok_iff.2 ⟨ins, hins, ?_⟩, rfl⟩
    split
    · next f hop => exact (hnocall f hop).elim
    · rfl

/-- What `successors` promises of the windows that it names. -/
structure Follows (p : Program) (facts : Storage → Prop) (t : ContextTable) (w : Window)
    (next : List (ContextId × InstrId)) (t' : ContextTable) : Prop where
  grows : t.Grows t'
  sound : t'.Sound p
  begins : ∀ n ∈ next, Begins p t' n.1 n.2 ∧ t'.Knows facts n.1
  covers : ∀ x s j, t.get w.context = .ok x → p.Step ⟨x.callStack, w.last⟩ ⟨s, j⟩ →
    ∃ n ∈ next, n.2 = j ∧ ∃ y, t'.get n.1 = .ok y ∧ y.callStack = s

section

variable {next : List (ContextId × InstrId)} {ins : Instruction} (hv : p.Valid) (once : p.ListsOnce)
  (ht : t.Sound p) (hw : w.Fits p t) (hfacts : t.Knows facts w.context)
  (hins : p.instr w.last = .ok ins)

include hv once ht hw hfacts hins

theorem flow_follows {l : List InstrId} (hop : ins.op ≠ .ret)
    (hcall : p.isDefinedCall w.last = .ok false) (hl : targetsOf p w.last = .ok l) :
    Follows p facts t w (l.map (w.context, ·)) t := by
  obtain ⟨l', hspans⟩ := hw.spans
  refine ⟨.refl t, ht, fun n hn ↦ ?_, fun x s j hx hstep ↦ ?_⟩
  · obtain ⟨j, hj, rfl⟩ := List.mem_map.1 hn
    obtain ⟨⟨b, hfirst⟩, hfunction⟩ := targetsOf_eq_ok hv hl hj
    obtain ⟨x, hx, hroot⟩ := hw.context
    refine ⟨⟨Program.heads_of_firstInBlock hv once hfirst,
      ⟨b, 0, Program.standsAt_of_firstInBlock hfirst⟩, x, hx, fun hp ↦ ?_⟩, hfacts⟩
    rw [hfunction, hspans.functionOf hv hspans.run.last_mem, hroot hp]
  · obtain ⟨b, k, hstands⟩ := Program.standsAt_of_falls
      (hspans.run.falls_of_mem hspans.run.last_mem) hspans.stands
    obtain ⟨rfl, ⟨hterm, hnot, hnext⟩ | ⟨b', htarget, hfirst⟩⟩ := hstep.of_flow hins hop (.inr hcall)
    · exact absurd hspans.run.last_stuck (Program.Falls.not_stuck
        ⟨Program.endsWindow_eq_false_iff.2 ⟨ins, hins, hterm, hnot⟩, hnext⟩)
    · exact ⟨(w.context, j),
        List.mem_map_of_mem (mem_targetsOf hv hl hstands hins htarget hfirst), rfl, x, hx, rfl⟩

theorem call_follows {f : FunctionId} {d : ContextId} (hop : ins.op = .call f)
    (hdefined : p.isDefinedCall w.last = .ok true)
    (hcall : t.doCall p w.context w.last = .ok (d, t')) (hentry : p.entry f = .ok (some i)) :
    Follows p facts t w [(d, i)] t' := by
  obtain ⟨l, hspans⟩ := hw.spans
  obtain ⟨x₀, hx₀, hroot⟩ := hw.context
  obtain ⟨hgrows, -, -, x, y, hx, hy, hparent, hstack, hpm⟩ :=
    ContextTable.doCall_eq_ok ht.toInterned hcall
  have hsound := ht.doCall hcall fun x hx hp ↦ by
    cases hx₀.symm.trans hx
    rw [hspans.functionOf hv hspans.run.last_mem, hroot hp]
  refine ⟨hgrows, hsound, fun n hn ↦ ?_, fun x' s j hx' hstep ↦ ?_⟩
  · obtain rfl := List.mem_singleton.1 hn
    obtain ⟨b, hfirst⟩ := Program.firstInBlock_of_entry hentry
    refine ⟨⟨Program.heads_of_firstInBlock hv once hfirst,
      ⟨b, 0, Program.standsAt_of_firstInBlock hfirst⟩, y, hy, fun hp ↦ ?_⟩, y, hy, fun s hs ↦ ?_⟩
    · cases hparent.symm.trans hp
    · obtain ⟨x', hx', hknown⟩ := hfacts
      cases hx.symm.trans hx'
      exact hpm s (hknown s hs)
  · cases hx.symm.trans hx'
    obtain ⟨rfl, hentry'⟩ := hstep.of_call hins hop hdefined
    cases hentry.symm.trans hentry'
    exact ⟨(d, j), List.mem_cons_self, rfl, y, hy, hstack⟩

omit hw in
theorem ret_follows {x : Context} {c? : Option ContextId} (hop : ins.op = .ret)
    (hret : t.doReturn p pts w.context w.last = .ok (c?, t')) (hx : t.get w.context = .ok x)
    (hnext : (∃ c call j?, c? = some c ∧ x.callStack.getLast? = some call ∧
        p.nextInBlock call = .ok j? ∧ next = j?.toList.map (c, ·)) ∨
      (c? = none ∨ x.callStack.getLast? = none) ∧ next = []) :
    Follows p facts t w next t' := by
  obtain ⟨hgrows, -, hsound, x', hx', hcases⟩ := ContextTable.doReturn_eq_ok ht.toInterned hret
  have hsound := hsound ht
  cases hx.symm.trans hx'
  obtain ⟨rfl, hp⟩ | ⟨d, y, call, rfl, hp, hy, hstack, hpm⟩ := hcases
  · obtain ⟨_, _, _, hc, -⟩ | ⟨-, rfl⟩ := hnext
    · cases hc
    · refine ⟨hgrows, hsound, fun n hn ↦ absurd hn List.not_mem_nil, fun x' s j hx' hstep ↦ ?_⟩
      cases hx.symm.trans hx'
      obtain ⟨call', hs, -⟩ := hstep.of_ret hins hop
      simp [ht.root _ x hx hp] at hs
  · have hlast : x.callStack.getLast? = some call := by rw [hstack, List.getLast?_concat]
    obtain ⟨_, _, j?, hc, hlast', hj?, rfl⟩ | ⟨hc | hlast', -⟩ := hnext
    · cases hc
      cases hlast.symm.trans hlast'
      refine ⟨hgrows, hsound, fun n hn ↦ ?_, fun x' s j hx' hstep ↦ ?_⟩
      · obtain ⟨j, hj, rfl⟩ := List.mem_map.1 hn
        obtain rfl := Option.mem_toList.1 hj
        obtain ⟨x', hx', hxx'⟩ := hgrows _ x hx
        have hfrom : ContextTable.CallsFrom p y call := hsound.callsFrom hx'
          (hxx'.parent.trans hp) hy (hxx'.callStack.trans hstack)
        obtain ⟨b, k, -, -, hstands⟩ := Program.standsAt_of_nextInBlock hj?
        refine ⟨⟨Program.heads_of_call hv once hfrom.defined hj?, ⟨b, k + 1, hstands⟩, y, hy,
          fun hp ↦ ?_⟩, y, hy, fun s hs ↦ ?_⟩
        · obtain ⟨f, hf, hf'⟩ := Program.functionOf_of_nextInBlock hj? hv
          rw [hf', ← hf, hfrom.function hp]
        · obtain ⟨x', hx', hknown⟩ := hfacts
          cases hx.symm.trans hx'
          exact hpm s (hknown s hs)
      · cases hx.symm.trans hx'
        obtain ⟨call', hs, hj⟩ := hstep.of_ret hins hop
        obtain ⟨rfl, hcalls⟩ := List.append_inj' (hstack.symm.trans hs) rfl
        cases hcalls
        cases hj.symm.trans hj?
        exact ⟨(d, j), List.mem_map_of_mem (Option.mem_toList.2 rfl), rfl, y, hy, rfl⟩
    · cases hc
    · cases hlast.symm.trans hlast'

omit hins in
/-- Every step from the end of a window leads to one of the windows that `successors` names. -/
theorem successors_follows (h : successors p pts t w = .ok (next, t')) :
    Follows p facts t w next t' := by
  obtain ⟨ins, hins, ⟨f, d, i, hop, hdefined, hcall, hentry, rfl⟩ | ⟨x, c?, hop, hx, hret, hnext⟩ |
    ⟨l, hop, hdefined, hl, rfl, rfl⟩⟩ := successors_cases h
  · exact call_follows hv once ht hw hfacts hins hop hdefined hcall hentry
  · exact ret_follows hv once ht hfacts hins hop hret hx hnext
  · exact flow_follows hv once ht hw hfacts hins hop hdefined hl

end

end WindowGraph

end Durability
