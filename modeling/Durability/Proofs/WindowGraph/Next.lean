import Durability.Proofs.WindowGraph.Successors
import Durability.Proofs.Window.Event

namespace Durability

variable {p : Program} {pts : PointsTo} {t t' t'' : ContextTable} {w : Window} {c : ContextId}
  {last : InstrId} {k l : WindowKey}

/-- Where control goes on in the context `c` after `last`, the last instruction of a window. -/
inductive Continues (p : Program) (t : ContextTable) (c : ContextId) (last : InstrId) :
    WindowKey → Prop
  /-- A call of a defined function goes on at its entry, in the context of the callee. -/
  | call {f : FunctionId} {d : ContextId} {x y : Context} {i : InstrId} :
      p.calledFunction last = .ok (some f) → p.isDefinedCall last = .ok true →
        t.get c = .ok x → t.get d = .ok y → y.parent = some c →
        y.callStack = x.callStack ++ [last] → y.function = f → p.entry f = .ok (some i) →
        Continues p t c last (d, i)
  /-- A return goes on after the call, in the context of the caller. -/
  | ret {ins : Instruction} {d : ContextId} {x : Context} {call i : InstrId} :
      p.instr last = .ok ins → ins.op = .ret → t.get c = .ok x → x.parent = some d →
        x.callStack.getLast? = some call → p.nextInBlock call = .ok (some i) →
        Continues p t c last (d, i)
  /-- Everything else goes on at the first instruction of a block that follows. -/
  | flow {ins : Instruction} {b b' : BlockId} {bs : List BlockId} {i : InstrId} :
      p.instr last = .ok ins → ins.op ≠ .ret → p.isDefinedCall last = .ok false →
        p.blockOf last = .ok (some b) → p.successors b = .ok bs → b' ∈ bs →
        p.firstInBlock b' = .ok (some i) → Continues p t c last (c, i)

theorem Continues.standsAt (h : Continues p t c last l) : ∃ b k, p.StandsAt b k l.2 := by
  cases h with
  | call _ _ _ _ _ _ _ hentry =>
    obtain ⟨b, hfirst⟩ := Program.firstInBlock_of_entry hentry
    exact ⟨b, 0, Program.standsAt_of_firstInBlock hfirst⟩
  | ret _ _ _ _ _ hnext =>
    obtain ⟨b, k, -, -, hstands⟩ := Program.standsAt_of_nextInBlock hnext
    exact ⟨b, k + 1, hstands⟩
  | flow _ _ _ _ _ _ hfirst => exact ⟨_, 0, Program.standsAt_of_firstInBlock hfirst⟩

theorem Continues.context (h : Continues p t c last l) (ht : t.Interned p) {x : Context}
    (hc : t.get c = .ok x) : ∃ y, t.get l.1 = .ok y := by
  cases h with
  | call _ _ _ hy => exact ⟨_, hy⟩
  | ret _ _ hx hp =>
    obtain ⟨-, y, -, hy, -⟩ := ht.child _ _ _ hx hp
    exact ⟨y, hy⟩
  | flow => exact ⟨x, hc⟩

/-- The window that begins at `k` may be followed by the one that begins at `l`. -/
def Precedes (p : Program) (t : ContextTable) (k l : WindowKey) : Prop :=
  ∃ last, p.scanForward p.walkBound k.2 = .ok last ∧ Continues p t k.1 last l

theorem precedes_iff (hw : p.scanForward p.walkBound w.first = .ok w.last) :
    Precedes p t w.key l ↔ Continues p t w.context w.last l := by
  constructor
  · intro h
    obtain ⟨last, hlast, h⟩ := h
    cases hw.symm.trans hlast
    exact h
  · exact fun h ↦ ⟨w.last, hw, h⟩

namespace WindowGraph

theorem successors_grows {next : List WindowKey} (ht : t.Interned p)
    (h : successors p pts t w = .ok (next, t')) : t.Grows t' ∧ t'.Interned p := by
  obtain ⟨ins, -, ⟨f, d, i, -, -, hcall, -⟩ | ⟨x, c?, -, -, hret, -⟩ | ⟨l, -, -, -, -, rfl⟩⟩ :=
    successors_cases h
  · obtain ⟨hgrows, hinterned, -⟩ := ContextTable.doCall_eq_ok ht hcall
    exact ⟨hgrows, hinterned⟩
  · obtain ⟨hgrows, hinterned, -⟩ := ContextTable.doReturn_eq_ok ht hret
    exact ⟨hgrows, hinterned⟩
  · exact ⟨.refl t', ht⟩

section Exact

variable {ins : Instruction} (hins : p.instr w.last = .ok ins)

include hins

theorem mem_call_iff {f : FunctionId} {d : ContextId} {i : InstrId} (ht : t.Interned p)
    (hop : ins.op = .call f) (hdefined : p.isDefinedCall w.last = .ok true)
    (hcall : t.doCall p w.context w.last = .ok (d, t')) (hentry : p.entry f = .ok (some i))
    (hgrows : t'.Grows t'') (ht'' : t''.Interned p) :
    k ∈ [(d, i)] ↔ Continues p t'' w.context w.last k := by
  have hcallee : p.calledFunction w.last = .ok (some f) :=
    Program.calledFunction_eq_ok_iff.2 ⟨ins, hins, hop⟩
  obtain ⟨hgrown, -, -, x, y, hx, hy, hparent, hstack, -⟩ := ContextTable.doCall_eq_ok ht hcall
  obtain ⟨x', hx', hxx'⟩ := hgrown.trans hgrows _ x hx
  obtain ⟨y', hy', hyy'⟩ := hgrows d y hy
  have hparent' : y'.parent = some w.context := hyy'.parent.trans hparent
  have hstack' : y'.callStack = x'.callStack ++ [w.last] := by
    rw [hyy'.callStack, hxx'.callStack, hstack]
  rw [List.mem_singleton]
  constructor
  · rintro rfl
    refine .call hcallee hdefined hx' hy' hparent' hstack' ?_ hentry
    obtain ⟨-, z, call, hz, hcalls, -, hfunction⟩ := ht''.child d y' _ hy' hparent'
    cases hx'.symm.trans hz
    obtain ⟨-, hlast⟩ := List.append_inj' (hstack'.symm.trans hcalls) rfl
    cases hlast
    cases hcallee.symm.trans hfunction
    rfl
  · intro h
    cases h with
    | call hcallee' _ hz hu hp hs _ hi =>
      cases hcallee.symm.trans hcallee'
      cases hentry.symm.trans hi
      cases hx'.symm.trans hz
      rw [ht''.childUnique _ _ _ _ _ hu hy' hp hparent' (by rw [hs, hstack'])]
    | ret hins' hret =>
      cases hins.symm.trans hins'
      cases hop.symm.trans hret
    | flow _ _ hnot =>
      cases hdefined.symm.trans hnot

theorem mem_ret_iff {next : List WindowKey} {x : Context} {c? : Option ContextId}
    (ht : t.Interned p) (hop : ins.op = .ret) (hx : t.get w.context = .ok x)
    (hret : t.doReturn p pts w.context w.last = .ok (c?, t'))
    (hnext : (∃ c call j?, c? = some c ∧ x.callStack.getLast? = some call ∧
        p.nextInBlock call = .ok j? ∧ next = j?.toList.map (c, ·)) ∨
      (c? = none ∨ x.callStack.getLast? = none) ∧ next = [])
    (hgrows : t'.Grows t'') : k ∈ next ↔ Continues p t'' w.context w.last k := by
  obtain ⟨hgrown, -, -, x', hx', hcases⟩ := ContextTable.doReturn_eq_ok ht hret
  cases hx.symm.trans hx'
  obtain ⟨x', hx', hxx'⟩ := hgrown.trans hgrows _ x hx
  have hends : Continues p t'' w.context w.last k → ∃ d call i, x.parent = some d ∧
      x.callStack.getLast? = some call ∧ p.nextInBlock call = .ok (some i) ∧ k = (d, i) := by
    intro h
    cases h with
    | call hcallee =>
      obtain ⟨ins', hins', hcall⟩ := Program.calledFunction_eq_ok_iff.1 hcallee
      cases hins.symm.trans hins'
      cases hop.symm.trans hcall
    | ret _ _ hz hp hlast hi =>
      cases hx'.symm.trans hz
      exact ⟨_, _, _, hxx'.parent ▸ hp, hxx'.callStack ▸ hlast, hi, rfl⟩
    | flow hins' hnot =>
      cases hins.symm.trans hins'
      exact absurd hop hnot
  obtain ⟨rfl, hp⟩ | ⟨d, y, call, rfl, hp, -, hstack, -⟩ := hcases
  · obtain ⟨_, _, _, hc, -⟩ | ⟨-, rfl⟩ := hnext
    · cases hc
    · refine iff_of_false List.not_mem_nil fun h ↦ ?_
      obtain ⟨d, _, _, hp', -⟩ := hends h
      cases hp.symm.trans hp'
  · have hlast : x.callStack.getLast? = some call := by rw [hstack, List.getLast?_concat]
    obtain ⟨_, _, j?, hc, hlast', hj?, rfl⟩ | ⟨hc | hlast', -⟩ := hnext
    · cases hc
      cases hlast.symm.trans hlast'
      constructor
      · intro hk
        obtain ⟨j, hj, rfl⟩ := List.mem_map.1 hk
        obtain rfl := Option.mem_toList.1 hj
        exact .ret hins hop hx' (hxx'.parent.trans hp) (hxx'.callStack ▸ hlast) hj?
      · intro h
        obtain ⟨d', call', i, hp', hcall', hi, rfl⟩ := hends h
        cases hp.symm.trans hp'
        cases hlast.symm.trans hcall'
        cases hj?.symm.trans hi
        exact List.mem_map_of_mem (Option.mem_toList.2 rfl)
    · cases hc
    · cases hlast.symm.trans hlast'

theorem mem_flow_iff {l : List InstrId} (hop : ins.op ≠ .ret)
    (hdefined : p.isDefinedCall w.last = .ok false) (hl : targetsOf p w.last = .ok l) :
    k ∈ l.map (w.context, ·) ↔ Continues p t'' w.context w.last k := by
  rw [List.mem_map]
  constructor
  · intro h
    obtain ⟨i, hi, rfl⟩ := h
    obtain ⟨b, bs, b', hb, hbs, hb', hfirst⟩ := (mem_targetsOf_iff hl).1 hi
    exact .flow hins hop hdefined hb hbs hb' hfirst
  · intro h
    cases h with
    | call _ hcall => cases hcall.symm.trans hdefined
    | ret hins' hret =>
      cases hins.symm.trans hins'
      exact absurd hret hop
    | flow _ _ _ hb hbs hb' hfirst =>
      exact ⟨_, (mem_targetsOf_iff hl).2 ⟨_, _, _, hb, hbs, hb', hfirst⟩, rfl⟩

end Exact

theorem mem_successors_iff {next : List WindowKey} (ht : t.Interned p)
    (h : successors p pts t w = .ok (next, t')) (hgrows : t'.Grows t'') (ht'' : t''.Interned p) :
    k ∈ next ↔ Continues p t'' w.context w.last k := by
  obtain ⟨ins, hins, ⟨f, d, i, hop, hdefined, hcall, hentry, rfl⟩ | ⟨x, c?, hop, hx, hret, hnext⟩ |
    ⟨l, hop, hdefined, hl, rfl, rfl⟩⟩ := successors_cases h
  · exact mem_call_iff hins ht hop hdefined hcall hentry hgrows ht''
  · exact mem_ret_iff hins ht hop hx hret hnext hgrows
  · exact mem_flow_iff hins hop hdefined hl

end WindowGraph

end Durability
