import Durability.Proofs.Context.Table
import Durability.Proofs.LocationIndex
import Durability.Proofs.Window

namespace Durability

variable {p : Program} {env : Surroundings} {t t' : ContextTable} {w : Window} {c : ContextId}
  {c? d? : Option ContextId} {f : FunctionId} {call : InstrId}

namespace Window

/-- A window of the program, in a context of the table that executes it. -/
structure Fits (p : Program) (t : ContextTable) (w : Window) : Prop where
  spans : ∃ l, w.Spans p l
  context : ∃ x, t.get w.context = .ok x ∧
    (x.parent = none → p.functionOf w.first = .ok (some x.function))

theorem Fits.mono (h : w.Fits p t) (hgrows : t.Grows t') : w.Fits p t' := by
  obtain ⟨x, hx, hroot⟩ := h.context
  obtain ⟨y, hy, hxy⟩ := hgrows _ x hx
  exact ⟨h.spans, y, hy, fun hp ↦ hxy.function ▸ hroot (hxy.parent ▸ hp)⟩

section Preserves

open Stateful

variable {P : ContextTable → Prop}

theorem ofEvent_preserves (hroot : ∀ t f, P t → P (t.root f).2)
    (hcall : ∀ t c i d t', P t → t.doCall env.program c i = .ok (d, t') → P t') (e : Event) :
    Preserves P (ofEvent env e) := by
  have root (f : FunctionId) : Preserves P (InContexts.root f) := fun t ht ↦ hroot t f ht
  have call (c : ContextId) (i : InstrId) : Preserves P (InContexts.call env.program c i) :=
    .of_atomic (fun t ↦ ContextTable.call_atomic env.program t c i) fun t d t' ↦ hcall t c i d t'
  have callerOf (c? : Option ContextId) (i : InstrId) : Preserves P (callerOf env c? i) := by
    cases c? with
    | some c => exact .pure c
    | none =>
      refine .bind (.liftFault _) fun f? ↦ ?_
      cases f? with
      | some f => exact root f
      | none => exact .throw _
  have enterFrame (c? : Option ContextId) (frame : Location) :
      Preserves P (enterFrame env c? frame) := by
    rw [Window.enterFrame]
    split
    · exact .bind (.lift _) fun i ↦ .bind (callerOf c? i) fun c ↦ .bind (call c i) fun d ↦ .pure _
    · exact .pure c?
  have contextFor (c? : Option ContextId) (f : FunctionId) : Preserves P (contextFor c? f) := by
    cases c? with
    | none => exact root f
    | some c =>
      refine .bind (fun t ht ↦ ht) fun t ↦ .bind (.liftFault _) fun x ↦ ?_
      split
      · exact .pure c
      · exact root f
  refine .bind (.foldlM (fun c? frame _ ↦ enterFrame c? frame) none) fun c? ↦
    .bind (.lift _) fun i ↦ .bind (.liftFault _) fun f? ↦ ?_
  cases f? with
  | none => exact .throw _
  | some f => exact .bind (contextFor c? f) fun c ↦ .liftFault _

theorem ofEvent_interned {e : Event} {r : Attempt RepairError Window} (h : t.Interned env.program)
    (hevent : ofEvent env e t = (r, t')) : t.Grows t' ∧ t'.Interned env.program := by
  have hpreserves : Preserves (fun t' ↦ t.Grows t' ∧ t'.Interned env.program) (ofEvent env e) := by
    refine ofEvent_preserves (fun s f hs ↦ ?_) (fun s c i d s' hs hcall ↦ ?_) e
    · obtain ⟨hgrows, hinterned, -⟩ := ContextTable.root_eq (p := env.program) (t := s) (f := f) rfl
      exact ⟨hs.1.trans hgrows, hinterned hs.2⟩
    · obtain ⟨hgrows, hinterned, -⟩ := ContextTable.doCall_eq_ok hs.2 hcall
      exact ⟨hs.1.trans hgrows, hinterned⟩
  have := hpreserves t ⟨.refl t, h⟩
  rw [hevent] at this
  exact this

end Preserves

theorem contextFor_cases (hcontext : contextFor c? f t = (.ok c, t')) :
    (t' = t ∧ ∃ x, t.get c = .ok x ∧ x.function = f) ∨ InContexts.root f t = (.ok c, t') := by
  cases c? with
  | none => exact .inr hcontext
  | some d =>
    obtain ⟨r, s, hget, hrest⟩ := Stateful.bind_eq_ok_iff.1 hcontext
    obtain ⟨rfl, rfl⟩ := Stateful.get_eq_ok_iff.1 hget
    obtain ⟨x, r', hlift, hchoice⟩ := Stateful.bind_eq_ok_iff.1 hrest
    obtain ⟨hx, rfl⟩ := Stateful.liftFault_eq_ok_iff.1 hlift
    split at hchoice
    · next hf =>
      cases hchoice
      exact .inl ⟨rfl, x, hx, hf⟩
    · exact .inr hchoice

theorem around_of_ofEvent {e : Event} (hevent : ofEvent env e t = (.ok w, t')) :
    around env.program w.context w.anchor = .ok w ∧ ∃ x, t'.get w.context = .ok x := by
  obtain ⟨c?, r, -, hevent⟩ := Stateful.bind_eq_ok_iff.1 hevent
  obtain ⟨i, r', -, hevent⟩ := Stateful.bind_eq_ok_iff.1 hevent
  obtain ⟨f?, r', -, hevent⟩ := Stateful.bind_eq_ok_iff.1 hevent
  cases f? with
  | none => cases hevent
  | some f =>
    obtain ⟨c, r', hcontext, hevent⟩ := Stateful.bind_eq_ok_iff.1 hevent
    obtain ⟨haround, rfl⟩ := Stateful.liftFault_eq_ok_iff.1 hevent
    obtain ⟨rfl, rfl, -⟩ := around_cases haround
    refine ⟨haround, ?_⟩
    obtain ⟨rfl, x, hx, -⟩ | hroot := contextFor_cases hcontext
    · exact ⟨x, hx⟩
    · obtain ⟨-, -, -, x, hx, -⟩ :=
        ContextTable.root_eq (p := env.program) (Stateful.modifyGet_eq_ok_iff.1 hroot)
      exact ⟨x, hx⟩

theorem uniqueFor_of_ofEvent {e : Event} (hevent : ofEvent env e t = (.ok w, t')) :
    env.index.uniqueFor e.anchor env.settings env.program e.kind = .ok w.anchor := by
  obtain ⟨c?, r, -, hevent⟩ := Stateful.bind_eq_ok_iff.1 hevent
  obtain ⟨i, r', hi, hevent⟩ := Stateful.bind_eq_ok_iff.1 hevent
  obtain ⟨hi, -⟩ := Stateful.lift_eq_ok_iff.1 hi
  obtain ⟨f?, r', -, hevent⟩ := Stateful.bind_eq_ok_iff.1 hevent
  cases f? with
  | none => cases hevent
  | some f =>
    obtain ⟨c, r', -, hevent⟩ := Stateful.bind_eq_ok_iff.1 hevent
    obtain ⟨-, hanchor, -⟩ := around_cases (Stateful.liftFault_eq_ok_iff.1 hevent).1
    rw [hanchor, hi]

/-- The context that the frames have led to so far is none or below a call. -/
def Entered (t : ContextTable) (c? : Option ContextId) : Prop :=
  ∀ c, c? = some c → ∃ x, t.get c = .ok x ∧ x.parent ≠ none

theorem root_eq_ok (h : t.Sound p) (hroot : InContexts.root f t = (.ok c, t')) :
    t.Grows t' ∧ t'.Sound p ∧ ∃ x, t'.get c = .ok x ∧ x.parent = none ∧ x.function = f :=
  let ⟨hgrows, _, hsound, hx⟩ := ContextTable.root_eq (p := p) (Stateful.modifyGet_eq_ok_iff.1 hroot)
  ⟨hgrows, hsound h, hx⟩

theorem callerOf_eq_ok (h : t.Sound env.program) (hc? : Entered t c?)
    (hcaller : callerOf env c? call t = (.ok c, t')) :
    t.Grows t' ∧ t'.Sound env.program ∧ ∀ x, t'.get c = .ok x → x.parent = none →
      env.program.functionOf call = .ok (some x.function) := by
  cases c? with
  | some d =>
    cases hcaller
    obtain ⟨x, hx, hp⟩ := hc? c rfl
    refine ⟨.refl t, h, fun y hy hp' ↦ ?_⟩
    cases hx.symm.trans hy
    exact absurd hp' hp
  | none =>
    obtain ⟨f?, r, hfun, hcaller⟩ := Stateful.bind_eq_ok_iff.1 hcaller
    obtain ⟨hf, rfl⟩ := Stateful.liftFault_eq_ok_iff.1 hfun
    cases f? with
    | none => cases hcaller
    | some f =>
      obtain ⟨hgrows, hsound, x, hx, -, rfl⟩ := root_eq_ok h hcaller
      refine ⟨hgrows, hsound, fun y hy _ ↦ ?_⟩
      cases hx.symm.trans hy
      exact hf

theorem enterFrame_eq_ok {frame : Location} (h : t.Sound env.program) (hc? : Entered t c?)
    (henter : enterFrame env c? frame t = (.ok d?, t')) :
    t.Grows t' ∧ t'.Sound env.program ∧ Entered t' d? := by
  rw [enterFrame] at henter
  split at henter
  · obtain ⟨call, r, hcall, henter⟩ := Stateful.bind_eq_ok_iff.1 henter
    obtain ⟨-, rfl⟩ := Stateful.lift_eq_ok_iff.1 hcall
    obtain ⟨c, r, hcaller, henter⟩ := Stateful.bind_eq_ok_iff.1 henter
    obtain ⟨hgrows, hsound, hroot⟩ := callerOf_eq_ok h hc? hcaller
    obtain ⟨d, r', hcall, henter⟩ := Stateful.bind_eq_ok_iff.1 henter
    cases henter
    have hcall := Stateful.attempt_eq_ok_iff.2 hcall
    obtain ⟨hgrows', -, -, x, y, -, hy, hp, -⟩ :=
      ContextTable.doCall_eq_ok hsound.toInterned hcall
    refine ⟨hgrows.trans hgrows', hsound.doCall hcall hroot, fun e he ↦ ?_⟩
    cases he
    exact ⟨y, hy, by simp [hp]⟩
  · cases henter
    exact ⟨.refl t, h, hc?⟩

theorem enterFrames_eq_ok {frames : List Location} (h : t.Sound env.program) (hc? : Entered t c?)
    (henter : frames.foldlM (enterFrame env) c? t = (.ok d?, t')) :
    t.Grows t' ∧ t'.Sound env.program ∧ Entered t' d? := by
  induction frames generalizing c? t with
  | nil =>
    cases henter
    exact ⟨.refl _, h, hc?⟩
  | cons frame frames ih =>
    obtain ⟨e?, r, hframe, hrest⟩ := Stateful.bind_eq_ok_iff.1 henter
    obtain ⟨hgrows, hsound, he?⟩ := enterFrame_eq_ok h hc? hframe
    obtain ⟨hgrows', hsound', hd?⟩ := ih hsound he? hrest
    exact ⟨hgrows.trans hgrows', hsound', hd?⟩

theorem contextFor_eq_ok (h : t.Sound p) (hcontext : contextFor c? f t = (.ok c, t')) :
    t.Grows t' ∧ t'.Sound p ∧ ∃ x, t'.get c = .ok x ∧ (x.parent = none → x.function = f) := by
  obtain ⟨rfl, x, hx, hf⟩ | hroot := contextFor_cases hcontext
  · exact ⟨.refl _, h, x, hx, fun _ ↦ hf⟩
  · obtain ⟨hgrows, hsound, x, hx, -, hf⟩ := root_eq_ok h hroot
    exact ⟨hgrows, hsound, x, hx, fun _ ↦ hf⟩

theorem ofEvent_eq_ok {e : Event} (hv : env.program.Valid) (once : env.program.ListsOnce)
    (hindex : LocationIndex.ofProgram env.program = .ok env.index) (h : t.Sound env.program)
    (hevent : ofEvent env e t = (.ok w, t')) :
    t.Grows t' ∧ t'.Sound env.program ∧ w.Fits env.program t' ∧
      ∃ l, w.Spans env.program l ∧ w.anchor ∈ l := by
  obtain ⟨c?, r, hframes, hevent⟩ := Stateful.bind_eq_ok_iff.1 hevent
  obtain ⟨hgrows, hsound, hc?⟩ := enterFrames_eq_ok h (fun _ hc ↦ absurd hc (by simp)) hframes
  obtain ⟨i, r', hlookup, hevent⟩ := Stateful.bind_eq_ok_iff.1 hevent
  obtain ⟨hi, rfl⟩ := Stateful.lift_eq_ok_iff.1 hlookup
  have hstands := (LocationIndex.holds_of_ofProgram hindex).of_uniqueFor hi
  obtain ⟨f?, r', hfun, hevent⟩ := Stateful.bind_eq_ok_iff.1 hevent
  obtain ⟨hf, rfl⟩ := Stateful.liftFault_eq_ok_iff.1 hfun
  cases f? with
  | none => cases hevent
  | some f =>
    obtain ⟨c, r', hcontext, hevent⟩ := Stateful.bind_eq_ok_iff.1 hevent
    obtain ⟨hgrows', hsound', x, hx, hroot⟩ := contextFor_eq_ok hsound hcontext
    obtain ⟨haround, rfl⟩ := Stateful.liftFault_eq_ok_iff.1 hevent
    obtain ⟨rfl, rfl, l, hspans, hmem⟩ := around_eq_ok hv once haround hstands
    refine ⟨hgrows.trans hgrows', hsound', ⟨⟨l, hspans⟩, x, hx, fun hp ↦ ?_⟩, l, hspans, hmem⟩
    rw [← hspans.functionOf hv hmem, hf, hroot hp]

end Window

end Durability
