import Durability.Proofs.Window.Event

namespace Durability

variable {p : Program} {pts : PointsTo} {env : Surroundings} {t t' : ContextTable}
  {c d : ContextId} {c? d? : Option ContextId} {f : FunctionId} {f? : Option FunctionId}
  {call : InstrId} {x y : Context} {w : Window}

/-- The calls of a chain, outermost first, each of them in the function that the one before it enters.
The chain begins in `f?`, or anywhere. -/
def Program.Chained (p : Program) : Option FunctionId → List InstrId → Prop
  | _, [] => True
  | f?, call :: calls => (∀ f, f? = some f → p.functionOf call = .ok (some f)) ∧
      ∃ f, p.calledFunction call = .ok (some f) ∧ p.Chained (some f) calls

namespace ContextTable

/-- Every call site lies in the function of the context that the call is made from. -/
def Agrees (p : Program) (t : ContextTable) : Prop :=
  ∀ c x d y call, t.get c = .ok x → x.parent = some d → t.get d = .ok y →
    x.callStack.getLast? = some call → p.functionOf call = .ok (some y.function)

theorem Agrees.empty : Agrees p ∅ := fun _ _ _ _ _ h ↦ nomatch h

theorem Agrees.of_grows (h : t'.Agrees p) (hgrows : t.Grows t') : t.Agrees p := by
  intro c x d y call hx hp hy hlast
  obtain ⟨x', hx', hxx'⟩ := hgrows c x hx
  obtain ⟨y', hy', hyy'⟩ := hgrows d y hy
  rw [← hyy'.function]
  exact h c x' d y' call hx' (hxx'.parent.trans hp) hy' (hxx'.callStack ▸ hlast)

theorem Agrees.update {g : PmFacts → PmFacts} (h : t.Agrees p) : Agrees p (t.update c g) := by
  intro e x d y call hx hp hy hlast
  obtain ⟨x', hx', hparent, hstack, -⟩ := exists_of_get_update hx
  obtain ⟨y', hy', -, -, hfunction⟩ := exists_of_get_update hy
  rw [hfunction]
  exact h e x' d y' call hx' (hparent ▸ hp) hy' (hstack ▸ hlast)

theorem Agrees.append (h : t.Agrees p) (ht : t.Interned p) {n : Context} (hn : ∀ d call,
    n.parent = some d → n.callStack.getLast? = some call →
      ∃ y, t.get d = .ok y ∧ p.functionOf call = .ok (some y.function)) :
    Agrees p ⟨t.contexts ++ [n]⟩ := by
  intro c x d y call hx hp hy hlast
  have hold {z : Context} (hz : t.get d = .ok z) : z = y := by
    obtain hy | ⟨rfl, -⟩ := (get_append t).1 hy
    · exact Except.ok.inj (hz.symm.trans hy)
    · exact absurd (lt_of_get hz) (Nat.lt_irrefl _)
  obtain hx | ⟨-, rfl⟩ := (get_append t).1 hx
  · obtain ⟨-, z, -, hz, -⟩ := ht.child c x d hx hp
    obtain rfl := hold hz
    exact h c x d z call hx hp hz hlast
  · obtain ⟨z, hz, hcall⟩ := hn d call hp hlast
    obtain rfl := hold hz
    exact hcall

section Steps

variable (ht : t.Interned p)
include ht

theorem root_agrees_iff (hroot : t.root f = (c, t')) : t'.Agrees p ↔ t.Agrees p := by
  obtain ⟨hgrows, -⟩ := root_eq (p := p) hroot
  refine ⟨fun h ↦ h.of_grows hgrows, fun h ↦ ?_⟩
  obtain ⟨d, x, hd, -⟩ | ⟨hd, -⟩ := root_cases (p := p) t f
  · cases hd.symm.trans hroot
    exact h
  · cases hd.symm.trans hroot
    exact h.append ht nofun

theorem doCall_agrees_iff (hcall : t.doCall p c call = .ok (d, t')) (hx : t.get c = .ok x) :
    t'.Agrees p ↔ t.Agrees p ∧ p.functionOf call = .ok (some x.function) := by
  obtain ⟨hgrows, -, -, x', y, hx', hy, hparent, hstack, -⟩ := doCall_eq_ok ht hcall
  cases hx.symm.trans hx'
  constructor
  · intro h
    refine ⟨h.of_grows hgrows, ?_⟩
    obtain ⟨x', hx', hxx'⟩ := hgrows c x hx
    rw [← hxx'.function]
    exact h d y c x' call hy hparent hx' (by rw [hstack, List.getLast?_concat])
  · intro h
    obtain ⟨-, f, z, -, hz, -, hcases⟩ := doCall_cases hcall
    cases hx.symm.trans hz
    obtain ⟨-, -, -, -, ⟨rfl, -⟩ | rfl⟩ | ⟨-, -, rfl⟩ := hcases
    · exact h.1
    · exact h.1.update
    · refine h.1.append ht fun e call' hp hlast ↦ ?_
      cases hp
      rw [List.getLast?_concat] at hlast
      cases hlast
      exact ⟨x, hx, h.2⟩

theorem doReturn_agrees {ret : InstrId} (h : t.Agrees p)
    (hret : t.doReturn p pts c ret = .ok (c?, t')) : t'.Agrees p := by
  obtain ⟨x, -, ⟨-, -, rfl⟩ | ⟨d, y, call, ins, -, -, -, -, -, rfl⟩⟩ := doReturn_cases ht hret
  · exact h
  · exact h.update

theorem function_of_doCall (hcall : t.doCall p c call = .ok (d, t')) :
    ∃ y, t'.get d = .ok y ∧ p.calledFunction call = .ok (some y.function) := by
  obtain ⟨-, ht', -, x, y, hx, hy, hparent, hstack, -⟩ := doCall_eq_ok ht hcall
  obtain ⟨-, z, call', hz, hstack', -, hcalled⟩ := ht'.child d y c hy hparent
  obtain ⟨x', hx', hxx'⟩ := (doCall_eq_ok ht hcall).1 c x hx
  cases hz.symm.trans hx'
  rw [hstack, hxx'.callStack] at hstack'
  obtain ⟨-, hcalls⟩ := List.append_inj' hstack' rfl
  cases hcalls
  exact ⟨y, hy, hcalled⟩

end Steps

end ContextTable

namespace Window

/-- The calls that the frames of an event stand for, outermost first. A frame that is not known is
passed over. -/
def calls (env : Surroundings) (e : Event) : Attempt RepairError (List InstrId) :=
  (e.callers.filter fun frame ↦ frame.isValid && env.index.contains frame).mapM (callAt env)

/-- The frames of an event that are known stand for calls that lead from one to the next. -/
def Chains (env : Surroundings) (e : Event) : Prop :=
  ∃ l, calls env e = .ok l ∧ env.program.Chained none l

/-- The context that the frames have led to so far is one of the function `f?`. -/
inductive LeadsTo (t : ContextTable) : Option ContextId → Option FunctionId → Prop
  | none : LeadsTo t none none
  | some {c : ContextId} {x : Context} : t.get c = .ok x → LeadsTo t (some c) (some x.function)

theorem callerOf_agrees (ht : t.Interned env.program) (hc? : LeadsTo t c? f?)
    (hcaller : callerOf env c? call t = (.ok c, t')) : t.Grows t' ∧ t'.Interned env.program ∧
      (t'.Agrees env.program ↔ t.Agrees env.program) ∧ ∃ x, t'.get c = .ok x ∧
        (env.program.functionOf call = .ok (some x.function) ↔
          ∀ f, f? = some f → env.program.functionOf call = .ok (some f)) := by
  cases hc? with
  | some hx =>
    cases hcaller
    exact ⟨.refl t, ht, .rfl, _, hx, by simp⟩
  | none =>
    obtain ⟨f?, r, hfun, hcaller⟩ := Stateful.bind_eq_ok_iff.1 hcaller
    obtain ⟨hf, rfl⟩ := Stateful.liftFault_eq_ok_iff.1 hfun
    cases f? with
    | none => cases hcaller
    | some f =>
      have hroot := Stateful.modifyGet_eq_ok_iff.1 hcaller
      obtain ⟨hgrows, hinterned, -, x, hx, -, rfl⟩ := ContextTable.root_eq (p := env.program) hroot
      exact ⟨hgrows, hinterned ht, ContextTable.root_agrees_iff ht hroot, x, hx,
        iff_of_true hf nofun⟩

/-- A frame that is known keeps the contexts right exactly if its call is made from the function that
the frames before it lead to. -/
theorem enterFrame_agrees {frame : Location} (ht : t.Interned env.program) (hc? : LeadsTo t c? f?)
    (henter : enterFrame env c? frame t = (.ok d?, t')) : t.Grows t' ∧ t'.Interned env.program ∧
      ((frame.isValid && env.index.contains frame) = false ∧ d? = c? ∧ t' = t ∨
        (frame.isValid && env.index.contains frame) = true ∧
        ∃ call f, callAt env frame = .ok call ∧ env.program.calledFunction call = .ok (some f) ∧
          LeadsTo t' d? (some f) ∧ (t'.Agrees env.program ↔ t.Agrees env.program ∧
            ∀ f, f? = some f → env.program.functionOf call = .ok (some f))) := by
  rw [enterFrame] at henter
  split at henter
  · next hknown =>
    obtain ⟨call, r, hlift, henter⟩ := Stateful.bind_eq_ok_iff.1 henter
    obtain ⟨hat, rfl⟩ := Stateful.lift_eq_ok_iff.1 hlift
    obtain ⟨c, s, hcaller, henter⟩ := Stateful.bind_eq_ok_iff.1 henter
    obtain ⟨hgrows, hs, hagrees, x, hx, hfrom⟩ := callerOf_agrees ht hc? hcaller
    obtain ⟨d, s', hcall, henter⟩ := Stateful.bind_eq_ok_iff.1 henter
    cases henter
    have hcall := Stateful.attempt_eq_ok_iff.2 hcall
    obtain ⟨hgrows', hs', -⟩ := ContextTable.doCall_eq_ok hs hcall
    obtain ⟨y, hy, hcalled⟩ := ContextTable.function_of_doCall hs hcall
    refine ⟨hgrows.trans hgrows', hs', .inr ⟨hknown, call, y.function, hat, hcalled, .some hy, ?_⟩⟩
    rw [ContextTable.doCall_agrees_iff hs hcall hx, hagrees, hfrom]
  · next hunknown =>
    cases henter
    exact ⟨.refl t, ht, .inl ⟨Bool.eq_false_iff.2 hunknown, rfl, rfl⟩⟩

theorem enterFrames_agrees {frames : List Location} (ht : t.Interned env.program)
    (hc? : LeadsTo t c? f?) (henter : frames.foldlM (enterFrame env) c? t = (.ok d?, t')) :
    ∃ l, (frames.filter fun frame ↦ frame.isValid && env.index.contains frame).mapM (callAt env) =
        .ok l ∧ t'.Interned env.program ∧ (∃ f?, LeadsTo t' d? f?) ∧
      (t'.Agrees env.program ↔ t.Agrees env.program ∧ env.program.Chained f? l) := by
  induction frames generalizing c? f? t with
  | nil =>
    cases henter
    exact ⟨[], rfl, ht, ⟨f?, hc?⟩, (and_iff_left trivial).symm⟩
  | cons frame frames ih =>
    obtain ⟨e?, s, hframe, hrest⟩ := Stateful.bind_eq_ok_iff.1 henter
    obtain ⟨-, hs, ⟨hunknown, rfl, rfl⟩ | ⟨hknown, call, f, hat, hcalled, he?, hagrees⟩⟩ :=
      enterFrame_agrees ht hc? hframe
    · rw [List.filter_cons_of_neg (by rw [hunknown]; exact Bool.false_ne_true)]
      exact ih hs hc? hrest
    · obtain ⟨l, hl, ht', hd?, hchained⟩ := ih hs he? hrest
      rw [List.filter_cons_of_pos (by rw [hknown])]
      refine ⟨call :: l, mapM_cons_eq_ok_iff.2 ⟨call, l, hat, hl, rfl⟩, ht', hd?, ?_⟩
      rw [hchained, hagrees, Program.Chained, and_assoc]
      refine and_congr_right fun _ ↦ and_congr_right fun _ ↦ ⟨fun h ↦ ⟨f, hcalled, h⟩, ?_⟩
      rintro ⟨f', hcalled', h⟩
      cases hcalled.symm.trans hcalled'
      exact h

end Window

end Durability
