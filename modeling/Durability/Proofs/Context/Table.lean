import Durability.Context.Table
import Durability.Proofs.Context.PmFacts
import Durability.Proofs.Program.Valid
import Mathlib.Data.List.Induction

namespace Durability

/-- Both are the same context, of which `y` may know more. -/
structure Context.Grows (x y : Context) : Prop where
  parent : y.parent = x.parent
  callStack : y.callStack = x.callStack
  function : y.function = x.function
  pm : ∀ s, x.pm.Has s → y.pm.Has s

namespace Context.Grows

variable {x y z : Context}

theorem refl (x : Context) : x.Grows x := ⟨rfl, rfl, rfl, fun _ h ↦ h⟩

theorem trans (h : x.Grows y) (h' : y.Grows z) : x.Grows z :=
  ⟨h'.parent.trans h.parent, h'.callStack.trans h.callStack, h'.function.trans h.function,
    fun s hs ↦ h'.pm s (h.pm s hs)⟩

end Context.Grows

namespace ContextTable

variable {p : Program} {t t' t'' : ContextTable} {c c' d : ContextId} {x y : Context}
  {f : FunctionId} {call : InstrId}

theorem get_eq_ok_iff : t.get c = .ok x ↔ t.contexts[c.index]? = some x := Fault.lookup_eq_ok_iff

def Grows (t t' : ContextTable) : Prop :=
  ∀ c x, t.get c = .ok x → ∃ y, t'.get c = .ok y ∧ x.Grows y

theorem Grows.refl (t : ContextTable) : t.Grows t := fun _ x h ↦ ⟨x, h, .refl x⟩

theorem Grows.trans (h : t.Grows t') (h' : t'.Grows t'') : t.Grows t'' := fun c x hx ↦ by
  obtain ⟨y, hy, hxy⟩ := h c x hx
  obtain ⟨z, hz, hyz⟩ := h' c y hy
  exact ⟨z, hz, hxy.trans hyz⟩

/-- A child is one call site deeper than its parent and stands behind it in the table. -/
structure Interned (p : Program) (t : ContextTable) : Prop where
  root : ∀ c x, t.get c = .ok x → x.parent = none → x.callStack = []
  child : ∀ c x d, t.get c = .ok x → x.parent = some d → d.index < c.index ∧
    ∃ y call, t.get d = .ok y ∧ x.callStack = y.callStack ++ [call] ∧
      p.isDefinedCall call = .ok true ∧ p.calledFunction call = .ok (some x.function)
  active : ∀ c x, t.get c = .ok x → (t.activeFrom c.index).Nodup
  rootUnique : ∀ c c' x x', t.get c = .ok x → t.get c' = .ok x' → x.parent = none →
    x'.parent = none → x.function = x'.function → c = c'
  childUnique : ∀ c c' x x' d, t.get c = .ok x → t.get c' = .ok x' → x.parent = some d →
    x'.parent = some d → x.callStack.getLast? = x'.callStack.getLast? → c = c'

/-- Outermost contexts make calls from their own functions. Other contexts need not, since the frames
of an event may leave out callers. -/
structure Sound (p : Program) (t : ContextTable) : Prop extends Interned p t where
  outermost : ∀ c x d y call, t.get c = .ok x → x.parent = some d → t.get d = .ok y →
    x.callStack = y.callStack ++ [call] → y.parent = none →
      p.functionOf call = .ok (some y.function)

structure CallsFrom (p : Program) (x : Context) (call : InstrId) : Prop where
  defined : p.isDefinedCall call = .ok true
  function : x.parent = none → p.functionOf call = .ok (some x.function)

theorem Interned.empty : Interned p ∅ where
  root _ _ h := nomatch h
  child _ _ _ h := nomatch h
  active _ _ h := nomatch h
  rootUnique _ _ _ _ h := nomatch h
  childUnique _ _ _ _ _ h := nomatch h

theorem Sound.empty : Sound p ∅ := ⟨.empty, fun _ _ _ _ _ h ↦ nomatch h⟩

namespace Interned

variable (h : t.Interned p)
include h

theorem parent_eq_none (hc : t.get c = .ok x) (hx : x.callStack = []) : x.parent = none := by
  cases hp : x.parent with
  | none => rfl
  | some d =>
    obtain ⟨-, y, call, -, hstack, -⟩ := h.child c x d hc hp
    simp [hx] at hstack

theorem parent_eq_some (hc : t.get c = .ok x) {s : List InstrId} (hx : x.callStack = s ++ [call]) :
    ∃ d y, x.parent = some d ∧ t.get d = .ok y ∧ y.callStack = s ∧
      p.isDefinedCall call = .ok true := by
  cases hp : x.parent with
  | none => simp [h.root c x hc hp] at hx
  | some d =>
    obtain ⟨-, y, call', hd, hstack, hdefined, -⟩ := h.child c x d hc hp
    obtain ⟨hs, hcalls⟩ := List.append_inj' (hx.symm.trans hstack) rfl
    cases hcalls
    exact ⟨d, y, rfl, hd, hs.symm, hdefined⟩

theorem defined_of_mem (hc : t.get c = .ok x) (hcall : call ∈ x.callStack) :
    p.isDefinedCall call = .ok true := by
  generalize hs : x.callStack = s at hcall
  induction s using List.reverseRecOn generalizing c x with
  | nil => cases hcall
  | append_singleton s call' ih =>
    obtain ⟨d, y, -, hd, hy, hdefined⟩ := h.parent_eq_some hc hs
    obtain hcall | hcall := List.mem_append.1 hcall
    · exact ih hd hy hcall
    · rw [List.mem_singleton.1 hcall]
      exact hdefined

omit h in
theorem activeFrom_root (hc : t.get c = .ok x) (hp : x.parent = none) :
    t.activeFrom c.index = [x.function] := by
  rw [activeFrom, get_eq_ok_iff.1 hc]
  simp only [hp]

theorem activeFrom_child (hc : t.get c = .ok x) (hp : x.parent = some d) :
    t.activeFrom c.index = x.function :: t.activeFrom d.index := by
  obtain ⟨hlt, -⟩ := h.child c x d hc hp
  rw [activeFrom, get_eq_ok_iff.1 hc]
  simp only [hp, if_pos hlt]

end Interned

theorem Sound.callsFrom (h : t.Sound p) (hc : t.get c = .ok x) (hp : x.parent = some d)
    (hd : t.get d = .ok y) (hstack : x.callStack = y.callStack ++ [call]) : CallsFrom p y call := by
  obtain ⟨d', y', hp', hd', -, hdefined⟩ := h.parent_eq_some hc hstack
  cases hp.symm.trans hp'
  cases hd.symm.trans hd'
  exact ⟨hdefined, h.outermost c x d y call hc hp hd hstack⟩

theorem Sound.eq_of_callStack (h : t.Sound p) {s : List InstrId} {x' : Context}
    (hc : t.get c = .ok x) (hc' : t.get c' = .ok x') (hx : x.callStack = s) (hx' : x'.callStack = s)
    (hroot : s = [] → x.function = x'.function) : c = c' := by
  induction s using List.reverseRecOn generalizing c c' x x' with
  | nil =>
    exact h.rootUnique c c' x x' hc hc' (h.parent_eq_none hc hx) (h.parent_eq_none hc' hx')
      (hroot rfl)
  | append_singleton s call ih =>
    obtain ⟨d, y, hp, hd, hy, -⟩ := h.parent_eq_some hc hx
    obtain ⟨d', y', hp', hd', hy', -⟩ := h.parent_eq_some hc' hx'
    have hdd' : d = d' := ih hd hd' hy hy' fun hs ↦ by
      subst hs
      have hf := h.outermost c x d y call hc hp hd (hx.trans (hy ▸ rfl)) (h.parent_eq_none hd hy)
      have hf' := h.outermost c' x' d' y' call hc' hp' hd' (hx'.trans (hy' ▸ rfl))
        (h.parent_eq_none hd' hy')
      exact Option.some.inj (Except.ok.inj (hf.symm.trans hf'))
    subst hdd'
    exact h.childUnique c c' x x' d hc hc' hp hp' (by rw [hx, hx'])

section Intern

variable {same : Context → Bool}

theorem get_append {n : Context} (t : ContextTable) :
    (ContextTable.mk (t.contexts ++ [n])).get c = .ok x ↔
      t.get c = .ok x ∨ c = ⟨t.contexts.length⟩ ∧ n = x := by
  rw [get_eq_ok_iff, get_eq_ok_iff, List.getElem?_append]
  split
  · next hlt =>
    refine ⟨.inl, fun h ↦ h.elim id ?_⟩
    rintro ⟨rfl, -⟩
    exact absurd hlt (Nat.lt_irrefl _)
  · next hge =>
    rw [List.getElem?_eq_none (Nat.not_lt.1 hge), List.getElem?_singleton]
    obtain ⟨k⟩ := c
    simp only [ContextId.mk.injEq]
    grind

theorem grows_append (t : ContextTable) (n : Context) : t.Grows ⟨t.contexts ++ [n]⟩ :=
  fun _ x h ↦ ⟨x, (get_append t).2 (.inl h), .refl x⟩

theorem intern_cases (t : ContextTable) (same : Context → Bool) (n : Context) :
    (∃ c x, t.intern same n = ((c, false), t) ∧ t.get c = .ok x ∧ same x = true) ∨
      t.intern same n = ((⟨t.contexts.length⟩, true), ⟨t.contexts ++ [n]⟩) ∧
        ∀ c x, t.get c = .ok x → same x = false := by
  rw [intern]
  cases hk : t.contexts.findIdx? same with
  | none =>
    refine .inr ⟨rfl, fun c x hx ↦ ?_⟩
    exact List.findIdx?_eq_none_iff.1 hk x (List.mem_of_getElem? (get_eq_ok_iff.1 hx))
  | some k =>
    obtain ⟨hlt, hsame, -⟩ := List.findIdx?_eq_some_iff_getElem.1 hk
    exact .inl ⟨⟨k⟩, _, rfl, get_eq_ok_iff.2 (List.getElem?_eq_getElem hlt), hsame⟩

theorem activeFrom_append {n : Context} {k : Nat} (hk : k < t.contexts.length) :
    (ContextTable.mk (t.contexts ++ [n])).activeFrom k = t.activeFrom k := by
  induction k using Nat.strongRecOn with
  | ind k ih =>
    rw [activeFrom, activeFrom, List.getElem?_append_left hk]
    cases t.contexts[k]? with
    | none => rfl
    | some x =>
      cases hp : x.parent with
      | none => simp only [hp]
      | some d =>
        simp only [hp]
        split
        · next hd => rw [ih d.index hd (Nat.lt_trans hd hk)]
        · rfl

theorem lt_of_get (h : t.get c = .ok x) : c.index < t.contexts.length :=
  (List.getElem?_eq_some_iff.1 (get_eq_ok_iff.1 h)).1

structure Fresh (p : Program) (t : ContextTable) (n : Context) : Prop where
  root : n.parent = none → n.callStack = [] ∧
    ∀ c x, t.get c = .ok x → x.parent = none → x.function ≠ n.function
  child : ∀ d, n.parent = some d → ∃ y call, t.get d = .ok y ∧ n.callStack = y.callStack ++ [call] ∧
    p.isDefinedCall call = .ok true ∧ p.calledFunction call = .ok (some n.function) ∧
    n.function ∉ t.activeFrom d.index ∧
    ∀ c x, t.get c = .ok x → x.parent = some d → x.callStack.getLast? ≠ some call

theorem Interned.append (h : t.Interned p) {n : Context} (hn : t.Fresh p n) :
    Interned p ⟨t.contexts ++ [n]⟩ where
  root c x hx hp := by
    obtain hx | ⟨-, rfl⟩ := (get_append t).1 hx
    · exact h.root c x hx hp
    · exact (hn.root hp).1
  child c x d hx hp := by
    obtain hx | ⟨rfl, rfl⟩ := (get_append t).1 hx
    · obtain ⟨hlt, y, call, hy, hrest⟩ := h.child c x d hx hp
      exact ⟨hlt, y, call, (get_append t).2 (.inl hy), hrest⟩
    · obtain ⟨y, call, hy, hstack, hdefined, hcallee, -⟩ := hn.child d hp
      exact ⟨lt_of_get hy, y, call, (get_append t).2 (.inl hy), hstack, hdefined, hcallee⟩
  active c x hx := by
    obtain hx | ⟨rfl, rfl⟩ := (get_append t).1 hx
    · rw [activeFrom_append (lt_of_get hx)]
      exact h.active c x hx
    · rw [activeFrom, List.getElem?_concat_length]
      cases hp : n.parent with
      | none =>
        simp only [hp]
        exact List.pairwise_singleton _ _
      | some d =>
        obtain ⟨y, call, hy, -, -, -, hnot, -⟩ := hn.child d hp
        simp only [hp, if_pos (lt_of_get hy), activeFrom_append (lt_of_get hy)]
        exact List.nodup_cons.2 ⟨hnot, h.active d y hy⟩
  rootUnique c c' x x' hx hx' hp hp' hf := by
    obtain hx | ⟨rfl, rfl⟩ := (get_append t).1 hx <;>
      obtain hx' | ⟨rfl, rfl⟩ := (get_append t).1 hx'
    · exact h.rootUnique c c' x x' hx hx' hp hp' hf
    · exact absurd hf ((hn.root hp').2 c x hx hp)
    · exact absurd hf.symm ((hn.root hp).2 c' x' hx' hp')
    · rfl
  childUnique c c' x x' d hx hx' hp hp' hl := by
    obtain hx | ⟨rfl, rfl⟩ := (get_append t).1 hx <;>
      obtain hx' | ⟨rfl, rfl⟩ := (get_append t).1 hx'
    · exact h.childUnique c c' x x' d hx hx' hp hp' hl
    · obtain ⟨y, call, -, hstack, -, -, -, hnew⟩ := hn.child d hp'
      exact absurd (hl.trans (by simp [hstack])) (hnew c x hx hp)
    · obtain ⟨y, call, -, hstack, -, -, -, hnew⟩ := hn.child d hp
      exact absurd (hl.symm.trans (by simp [hstack])) (hnew c' x' hx' hp')
    · rfl

theorem Sound.append (h : t.Sound p) {n : Context} (hn : t.Fresh p n)
    (hcalls : ∀ d y call, n.parent = some d → t.get d = .ok y → n.callStack = y.callStack ++ [call] →
      y.parent = none → p.functionOf call = .ok (some y.function)) :
    Sound p ⟨t.contexts ++ [n]⟩ := by
  refine ⟨h.toInterned.append hn, fun c x d y call hx hp hy hstack hroot ↦ ?_⟩
  have hold {e : ContextId} {z z' : Context} (hz : t.get e = .ok z')
      (hget : (ContextTable.mk (t.contexts ++ [n])).get e = .ok z) : t.get e = .ok z := by
    obtain hget | ⟨rfl, -⟩ := (get_append t).1 hget
    · exact hget
    · exact absurd (lt_of_get hz) (Nat.lt_irrefl _)
  obtain hx | ⟨-, rfl⟩ := (get_append t).1 hx
  · obtain ⟨-, y', -, hy', -⟩ := h.child c x d hx hp
    exact h.outermost c x d y call hx hp (hold hy' hy) hstack hroot
  · obtain ⟨y', -, hy', -⟩ := hn.child d hp
    exact hcalls d y call hp (hold hy' hy) hstack hroot

end Intern

section Update

variable {g : PmFacts → PmFacts}

theorem get_update : (t.update c g).get d = .ok y ↔
    ∃ x, t.get d = .ok x ∧ y = if c = d then { x with pm := g x.pm } else x := by
  rw [get_eq_ok_iff, update, List.getElem?_modify]
  simp only [get_eq_ok_iff]
  obtain ⟨k⟩ := c
  obtain ⟨m⟩ := d
  simp only [ContextId.mk.injEq]
  cases t.contexts[m]? with
  | none => simp
  | some x => simp [eq_comm]

theorem grows_update (hg : ∀ pm s, pm.Has s → (g pm).Has s) : t.Grows (t.update c g) := by
  intro d x hx
  refine ⟨_, get_update.2 ⟨x, hx, rfl⟩, ?_⟩
  split
  · exact ⟨rfl, rfl, rfl, hg x.pm⟩
  · exact .refl x

theorem exists_of_get_update (hy : (t.update c g).get d = .ok y) : ∃ x, t.get d = .ok x ∧
    y.parent = x.parent ∧ y.callStack = x.callStack ∧ y.function = x.function := by
  obtain ⟨x, hx, rfl⟩ := get_update.1 hy
  refine ⟨x, hx, ?_⟩
  split <;> exact ⟨rfl, rfl, rfl⟩

theorem get_update_of_get (hx : t.get d = .ok x) : ∃ y, (t.update c g).get d = .ok y ∧
    y.parent = x.parent ∧ y.callStack = x.callStack ∧ y.function = x.function := by
  refine ⟨_, get_update.2 ⟨x, hx, rfl⟩, ?_⟩
  split <;> exact ⟨rfl, rfl, rfl⟩

theorem activeFrom_update {k : Nat} : (t.update c g).activeFrom k = t.activeFrom k := by
  induction k using Nat.strongRecOn with
  | ind k ih =>
    rw [activeFrom, activeFrom]
    cases hk : t.contexts[k]? with
    | none =>
      have hk' : (t.update c g).contexts[k]? = none := by simp [update, List.getElem?_modify, hk]
      rw [hk']
    | some x =>
      obtain ⟨y, hy, hparent, -, hfunction⟩ :=
        get_update_of_get (c := c) (g := g) (get_eq_ok_iff (c := ⟨k⟩).2 hk)
      have hk' : (t.update c g).contexts[k]? = some y := get_eq_ok_iff.1 hy
      rw [hk']
      simp only [hparent, hfunction]
      cases x.parent with
      | none => rfl
      | some d =>
        simp only
        split
        · next hd => rw [ih d.index hd]
        · rfl

theorem Interned.update (h : t.Interned p) : Interned p (t.update c g) where
  root d x hx hp := by
    obtain ⟨y, hy, hparent, hstack, -⟩ := exists_of_get_update hx
    exact hstack.trans (h.root d y hy (hparent ▸ hp))
  child d x e hx hp := by
    obtain ⟨y, hy, hparent, hstack, hfunction⟩ := exists_of_get_update hx
    obtain ⟨hlt, z, call, hz, hcall, hdefined, hcallee⟩ := h.child d y e hy (hparent ▸ hp)
    obtain ⟨z', hz', -, hstack', -⟩ := get_update_of_get (c := c) (g := g) hz
    exact ⟨hlt, z', call, hz', by rw [hstack, hcall, hstack'], hdefined, hfunction ▸ hcallee⟩
  active d x hx := by
    obtain ⟨y, hy, -⟩ := exists_of_get_update hx
    rw [activeFrom_update]
    exact h.active d y hy
  rootUnique d d' x x' hx hx' hp hp' hf := by
    obtain ⟨y, hy, hparent, -, hfun⟩ := exists_of_get_update hx
    obtain ⟨y', hy', hparent', -, hfun'⟩ := exists_of_get_update hx'
    exact h.rootUnique d d' y y' hy hy' (hparent ▸ hp) (hparent' ▸ hp')
      (hfun.symm.trans (hf.trans hfun'))
  childUnique d d' x x' e hx hx' hp hp' hl := by
    obtain ⟨y, hy, hparent, hstack, -⟩ := exists_of_get_update hx
    obtain ⟨y', hy', hparent', hstack', -⟩ := exists_of_get_update hx'
    exact h.childUnique d d' y y' e hy hy' (hparent ▸ hp) (hparent' ▸ hp') (hstack ▸ hstack' ▸ hl)

theorem Sound.update (h : t.Sound p) : Sound p (t.update c g) := by
  refine ⟨h.toInterned.update, fun d x e y call hx hp hy hstack hroot ↦ ?_⟩
  obtain ⟨x', hx', hparent, hxstack, -⟩ := exists_of_get_update hx
  obtain ⟨y', hy', hparent', hystack, hfunction⟩ := exists_of_get_update hy
  rw [hfunction]
  exact h.outermost d x' e y' call hx' (hparent ▸ hp) hy' (by rw [← hxstack, hstack, hystack])
    (hparent' ▸ hroot)

end Update

theorem callee_eq_ok (h : callee p call = .ok f) :
    p.isDefinedCall call = .ok true ∧ p.calledFunction call = .ok (some f) := by
  obtain ⟨ins, hi, h⟩ := bind_eq_ok_iff.1 h
  have hi := Attempt.lift_eq_ok_iff.1 hi
  split at h
  · next g hop =>
    obtain ⟨F, hF, h⟩ := bind_eq_ok_iff.1 h
    split at h
    · next hdefined =>
      cases pure_eq_ok_iff.1 h
      have hcalled : p.calledFunction call = .ok (some f) :=
        bind_eq_ok_iff.2 ⟨ins, hi, by rw [hop]; rfl⟩
      refine ⟨bind_eq_ok_iff.2 ⟨_, hcalled, bind_eq_ok_iff.2
        ⟨F, Attempt.lift_eq_ok_iff.1 hF, ?_⟩⟩, hcalled⟩
      rw [hdefined]
      rfl
    · obtain ⟨_, -, h⟩ := bind_eq_ok_iff.1 h
      cases h
  · obtain ⟨_, -, h⟩ := bind_eq_ok_iff.1 h
    cases h

theorem root_cases (t : ContextTable) (f : FunctionId) :
    (∃ c x, t.root f = (c, t) ∧ t.get c = .ok x ∧ x.parent = none ∧ x.function = f) ∨
      t.root f = (⟨t.contexts.length⟩, ⟨t.contexts ++ [⟨none, [], f, ∅⟩]⟩) ∧
        t.Fresh p ⟨none, [], f, ∅⟩ := by
  rw [root]
  obtain ⟨d, x, hd, hx, hsame⟩ | ⟨hd, hnew⟩ :=
    intern_cases t (fun x ↦ x.parent = none ∧ x.function = f) ⟨none, [], f, ∅⟩
  · obtain ⟨hp, hf⟩ := of_decide_eq_true hsame
    exact .inl ⟨d, x, by rw [hd], hx, hp, hf⟩
  · refine .inr ⟨by rw [hd], fun _ ↦ ⟨rfl, fun c x hx hp hf ↦ ?_⟩, nofun⟩
    exact of_decide_eq_false (hnew c x hx) ⟨hp, hf⟩

theorem root_eq (hroot : t.root f = (c, t')) : t.Grows t' ∧ (t.Interned p → t'.Interned p) ∧
    (t.Sound p → t'.Sound p) ∧ ∃ x, t'.get c = .ok x ∧ x.parent = none ∧ x.function = f := by
  obtain ⟨d, x, hd, hx, hp, hf⟩ | ⟨hd, hfresh⟩ := root_cases (p := p) t f
  · cases hd.symm.trans hroot
    exact ⟨.refl t, id, id, x, hx, hp, hf⟩
  · cases hd.symm.trans hroot
    exact ⟨grows_append t _, fun h ↦ h.append hfresh, fun h ↦ h.append hfresh nofun, _,
      (get_append t).2 (.inr ⟨rfl, rfl⟩), rfl, rfl⟩

theorem enter_apply {new : Bool} (hx : t.get c = .ok x) (hd : t.intern
      (fun x ↦ x.parent = some c ∧ x.callStack.getLast? = some call)
      ⟨some c, x.callStack ++ [call], f, x.pm⟩ = ((d, new), t'))
    (hc : t'.get c = .ok x) (hy : t'.get d = .ok y) : InContexts.enter c call f t =
      (.ok d, if new || x.pm.isSubset y.pm then t' else t'.update d (·.join x.pm)) := by
  simp only [InContexts.enter, Stateful.get_bind_apply, hx, Stateful.liftFault_ok_bind,
    Stateful.modifyGet_bind_apply, hd, hc, hy]
  cases new || x.pm.isSubset y.pm <;> rfl

theorem enter_cases (hx : t.get c = .ok x) (call : InstrId) (f : FunctionId) :
    ∃ d t', InContexts.enter c call f t = (.ok d, t') ∧
      ((∃ y, t.get d = .ok y ∧ y.parent = some c ∧ y.callStack.getLast? = some call ∧
          (t' = t ∧ x.pm.isSubset y.pm = true ∨ t' = t.update d (·.join x.pm))) ∨
        (∀ e y, t.get e = .ok y → y.parent = some c → y.callStack.getLast? ≠ some call) ∧
          d = ⟨t.contexts.length⟩ ∧
          t' = ⟨t.contexts ++ [⟨some c, x.callStack ++ [call], f, x.pm⟩]⟩) := by
  obtain ⟨d, y, hd, hy, hsame⟩ | ⟨hd, hnew⟩ := intern_cases t
    (fun x ↦ x.parent = some c ∧ x.callStack.getLast? = some call)
    ⟨some c, x.callStack ++ [call], f, x.pm⟩
  · obtain ⟨hparent, hlast⟩ := of_decide_eq_true hsame
    refine ⟨d, _, enter_apply hx hd hx hy, .inl ⟨y, hy, hparent, hlast, ?_⟩⟩
    cases hsub : x.pm.isSubset y.pm with
    | true => exact .inl ⟨rfl, rfl⟩
    | false => exact .inr rfl
  · refine ⟨_, _, enter_apply hx hd ((get_append t).2 (.inl hx)) ((get_append t).2 (.inr ⟨rfl, rfl⟩)),
      .inr ⟨fun e y hy hp hl ↦ ?_, rfl, rfl⟩⟩
    exact of_decide_eq_false (hnew e y hy) ⟨hp, hl⟩

theorem callable_eq_ok (h : t.callable p c call = .ok f) : p.isDefinedCall call = .ok true ∧
    p.calledFunction call = .ok (some f) ∧ ∃ x, t.get c = .ok x ∧ f ∉ t.activeFrom c.index := by
  obtain ⟨g, hg, h⟩ := bind_eq_ok_iff.1 h
  obtain ⟨active, hactive, h⟩ := bind_eq_ok_iff.1 h
  obtain ⟨x, hx, hactive⟩ := bind_eq_ok_iff.1 (Attempt.lift_eq_ok_iff.1 hactive)
  obtain rfl := pure_eq_ok_iff.1 hactive
  split at h
  · obtain ⟨_, -, h⟩ := bind_eq_ok_iff.1 h
    cases h
  · next hnot =>
    cases pure_eq_ok_iff.1 h
    obtain ⟨hdefined, hcallee⟩ := callee_eq_ok hg
    exact ⟨hdefined, hcallee, x, hx, by simpa using hnot⟩

theorem doCall_attempt (p : Program) (t : ContextTable) (c : ContextId) (call : InstrId) :
    t.doCall p c call = (do
      let f ← t.callable p c call
      (InContexts.enter c call f).attempt t) := by
  simp only [doCall, InContexts.call, Stateful.attempt_get_bind, Stateful.attempt_lift_bind]

theorem call_atomic (p : Program) (t : ContextTable) (c : ContextId) (i : InstrId) :
    (InContexts.call p c i).Atomic t := by
  refine .get_bind (.lift_bind fun f hf ↦ ?_)
  obtain ⟨-, -, x, hx, -⟩ := callable_eq_ok hf
  obtain ⟨d, t', henter, -⟩ := enter_cases hx i f
  exact .of_ok henter

/-- What entering a call can do: the callee's context is there already and learns what the caller
knows, or it is new. -/
theorem doCall_cases (hcall : t.doCall p c call = .ok (d, t')) :
    p.isDefinedCall call = .ok true ∧ ∃ f x, p.calledFunction call = .ok (some f) ∧
      t.get c = .ok x ∧ f ∉ t.activeFrom c.index ∧
      ((∃ y, t.get d = .ok y ∧ y.parent = some c ∧ y.callStack.getLast? = some call ∧
          (t' = t ∧ x.pm.isSubset y.pm = true ∨ t' = t.update d (·.join x.pm))) ∨
        (∀ e y, t.get e = .ok y → y.parent = some c → y.callStack.getLast? ≠ some call) ∧
          d = ⟨t.contexts.length⟩ ∧
          t' = ⟨t.contexts ++ [⟨some c, x.callStack ++ [call], f, x.pm⟩]⟩) := by
  rw [doCall_attempt] at hcall
  obtain ⟨f, hf, hcall⟩ := bind_eq_ok_iff.1 hcall
  obtain ⟨hdefined, hcallee, x, hx, hnot⟩ := callable_eq_ok hf
  obtain ⟨e, r, henter, hcases⟩ := enter_cases hx call f
  cases henter.symm.trans (Stateful.attempt_eq_ok_iff.1 hcall)
  exact ⟨hdefined, f, x, hcallee, hx, hnot, hcases⟩

theorem doCall_eq_ok (h : t.Interned p) (hcall : t.doCall p c call = .ok (d, t')) :
    t.Grows t' ∧ t'.Interned p ∧ p.isDefinedCall call = .ok true ∧
      ∃ x y, t.get c = .ok x ∧ t'.get d = .ok y ∧ y.parent = some c ∧
        y.callStack = x.callStack ++ [call] ∧ ∀ s, x.pm.Has s → y.pm.Has s := by
  obtain ⟨hdefined, f, x, hcallee, hx, hnot, hcases⟩ := doCall_cases hcall
  obtain ⟨y, hy, hparent, hlast, ht'⟩ | ⟨hnew, rfl, rfl⟩ := hcases
  · have hstack : y.callStack = x.callStack ++ [call] := by
      obtain ⟨-, x', call', hx', hstack, -⟩ := h.child d y c hy hparent
      cases hx.symm.trans hx'
      rw [hstack, List.getLast?_concat] at hlast
      rw [hstack, Option.some.inj hlast]
    obtain ⟨rfl, hsub⟩ | rfl := ht'
    · exact ⟨.refl t', h, hdefined, x, y, hx, hy, hparent, hstack,
        fun s ↦ PmFacts.has_of_isSubset hsub⟩
    · refine ⟨grows_update fun pm s hs ↦ PmFacts.has_join.2 (.inr hs), h.update, hdefined, x, _, hx,
        get_update.2 ⟨y, hy, rfl⟩, ?_⟩
      rw [if_pos rfl]
      exact ⟨hparent, hstack, fun s hs ↦ PmFacts.has_join.2 (.inl hs)⟩
  · refine ⟨grows_append t _, h.append ⟨nofun, fun d' hd' ↦ ?_⟩, hdefined, x, _, hx,
      (get_append t).2 (.inr ⟨rfl, rfl⟩), rfl, rfl, fun _ hs ↦ hs⟩
    cases hd'
    exact ⟨x, call, hx, rfl, hdefined, hcallee, hnot, hnew⟩

theorem Sound.doCall (h : t.Sound p) (hcall : t.doCall p c call = .ok (d, t'))
    (hroot : ∀ x, t.get c = .ok x → x.parent = none → p.functionOf call = .ok (some x.function)) :
    t'.Sound p := by
  obtain ⟨hdefined, f, x, hcallee, hx, hnot, hcases⟩ := doCall_cases hcall
  obtain ⟨y, hy, hparent, hlast, ⟨rfl, -⟩ | rfl⟩ | ⟨hnew, rfl, rfl⟩ := hcases
  · exact h
  · exact h.update
  · refine h.append ⟨nofun, fun d' hd' ↦ ?_⟩ fun d' y call' hd' hy hstack hp ↦ ?_
    · cases hd'
      exact ⟨x, call, hx, rfl, hdefined, hcallee, hnot, hnew⟩
    · cases hd'
      cases hx.symm.trans hy
      obtain ⟨-, hcalls⟩ := List.append_inj' hstack rfl
      cases hcalls
      exact hroot x hx hp

/-- What a return can do: the caller learns what the callee knows, and the result of the call if
persistent storage is returned; an outermost context has no caller. -/
theorem doReturn_cases {pts : PointsTo} {ret : InstrId} {c? : Option ContextId} (h : t.Interned p)
    (hret : t.doReturn p pts c ret = .ok (c?, t')) :
    ∃ x, t.get c = .ok x ∧ (c? = none ∧ x.parent = none ∧ t' = t ∨
      ∃ d y call ins, c? = some d ∧ x.parent = some d ∧ t.get d = .ok y ∧
        x.callStack = y.callStack ++ [call] ∧ p.instr ret = .ok ins ∧
        t' = t.update d fun pm ↦ (if ins.inputs.head?.any (x.pm.reaches pts) then
          pm.learn pts (.instr call) else pm).join x.pm) := by
  obtain ⟨x, hx, hret⟩ := bind_eq_ok_iff.1 hret
  split at hret
  · next d call hparent hlast =>
    obtain ⟨ins, hins, hret⟩ := bind_eq_ok_iff.1 hret
    obtain ⟨_, -, hret⟩ := bind_eq_ok_iff.1 hret
    cases pure_eq_ok_iff.1 hret
    obtain ⟨-, y, call', hy, hstack, -⟩ := h.child c x d hx hparent
    rw [hstack, List.getLast?_concat] at hlast
    cases hlast
    exact ⟨x, hx, .inr ⟨d, y, call, ins, rfl, hparent, hy, hstack, hins, rfl⟩⟩
  · next hne =>
    cases pure_eq_ok_iff.1 hret
    refine ⟨x, hx, .inl ⟨rfl, ?_, rfl⟩⟩
    cases hp : x.parent with
    | none => rfl
    | some d =>
      obtain ⟨-, y, call, -, hstack, -⟩ := h.child c x d hx hp
      exact (hne d call hp (by rw [hstack, List.getLast?_concat])).elim

theorem doReturn_eq_ok {pts : PointsTo} {ret : InstrId} {c? : Option ContextId} (h : t.Interned p)
    (hret : t.doReturn p pts c ret = .ok (c?, t')) :
    t.Grows t' ∧ t'.Interned p ∧ (t.Sound p → t'.Sound p) ∧ ∃ x, t.get c = .ok x ∧
      (c? = none ∧ x.parent = none ∨ ∃ d y call, c? = some d ∧ x.parent = some d ∧
        t'.get d = .ok y ∧ x.callStack = y.callStack ++ [call] ∧ ∀ s, x.pm.Has s → y.pm.Has s) := by
  obtain ⟨x, hx, ⟨rfl, hp, rfl⟩ | ⟨d, y, call, ins, rfl, hp, hy, hstack, hins, rfl⟩⟩ :=
    doReturn_cases h hret
  · exact ⟨.refl t', h, id, x, hx, .inl ⟨rfl, hp⟩⟩
  · refine ⟨grows_update fun pm s hs ↦ PmFacts.has_join.2 (.inr ?_), h.update, fun h ↦ h.update, x, hx,
      .inr ⟨d, _, call, rfl, hp, get_update.2 ⟨y, hy, rfl⟩, ?_⟩⟩
    · split
      · exact PmFacts.has_learn.2 (.inr hs)
      · exact hs
    · rw [if_pos rfl]
      exact ⟨hstack, fun s hs ↦ PmFacts.has_join.2 (.inl hs)⟩

end ContextTable

end Durability
