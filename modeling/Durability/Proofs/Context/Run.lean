import Durability.Proofs.Context.Placed
import Durability.Sample.Programs
import Durability.Window

namespace Durability

def InContexts.ret (p : Program) (pts : PointsTo) (c : ContextId) (i : InstrId) :
    InContexts (Option ContextId) := do
  let (d, t) ← (← get).doReturn p pts c i
  set t
  return d

namespace ContextTable

variable {p : Program} {pts : PointsTo} {t t' : ContextTable} {c d : ContextId} {x : Context}
  {i : InstrId}

inductive Operation
  | root (f : FunctionId)
  | call (c : ContextId) (i : InstrId)
  | ret (pts : PointsTo) (c : ContextId) (i : InstrId)
  | learn (pts : PointsTo) (c : ContextId) (v : Value)

def Operation.apply (p : Program) (t : ContextTable) : Operation → ContextTable
  | root f => (t.root f).2
  | call c i => (InContexts.call p c i t).2
  | ret pts c i => (InContexts.ret p pts c i t).2
  | learn pts c v => t.update c (·.learn pts v)

def run (p : Program) (t : ContextTable) (ops : List Operation) : ContextTable :=
  ops.foldl (Operation.apply p) t

/-- The contexts from `c` on to the outermost one that it has been called from. -/
inductive Lineage (t : ContextTable) : ContextId → List Context → Prop
  | root {c : ContextId} {x : Context} : t.get c = .ok x → x.parent = none → Lineage t c [x]
  | child {c d : ContextId} {x : Context} {l : List Context} :
      t.get c = .ok x → x.parent = some d → Lineage t d l → Lineage t c (x :: l)

/-- A chain of call sites under an outermost function has one context, which stands behind those of
its callers. -/
structure Forest (p : Program) (t : ContextTable) : Prop where
  ids : ∀ c d x y, t.get c = .ok x → t.get d = .ok y →
    (c = d ↔ t.outermost c = t.outermost d ∧ x.callStack = y.callStack)
  parent : ∀ c x d, t.get c = .ok x → x.parent = some d → d.index < c.index ∧
    ∃ y call, t.get d = .ok y ∧ x.callStack = y.callStack ++ [call] ∧
      p.isDefinedCall call = .ok true ∧ p.calledFunction call = .ok (some x.function)
  lineage : ∀ c x, t.get c = .ok x → ∃ l, t.Lineage c l ∧ l.length = x.callStack.length + 1 ∧
    (l.map Context.function).Nodup ∧ t.outermost c = (l.map Context.function).getLast?

def Includes (t : ContextTable) (c d : ContextId) : Prop :=
  ∃ x y, t.get c = .ok x ∧ t.get d = .ok y ∧ ∀ s, x.pm.Has s → y.pm.Has s

theorem doReturn_of_ret {c? : Option ContextId} (h : InContexts.ret p pts c i t = (.ok c?, t')) :
    t.doReturn p pts c i = .ok (c?, t') := by
  have h := Stateful.attempt_eq_ok_iff.2 h
  rw [InContexts.ret, Stateful.attempt_get_bind, Stateful.attempt_liftFault_bind] at h
  obtain ⟨⟨d, r⟩, hret, h⟩ := bind_eq_ok_iff.1 h
  cases h
  exact Attempt.lift_eq_ok_iff.1 hret

theorem ret_atomic (p : Program) (pts : PointsTo) (t : ContextTable) (c : ContextId) (i : InstrId) :
    (InContexts.ret p pts c i).Atomic t :=
  .get_bind (.liftFault_bind fun r _ ↦ .of_ok (a := r.1) (t := r.2) rfl)

namespace Interned

variable (h : t.Interned p)
include h

theorem exists_lineage (hx : t.get c = .ok x) :
    ∃ l, t.Lineage c l ∧ l.map Context.function = t.activeFrom c.index := by
  generalize hs : x.callStack = s
  induction s using List.reverseRecOn generalizing c x with
  | nil =>
    have hp := h.parent_eq_none hx hs
    exact ⟨[x], .root hx hp, (activeFrom_root hx hp).symm⟩
  | append_singleton s call ih =>
    obtain ⟨d, y, hp, hy, hys, -⟩ := h.parent_eq_some hx hs
    obtain ⟨l, hl, hactive⟩ := ih hy hys
    refine ⟨x :: l, .child hx hp hl, ?_⟩
    rw [List.map_cons, hactive, h.activeFrom_child hx hp]

theorem forest : t.Forest p where
  ids c d x y hx hy := by
    constructor
    · rintro rfl
      cases hx.symm.trans hy
      exact ⟨rfl, rfl⟩
    · exact fun hcd ↦ h.eq_of_outermost hx hy hcd.1 hcd.2
  parent c x d hx hp := h.child c x d hx hp
  lineage c x hx := by
    obtain ⟨l, hl, hactive⟩ := h.exists_lineage hx
    refine ⟨l, hl, ?_, hactive ▸ h.active c x hx, by rw [hactive, outermost]⟩
    rw [← h.length_activeFrom hx, ← hactive, List.length_map]

theorem ne_of_parent {y : Context} (hy : t.get d = .ok y) (hp : y.parent = some c) : d ≠ c := by
  obtain ⟨hlt, -⟩ := h.child d y c hy hp
  rintro rfl
  exact Nat.lt_irrefl _ hlt

theorem get_of_doCall (hcall : t.doCall p c i = .ok (d, t')) (hx : t.get c = .ok x) :
    t'.get c = .ok x := by
  obtain ⟨-, f, x', -, -, -, hcases⟩ := doCall_cases hcall
  obtain ⟨y, hy, hp, -, ⟨rfl, -⟩ | rfl⟩ | ⟨-, -, rfl⟩ := hcases
  · exact hx
  · exact get_update.2 ⟨x, hx, (if_neg (h.ne_of_parent hy hp)).symm⟩
  · exact (get_append t).2 (.inl hx)

theorem includes_of_doCall (hcall : t.doCall p c i = .ok (d, t')) : t'.Includes c d := by
  obtain ⟨-, -, -, x, y, hx, hy, -, -, hpm⟩ := doCall_eq_ok h hcall
  exact ⟨x, y, h.get_of_doCall hcall hx, hy, hpm⟩

theorem includes_of_doReturn (hret : t.doReturn p pts c i = .ok (some d, t')) :
    t'.Includes c d := by
  obtain ⟨x, hx, ⟨hnone, -⟩ | ⟨d', y, call, ins, hd, hp, hy, -, -, rfl⟩⟩ := doReturn_cases h hret
  · cases hnone
  cases hd
  refine ⟨x, _, get_update.2 ⟨x, hx, (if_neg (h.ne_of_parent hx hp).symm).symm⟩,
    get_update.2 ⟨y, hy, rfl⟩, fun s hs ↦ ?_⟩
  rw [if_pos rfl]
  exact PmFacts.has_join.2 (.inl hs)

theorem apply (op : Operation) : t.Grows (op.apply p t) ∧ (op.apply p t).Interned p := by
  cases op with
  | root f =>
    rw [Operation.apply]
    obtain ⟨hgrows, hinterned, -⟩ := root_eq (p := p) (rfl : t.root f = _)
    exact ⟨hgrows, hinterned h⟩
  | call c i =>
    rcases hrun : InContexts.call p c i t with ⟨_ | d, t'⟩
    · obtain rfl := call_atomic p t c i _ _ hrun
      rw [Operation.apply, hrun]
      exact ⟨.refl _, h⟩
    · obtain ⟨hgrows, hinterned, -⟩ := doCall_eq_ok h (Stateful.attempt_eq_ok_iff.2 hrun)
      rw [Operation.apply, hrun]
      exact ⟨hgrows, hinterned⟩
  | ret pts c i =>
    rcases hrun : InContexts.ret p pts c i t with ⟨_ | d, t'⟩
    · obtain rfl := ret_atomic p pts t c i _ _ hrun
      rw [Operation.apply, hrun]
      exact ⟨.refl _, h⟩
    · obtain ⟨hgrows, hinterned, -⟩ := doReturn_eq_ok h (doReturn_of_ret hrun)
      rw [Operation.apply, hrun]
      exact ⟨hgrows, hinterned⟩
  | learn pts c v =>
    rw [Operation.apply]
    exact ⟨grows_update fun pm s hs ↦ PmFacts.has_learn.2 (.inr hs), h.update⟩

theorem run (ops : List Operation) : t.Grows (run p t ops) ∧ (run p t ops).Interned p := by
  induction ops generalizing t with
  | nil => exact ⟨.refl t, h⟩
  | cons op ops ih =>
    obtain ⟨hgrows, hop⟩ := h.apply op
    obtain ⟨hgrows', hops⟩ := ih hop
    exact ⟨hgrows.trans hgrows', hops⟩

end Interned

/-- A table that operations have made is a forest and only grows. A call and a return pass on all that
is known where control comes from, and a call that fails leaves the table as it is. -/
theorem run_forest (p : Program) (ops more : List Operation) :
    let t := run p ∅ ops
    t.Forest p ∧ t.Grows (run p t more) ∧
      (∀ c call d t', InContexts.call p c call t = (.ok d, t') → t'.Includes c d) ∧
      (∀ pts c ret d t', InContexts.ret p pts c ret t = (.ok (some d), t') →
        t'.Includes c d) ∧
      ∀ c call e t', InContexts.call p c call t = (.error e, t') → t' = t := by
  have h : (run p ∅ ops).Interned p := (Interned.empty.run ops).2
  refine ⟨h.forest, (h.run more).1, fun c call d t' hcall ↦ ?_, fun pts c ret d t' hret ↦ ?_,
    fun c call e t' hcall ↦ ?_⟩
  · exact h.includes_of_doCall (Stateful.attempt_eq_ok_iff.2 hcall)
  · exact h.includes_of_doReturn (doReturn_of_ret hret)
  · exact call_atomic p _ c call e t' hcall

theorem run_forest_reentry :
    let p := (Sample.acrossCalls false).program
    let pts : PointsTo := fun v ↦ if v = Sample.pool then .ofList [.global ⟨0⟩] else ∅
    let t := run p ∅ [.root ⟨2⟩, .call ⟨0⟩ ⟨5⟩, .learn pts ⟨1⟩ Sample.pool, .ret pts ⟨1⟩ ⟨2⟩]
    t.Forest p ∧ ∃ t', InContexts.call p ⟨0⟩ ⟨5⟩ t = (.ok ⟨1⟩, t') ∧ t'.Includes ⟨0⟩ ⟨1⟩ ∧
      t'.contexts.map (fun x ↦ (x.callStack, x.pm.toList)) =
        [([], [.global ⟨0⟩]), ([⟨5⟩], [.global ⟨0⟩])] := by
  intro p pts t
  obtain ⟨hforest, -, hcall, -⟩ := run_forest p
    [.root ⟨2⟩, .call ⟨0⟩ ⟨5⟩, .learn pts ⟨1⟩ Sample.pool, .ret pts ⟨1⟩ ⟨2⟩] []
  have hcached : InContexts.call p ⟨0⟩ ⟨5⟩ t = (.ok ⟨1⟩, t) := by
    change (_ : Except (Failure RepairError) ContextId × ContextTable) = _
    decide +kernel
  exact ⟨hforest, t, hcached, hcall _ _ _ _ hcached, by decide +kernel⟩

end ContextTable

end Durability
