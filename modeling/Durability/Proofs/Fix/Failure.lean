import Durability.Proofs.Fix.Apply
import Durability.Proofs.Fix.Order

namespace Durability

variable {p q : Program} {source : Source} {i j : InstrId} {ins new : Instruction}

namespace Program

/-- What edits leave behind: an instruction put in is one more, and one taken out is one more without a
block. -/
def changes (p : Program) : Nat :=
  p.instructions.length + p.instructions.countP (·.block.isNone)

theorem insertAfter_changes (h : p.insertAfter i ins = .ok (j, q)) : q.changes = p.changes + 1 := by
  obtain ⟨old, b, B, k, -, -, -, rfl⟩ := insertAfter_eq_ok_iff.1 h
  simp only [changes, setInstrs, List.length_append, List.length_singleton, List.countP_append,
    List.countP_singleton, Option.isNone_some, Bool.false_eq_true, if_false]
  omega

theorem detach_changes (h : p.detach i = .ok q) : q.changes = p.changes + 1 := by
  obtain ⟨old, b, B, k, hat, rfl⟩ := exists_of_detach h
  obtain ⟨hi, hold⟩ := List.getElem?_eq_some_iff.1 (instr_eq_ok_iff.1 hat.instr)
  have hsplit : p.instructions =
      p.instructions.take i.index ++ old :: p.instructions.drop (i.index + 1) := by
    rw [← hold, ← List.drop_eq_getElem_cons hi, List.take_append_drop]
  have hcount := congrArg (List.countP (·.block.isNone)) hsplit
  simp only [List.countP_append, List.countP_cons, hat.block, Option.isNone_some, Bool.false_eq_true,
    if_false] at hcount
  simp only [changes, setInstrs, List.length_modify]
  rw [List.modify_eq_take_cons_drop hi]
  simp only [List.countP_append, List.countP_cons, Option.isNone_none, if_true]
  omega

theorem insertFlush_changes {how : FlushPrimitive} (h : p.insertFlush how i = .ok (j, q)) :
    q.changes = p.changes + 1 := by
  obtain ⟨ins, v, -, -, h⟩ := insertFlush_eq_ok h
  exact insertAfter_changes h

theorem insertFence_changes {how : FencePrimitive} (h : p.insertFence how i = .ok (j, q)) :
    q.changes = p.changes + 1 := by
  obtain ⟨ins, -, h⟩ := insertFence_eq_ok h
  exact insertAfter_changes h

theorem exists_insertAfter (h : p.insertAfter i ins = .ok (j, q)) (hterm : ins.op.isTerminator = false)
    (hnew : new.checkOperands = .ok ()) : ∃ k r, q.insertAfter j new = .ok (k, r) := by
  obtain ⟨old, b, B, k, hat, -, rfl, rfl⟩ := insertAfter_eq_ok_iff.1 h
  let B' : Block := { B with instrs := B.instrs.insertIdx (k + 1) ⟨p.instructions.length⟩ }
  have hlength : k + 1 ≤ B.instrs.length := (List.getElem?_eq_some_iff.1 hat.getElem?).1
  have hmem : (⟨p.instructions.length⟩ : InstrId) ∈ B'.instrs :=
    (List.mem_insertIdx hlength).2 (.inl rfl)
  obtain ⟨k', hk'⟩ := Option.isSome_iff_exists.1 (List.isSome_idxOf?.2 hmem)
  refine ⟨_, _, insertAfter_eq_ok_iff.2 ⟨{ ins with block := some b }, b, B', k', ⟨?_, rfl, hterm, ?_,
    hk'⟩, hnew, rfl, rfl⟩⟩
  · exact instr_eq_ok_iff.2 List.getElem?_concat_length
  · refine block_eq_ok_iff.2 ?_
    rw [setInstrs, List.getElem?_modify, block_eq_ok_iff.1 hat.holder]
    simp [B']

theorem exists_insertFence {how : FlushPrimitive} (h : p.insertFlush how i = .ok (j, q))
    (how' : FencePrimitive) : ∃ k r, q.insertFence how' j = .ok (k, r) := by
  obtain ⟨ins, v, -, -, h⟩ := insertFlush_eq_ok h
  obtain ⟨old, b, B, k, -, -, rfl, hq⟩ := insertAfter_eq_ok_iff.1 h
  have hj : q.instr ⟨p.instructions.length⟩ = .ok ⟨.flush how, [v], ins.loc, some b⟩ := by
    rw [hq]
    exact instr_eq_ok_iff.2 List.getElem?_concat_length
  obtain ⟨k, r, hr⟩ : ∃ k r, q.insertAfter ⟨p.instructions.length⟩ ⟨.fence how', [], ins.loc, none⟩ =
      .ok (k, r) := exists_insertAfter h rfl rfl
  refine ⟨k, r, ?_⟩
  rw [insertFence_attempt]
  exact bind_eq_ok_iff.2 ⟨_, Attempt.lift_eq_ok_iff.2 hj, Attempt.mapCause_eq_ok_iff.2 hr⟩

end Program

namespace Fix

open Program

/-- The errors of a fix at `i`, which name it, unless the program breaks a promise to the edits. -/
inductive Blames (fix : Fix) (i : InstrId) : Failure RepairError → Prop
  | unsupported (h : fix.kind.isConditional = true) :
    Blames fix i (.refused (.unsupportedFix fix.kind))
  | capability (h : fix.kind.isConditional = false) (cause : CapabilityError) :
    Blames fix i (.refused (.capability fix.kind i cause))
  | fault (h : fix.kind.isConditional = false) (f : Fault) : Blames fix i (.fault f)

variable {fix : Fix} {e : Failure RepairError}

theorem blames_of_mapCause (plain : fix.kind.isConditional = false) (e : Failure CapabilityError) :
    fix.Blames i (e.mapCause (.capability fix.kind i)) := by
  cases e with
  | refused cause => exact .capability plain cause
  | fault f => exact .fault plain f

theorem blame_eq_error {α : Type} {x : Editing CapabilityError α}
    (plain : fix.kind.isConditional = false) (hx : x.Atomic p)
    (h : apply.blame i fix x p = (.error e, q)) : q = p ∧ fix.Blames i e := by
  obtain ⟨e', he, rfl⟩ := Stateful.mapCause_eq_error_iff.1 h
  exact ⟨hx e' q he, blames_of_mapCause plain e'⟩

theorem apply_eq_error (h : fix.apply source i p = (.error e, q)) : q = p ∧ fix.Blames i e := by
  rw [apply] at h
  cases hk : fix.kind with
  | addFlush =>
    rw [hk] at h
    exact blame_eq_error (by rw [hk]; rfl) insertFlush_atomic (Stateful.discard_eq_error_iff.1 h)
  | addFence =>
    rw [hk] at h
    exact blame_eq_error (by rw [hk]; rfl) insertFence_atomic (Stateful.discard_eq_error_iff.1 h)
  | addFlushAndFence =>
    rw [hk] at h
    obtain hflush | ⟨j, r, hflush, hfence⟩ := Stateful.bind_eq_error_iff.1 h
    · exact blame_eq_error (by rw [hk]; rfl) insertFlush_atomic hflush
    · -- the fence goes behind the new flush, where nothing can stop it
      obtain ⟨e', hfence, -⟩ :=
        Stateful.mapCause_eq_error_iff.1 (Stateful.discard_eq_error_iff.1 hfence)
      obtain ⟨k, r', hr'⟩ := exists_insertFence (flush_eq_ok hflush) source.fencePrimitive
      cases hr'.symm.trans (Stateful.attempt_eq_error_iff.2 ⟨q, hfence⟩)
  | removeFlush =>
    rw [hk] at h
    exact blame_eq_error (by rw [hk]; rfl) removeFlush_atomic h
  | addFlushIf =>
    rw [hk] at h
    cases h
    exact ⟨rfl, hk ▸ .unsupported (by rw [hk]; rfl)⟩
  | removeFlushIf =>
    rw [hk] at h
    cases h
    exact ⟨rfl, hk ▸ .unsupported (by rw [hk]; rfl)⟩

/-- What a fix of each kind has done to a program when it has succeeded. -/
inductive Carried (source : Source) (i : InstrId) (p q : Program) : FixKind → Prop
  | addFlush {j : InstrId} :
      p.insertFlush source.flushPrimitive i = .ok (j, q) → Carried source i p q .addFlush
  | addFence {j : InstrId} :
      p.insertFence source.fencePrimitive i = .ok (j, q) → Carried source i p q .addFence
  | addFlushAndFence {j k : InstrId} {r : Program} :
      p.insertFlush source.flushPrimitive i = .ok (j, r) →
        r.insertFence source.fencePrimitive j = .ok (k, q) → Carried source i p q .addFlushAndFence
  | removeFlush : p.removeFlush i = .ok q → Carried source i p q .removeFlush

theorem carried_of_apply {u : Unit} (h : fix.apply source i p = (.ok u, q)) :
    Carried source i p q fix.kind := by
  rw [apply] at h
  cases hk : fix.kind with
  | addFlush =>
    rw [hk] at h
    obtain ⟨j, hj⟩ := Stateful.discard_eq_ok_iff.1 h
    exact .addFlush (flush_eq_ok hj)
  | addFence =>
    rw [hk] at h
    obtain ⟨j, hj⟩ := fence_eq_ok h
    exact .addFence hj
  | addFlushAndFence =>
    rw [hk] at h
    obtain ⟨j, r, hflush, hfence⟩ := Stateful.bind_eq_ok_iff.1 h
    obtain ⟨k, hk⟩ := fence_eq_ok hfence
    exact .addFlushAndFence (flush_eq_ok hflush) hk
  | removeFlush =>
    rw [hk] at h
    exact .removeFlush (remove_eq_ok h)
  | addFlushIf =>
    rw [hk] at h
    cases h
  | removeFlushIf =>
    rw [hk] at h
    cases h

theorem isConditional_of_apply {u : Unit} (h : fix.apply source i p = (.ok u, q)) :
    fix.kind.isConditional = false := by
  have hcarried := carried_of_apply h
  generalize fix.kind = kind at hcarried
  cases hcarried <;> rfl

theorem changes_lt_of_apply {u : Unit} (h : fix.apply source i p = (.ok u, q)) :
    p.changes < q.changes := by
  have hcarried := carried_of_apply h
  generalize fix.kind = kind at hcarried
  cases hcarried with
  | addFlush hflush =>
    rw [insertFlush_changes hflush]
    exact Nat.lt_succ_self _
  | addFence hfence =>
    rw [insertFence_changes hfence]
    exact Nat.lt_succ_self _
  | addFlushAndFence hflush hfence =>
    rw [insertFence_changes hfence, insertFlush_changes hflush]
    exact Nat.lt_add_of_pos_right Nat.two_pos
  | removeFlush hremove =>
    rw [detach_changes (removeFlush_eq_ok hremove)]
    exact Nat.lt_succ_self _

end Fix

namespace FixMap

open Program

variable {m : FixMap} {es done : List Entry} {fix : Fix} {e : Failure RepairError}

section Carried

variable (h : (es.forM fun e ↦ e.2.apply source e.1) p = (.ok (), q))

include h

theorem plain_of_forM : ∀ e ∈ es, e.2.kind.isConditional = false := by
  induction es generalizing p with
  | nil => exact fun e he ↦ nomatch he
  | cons e es ih =>
    obtain ⟨⟨⟩, r, happly, hrest⟩ := Stateful.bind_eq_ok_iff.1 h
    exact List.forall_mem_cons.2 ⟨Fix.isConditional_of_apply happly, ih hrest⟩

theorem changes_of_forM : p.changes + es.length ≤ q.changes := by
  induction es generalizing p with
  | nil =>
    cases h
    exact Nat.le_refl _
  | cons e es ih =>
    obtain ⟨⟨⟩, r, happly, hrest⟩ := Stateful.bind_eq_ok_iff.1 h
    have hlt := Fix.changes_lt_of_apply happly
    have hle := ih hrest
    rw [List.length_cons]
    omega

theorem valid_of_forM (hv : p.Valid) (once : p.ListsOnce) : q.Valid := by
  induction es generalizing p with
  | nil =>
    cases h
    exact hv
  | cons e es ih =>
    obtain ⟨⟨⟩, r, happly, hrest⟩ := Stateful.bind_eq_ok_iff.1 h
    obtain ⟨hrv, ronce, -⟩ :=
      Fix.edits_of_apply hv once (Fix.isConditional_of_apply happly) happly
    exact ih hrest hrv ronce

theorem eq_iff_of_forM : q = p ↔ es = [] := by
  constructor
  · intro hqp
    have hle := changes_of_forM h
    rw [hqp] at hle
    exact List.length_eq_zero_iff.1 (by omega)
  · intro hes
    subst hes
    cases h
    rfl

end Carried

/-- The fixes of a map have been carried out up to one at `i`, which has failed with `e`. -/
structure StoppedAt (m : FixMap) (source : Source) (e : Failure RepairError) (done : List Entry)
    (i : InstrId) (fix : Fix) (p q : Program) : Prop where
  order : ∃ rest, m.applicationOrder = done ++ (i, fix) :: rest
  carried : (done.forM fun d ↦ d.2.apply source d.1) p = (.ok (), q)
  failed : fix.apply source i q = (.error e, q)
  blames : fix.Blames i e
  plain : ∀ d ∈ done, d.2.kind.isConditional = false
  conditional : fix.kind.isConditional = true → done = m.unconditionals
  unchanged : q = p ↔ done = []
  valid : p.validate = .ok () → p.ListsOnce → q.validate = .ok ()

/-- Fixes that cannot all be carried out stop at one that leaves no trace of its own. -/
theorem exists_stoppedAt (h : (m.apply source).run p = (.error e, q)) :
    ∃ done i fix, m.StoppedAt source e done i fix p q := by
  rw [apply_eq] at h
  obtain hall | ⟨⟨⟩, r, -, h⟩ := Stateful.bind_eq_error_iff.1 h
  · obtain ⟨done, ⟨i, fix⟩, rest, r, horder, hdone, hfix⟩ := Stateful.exists_of_forM_eq_error hall
    obtain ⟨rfl, hblames⟩ := Fix.apply_eq_error hfix
    have hplain := plain_of_forM hdone
    refine ⟨done, i, fix, ⟨rest, horder⟩, hdone, hfix, hblames, hplain,
      eq_unconditionals horder hplain, eq_iff_of_forM hdone, fun hv once ↦ ?_⟩
    exact validate_eq_ok_iff.2 (valid_of_forM hdone (validate_eq_ok_iff.1 hv) once)
  · cases h

end FixMap

end Durability
