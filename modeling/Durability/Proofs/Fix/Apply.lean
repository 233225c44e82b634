import Durability.Fix.Apply
import Durability.Proofs.Program.Edit
import Durability.Sample.Programs

namespace Durability

variable {p q r : Program} {source : Source} {i j : InstrId} {ins : Instruction}

namespace Source

def flushOf (source : Source) (ins : Instruction) : Instruction :=
  ⟨.flush source.flushPrimitive, ins.pointer?.toList, ins.loc, ins.block⟩

def fenceOf (source : Source) (ins : Instruction) : Instruction :=
  ⟨.fence source.fencePrimitive, [], ins.loc, ins.block⟩

end Source

/-- The instructions that a fix of this kind puts behind `ins`. -/
def FixKind.additions (source : Source) (ins : Instruction) : FixKind → List Instruction
  | addFlush => [source.flushOf ins]
  | addFence => [source.fenceOf ins]
  | addFlushAndFence => [source.flushOf ins, source.fenceOf ins]
  | _ => []

def removes (fix? : InstrId → Option Fix) (i : InstrId) : Bool :=
  (fix? i).any (·.kind = .removeFlush)

def additionsAt (source : Source) (p : Program) (fix? : InstrId → Option Fix) (i : InstrId) :
    List Instruction :=
  match fix? i, p.instr i with
  | some fix, .ok ins => fix.kind.additions source ins
  | _, _ => []

namespace Program

theorem pointer?_of_flushAddress {v : Value} (h : ins.flushAddress i = .ok v) :
    ins.pointer? = some v := by
  rw [Instruction.flushAddress] at h
  cases hp : ins.pointer? with
  | none =>
    rw [hp] at h
    split at h <;> cases h
  | some w =>
    rw [hp] at h
    split at h <;> cases h <;> rfl

theorem insertFlush_attempt (p : Program) (how : FlushPrimitive) (i : InstrId) :
    p.insertFlush how i = (do
      let ins ← p.instr i
      let address ← ins.flushAddress i
      Attempt.mapCause .edit (p.insertAfter i ⟨.flush how, [address], ins.loc, none⟩)) := by
  simp only [insertFlush, Editing.insertFlush, Stateful.attempt_get_bind, Stateful.attempt_lift_bind,
    Stateful.attempt_liftFault_bind, Stateful.attempt_mapCause, insertAfter]

theorem insertFence_attempt (p : Program) (how : FencePrimitive) (i : InstrId) :
    p.insertFence how i = (do
      let ins ← p.instr i
      Attempt.mapCause .edit (p.insertAfter i ⟨.fence how, [], ins.loc, none⟩)) := by
  simp only [insertFence, Editing.insertFence, Stateful.attempt_get_bind,
    Stateful.attempt_liftFault_bind, Stateful.attempt_mapCause, insertAfter]

theorem insertFlush_eq_ok {how : FlushPrimitive} (h : p.insertFlush how i = .ok (j, q)) :
    ∃ ins v, p.instr i = .ok ins ∧ ins.pointer? = some v ∧
      p.insertAfter i ⟨.flush how, [v], ins.loc, none⟩ = .ok (j, q) := by
  rw [insertFlush_attempt] at h
  obtain ⟨ins, hi, h⟩ := bind_eq_ok_iff.1 h
  obtain ⟨v, hv, h⟩ := bind_eq_ok_iff.1 h
  exact ⟨ins, v, Attempt.lift_eq_ok_iff.1 hi, pointer?_of_flushAddress hv,
    Attempt.mapCause_eq_ok_iff.1 h⟩

theorem insertFence_eq_ok {how : FencePrimitive} (h : p.insertFence how i = .ok (j, q)) :
    ∃ ins, p.instr i = .ok ins ∧
      p.insertAfter i ⟨.fence how, [], ins.loc, none⟩ = .ok (j, q) := by
  rw [insertFence_attempt] at h
  obtain ⟨ins, hi, h⟩ := bind_eq_ok_iff.1 h
  exact ⟨ins, Attempt.lift_eq_ok_iff.1 hi, Attempt.mapCause_eq_ok_iff.1 h⟩

theorem removeFlush_eq_ok (h : p.removeFlush i = .ok q) : p.detach i = .ok q := by
  obtain ⟨⟨⟨⟩, r⟩, hremove, rfl⟩ := map_eq_ok_iff.1 h
  rw [Editing.removeFlush, Stateful.attempt_get_bind, Stateful.attempt_liftFault_bind] at hremove
  obtain ⟨ins, -, hdetach⟩ := bind_eq_ok_iff.1 hremove
  split at hdetach
  · rw [Stateful.attempt_mapCause] at hdetach
    exact map_eq_ok_iff.2 ⟨_, Attempt.mapCause_eq_ok_iff.1 hdetach, rfl⟩
  · cases hdetach

theorem insertFlush_atomic {how : FlushPrimitive} : (Editing.insertFlush how i).Atomic p :=
  .get_bind (.liftFault_bind fun _ _ ↦ .lift_bind fun _ _ ↦ (insertAfter_atomic _).mapCause)

theorem insertFence_atomic {how : FencePrimitive} : (Editing.insertFence how i).Atomic p :=
  .get_bind (.liftFault_bind fun _ _ ↦ (insertAfter_atomic _).mapCause)

theorem removeFlush_atomic : (Editing.removeFlush i).Atomic p := by
  refine .get_bind (.liftFault_bind fun ins _ ↦ ?_)
  split
  · exact detach_atomic.mapCause
  · exact .throw _

structure Appended (i : InstrId) (ins : Instruction) (adds : List Instruction) (p q : Program) :
    Prop where
  instr : p.instr i = .ok ins
  inside : ins.op.isTerminator = false
  instructions : q.instructions = p.instructions ++ adds
  listed : Relisted (fun x ↦ if x = i then i :: p.fresh adds.length else [x]) p q
  fits : ∀ a ∈ adds, a.op.isTerminator = false ∧ ∀ f b, p.FitsIn f b ins → p.FitsIn f b a

theorem FitsIn.flushOf {f : FunctionId} {b : BlockId} {v : Value} (h : p.FitsIn f b ins)
    (hv : ins.pointer? = some v) (hoperands : (source.flushOf ins).checkOperands = .ok ()) :
    p.FitsIn f b (source.flushOf ins) where
  block := h.block
  operands := hoperands
  values w hw := by
    obtain rfl : w = v := by
      rw [Source.flushOf, hv] at hw
      exact List.mem_singleton.1 hw
    refine h.values w ?_
    rw [Instruction.pointer?] at hv
    split at hv
    · exact List.mem_of_mem_head? hv
    · exact List.mem_of_mem_head? hv
    · exact List.mem_of_mem_head? hv
    · cases hv
  callee _ hg := nomatch hg
  targets _ ht := nomatch ht

theorem FitsIn.fenceOf {f : FunctionId} {b : BlockId} (h : p.FitsIn f b ins) :
    p.FitsIn f b (source.fenceOf ins) where
  block := h.block
  operands := rfl
  values _ hv := nomatch hv
  callee _ hg := nomatch hg
  targets _ ht := nomatch ht

section Insert

variable (hv : p.Valid) (once : p.ListsOnce)

include hv once

theorem insertFlush_appends (h : p.insertFlush source.flushPrimitive i = .ok (j, q)) :
    ∃ ins, j = ⟨p.instructions.length⟩ ∧ Appended i ins [source.flushOf ins] p q := by
  obtain ⟨ins, v, hi, hp, h⟩ := insertFlush_eq_ok h
  obtain ⟨_, hi', hterm, hoperands, rfl, hq, hlist⟩ := insertAfter_eq_ok hv once h
  cases hi.symm.trans hi'
  have hflush : source.flushOf ins = ⟨.flush source.flushPrimitive, [v], ins.loc, ins.block⟩ := by
    rw [Source.flushOf, hp]
    rfl
  refine ⟨ins, rfl, hi, hterm, by rw [hq, hflush], hlist, fun a ha ↦ ?_⟩
  obtain rfl := List.mem_singleton.1 ha
  exact ⟨rfl, fun f b hf ↦ hf.flushOf hp (by rw [hflush]; exact hoperands)⟩

theorem insertFence_appends (h : p.insertFence source.fencePrimitive i = .ok (j, q)) :
    ∃ ins, Appended i ins [source.fenceOf ins] p q := by
  obtain ⟨ins, hi, h⟩ := insertFence_eq_ok h
  obtain ⟨_, hi', hterm, -, rfl, hq, hlist⟩ := insertAfter_eq_ok hv once h
  cases hi.symm.trans hi'
  refine ⟨ins, hi, hterm, hq, hlist, fun a ha ↦ ?_⟩
  obtain rfl := List.mem_singleton.1 ha
  exact ⟨rfl, fun f b hf ↦ hf.fenceOf⟩

end Insert

namespace Appended

variable {adds : List Instruction} (h : Appended i ins adds p q)

include h

theorem valid (hv : p.Valid) : q.Valid :=
  valid_of_append h.instr h.inside h.instructions h.listed h.fits hv

theorem listsOnce (hv : p.Valid) (once : p.ListsOnce) : q.ListsOnce :=
  listsOnce_of_append h.instr h.listed hv once

theorem edited : Edited (fun _ ↦ false) (fun x ↦ if x = i then adds else []) p q :=
  edited_of_append h.instructions h.listed

end Appended

theorem Appended.edits {k : FixKind} (h : Appended i ins (k.additions source ins) p q)
    (hk : k ≠ .removeFlush) (hv : p.Valid) (once : p.ListsOnce) :
    q.Valid ∧ q.ListsOnce ∧ ∃ ins, p.instr i = .ok ins ∧
      Edited (fun x ↦ x = i && k = .removeFlush)
        (fun x ↦ if x = i then k.additions source ins else []) p q := by
  refine ⟨h.valid hv, h.listsOnce hv once, ins, h.instr, ?_⟩
  simpa [hk] using h.edited

theorem Appended.fence (hv : p.Valid) (h : Appended i ins [source.flushOf ins] p q)
    (h' : Appended ⟨p.instructions.length⟩ (source.flushOf ins) [source.fenceOf ins] q r) :
    Appended i ins [source.flushOf ins, source.fenceOf ins] p r where
  instr := h.instr
  inside := h.inside
  instructions := by rw [h'.instructions, h.instructions, List.append_assoc]; rfl
  listed := by
    have hlen : q.instructions.length = p.instructions.length + 1 := by
      rw [h.instructions, List.length_append, List.length_singleton]
    refine (h.listed.trans h'.listed).congr hv fun x hx ↦ ?_
    have hx' : x ≠ ⟨p.instructions.length⟩ := fun he ↦ by
      subst he
      exact Nat.lt_irrefl _ hx
    by_cases hxi : x = i
    · subst hxi
      simp [fresh, hlen, hx', List.range'_succ]
    · simp [hxi, hx']
  fits a ha := by
    obtain rfl | ha := List.mem_cons.1 ha
    · exact h.fits _ List.mem_cons_self
    · obtain rfl := List.mem_singleton.1 ha
      exact ⟨rfl, fun f b hf ↦ hf.fenceOf⟩

end Program

namespace Fix

open Program

theorem flush_eq_ok {fix : Fix} {k : InstrId} (h : apply.flush source i fix j p = (.ok k, q)) :
    p.insertFlush source.flushPrimitive j = .ok (k, q) :=
  Stateful.attempt_eq_ok_iff.2 (Stateful.mapCause_eq_ok_iff.1 h)

theorem fence_eq_ok {fix : Fix} {u : Unit} (h : apply.fence source i fix j p = (.ok u, q)) :
    ∃ k, p.insertFence source.fencePrimitive j = .ok (k, q) := by
  obtain ⟨k, hj⟩ := Stateful.discard_eq_ok_iff.1 h
  exact ⟨k, Stateful.attempt_eq_ok_iff.2 (Stateful.mapCause_eq_ok_iff.1 hj)⟩

theorem remove_eq_ok {fix : Fix} {u : Unit}
    (h : apply.blame i fix (Editing.removeFlush i) p = (.ok u, q)) : p.removeFlush i = .ok q :=
  map_eq_ok_iff.2 ⟨_, Stateful.attempt_eq_ok_iff.2 (Stateful.mapCause_eq_ok_iff.1 h), rfl⟩

theorem edits_of_apply {fix : Fix} {u : Unit} (hv : p.Valid) (once : p.ListsOnce)
    (plain : fix.kind.isConditional = false) (h : fix.apply source i p = (.ok u, q)) :
    q.Valid ∧ q.ListsOnce ∧ ∃ ins, p.instr i = .ok ins ∧
      Edited (fun x ↦ x = i && fix.kind = .removeFlush)
        (fun x ↦ if x = i then fix.kind.additions source ins else []) p q := by
  rw [apply] at h
  cases hk : fix.kind with
  | addFlush =>
    rw [hk] at h
    obtain ⟨j, hj⟩ := Stateful.discard_eq_ok_iff.1 h
    obtain ⟨ins, -, happ⟩ := insertFlush_appends hv once (flush_eq_ok hj)
    exact Appended.edits happ nofun hv once
  | addFence =>
    rw [hk] at h
    obtain ⟨j, hj⟩ := fence_eq_ok h
    obtain ⟨ins, happ⟩ := insertFence_appends hv once hj
    exact Appended.edits happ nofun hv once
  | addFlushAndFence =>
    rw [hk] at h
    obtain ⟨j, r, hj, h⟩ := Stateful.bind_eq_ok_iff.1 h
    obtain ⟨ins, rfl, hflush⟩ := insertFlush_appends hv once (flush_eq_ok hj)
    obtain ⟨k, hfence⟩ := fence_eq_ok h
    obtain ⟨ins', hfence⟩ := insertFence_appends (hflush.valid hv) (hflush.listsOnce hv once) hfence
    obtain rfl : source.flushOf ins = ins' := by
      have hj := hfence.instr
      rw [instr_eq_ok_iff, hflush.instructions, List.getElem?_concat_length] at hj
      exact Option.some.inj hj
    exact Appended.edits (hflush.fence hv hfence) nofun hv once
  | removeFlush =>
    rw [hk] at h
    obtain ⟨ins, hi, hterm, hq, hlist⟩ := detach_eq_ok hv once (removeFlush_eq_ok (remove_eq_ok h))
    refine ⟨valid_of_detach hi hterm hq hlist hv, listsOnce_of_detach hlist hv once, ins, hi, ?_⟩
    simpa [FixKind.additions] using edited_of_detach hq hlist
  | addFlushIf =>
    rw [hk] at plain
    cases plain
  | removeFlushIf =>
    rw [hk] at plain
    cases plain

end Fix

namespace FixMap

open Program

theorem mem_of_find {es : List Entry} {fix : Fix} (h : SortedMap.find i es = some fix) :
    (i, fix) ∈ es := by
  induction es with
  | nil => cases h
  | cons e es ih =>
    rw [SortedMap.find] at h
    split at h
    · next hi =>
      cases hi
      cases h
      exact List.mem_cons_self
    · exact List.mem_cons_of_mem e (ih h)

theorem find_of_mem {e : Entry} {es : List Entry} (apart : es.Pairwise (fun e f ↦ e.1 ≠ f.1))
    (he : e ∈ es) : SortedMap.find e.1 es = some e.2 := by
  induction es with
  | nil => cases he
  | cons f es ih =>
    obtain ⟨hne, apart⟩ := List.pairwise_cons.1 apart
    rw [SortedMap.find]
    obtain rfl | he := List.mem_cons.1 he
    · exact if_pos rfl
    · rw [if_neg (hne e he)]
      exact ih apart he

theorem apart_entries (m : FixMap) : m.entries.Pairwise (fun e f ↦ e.1 ≠ f.1) :=
  m.increasing.imp fun hlt heq ↦ by simp [heq] at hlt

section Cons

variable {e : Entry} {es : List Entry}

theorem find_eq_none (hne : ∀ f ∈ es, e.1 ≠ f.1) : SortedMap.find e.1 es = none :=
  Option.eq_none_iff_forall_ne_some.2 fun _ h ↦ hne _ (mem_of_find h) rfl

theorem removes_cons (hnone : SortedMap.find e.1 es = none) (x : InstrId) :
    removes (SortedMap.find · (e :: es)) x =
      (x = e.1 && e.2.kind = .removeFlush || removes (SortedMap.find · es) x) := by
  simp only [removes, SortedMap.find]
  by_cases hx : e.1 = x
  · subst hx
    simp [hnone]
  · simp [hx, eq_comm (a := x)]

theorem additionsAt_cons (hnone : SortedMap.find e.1 es = none) (hi : p.instr e.1 = .ok ins)
    (hkept : ∀ x fix, SortedMap.find x es = some fix → r.instr x = p.instr x) (x : InstrId) :
    additionsAt source p (SortedMap.find · (e :: es)) x =
      (if x = e.1 then e.2.kind.additions source ins else []) ++
        additionsAt source r (SortedMap.find · es) x := by
  simp only [additionsAt, SortedMap.find]
  by_cases hx : e.1 = x
  · subst hx
    simp [hnone, hi]
  · cases hfind : SortedMap.find x es with
    | none => simp [hx, eq_comm (a := x)]
    | some fix => simp [hx, hkept x fix hfind, eq_comm (a := x)]

end Cons

/-- Fixes at different instructions, applied one after the other. -/
theorem edits_of_forM {es : List Entry} {u : Unit} (hv : p.Valid) (once : p.ListsOnce)
    (apart : es.Pairwise (fun e f ↦ e.1 ≠ f.1)) (plain : ∀ e ∈ es, e.2.kind.isConditional = false)
    (inside : ∀ e ∈ es, e.1.index < p.instructions.length)
    (h : (es.forM fun e ↦ e.2.apply source e.1) p = (.ok u, q)) :
    q.Valid ∧ q.ListsOnce ∧
      Edited (removes (SortedMap.find · es)) (additionsAt source p (SortedMap.find · es)) p q := by
  induction es generalizing p with
  | nil =>
    cases h
    exact ⟨hv, once, Edited.refl _⟩
  | cons e es ih =>
    obtain ⟨hne, apart⟩ := List.pairwise_cons.1 apart
    have hnone := find_eq_none hne
    obtain ⟨⟨⟩, r, happly, hrest⟩ := Stateful.bind_eq_ok_iff.1 h
    obtain ⟨hrv, ronce, ins, hi, hfirst⟩ :=
      Fix.edits_of_apply hv once (plain e List.mem_cons_self) happly
    have inside' : ∀ x fix, SortedMap.find x es = some fix →
        x.index < p.instructions.length ∧ x ≠ e.1 := fun x fix hx ↦
      ⟨inside _ (List.mem_cons_of_mem e (mem_of_find hx)), (hne _ (mem_of_find hx)).symm⟩
    obtain ⟨hqv, qonce, hothers⟩ := ih hrv ronce apart (fun f hf ↦ plain f (List.mem_cons_of_mem e hf))
      (fun f hf ↦ Nat.lt_of_lt_of_le (inside f (List.mem_cons_of_mem e hf)) hfirst.length_le) hrest
    refine ⟨hqv, qonce, ?_⟩
    have hkept : ∀ x fix, SortedMap.find x es = some fix → r.instr x = p.instr x := by
      intro x fix hx
      obtain ⟨hlt, hne⟩ := inside' x fix hx
      have hx' := instr_eq_ok_iff.2 (List.getElem?_eq_getElem hlt)
      rw [hfirst.instr x _ hx', hx']
      simp [hne]
    rw [funext (removes_cons hnone), funext (additionsAt_cons hnone hi hkept)]
    refine hfirst.trans hothers fun x hx ↦ ?_
    cases hfind : SortedMap.find x es with
    | none => simp [removes, additionsAt, hfind] at hx
    | some fix =>
      obtain ⟨hlt, hne⟩ := inside' x fix hfind
      simp [hlt, hne]

theorem applicationOrder_of_plain {m : FixMap}
    (plain : ∀ e ∈ m.entries, e.2.kind.isConditional = false) : m.applicationOrder = m.entries := by
  have hall : m.entries.filter (fun e ↦ !e.2.kind.isConditional) = m.entries :=
    List.filter_eq_self.2 fun e he ↦ by rw [plain e he]; rfl
  have hnone : ∀ kind : FixKind, kind.isConditional = true →
      m.entries.filter (·.2.kind == kind) = [] := fun kind hkind ↦
    List.filter_eq_nil_iff.2 fun e he heq ↦ by
      have := plain e he
      rw [eq_of_beq heq, hkind] at this
      cases this
  rw [applicationOrder, hall, hnone _ rfl, hnone _ rfl, chains, List.append_nil]

theorem foldlM_flag {m : Type → Type} [Monad m] [LawfulMonad m] {α : Type} (f : α → m Unit)
    (l : List α) (b : Bool) : (l.foldlM (fun _ a ↦ do f a; return true) b) = (do
      l.forM f
      return b || !l.isEmpty) := by
  induction l generalizing b with
  | nil => simp
  | cons a l ih =>
    rw [List.foldlM_cons, bind_assoc, show (a :: l).forM f = (f a >>= fun _ ↦ l.forM f) from rfl,
      bind_assoc]
    simp only [pure_bind, ih, Bool.true_or, List.isEmpty_cons, Bool.not_false, Bool.or_true]

theorem apply_eq (m : FixMap) (source : Source) : m.apply source = (do
    m.applicationOrder.forM fun e ↦ e.2.apply source e.1
    return !m.applicationOrder.isEmpty) :=
  (foldlM_flag (fun e : Entry ↦ e.2.apply source e.1) m.applicationOrder false).trans
    (by simp only [Bool.false_or])

theorem apply_eq_ok {m : FixMap} {modified : Bool}
    (h : (m.apply source).run p = (.ok modified, q)) :
    (m.applicationOrder.forM fun e ↦ e.2.apply source e.1) p = (.ok (), q) ∧
      modified = !m.applicationOrder.isEmpty := by
  rw [apply_eq] at h
  obtain ⟨⟨⟩, r, hall, hrest⟩ := Stateful.bind_eq_ok_iff.1 h
  cases hrest
  exact ⟨hall, rfl⟩

/-- Applying a map of unconditional fixes makes the edits that the fixes stand for, and no others: the
instructions that are to be removed leave their blocks, and each fix puts its additions right behind
its own instruction. The program that comes out is valid. -/
theorem apply_edits {m : FixMap} {modified : Bool} (hv : p.validate = .ok ()) (once : p.ListsOnce)
    (plain : ∀ e ∈ m.entries, e.2.kind.isConditional = false)
    (inside : ∀ e ∈ m.entries, e.1.index < p.instructions.length)
    (h : (m.apply source).run p = (.ok modified, q)) :
    q.validate = .ok () ∧ q.ListsOnce ∧
      p.Edited (removes m.get?) (additionsAt source p m.get?) q := by
  have apart : m.entries.Pairwise (fun e f ↦ e.1 ≠ f.1) := m.increasing.imp fun hlt heq ↦ by
    simp [heq] at hlt
  obtain ⟨hall, -⟩ := apply_eq_ok h
  rw [applicationOrder_of_plain plain] at hall
  obtain ⟨hqv, qonce, hedits⟩ :=
    edits_of_forM (validate_eq_ok_iff.1 hv) once apart plain inside hall
  exact ⟨validate_eq_ok_iff.2 hqv, qonce, hedits⟩

/-- One fix of each unconditional kind, for the seven instructions of `Sample.straightLine`. -/
def oneOfEach : FixMap :=
  .ofList [(⟨0⟩, .plain .addFlush), (⟨1⟩, .plain .addFence), (⟨3⟩, .plain .addFlushAndFence),
    (⟨5⟩, .plain .removeFlush)]

def mended : Program := ((oneOfEach.apply .generic).run Sample.straightLine.program).2

theorem apply_edits_oneOfEach :
    mended.blocks = [⟨⟨0⟩, [0, 7, 1, 8, 2, 3, 9, 10, 4, 6].map InstrId.mk⟩] ∧
      mended.validate = .ok () ∧ mended.ListsOnce ∧
      Sample.straightLine.program.Edited (removes oneOfEach.get?)
        (additionsAt .generic Sample.straightLine.program oneOfEach.get?) mended := by
  have hrun : @Eq (Attempt RepairError Bool × Program)
      ((oneOfEach.apply .generic).run Sample.straightLine.program) (.ok true, mended) := by
    decide +kernel
  exact ⟨by decide +kernel,
    apply_edits (by decide +kernel) (by decide +kernel) (by decide) (by decide +kernel) hrun⟩

end FixMap

end Durability
