import Durability.Proofs.Repair.AssertPersisted
import Durability.Proofs.Trace.Bugs
import Durability.Sample.Programs
import Durability.Sample.Traces

namespace Durability

variable {settings : Settings} {p : Program} {t : Trace} {e : Event} {k bug : Nat}

/-- Both answer the same, or neither answers. -/
def Alike {ε α : Type} (x x' : Except ε α) : Prop := ∀ a, x = .ok a ↔ x' = .ok a

namespace Alike

variable {ε α β : Type} {x x' : Except ε α} {f f' : α → Except ε β}

theorem refl (x : Except ε α) : Alike x x := fun _ ↦ Iff.rfl

theorem errors (e e' : ε) : Alike (.error e : Except ε α) (.error e') :=
  fun _ ↦ iff_of_false nofun nofun

theorem bind (h : Alike x x') (hf : ∀ a, Alike (f a) (f' a)) : Alike (x >>= f) (x' >>= f') := by
  intro b
  simp only [bind_eq_ok_iff, h _, hf _ b]

theorem bind_of_ok (h : Alike x x') (hf : ∀ a, x = .ok a → Alike (f a) (f' a)) :
    Alike (x >>= f) (x' >>= f') := by
  intro b
  simp only [bind_eq_ok_iff, ← h _]
  exact exists_congr fun a ↦ and_congr_right fun ha ↦ hf a ha b

theorem ofExcept {x x' : Except ε α} (h : Alike x x') :
    Alike (Attempt.ofExcept x) (Attempt.ofExcept x') := by
  intro a
  rw [Attempt.ofExcept_eq_ok_iff, Attempt.ofExcept_eq_ok_iff, h]

end Alike

/-- Where the event at `n` is when another one has been put in at `k`. -/
def past (k n : Nat) : Nat := if n < k then n else n + 1

namespace Trace

def putAt (t : Trace) (k : Nat) (e : Event) : Trace :=
  { t with log := t.events.take k ++ e :: t.events.drop k }

/-- An event of no concern to the bugs of `t`: no bug itself, no fence, and if it is a store or a flush,
then of bytes within one line that no bug is about. -/
structure Unrelated (settings : Settings) (t : Trace) (e : Event) : Prop where
  unmarked : e.isBug = false
  kind : e.kind ≠ .fence
  apart : e.kind.isOperation = true → ∃ a, e.addresses = [a] ∧
    a.inOneLine settings.cacheLineSize = true ∧ ∀ b ∈ t.events, b.isBug = true →
      ∀ range, b.addresses = [range] → a ≠ range ∧ a.overlaps range = false

section PutAt

variable (hk : k ≤ t.events.length)
include hk

theorem getElem?_putAt (n : Nat) : (t.putAt k e).events[past k n]? = t.events[n]? := by
  have hlength : (t.events.take k).length = k := by rw [List.length_take, Nat.min_eq_left hk]
  rw [putAt, events_mk, past]
  split
  · next hn =>
    rw [List.getElem?_append_left (by omega), List.getElem?_take_of_lt hn]
  · next hn =>
    rw [List.getElem?_append_right (by omega), hlength, Nat.sub_add_comm (by omega),
      List.getElem?_cons_succ, List.getElem?_drop, Nat.add_sub_cancel' (by omega)]

theorem getElem?_putAt_self : (t.putAt k e).events[k]? = some e := by
  have hlength : (t.events.take k).length = k := by rw [List.length_take, Nat.min_eq_left hk]
  rw [putAt, events_mk, List.getElem?_append_right (by omega), hlength, Nat.sub_self]
  rfl

theorem bugs_putAt (he : e.isBug = false) : (t.putAt k e).bugs = t.bugs.map (past k) := by
  have hmono : ∀ m n : Nat, m < n → past k m < past k n := by
    intro m n hmn
    rw [past, past]
    split <;> split <;> omega
  have hincreasing : (t.bugs.map (past k)).Pairwise (· < ·) := t.bugs_increasing.map _ hmono
  refine List.Perm.eq_of_pairwise (fun _ _ _ _ h h' ↦ absurd h (Nat.lt_asymm h'))
    (bugs_increasing _) hincreasing ?_
  refine (List.perm_ext_iff_of_nodup (nodup_bugs _) (hincreasing.imp Nat.ne_of_lt)).2 fun n ↦ ?_
  rw [mem_bugs_iff, List.mem_map]
  constructor
  · rintro ⟨d, hd, hmarked⟩
    obtain ⟨m, rfl⟩ : ∃ m, past k m = n := by
      rcases Nat.lt_trichotomy n k with hlt | rfl | hgt
      · exact ⟨n, if_pos hlt⟩
      · rw [getElem?_putAt_self hk] at hd
        cases hd
        rw [he] at hmarked
        cases hmarked
      · exact ⟨n - 1, by rw [past, if_neg (by omega)]; omega⟩
    rw [getElem?_putAt hk] at hd
    exact ⟨m, mem_bugs_iff.2 ⟨d, hd, hmarked⟩, rfl⟩
  · rintro ⟨m, hm, rfl⟩
    rw [getElem?_putAt hk]
    exact mem_bugs_iff.1 hm

/-- A search meets the same events, and on its way perhaps the new one. -/
theorem before_putAt (bug : Nat) :
    ((t.putAt k e).before (past k bug)).map Prod.fst = (t.before bug).map Prod.fst ∨
      ∃ l i m, (t.putAt k e).before (past k bug) = l ++ (e, i) :: m ∧
        (l ++ m).map Prod.fst = (t.before bug).map Prod.fst := by
  have hfst (t : Trace) (n : Nat) : (t.before n).map Prod.fst = (t.events.take n).reverse := by
    rw [before, List.map_reverse, List.zipIdx_map_fst]
  have hlength : (t.events.take k).length = k := by rw [List.length_take, Nat.min_eq_left hk]
  by_cases hbug : bug < k
  · refine .inl ?_
    rw [hfst, hfst, past, if_pos hbug, putAt, events_mk,
      List.take_append_of_le_length (by omega), List.take_take, Nat.min_eq_left hbug.le]
  · have hsplit : ((t.putAt k e).before (past k bug)).map Prod.fst =
        ((t.events.drop k).take (bug - k)).reverse ++ e :: (t.events.take k).reverse := by
      rw [hfst, past, if_neg hbug, putAt, events_mk, List.take_append, hlength,
        List.take_of_length_le (by omega), Nat.sub_add_comm (by omega), List.take_succ_cons,
        List.reverse_append, List.reverse_cons, List.append_assoc, List.singleton_append]
    obtain ⟨l, m', hl, hfstl, hm'⟩ := List.map_eq_append_iff.1 hsplit
    obtain ⟨⟨_, i⟩, m, rfl, rfl, hm⟩ := List.map_eq_cons_iff.1 hm'
    refine .inr ⟨l, i, m, hl, ?_⟩
    rw [List.map_append, hfstl, hm, hfst, ← List.reverse_append, ← List.take_add,
      Nat.add_sub_cancel' (by omega)]

end PutAt

theorem checkAddress_alike (settings : Settings) (i j : Nat) (e : Event) :
    Alike (checkAddress settings i e) (checkAddress settings j e) := by
  rw [checkAddress, checkAddress]
  split
  · exact .errors _ _
  · split
    · exact .refl _
    · exact .errors _ _

variable {range : ByteRange} {fenced : Bool} {l l' m : List (Event × Nat)} {i j : Nat}
  {redundant : Option Event}

/-- The searches for a bug of `range` go on behind `e` as they have come to it. -/
structure Skipped (settings : Settings) (range : ByteRange) (e : Event) : Prop where
  kind : e.kind ≠ .fence
  apart : e.kind.isOperation = true → ∃ a, (∀ i, checkAddress settings i e = .ok a) ∧
    a ≠ range ∧ a.overlaps range = false

theorem Unrelated.skipped (he : t.Unrelated settings e) {b : Event} (hb : t.events[bug]? = some b)
    (hmarked : b.isBug = true) (hrange : t.target settings bug = .ok range) :
    Skipped settings range e := by
  refine ⟨he.kind, fun hop ↦ ?_⟩
  obtain ⟨a, ha, hline, hapart⟩ := he.apart hop
  refine ⟨a, fun i ↦ checkAddress_of_inOneLine ha hline,
    hapart b (List.mem_of_getElem? hb) hmarked range ?_⟩
  obtain ⟨b', hb', hcheck⟩ := bind_eq_ok_iff.1 hrange
  rw [Attempt.lift_eq_ok_iff, Fault.lookup_eq_ok_iff, hb] at hb'
  cases hb'
  exact checkAddress_eq_ok (Attempt.ofExcept_eq_ok_iff.1 hcheck)

theorem findUnpersisted_skip (he : Skipped settings range e) :
    findUnpersisted settings bug range fenced (l ++ (e, i) :: m) =
      findUnpersisted settings bug range fenced (l ++ m) := by
  induction l generalizing fenced with
  | nil =>
    rw [List.nil_append, List.nil_append, findUnpersisted, if_neg he.kind]
    split
    · next hop =>
      obtain ⟨a, ha, hne, hout⟩ := he.apart hop
      rw [ha]
      change (if e.kind = .store ∧ a = range then _ else _) = _
      rw [if_neg fun h ↦ hne h.2, if_neg fun h ↦ Bool.false_ne_true (hout.symm.trans h.2)]
    · rfl
  | cons x l ih => simp only [List.cons_append, findUnpersisted, ih]

theorem findUnpersisted_alike (hl : l.map Prod.fst = l'.map Prod.fst) :
    Alike (findUnpersisted settings i range fenced l) (findUnpersisted settings j range fenced l') := by
  induction l generalizing fenced l' with
  | nil =>
    cases List.map_eq_nil_iff.1 hl.symm
    exact .errors _ _
  | cons x l ih =>
    obtain ⟨⟨e, k⟩, l', rfl, hx, htail⟩ := List.map_eq_cons_iff.1 hl.symm
    obtain ⟨e', k'⟩ := x
    cases hx
    have ih (fenced : Bool) := @ih fenced _ htail.symm
    rw [findUnpersisted, findUnpersisted]
    split
    · exact ih true
    split
    · refine .bind (checkAddress_alike settings _ _ _) fun a ↦ ?_
      split
      · exact .refl _
      split
      · split
        · exact .errors _ _
        · exact .refl _
      · exact ih fenced
    · exact ih fenced

theorem findRedundant_skip (he : Skipped settings range e) :
    findRedundant settings bug range redundant (l ++ (e, i) :: m) =
      findRedundant settings bug range redundant (l ++ m) := by
  induction l generalizing redundant with
  | nil =>
    rw [List.nil_append, List.nil_append, findRedundant.eq_def]
    dsimp only
    split
    · next hop =>
      obtain ⟨a, ha, hne, hout⟩ := he.apart hop
      rw [ha]
      change (if e.kind = .flush then if a = range then _ else if a.overlaps range then _ else _
        else _) = _
      rw [if_neg hne, hout, if_neg Bool.false_ne_true, ite_self]
    · rfl
  | cons x l ih => simp only [List.cons_append, findRedundant, ih]

theorem findRedundant_alike (hl : l.map Prod.fst = l'.map Prod.fst) :
    Alike (findRedundant settings i range redundant l)
      (findRedundant settings j range redundant l') := by
  induction l generalizing redundant l' with
  | nil =>
    cases List.map_eq_nil_iff.1 hl.symm
    exact .errors _ _
  | cons x l ih =>
    obtain ⟨⟨e, k⟩, l', rfl, hx, htail⟩ := List.map_eq_cons_iff.1 hl.symm
    obtain ⟨e', k'⟩ := x
    cases hx
    have ih (redundant : Option Event) := @ih _ redundant htail.symm
    rw [findRedundant.eq_def settings i, findRedundant.eq_def settings j]
    dsimp only
    split
    · refine .bind (checkAddress_alike settings _ _ _) fun a ↦ ?_
      split
      · split
        · cases redundant with
          | none => exact ih _
          | some r => exact .refl _
        split
        · exact .errors _ _
        · exact ih _
      · exact ih _
    · exact ih _

section PutAt

variable (hk : k ≤ t.events.length) (he : t.Unrelated settings e) {b : Event}
  (hb : t.events[bug]? = some b) (hmarked : b.isBug = true)
include hk

theorem target_alike (bug : Nat) :
    Alike (t.target settings bug) ((t.putAt k e).target settings (past k bug)) := by
  have hget : Fault.lookup (t.putAt k e).events (past k bug) = Fault.lookup t.events bug := by
    rw [Fault.lookup, Fault.lookup, getElem?_putAt hk]
  rw [target, target, hget]
  exact .bind (.refl _) fun _ ↦ (checkAddress_alike settings _ _ _).ofExcept

/-- A search that passes `e` over and takes no notice of indices comes to the same end. -/
theorem search_alike {α : Type} {search search' : List (Event × Nat) → Except RepairError α}
    (hskip : ∀ l i m, search' (l ++ (e, i) :: m) = search' (l ++ m))
    (halike : ∀ l l', l.map Prod.fst = l'.map Prod.fst → Alike (search l) (search' l')) :
    Alike (search (t.before bug)) (search' ((t.putAt k e).before (past k bug))) := by
  obtain hsame | ⟨l, i, m, hbefore, hsame⟩ := before_putAt (e := e) hk bug
  · exact halike _ _ hsame.symm
  · rw [hbefore, hskip]
    exact halike _ _ hsame.symm

include he hb hmarked

theorem unpersisted_alike :
    Alike (t.unpersisted settings bug) ((t.putAt k e).unpersisted settings (past k bug)) := by
  refine .bind_of_ok (target_alike hk bug) fun range hrange ↦ .ofExcept ?_
  have hskipped := he.skipped hb hmarked hrange
  exact search_alike hk (fun _ _ _ ↦ findUnpersisted_skip hskipped)
    fun _ _ ↦ findUnpersisted_alike

theorem redundantPair_alike :
    Alike (t.redundantPair settings bug) ((t.putAt k e).redundantPair settings (past k bug)) := by
  refine .bind_of_ok (target_alike hk bug) fun range hrange ↦ .ofExcept ?_
  have hskipped := he.skipped hb hmarked hrange
  exact search_alike hk (fun _ _ _ ↦ findRedundant_skip hskipped) fun _ _ ↦ findRedundant_alike

end PutAt

end Trace

def Fixer.reindex (f : Nat → Nat) (s : Fixer) : Fixer :=
  { s with fixed := s.fixed.map f, unfixed := s.unfixed.map f }

/-- Where the bugs have moved by `f`, `x'` does what `x` did before. -/
def Mirrors {α : Type} (f : Nat → Nat) (x x' : Fixing α) : Prop :=
  ∀ s a r', x' (s.reindex f) = (.ok a, r') ↔ ∃ r, x s = (.ok a, r) ∧ r' = r.reindex f

namespace Mirrors

variable {α β : Type} {f : Nat → Nat} {x x' : Fixing α} {g g' : α → Fixing β}

theorem lift {y y' : Attempt RepairError α} (h : Alike y y') :
    Mirrors f (liftM y : Fixing α) (liftM y' : Fixing α) := by
  intro s a r'
  simp only [Stateful.lift_eq_ok_iff, h a]
  constructor
  · rintro ⟨ha, rfl⟩
    exact ⟨s, ⟨ha, rfl⟩, rfl⟩
  · rintro ⟨r, ⟨ha, rfl⟩, rfl⟩
    exact ⟨ha, rfl⟩

theorem pure (a : α) : Mirrors f (pure a : Fixing α) (pure a) := lift (.refl (.ok a))

theorem bind (hx : Mirrors f x x') (hg : ∀ a, Mirrors f (g a) (g' a)) :
    Mirrors f (x >>= g) (x' >>= g') := by
  intro s b r'
  simp only [Stateful.bind_eq_ok_iff]
  constructor
  · rintro ⟨a, q', hxa', hga'⟩
    obtain ⟨q, hxa, rfl⟩ := (hx s a q').1 hxa'
    obtain ⟨r, hga, rfl⟩ := (hg a q b r').1 hga'
    exact ⟨r, ⟨a, q, hxa, hga⟩, rfl⟩
  · rintro ⟨r, ⟨a, q, hxa, hga⟩, rfl⟩
    exact ⟨a, q.reindex f, (hx s a _).2 ⟨q, hxa, rfl⟩, (hg a q b _).2 ⟨r, hga, rfl⟩⟩

theorem modify {h h' : Fixer → Fixer} (hh : ∀ s, h' (s.reindex f) = (h s).reindex f) :
    Mirrors f (modify h : Fixing PUnit) (modify h') := by
  intro s a r'
  change (modifyGet fun s ↦ ((), h' s) : Fixing PUnit) _ = _ ↔
    ∃ r, (modifyGet fun s ↦ ((), h s) : Fixing PUnit) s = _ ∧ _
  simp only [Stateful.modifyGet_eq_ok_iff, Prod.mk.injEq, true_and, hh]
  exact ⟨fun hr ↦ ⟨h s, rfl, hr.symm⟩, fun ⟨r, hr, hr'⟩ ↦ by rw [hr, hr']⟩

theorem forM {g g' : Nat → Fixing Unit} {l : List Nat} (h : ∀ n ∈ l, Mirrors f (g n) (g' (f n))) :
    Mirrors f (l.forM g) ((l.map f).forM g') := by
  induction l with
  | nil => exact .pure ()
  | cons n l ih =>
    obtain ⟨hn, hl⟩ := List.forall_mem_cons.1 h
    exact .bind hn fun _ ↦ ih hl

end Mirrors

namespace RepairTask

variable {task : RepairTask} {f : Nat → Nat}

theorem addFix_mirrors (i : InstrId) (fix : Fix) : Mirrors f (addFix i fix) (addFix i fix) := by
  intro s new r'
  simp only [addFix_apply, show (s.reindex f).fixes = s.fixes from rfl]
  cases s.fixes.add i fix with
  | error e => exact ⟨fun h ↦ (nomatch h), fun ⟨_, h, _⟩ ↦ (nomatch h)⟩
  | ok x =>
    constructor
    · rintro ⟨⟩
      exact ⟨_, rfl, rfl⟩
    · rintro ⟨r, ⟨⟩, rfl⟩
      rfl

theorem addFixes_mirrors (l : List (InstrId × Fix)) : Mirrors f (addFixes l) (addFixes l) := by
  induction l with
  | nil => exact .pure false
  | cons x l ih => exact .bind (addFix_mirrors x.1 x.2) fun _ ↦ .bind ih fun _ ↦ .pure _

section PutAt

variable (hk : k ≤ task.trace.events.length) (he : task.trace.Unrelated task.settings e) {b : Event}
  (hb : task.trace.events[bug]? = some b) (hmarked : b.isBug = true)
include hk he hb hmarked

theorem assertPersisted_mirrors : Mirrors (past k) (task.assertPersisted bug)
    ({ task with trace := task.trace.putAt k e }.assertPersisted (past k bug)) :=
  .bind (.lift (Trace.unpersisted_alike hk he hb hmarked)) fun _ ↦
    .bind (.lift (.refl _)) fun _ ↦ addFixes_mirrors _

theorem requiredFlush_mirrors : Mirrors (past k) (task.requiredFlush bug)
    ({ task with trace := task.trace.putAt k e }.requiredFlush (past k bug)) := by
  refine .bind (.lift (Trace.redundantPair_alike hk he hb hmarked)) fun _ ↦ ?_
  refine .bind (.lift (.refl _)) fun _ ↦ .bind (.modify fun _ ↦ rfl) fun _ ↦ ?_
  refine .bind (.lift (.refl _)) fun _ ↦ ?_
  split
  · exact addFixes_mirrors _
  split
  · exact .pure false
  · exact addFixes_mirrors _

theorem handle_mirrors : Mirrors (past k) (task.handle bug)
    ({ task with trace := task.trace.putAt k e }.handle (past k bug)) := by
  rw [handle_eq hb hmarked, handle_eq ((Trace.getElem?_putAt hk bug).trans hb) hmarked]
  split
  · exact assertPersisted_mirrors hk he hb hmarked
  · exact .pure false
  · exact requiredFlush_mirrors hk he hb hmarked
  · exact .pure false

theorem file_mirrors : Mirrors (past k) (task.file bug)
    ({ task with trace := task.trace.putAt k e }.file (past k bug)) := by
  refine .bind (handle_mirrors hk he hb hmarked) fun new ↦ ?_
  split <;> refine .modify fun s ↦ ?_ <;> simp [Fixer.reindex]

end PutAt

theorem handleAll_mirrors (hk : k ≤ task.trace.events.length)
    (he : task.trace.Unrelated task.settings e) : Mirrors (past k) task.handleAll
      { task with trace := task.trace.putAt k e }.handleAll := by
  rw [handleAll, handleAll, Trace.bugs_putAt hk he.unmarked]
  refine .forM fun bug hbug ↦ ?_
  obtain ⟨b, hb, hmarked⟩ := Trace.mem_bugs_iff.1 hbug
  exact file_mirrors hk he hb hmarked

end RepairTask

/-- An event of no concern to any bug can be put in anywhere. A repair can be computed where it could be
before, with the same fixes, and the same bugs fixed and not fixed, at the indices they then have. -/
theorem computeRepair_putAt (hk : k ≤ t.events.length) (he : t.Unrelated settings e)
    (o' : Outcome) (graphs : List String) :
    computeRepair settings p (t.putAt k e) = (.ok o', graphs) ↔
      ∃ o, computeRepair settings p t = (.ok o, graphs) ∧
        o' = { o with fixed := o.fixed.map (past k), unfixed := o.unfixed.map (past k) } := by
  cases hmake : RepairTask.make settings p t with
  | error f =>
    refine iff_of_false (fun h ↦ ?_) (fun ⟨o, h, _⟩ ↦ ?_)
    · obtain ⟨_, _, hmake', -⟩ := RepairTask.computeRepair_eq_ok (congrArg Prod.fst h)
      cases hmake.symm.trans (RepairTask.make_trace hmake' t)
    · obtain ⟨_, _, hmake', -⟩ := RepairTask.computeRepair_eq_ok (congrArg Prod.fst h)
      cases hmake.symm.trans hmake'
  | ok task =>
    obtain ⟨-, rfl, rfl, -⟩ := RepairTask.make_eq_ok hmake
    have hruns := RepairTask.handleAll_mirrors hk he
    simp only [RepairTask.computeRepair_eq_ok_iff hmake,
      RepairTask.computeRepair_eq_ok_iff (RepairTask.make_trace hmake _)]
    constructor
    · rintro ⟨s', hrun', rfl, rfl⟩
      obtain ⟨s, hrun, rfl⟩ := (hruns ∅ () s').1 hrun'
      exact ⟨_, ⟨s, hrun, rfl, rfl⟩, rfl⟩
    · rintro ⟨_, ⟨s, hrun, rfl, rfl⟩, rfl⟩
      exact ⟨_, (hruns ∅ () _).2 ⟨s, hrun, rfl⟩, rfl, rfl⟩

section Sample

open Sample

def assertedOnce : Trace :=
  trace [event .store ("main", 10) [] word false, event .assertPersisted ("main", 16) [] word true]

def flushElsewhere : Event := event .flush ("main", 11) [] ⟨0x2000, 64⟩ false

theorem flushElsewhere_unrelated : assertedOnce.Unrelated .usual flushElsewhere where
  unmarked := rfl
  kind := nofun
  apart _ := by
    have hword : ∀ b ∈ assertedOnce.events, b.addresses = [word] := by decide
    refine ⟨⟨0x2000, 64⟩, rfl, by decide, fun b hb _ range hrange ↦ ?_⟩
    cases (hword b hb).symm.trans hrange
    decide

theorem computeRepair_putAt_flushElsewhere :
    1 ≤ assertedOnce.events.length ∧ assertedOnce.Unrelated .usual flushElsewhere ∧
      computeRepair .usual straightLine.program (assertedOnce.putAt 1 flushElsewhere) =
        (.ok ⟨.insert ∅ ⟨0⟩ (.plain .addFlushAndFence), [2], [], false⟩, []) := by
  have hrun : computeRepair .usual straightLine.program assertedOnce =
      (.ok ⟨.insert ∅ ⟨0⟩ (.plain .addFlushAndFence), [1], [], false⟩, []) := by decide +kernel
  exact ⟨by decide, flushElsewhere_unrelated,
    (computeRepair_putAt (by decide) flushElsewhere_unrelated _ _).2 ⟨_, hrun, rfl⟩⟩

end Sample

end Durability
