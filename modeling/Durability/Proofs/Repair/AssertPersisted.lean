import Durability.Proofs.Repair.Fixes
import Durability.Proofs.Trace.Durable
import Durability.Sample.Programs
import Durability.Sample.Traces

namespace Durability

variable {settings : Settings} {t : Trace} {range : ByteRange} {e f : Event} {bug j : Nat}
  {kind : FixKind}

namespace Event

def toFlush (e : Event) : Event :=
  { e with kind := .flush, name := EventKind.flush.name, isBug := false }

def toFence (e : Event) : Event :=
  { e with kind := .fence, name := EventKind.fence.name, addresses := [], isBug := false }

/-- Whether the search for what left `range` without persistence ends at `e`. -/
def Settles (range : ByteRange) (e : Event) : Prop :=
  e.kind = .store ∧ e.addresses = [range] ∨
    e.kind = .flush ∧ ∃ a, e.addresses = [a] ∧ a.overlaps range

end Event

def FixKind.events (e : Event) : FixKind → List Event
  | addFlush => [e.toFlush]
  | addFence => [e.toFence]
  | addFlushAndFence => [e.toFlush, e.toFence]
  | _ => []

namespace Trace

def putBehind (t : Trace) (j : Nat) (added : List Event) : Trace :=
  { t with log := t.events.take (j + 1) ++ added ++ t.events.drop (j + 1) }

def DurableAt (t : Trace) (range : ByteRange) (index : Nat) : Prop :=
  Durable range (t.events.take index)

/-- The latest event before `bug` at which the search for `range` ends is `e`, at `j`. -/
structure AnchorAt (t : Trace) (bug : Nat) (range : ByteRange) (j : Nat) (e : Event) : Prop where
  before : j < bug
  event : t.events[j]? = some e
  settles : e.Settles range
  latest : ∀ k f, j < k → k < bug → t.events[k]? = some f → ¬ f.Settles range

theorem checkAddress_eq_ok {k : Nat} {a : ByteRange} (h : checkAddress settings k e = .ok a) :
    e.addresses = [a] := by
  rw [checkAddress] at h
  split at h
  · cases h
  · next b hb =>
    split at h
    · cases h
      rw [Event.single?] at hb
      split at hb
      · next hl =>
        cases hb
        exact hl
      · cases hb
    · cases h

theorem checkAddress_of_inOneLine {k : Nat} {a : ByteRange} (haddress : e.addresses = [a])
    (hline : a.inOneLine settings.cacheLineSize = true) : checkAddress settings k e = .ok a := by
  rw [checkAddress, Event.single?, haddress]
  exact if_pos hline

def Passed (range : ByteRange) (e : Event) : Prop :=
  ¬ e.Settles range ∧ (e.kind.isOperation = true → ∃ a, e.addresses = [a])

/-- What is known of the fix for `e`, according to whether a fence is behind it. -/
def Mends (e : Event) (fenced : Prop) (kind : FixKind) : Prop :=
  e.kind = .store ∧ fenced ∧ kind = .addFlush ∨
    e.kind = .store ∧ ¬ fenced ∧ kind = .addFlushAndFence ∨
    e.kind = .flush ∧ ¬ fenced ∧ kind = .addFence

/-- The search ends at `e`, and `kind` is the fix for it; `fenced` tells of a fence behind `l`. -/
def Found (range : ByteRange) (fenced : Bool) (e : Event) (kind : FixKind) (l : List (Event × Nat)) :
    Prop :=
  ∃ later j earlier, l = later ++ (e, j) :: earlier ∧ (∀ x ∈ later, Passed range x.1) ∧
    e.Settles range ∧ Mends e (fenced = true ∨ ∃ x ∈ later, x.1.kind = .fence) kind

theorem Found.here {fenced : Bool} {j : Nat} {l : List (Event × Nat)} (hsettles : e.Settles range)
    (hmends : Mends e (fenced = true) kind) : Found range fenced e kind ((e, j) :: l) :=
  ⟨[], j, l, rfl, List.forall_mem_nil _, hsettles, by simpa using hmends⟩

theorem Found.past {fenced fenced' : Bool} {d : Event} {j : Nat} {l : List (Event × Nat)}
    (h : Found range fenced' e kind l) (hd : Passed range d)
    (hfenced : fenced' = true ↔ fenced = true ∨ d.kind = .fence) :
    Found range fenced e kind ((d, j) :: l) := by
  obtain ⟨later, k, earlier, rfl, hlater, hsettles, hmends⟩ := h
  refine ⟨(d, j) :: later, k, earlier, rfl, List.forall_mem_cons.2 ⟨hd, hlater⟩, hsettles, ?_⟩
  rw [hfenced] at hmends
  simpa only [List.exists_mem_cons_iff, or_assoc] using hmends

theorem findUnpersisted_eq_ok {fenced : Bool} {l : List (Event × Nat)}
    (h : findUnpersisted settings bug range fenced l = .ok (e, kind)) :
    Found range fenced e kind l := by
  induction l generalizing fenced with
  | nil => cases h
  | cons x l ih =>
    obtain ⟨d, k⟩ := x
    rw [findUnpersisted] at h
    split at h
    · next hk =>
      refine (ih h).past ⟨?_, ?_⟩ (by simp [hk])
      · simp [Event.Settles, hk]
      · simp [hk, EventKind.isOperation]
    · next hnofence =>
      split at h
      · next hop =>
        obtain ⟨a, ha, hrest⟩ := bind_eq_ok_iff.1 h
        have ha := checkAddress_eq_ok ha
        split at hrest
        · next hstore =>
          obtain ⟨hk, rfl⟩ := hstore
          cases pure_eq_ok_iff.1 hrest
          refine .here (.inl ⟨hk, ha⟩) ?_
          cases fenced <;> simp [Mends, hk]
        · next hnostore =>
          split at hrest
          · next hflush =>
            split at hrest
            · cases hrest
            · next hf =>
              cases pure_eq_ok_iff.1 hrest
              refine .here (.inr ⟨hflush.1, a, ha, hflush.2⟩) ?_
              simp [Mends, hflush.1, hf]
          · next hnoflush =>
            refine (ih hrest).past ⟨?_, fun _ ↦ ⟨a, ha⟩⟩ (by simp [hnofence])
            rintro (⟨hk, hrange⟩ | ⟨hk, b, hb, hover⟩)
            · exact hnostore ⟨hk, List.singleton_inj.1 (ha.symm.trans hrange)⟩
            · cases ha.symm.trans hb
              exact hnoflush ⟨hk, hover⟩
      · next hop =>
        refine (ih h).past ⟨?_, fun h ↦ absurd h hop⟩ (by simp [hnofence])
        rintro (⟨hk, -⟩ | ⟨hk, -⟩) <;> simp [hk, EventKind.isOperation] at hop

end Trace

open Trace

variable {A B : List Event}

/-- What mending does, on the events themselves. -/
theorem durable_mended_iff (hsettles : e.Settles range) (hpassed : ∀ f ∈ B, Passed range f)
    (hmends : Mends e (∃ g ∈ B, g.kind = .fence) kind) :
    Durable range (A ++ e :: kind.events e ++ B) ↔
      (∀ f ∈ B, ¬ f.Touches .store range) ∧ (range.overlaps range ∨ Flushed range (A ++ [e])) := by
  have noFlush : ∀ f ∈ B, ¬ f.Touches .flush range := by
    rintro f hf ⟨hk, a, ha, hover⟩
    obtain ⟨hnot, hsingle⟩ := hpassed f hf
    obtain ⟨b, hb⟩ := hsingle (by rw [hk]; rfl)
    obtain rfl := List.mem_singleton.1 (hb ▸ ha)
    exact hnot (.inr ⟨hk, a, hb, hover⟩)
  -- behind a fence of our own nothing is flushed, and the fence stores nothing
  have noFlush' : ∀ f ∈ e.toFence :: B, ¬ f.Touches .flush range :=
    List.forall_mem_cons.2 ⟨fun h ↦ (nomatch h.1), noFlush⟩
  have noStore : (∀ f ∈ e.toFence :: B, ¬ f.Touches .store range) ↔
      ∀ f ∈ B, ¬ f.Touches .store range := by
    rw [List.forall_mem_cons, and_iff_right fun h : e.toFence.Touches .store range ↦ nomatch h.1]
  have ours : ∃ g ∈ e.toFence :: B, g.kind = .fence := ⟨_, List.mem_cons_self, rfl⟩
  have hflush : e.kind = .store → (e.toFlush.Touches .flush range ↔ range.overlaps range) := by
    intro hk
    obtain ⟨-, hrange⟩ | ⟨hk', -⟩ := hsettles
    · simp [Event.Touches, Event.toFlush, hrange]
    · cases hk.symm.trans hk'
  obtain ⟨hk, hfenced, rfl⟩ | ⟨hk, -, rfl⟩ | ⟨hk, -, rfl⟩ := hmends
  · rw [← hflush hk, ← flushed_concat (f := e.toFlush) nofun, ← durable_append_iff noFlush hfenced]
    simp [FixKind.events]
  · rw [← hflush hk, ← flushed_concat (f := e.toFlush) nofun, ← noStore,
      ← durable_append_iff noFlush' ours]
    simp [FixKind.events]
  · have hflushed : Flushed range (A ++ [e]) := by
      refine (flushed_concat (by rw [hk]; decide)).2 (.inl ?_)
      obtain ⟨hk', -⟩ | ⟨-, a, ha, hover⟩ := hsettles
      · cases hk.symm.trans hk'
      · exact ⟨hk, a, by rw [ha]; exact List.mem_cons_self, hover⟩
    rw [← noStore, or_iff_right_of_imp fun _ ↦ hflushed, ← durable_append_iff noFlush' ours]
    simp [FixKind.events]

namespace Trace

theorem mem_drop_take_iff : f ∈ (t.events.take bug).drop j ↔
    ∃ k, j ≤ k ∧ k < bug ∧ t.events[k]? = some f := by
  rw [List.mem_iff_getElem?]
  constructor
  · rintro ⟨k, hk⟩
    rw [List.getElem?_drop, List.getElem?_take] at hk
    split at hk
    · next h => exact ⟨j + k, Nat.le_add_right j k, h, hk⟩
    · cases hk
  · rintro ⟨k, hj, hk, hf⟩
    refine ⟨k - j, ?_⟩
    rw [List.getElem?_drop, List.getElem?_take, Nat.add_sub_cancel' hj, if_pos hk, hf]

/-- `before` are the events before the anchor and `behind` those between it and the bug. -/
structure SplitAt (t : Trace) (bug j : Nat) (e : Event) (before behind : List Event) : Prop where
  length : before.length = j
  lt : j < bug
  take : t.events.take bug = before ++ e :: behind

theorem splitAt_of_before {later earlier : List (Event × Nat)}
    (h : t.before bug = later ++ (e, j) :: earlier) :
    ∃ A, t.SplitAt bug j e A (later.reverse.map Prod.fst) := by
  have hzip : (t.events.take bug).zipIdx = earlier.reverse ++ (e, j) :: later.reverse := by
    rw [← List.reverse_reverse (List.zipIdx _), ← before, h]
    simp
  have hj : (t.events.take bug).zipIdx[earlier.length]? = some (e, j) := by
    rw [hzip, List.getElem?_append_right (by simp)]
    simp
  rw [List.getElem?_zipIdx] at hj
  obtain ⟨_, hlt, hj⟩ := Option.map_eq_some_iff.1 hj
  have hlt := (List.getElem?_eq_some_iff.1 hlt).1
  rw [List.length_take] at hlt
  cases hj
  refine ⟨earlier.reverse.map Prod.fst, by simp, by omega, ?_⟩
  have := congrArg (List.map Prod.fst) hzip
  rwa [List.zipIdx_map_fst, List.map_append, List.map_cons] at this

namespace SplitAt

variable {A B : List Event} (h : t.SplitAt bug j e A B)

include h

theorem event : t.events[j]? = some e := by
  have : (t.events.take bug)[j]? = some e := by simp [h.take, ← h.length]
  rwa [List.getElem?_take_of_lt h.lt] at this

theorem take_succ : t.events.take (j + 1) = A ++ [e] := by
  have : (t.events.take bug).take (j + 1) = A ++ [e] := by
    rw [h.take, ← h.length, List.take_length_add_append]
    rfl
  rwa [List.take_take, Nat.min_eq_left h.lt] at this

theorem mem_behind : f ∈ B ↔ ∃ k, j < k ∧ k < bug ∧ t.events[k]? = some f := by
  have : (t.events.take bug).drop (j + 1) = B := by simp [h.take, ← h.length]
  rw [← this, mem_drop_take_iff]
  rfl

theorem take_putBehind (added : List Event) :
    (t.putBehind j added).events.take (bug + added.length) = A ++ e :: added ++ B := by
  have hdrop : (t.events.drop (j + 1)).take (bug - (j + 1)) = B := by
    rw [← List.drop_take, h.take]
    simp [← h.length]
  have hlt := h.lt
  have hlength : bug + added.length = (A ++ [e] ++ added).length + (bug - (j + 1)) := by
    simp only [List.length_append, List.length_singleton, h.length]
    omega
  rw [putBehind, events_mk, h.take_succ, hlength, List.take_length_add_append, hdrop]
  simp

end SplitAt

end Trace

namespace RepairTask

variable {task : RepairTask} {new : Bool} {s s' : Fixer}

/-- A failed assertion is mended so that the asserted range is durable at the bug, exactly if behind
the anchor nothing has been stored to a part of the range, and the range holds a byte or all that was
stored to it up to the anchor has been flushed. -/
theorem assertPersisted_durable_iff (h : (task.assertPersisted bug).run s = (.ok new, s')) :
    ∃ range j e kind is, task.trace.target task.settings bug = .ok range ∧
      task.trace.AnchorAt bug range j e ∧
      task.trace.unpersisted task.settings bug = .ok (e, kind) ∧ task.instrsOf e = .ok is ∧
      (addFixes (is.map (·, .plain kind))).run s = (.ok new, s') ∧
      ((task.trace.putBehind j (kind.events e)).DurableAt range (bug + (kind.events e).length) ↔
        (∀ k f, j < k → k < bug → task.trace.events[k]? = some f → ¬ f.Touches .store range) ∧
          (range.overlaps range ∨ Flushed range (task.trace.events.take (j + 1)))) := by
  obtain ⟨⟨e, kind⟩, r, hrun, h⟩ := Stateful.bind_eq_ok_iff.1 h
  obtain ⟨hfind, rfl⟩ := Stateful.lift_eq_ok_iff.1 hrun
  obtain ⟨is, r, hrun, hadd⟩ := Stateful.bind_eq_ok_iff.1 h
  obtain ⟨his, rfl⟩ := Stateful.lift_eq_ok_iff.1 hrun
  obtain ⟨range, hrange, hscan⟩ := bind_eq_ok_iff.1 hfind
  obtain ⟨later, j, earlier, hbefore, hlater, hsettles, hmends⟩ :=
    findUnpersisted_eq_ok (Attempt.ofExcept_eq_ok_iff.1 hscan)
  obtain ⟨A, hsplit⟩ := splitAt_of_before hbefore
  have hpassed : ∀ f ∈ later.reverse.map Prod.fst, Passed range f := fun f hf ↦ by
    obtain ⟨x, hx, rfl⟩ := List.mem_map.1 hf
    exact hlater x (List.mem_reverse.1 hx)
  have hmends : Mends e (∃ g ∈ later.reverse.map Prod.fst, g.kind = .fence) kind := by
    simpa using hmends
  refine ⟨range, j, e, kind, is, hrange, ⟨hsplit.lt, hsplit.event, hsettles, fun k f hj hk hf ↦ ?_⟩,
    hfind, his, hadd, ?_⟩
  · exact (hpassed f (hsplit.mem_behind.2 ⟨k, hj, hk, hf⟩)).1
  · rw [DurableAt, hsplit.take_putBehind, durable_mended_iff hsettles hpassed hmends,
      hsplit.take_succ]
    simp only [hsplit.mem_behind]
    grind

def oneStore : Trace :=
  Sample.trace [Sample.event .store ("main", 10) [] Sample.word false,
    Sample.event .assertPersisted ("main", 16) [] Sample.word true]

theorem assertPersisted_durable_oneStore : ∃ task s', ∃ e : Event,
    make .usual Sample.straightLine.program oneStore = .ok task ∧
      (task.assertPersisted 1).run ∅ = (.ok true, s') ∧
      (oneStore.putBehind 0 [e.toFlush, e.toFence]).DurableAt Sample.word 3 := by
  have hrun : (make .usual Sample.straightLine.program oneStore).map
      (fun task ↦ ((task.assertPersisted 1).run ∅).1) = .ok (.ok true) := by decide +kernel
  obtain ⟨task, htask, hrun⟩ := map_eq_ok_iff.1 hrun
  have hrun : (task.assertPersisted 1).run ∅ = (.ok true, _) := Prod.ext hrun rfl
  obtain ⟨range, j, e, kind, is, hrange, hanchor, hfind, -, -, hiff⟩ :=
    assertPersisted_durable_iff hrun
  obtain ⟨-, hsettings, htrace, -⟩ := make_eq_ok htask
  rw [hsettings, htrace] at hrange hfind
  rw [htrace] at hiff
  obtain rfl : Sample.word = range := by
    have : oneStore.target .usual 1 = .ok Sample.word := by decide +kernel
    exact Except.ok.inj (this.symm.trans hrange)
  obtain rfl : kind = .addFlushAndFence := by
    have : (oneStore.unpersisted .usual 1).map Prod.snd = .ok .addFlushAndFence := by
      decide +kernel
    rw [hfind] at this
    exact Except.ok.inj this
  obtain rfl : j = 0 := Nat.lt_one_iff.1 hanchor.before
  exact ⟨task, _, e, htask, hrun, hiff.2 ⟨fun k f hj hk ↦ by omega, .inl (by decide)⟩⟩

def overlappingStores : Trace :=
  Sample.trace [Sample.event .store ("main", 10) [] Sample.word false,
    Sample.event .store ("main", 13) [] ⟨0x1004, 8⟩ false,
    Sample.event .assertPersisted ("main", 16) [] Sample.word true]

theorem assertPersisted_not_durable : ∃ task s', ∃ e : Event,
    make .usual Sample.straightLine.program overlappingStores = .ok task ∧
      (task.assertPersisted 2).run ∅ = (.ok true, s') ∧
      overlappingStores.AnchorAt 2 Sample.word 0 e ∧
      overlappingStores.unpersisted .usual 2 = .ok (e, .addFlushAndFence) ∧
      ¬ (overlappingStores.putBehind 0 (FixKind.addFlushAndFence.events e)).DurableAt
        Sample.word 4 := by
  have hrun : (make .usual Sample.straightLine.program overlappingStores).map
      (fun task ↦ ((task.assertPersisted 2).run ∅).1) = .ok (.ok true) := by decide +kernel
  obtain ⟨task, htask, hrun⟩ := map_eq_ok_iff.1 hrun
  refine ⟨task, _, overlappingStores.events[0], htask, Prod.ext hrun rfl, ⟨by decide, rfl, ?_, ?_⟩, ?_,
    fun h ↦ ?_⟩
  · exact .inl ⟨rfl, rfl⟩
  · intro k f hj hk hf
    obtain rfl : k = 1 := by omega
    cases hf
    rintro (⟨-, h⟩ | ⟨h, -⟩)
    · exact absurd h (by decide)
    · cases h
  · decide +kernel
  · -- the second store comes after the flush, and nothing comes after it
    obtain ⟨f, g, hfg, -⟩ := h overlappingStores.events[1] []
      ⟨[overlappingStores.events[0], _, _], rfl⟩ ⟨rfl, by decide⟩
    cases hfg

end RepairTask

end Durability
