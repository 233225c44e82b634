import Durability.Proofs.Execution
import Durability.Proofs.Program.Position
import Durability.Window
import Mathlib.Logic.Relation

namespace Durability

open Relation

namespace Program

variable {p : Program} {i j k i' j' k' : InstrId} {l l' : List InstrId} {b : BlockId} {n : Nat}

theorem endsWindow_eq_false_iff : p.endsWindow i = .ok false ↔
    ∃ ins, p.instr i = .ok ins ∧ ins.op.isTerminator = false ∧ p.isDefinedCall i = .ok false := by
  rw [endsWindow, bind_eq_ok_iff]
  refine exists_congr fun ins ↦ and_congr_right fun _ ↦ ?_
  cases ins.op.isTerminator <;> simp [pure, Except.pure]

def Falls (p : Program) (i j : InstrId) : Prop :=
  p.endsWindow i = .ok false ∧ p.nextInBlock i = .ok (some j)

/-- No window goes on behind `i`. -/
def Stuck (p : Program) (i : InstrId) : Prop :=
  p.endsWindow i = .ok true ∨ p.nextInBlock i = .ok none

def Heads (p : Program) (i : InstrId) : Prop := ∀ j, ¬ p.Falls j i

/-- Control falls from `i` through the instructions of a list to the last one. -/
inductive Run (p : Program) : InstrId → List InstrId → InstrId → Prop
  | last {i : InstrId} : p.Stuck i → Run p i [i] i
  | cons {i j k : InstrId} {l : List InstrId} :
      p.Falls i j → Run p j l k → Run p i (i :: l) k

theorem Falls.right_unique (h : p.Falls i j) (h' : p.Falls i j') : j = j' := by
  cases h.2.symm.trans h'.2
  rfl

theorem Falls.not_stuck (h : p.Falls i j) : ¬ p.Stuck i := by
  rintro (h' | h')
  · cases h.1.symm.trans h'
  · cases h.2.symm.trans h'

theorem nextInBlock_inj (hv : p.Valid) (once : p.ListsOnce) (h : p.nextInBlock i = .ok (some j))
    (h' : p.nextInBlock i' = .ok (some j)) : i = i' := by
  rw [← prevInBlock_eq_some_iff hv once] at h h'
  cases h.symm.trans h'
  rfl

theorem functionOf_eq_of_falls (hv : p.Valid) (h : ReflTransGen p.Falls i j) :
    p.functionOf i = p.functionOf j := by
  induction h with
  | refl => rfl
  | tail _ hfalls ih =>
    obtain ⟨f, hi, hj⟩ := functionOf_of_nextInBlock hfalls.2 hv
    rw [ih, hi, hj]

theorem Heads.unique (hv : p.Valid) (once : p.ListsOnce) (hi : p.Heads i) (hi' : p.Heads i')
    (h : ReflTransGen p.Falls i j) (h' : ReflTransGen p.Falls i' j) : i = i' := by
  induction h with
  | refl =>
    obtain rfl | ⟨k, -, hk⟩ := ReflTransGen.cases_tail h'
    · rfl
    · exact absurd hk (hi k)
  | tail _ hfalls ih =>
    obtain rfl | ⟨k, hk, hk'⟩ := ReflTransGen.cases_tail h'
    · exact absurd hfalls (hi' _)
    · exact ih (nextInBlock_inj hv once hk'.2 hfalls.2 ▸ hk)

theorem firstInBlock_of_entry {f : FunctionId} (h : p.entry f = .ok (some i)) :
    ∃ b, p.firstInBlock b = .ok (some i) := by
  obtain ⟨F, -, h⟩ := bind_eq_ok_iff.1 h
  split at h
  · cases h
  · next b _ => exact ⟨b, h⟩

theorem heads_of_firstInBlock (hv : p.Valid) (once : p.ListsOnce)
    (h : p.firstInBlock b = .ok (some i)) : p.Heads i := by
  intro j hj
  obtain ⟨b', k, -, hi⟩ := (nextInBlock_eq_some_iff hv once).1 hj.2
  cases ((standsAt_of_firstInBlock h).unique hi hv once).2

theorem heads_of_call (hv : p.Valid) (once : p.ListsOnce) (hcall : p.isDefinedCall i = .ok true)
    (h : p.nextInBlock i = .ok (some j)) : p.Heads j := by
  intro k hk
  obtain rfl := nextInBlock_inj hv once hk.2 h
  obtain ⟨ins, -, -, hnot⟩ := endsWindow_eq_false_iff.1 hk.1
  cases hcall.symm.trans hnot

namespace Run

theorem eq_cons (h : p.Run i l k) : ∃ rest, l = i :: rest := by
  cases h with
  | last => exact ⟨[], rfl⟩
  | cons => exact ⟨_, rfl⟩

theorem unique (h : p.Run i l k) (h' : p.Run i l' k') : l = l' ∧ k = k' := by
  induction h generalizing l' k' with
  | last hstuck =>
    cases h' with
    | last => exact ⟨rfl, rfl⟩
    | cons hfalls => exact absurd hstuck hfalls.not_stuck
  | cons hfalls _ ih =>
    cases h' with
    | last hstuck => exact absurd hstuck hfalls.not_stuck
    | cons hfalls' h' =>
      obtain rfl := hfalls.right_unique hfalls'
      obtain ⟨rfl, rfl⟩ := ih h'
      exact ⟨rfl, rfl⟩

theorem falls_of_mem (h : p.Run i l k) (hj : j ∈ l) : ReflTransGen p.Falls i j := by
  induction h with
  | last =>
    obtain rfl := List.mem_singleton.1 hj
    exact .refl
  | cons hfalls _ ih =>
    obtain rfl | hj := List.mem_cons.1 hj
    · exact .refl
    · exact .head hfalls (ih hj)

theorem mem_of_falls (h : p.Run i l k) (hj : ReflTransGen p.Falls i j) : j ∈ l := by
  induction hj using ReflTransGen.head_induction_on generalizing l with
  | refl =>
    obtain ⟨rest, rfl⟩ := h.eq_cons
    exact List.mem_cons_self
  | head hfalls _ ih =>
    cases h with
    | last hstuck => exact absurd hstuck hfalls.not_stuck
    | cons hfalls' h =>
      obtain rfl := hfalls.right_unique hfalls'
      exact List.mem_cons_of_mem _ (ih h)

theorem last_mem (h : p.Run i l k) : k ∈ l := by
  induction h with
  | last => exact List.mem_cons_self
  | cons _ _ ih => exact List.mem_cons_of_mem _ ih

theorem last_stuck (h : p.Run i l k) : p.Stuck k := by
  induction h with
  | last hstuck => exact hstuck
  | cons _ _ ih => exact ih

theorem split {before rest : List InstrId} (h : p.Run i l k) (hl : l = before ++ j :: rest) :
    p.Run j (j :: rest) k := by
  induction before generalizing i l with
  | nil =>
    obtain ⟨rest', rfl⟩ := h.eq_cons
    cases hl
    exact h
  | cons i' before ih =>
    cases h with
    | last => simp at hl
    | cons hfalls h =>
      cases hl
      exact ih h rfl

theorem nodup (h : p.Run i l k) : l.Nodup := by
  induction h with
  | last => exact List.nodup_singleton _
  | cons hfalls h ih =>
    refine List.nodup_cons.2 ⟨fun hmem ↦ ?_, ih⟩
    -- what falls back to itself would be followed by less than follows it
    obtain ⟨before, rest, hl⟩ := List.append_of_mem hmem
    have hlength := congrArg List.length ((Run.cons hfalls h).unique (h.split hl)).1
    have hl := congrArg List.length hl
    simp only [List.length_append, List.length_cons] at hlength hl
    omega

end Run

theorem run_of_scanForward (h : p.scanForward n i = .ok k) : ∃ l, p.Run i l k := by
  induction n generalizing i with
  | zero => cases h
  | succ n ih =>
    obtain ⟨_ | _, hends, h⟩ := bind_eq_ok_iff.1 h
    · obtain ⟨_ | j, hnext, h⟩ := bind_eq_ok_iff.1 h
      · cases pure_eq_ok_iff.1 h
        exact ⟨_, .last (.inr hnext)⟩
      · obtain ⟨l, hl⟩ := ih h
        exact ⟨_, .cons ⟨hends, hnext⟩ hl⟩
    · cases pure_eq_ok_iff.1 h
      exact ⟨_, .last (.inl hends)⟩

theorem scanTo_of_scanForward (h : p.scanForward n i = .ok k) : ∃ l, p.scanTo k n i = .ok l := by
  induction n generalizing i with
  | zero => cases h
  | succ n ih =>
    rw [scanTo]
    by_cases hik : i = k
    · exact ⟨[i], by rw [if_pos hik]; rfl⟩
    · rw [if_neg hik]
      obtain ⟨_ | _, -, h⟩ := bind_eq_ok_iff.1 h
      · obtain ⟨_ | j, hnext, h⟩ := bind_eq_ok_iff.1 h
        · exact absurd (pure_eq_ok_iff.1 h) hik
        · obtain ⟨l, hl⟩ := ih h
          exact exists_bind_eq_ok hnext (exists_bind_eq_ok hl ⟨_, rfl⟩)
      · exact absurd (pure_eq_ok_iff.1 h) hik

theorem standsAt_of_scanTo (h : p.scanTo k n i = .ok l) :
    ∃ rest, l = i :: rest ∧ ∀ j ∈ rest, ∃ b m, p.StandsAt b m j := by
  induction n generalizing i l with
  | zero => cases h
  | succ n ih =>
    rw [scanTo] at h
    split at h
    · exact ⟨[], (pure_eq_ok_iff.1 h).symm, fun _ hj ↦ absurd hj List.not_mem_nil⟩
    · obtain ⟨_ | j, hnext, h⟩ := bind_eq_ok_iff.1 h
      · exact ⟨[], (pure_eq_ok_iff.1 h).symm, fun _ hj ↦ absurd hj List.not_mem_nil⟩
      · obtain ⟨l', hl', h⟩ := bind_eq_ok_iff.1 h
        obtain ⟨rest, rfl, hrest⟩ := ih hl'
        obtain ⟨b, m, -, -, hstands⟩ := standsAt_of_nextInBlock hnext
        refine ⟨j :: rest, (pure_eq_ok_iff.1 h).symm, List.forall_mem_cons.2 ⟨?_, hrest⟩⟩
        exact ⟨b, m + 1, hstands⟩

theorem standsAt_of_scanBackward (h : p.scanBackward n j = .ok i) :
    i = j ∨ ∃ b k, p.StandsAt b k i := by
  induction n generalizing j with
  | zero => cases h
  | succ n ih =>
    obtain ⟨_ | k, hprev, h⟩ := bind_eq_ok_iff.1 h
    · exact .inl (pure_eq_ok_iff.1 h).symm
    · obtain ⟨_ | _, -, h⟩ := bind_eq_ok_iff.1 h
      · obtain rfl | hstands := ih h
        · exact .inr (exists_standsAt_of_prevInBlock hprev)
        · exact .inr hstands
      · exact .inl (pure_eq_ok_iff.1 h).symm

theorem functionOf_of_scanBackward (hv : p.Valid) (h : p.scanBackward n j = .ok i) :
    p.functionOf i = p.functionOf j := by
  induction n generalizing j with
  | zero => cases h
  | succ n ih =>
    obtain ⟨_ | k, hprev, h⟩ := bind_eq_ok_iff.1 h
    · rw [pure_eq_ok_iff.1 h]
    · obtain ⟨_ | _, -, h⟩ := bind_eq_ok_iff.1 h
      · obtain ⟨f, hk, hj⟩ := functionOf_of_prevInBlock hprev hv
        rw [ih h, hk, hj]
      · rw [pure_eq_ok_iff.1 h]

theorem Run.scanTo_eq_ok (hrun : p.Run i l k) (h : p.scanTo k n i = .ok l') : l' = l := by
  induction n generalizing i l l' with
  | zero => cases h
  | succ n ih =>
    rw [scanTo] at h
    cases hrun with
    | last hstuck =>
      rw [if_pos rfl] at h
      exact (pure_eq_ok_iff.1 h).symm
    | cons hfalls hrun =>
      have hne : i ≠ k := by
        rintro rfl
        exact hfalls.not_stuck hrun.last_stuck
      rw [if_neg hne] at h
      obtain ⟨j?, hnext, h⟩ := bind_eq_ok_iff.1 h
      cases hfalls.2.symm.trans hnext
      obtain ⟨l'', hl, h⟩ := bind_eq_ok_iff.1 h
      rw [← pure_eq_ok_iff.1 h, ih hrun hl]

theorem falls_of_scanBackward (hv : p.Valid) (once : p.ListsOnce)
    (h : p.scanBackward n j = .ok i) : p.Heads i ∧ ReflTransGen p.Falls i j := by
  induction n generalizing j with
  | zero => cases h
  | succ n ih =>
    obtain ⟨_ | k, hprev, h⟩ := bind_eq_ok_iff.1 h
    · cases pure_eq_ok_iff.1 h
      refine ⟨fun k hk ↦ ?_, .refl⟩
      cases hprev.symm.trans ((prevInBlock_eq_some_iff hv once).2 hk.2)
    · have hnext := (prevInBlock_eq_some_iff hv once).1 hprev
      obtain ⟨_ | _, hcall, h⟩ := bind_eq_ok_iff.1 h
      · obtain ⟨hheads, hfalls⟩ := ih h
        obtain ⟨b, m, hk, hj⟩ := (nextInBlock_eq_some_iff hv once).1 hnext
        obtain ⟨B, ins, hB, hins, hvalid⟩ := hk.instr hv
        have hterm : ins.op.isTerminator = false := Bool.eq_false_iff.2 fun hterm ↦ by
          have hend := hvalid.inside hterm
          obtain ⟨B', hB', hj⟩ := hj
          cases hB.symm.trans hB'
          have := (List.getElem?_eq_some_iff.1 hj).1
          omega
        exact ⟨hheads, hfalls.tail ⟨endsWindow_eq_false_iff.2 ⟨ins, hins, hterm, hcall⟩, hnext⟩⟩
      · cases pure_eq_ok_iff.1 h
        exact ⟨heads_of_call hv once hcall hnext, .refl⟩

theorem standsAt_of_falls (h : ReflTransGen p.Falls i j) (hi : ∃ b k, p.StandsAt b k i) :
    ∃ b k, p.StandsAt b k j := by
  obtain rfl | ⟨i', -, hfalls⟩ := ReflTransGen.cases_tail h
  · exact hi
  · obtain ⟨b, k, -, -, hj⟩ := standsAt_of_nextInBlock hfalls.2
    exact ⟨b, k + 1, hj⟩

theorem standsAt_of_falls_to (h : ReflTransGen p.Falls i j) (hj : ∃ b k, p.StandsAt b k j) :
    ∃ b k, p.StandsAt b k i := by
  obtain rfl | ⟨j', hfalls, -⟩ := ReflTransGen.cases_head h
  · exact hj
  · obtain ⟨b, k, -, hi, -⟩ := standsAt_of_nextInBlock hfalls.2
    exact ⟨b, k, hi⟩

variable {s : List InstrId} {c d e : Config} {L : List Config}

theorem Falls.step (h : p.Falls i j) : p.Step ⟨s, i⟩ ⟨s, j⟩ := by
  obtain ⟨ins, hi, hterm, hcall⟩ := endsWindow_eq_false_iff.1 h.1
  exact .next hi hterm hcall h.2

theorem Step.eq_of_falls (h : p.Step ⟨s, i⟩ d) (hfalls : p.Falls i j) : d = ⟨s, j⟩ := by
  obtain ⟨hends, hnext⟩ := hfalls
  obtain ⟨ins, hi, hterm, hcall⟩ := endsWindow_eq_false_iff.1 hends
  have hop : ins.op ≠ .ret := fun hop ↦ by
    rw [hop] at hterm
    cases hterm
  obtain ⟨s', j'⟩ := d
  obtain ⟨rfl, ⟨-, -, hnext'⟩ | ⟨b, hb, -⟩⟩ := h.of_flow hi hop (.inr hcall)
  · cases hnext.symm.trans hnext'
    rfl
  · rw [Op.targets_eq_nil hterm] at hb
    cases hb

/-- The call sites below which control is are calls that it can return to. -/
def Returns (p : Program) (s : List InstrId) : Prop := ∀ i ∈ s, p.isDefinedCall i = .ok true

theorem Step.returns (h : p.Step c d) (hc : p.Returns c.stack) : p.Returns d.stack := by
  cases h with
  | next => exact hc
  | call _ hdefined =>
    intro i hi
    obtain hi | hi := List.mem_append.1 hi
    · exact hc i hi
    · rwa [List.mem_singleton.1 hi]
  | ret => exact fun i hi ↦ hc i (List.mem_append_left _ hi)
  | branch => exact hc

theorem Step.eq_of_falls_to (hv : p.Valid) (once : p.ListsOnce) (h : p.Step c ⟨s, j⟩)
    (hc : p.Returns c.stack) (hfalls : p.Falls i j) : c = ⟨s, i⟩ := by
  cases h with
  | next _ _ _ hnext => rw [nextInBlock_inj hv once hnext hfalls.2]
  | call _ _ hentry =>
    obtain ⟨b, hfirst⟩ := firstInBlock_of_entry hentry
    exact absurd hfalls (heads_of_firstInBlock hv once hfirst i)
  | ret _ _ hnext =>
    have hcall := hc _ (List.mem_append_right _ (List.mem_singleton.2 rfl))
    exact absurd hfalls (heads_of_call hv once hcall hnext i)
  | branch _ _ hfirst => exact absurd hfalls (heads_of_firstInBlock hv once hfirst i)

theorem Execution.mem_of_falls_to (hv : p.Valid) (once : p.ListsOnce) (h : p.Execution c L e)
    (hc : p.Returns c.stack) (hj : ⟨s, j⟩ ∈ L) (hfalls : p.Falls i j) : c = ⟨s, i⟩ ∨ ⟨s, i⟩ ∈ L := by
  induction h with
  | step => cases hj
  | cons hstep _ ih =>
    obtain rfl | hj := List.mem_cons.1 hj
    · exact .inl (hstep.eq_of_falls_to hv once hc hfalls)
    · obtain rfl | hi := ih (hstep.returns hc) hj
      · exact .inr List.mem_cons_self
      · exact .inr (List.mem_cons_of_mem _ hi)

/-- An execution from the end of a window is within one only after it has come in by its beginning. -/
theorem Execution.mem_of_falls (hv : p.Valid) (once : p.ListsOnce) (h : p.Execution c L e)
    (hc : p.Returns c.stack) (hstuck : p.Stuck c.instr) (hfalls : ReflTransGen p.Falls i j)
    (hj : ⟨s, j⟩ ∈ L) : ⟨s, i⟩ ∈ L := by
  induction hfalls with
  | refl => exact hj
  | tail _ hfalls ih =>
    obtain rfl | hmem := h.mem_of_falls_to hv once hc hj hfalls
    · exact absurd hstuck hfalls.not_stuck
    · exact ih hmem

/-- An execution that begins in a window ends within it or goes through all that is left of it. -/
theorem Execution.through {rest : List InstrId} (h : p.Execution ⟨s, i⟩ L e)
    (hrun : p.Run i (i :: rest) k) :
    (∃ before behind, rest = before ++ e.instr :: behind ∧ e.stack = s ∧
        L = before.map (Config.mk s)) ∨
      ∃ L', L = rest.map (Config.mk s) ++ L' ∧ p.Execution ⟨s, k⟩ L' e := by
  induction rest generalizing i L with
  | nil =>
    cases hrun with
    | last => exact .inr ⟨L, rfl, h⟩
    | cons _ hrun => cases hrun
  | cons j rest ih =>
    cases hrun with
    | cons hfalls hrun =>
      obtain ⟨rest', heq⟩ := hrun.eq_cons
      cases heq
      cases h with
      | step hstep =>
        cases hstep.eq_of_falls hfalls
        exact .inl ⟨[], rest, rfl, rfl, rfl⟩
      | cons hstep hexec =>
        cases hstep.eq_of_falls hfalls
        obtain ⟨before, behind, hrest, hstack, rfl⟩ | ⟨L', rfl, hleft⟩ := ih hexec hrun
        · exact .inl ⟨j :: before, behind, by rw [hrest]; rfl, hstack, rfl⟩
        · exact .inr ⟨L', rfl, hleft⟩

end Program

namespace Window

variable {p : Program} {c : ContextId} {i j : InstrId} {w v : Window} {l l' : List InstrId}

/-- The instructions of a window are those of a list, and the window could not begin earlier. -/
structure Spans (p : Program) (w : Window) (l : List InstrId) : Prop where
  heads : p.Heads w.first
  stands : ∃ b k, p.StandsAt b k w.first
  run : p.Run w.first l w.last

theorem startingAt_eq_ok (h : startingAt p c i = .ok w) (hheads : p.Heads i)
    (hstands : ∃ b k, p.StandsAt b k i) :
    w.context = c ∧ w.first = i ∧ ∃ l, w.Spans p l := by
  obtain ⟨k, hk, h⟩ := bind_eq_ok_iff.1 h
  cases pure_eq_ok_iff.1 h
  obtain ⟨l, hl⟩ := Program.run_of_scanForward hk
  exact ⟨rfl, rfl, l, hheads, hstands, hl⟩

theorem around_cases (h : around p c i = .ok w) : w.context = c ∧ w.anchor = i ∧
    p.scanBackward p.walkBound i = .ok w.first ∧ p.scanForward p.walkBound w.first = .ok w.last := by
  obtain ⟨j, hback, h⟩ := bind_eq_ok_iff.1 h
  obtain ⟨w', hw', h⟩ := bind_eq_ok_iff.1 h
  obtain ⟨k, hscan, hw'⟩ := bind_eq_ok_iff.1 hw'
  cases pure_eq_ok_iff.1 hw'
  cases pure_eq_ok_iff.1 h
  exact ⟨rfl, rfl, hback, hscan⟩

theorem around_eq_ok (hv : p.Valid) (once : p.ListsOnce) (h : around p c i = .ok w)
    (hstands : ∃ b k, p.StandsAt b k i) :
    w.context = c ∧ w.anchor = i ∧ ∃ l, w.Spans p l ∧ i ∈ l := by
  obtain ⟨first, hback, h⟩ := bind_eq_ok_iff.1 h
  obtain ⟨v, hstart, hw⟩ := bind_eq_ok_iff.1 h
  cases pure_eq_ok_iff.1 hw
  obtain ⟨hheads, hfalls⟩ := Program.falls_of_scanBackward hv once hback
  obtain ⟨hc, rfl, l, hspans⟩ :=
    startingAt_eq_ok hstart hheads (Program.standsAt_of_falls_to hfalls hstands)
  exact ⟨hc, rfl, l, ⟨hspans.heads, hspans.stands, hspans.run⟩, hspans.run.mem_of_falls hfalls⟩

namespace Spans

variable (h : w.Spans p l)

include h

theorem instrs_eq_ok (hl : w.instrs p = .ok l') : l' = l := h.run.scanTo_eq_ok hl

theorem functionOf (hv : p.Valid) (hi : i ∈ l) : p.functionOf i = p.functionOf w.first :=
  (Program.functionOf_eq_of_falls hv (h.run.falls_of_mem hi)).symm

theorem first_eq (hv : p.Valid) (once : p.ListsOnce) (h' : v.Spans p l') (hi : i ∈ l)
    (hi' : i ∈ l') : w.first = v.first :=
  h.heads.unique hv once h'.heads (h.run.falls_of_mem hi) (h'.run.falls_of_mem hi')

end Spans

end Window

end Durability
