import Durability.Proofs.Program.Linked

namespace Durability

namespace Program

variable {p : Program} {i j k : InstrId} {l l' : List InstrId} {b : BlockId} {B : Block} {n : Nat}

/-- What stands right behind a call of a defined function, if `l` is what stands behind `i`. -/
def startsBehind (p : Program) (i : InstrId) : List InstrId → List InstrId
  | [] => []
  | j :: l => if p.isDefinedCall i = .ok true then j :: p.startsBehind j l else p.startsBehind j l

/-- The first instruction of a list, and those right behind a call of a defined function. -/
def starts (p : Program) : List InstrId → List InstrId
  | [] => []
  | i :: l => i :: p.startsBehind i l

namespace Run

theorem endsWindow_of_mem_dropLast (h : p.Run i l k) (hj : j ∈ l.dropLast) :
    p.endsWindow j = .ok false := by
  induction h with
  | last => cases hj
  | cons hfalls h ih =>
    obtain ⟨rest, rfl⟩ := h.eq_cons
    rw [List.dropLast_cons_cons] at hj
    obtain rfl | hj := List.mem_cons.1 hj
    · exact hfalls.1
    · exact ih hj

theorem scanForward_eq_ok (h : p.Run i l k) (hv : p.Valid) (once : p.ListsOnce)
    (hi : ∃ b n, p.StandsAt b n i) :
    p.scanForward p.walkBound i = .ok k ∧ p.scanTo k p.walkBound i = .ok l := by
  obtain ⟨b, n, hi⟩ := hi
  obtain ⟨B, hB, -⟩ := id hi
  have hlength := hv.length_instrs_le once hB
  obtain ⟨k', hk⟩ := exists_scanForward (n := p.walkBound) hv once hB hi (by rw [walkBound]; omega)
  obtain ⟨l', hrun⟩ := run_of_scanForward hk
  obtain ⟨rfl, rfl⟩ := h.unique hrun
  obtain ⟨l'', hl⟩ := scanTo_of_scanForward hk
  exact ⟨hk, h.scanTo_eq_ok hl ▸ hl⟩

end Run

/-- A part of a list that makes up a window, which begins with `i`. -/
def Piece (p : Program) (i : InstrId) (l : List InstrId) : Prop := p.Heads i ∧ ∃ k, p.Run i l k

theorem standsAt_of_append {before : List InstrId} (hB : p.block b = .ok B)
    (hl : B.instrs = before ++ i :: l) : p.StandsAt b before.length i :=
  ⟨B, hB, by rw [hl, List.getElem?_append_right (Nat.le_refl _), Nat.sub_self, List.getElem?_cons_zero]⟩

theorem nextInBlock_of_append {before : List InstrId} (hv : p.Valid) (once : p.ListsOnce)
    (hB : p.block b = .ok B) (hl : B.instrs = before ++ i :: l) :
    p.nextInBlock i = .ok l.head? := by
  rw [(standsAt_of_append hB hl).nextInBlock hv once hB, hl, List.getElem?_append_right (Nat.le_add_right _ 1),
    Nat.add_sub_cancel_left, List.getElem?_cons_succ, List.head?_eq_getElem?]

theorem endsWindow_of_append {before : List InstrId} (hv : p.Valid) (hB : p.block b = .ok B)
    (hl : B.instrs = before ++ i :: j :: l) (hcall : p.isDefinedCall i = .ok false) :
    p.endsWindow i = .ok false := by
  obtain ⟨B', ins, hB', hins, hvalid⟩ := (standsAt_of_append hB hl).instr hv
  cases hB.symm.trans hB'
  refine endsWindow_eq_false_iff.2 ⟨ins, hins, Bool.eq_false_iff.2 fun hterm ↦ ?_, hcall⟩
  have hlength := hvalid.inside hterm
  rw [hl, List.length_append, List.length_cons, List.length_cons] at hlength
  omega

theorem endsWindow_of_isDefinedCall (hi : ∃ ins, p.instr i = .ok ins)
    (hcall : p.isDefinedCall i = .ok true) : p.endsWindow i = .ok true := by
  obtain ⟨ins, hins⟩ := hi
  refine bind_eq_ok_iff.2 ⟨ins, hins, ?_⟩
  split
  · rfl
  · exact hcall

/-- Seen from the end of a block, a call of a defined function is a piece of its own, and every other
instruction comes in front of the piece that follows it. -/
theorem exists_pieces {before : List InstrId} (hv : p.Valid) (once : p.ListsOnce)
    (hB : p.block b = .ok B) (hl : B.instrs = before ++ i :: l) :
    ∃ piece k pieces, p.Run i piece k ∧ List.Forall₂ p.Piece (p.startsBehind i l) pieces ∧
      piece ++ pieces.flatten = i :: l := by
  have hnext := nextInBlock_of_append hv once hB hl
  induction l generalizing before i with
  | nil => exact ⟨[i], i, [], .last (.inr hnext), .nil, rfl⟩
  | cons j l ih =>
    have hl' : B.instrs = (before ++ [i]) ++ j :: l := by rw [hl, List.append_assoc]; rfl
    obtain ⟨piece, k, pieces, hrun, hpieces, hflat⟩ := ih hl' (nextInBlock_of_append hv once hB hl')
    have hi := standsAt_of_append hB hl
    obtain ⟨defined, hcall⟩ := hi.exists_isDefinedCall hv
    cases defined with
    | false =>
      refine ⟨i :: piece, k, pieces, .cons ⟨endsWindow_of_append hv hB hl hcall, hnext⟩ hrun, ?_, ?_⟩
      · rwa [startsBehind, if_neg (by rw [hcall]; exact nofun)]
      · rw [List.cons_append, hflat]
    | true =>
      obtain ⟨-, ins, -, hins, -⟩ := hi.instr hv
      refine ⟨[i], i, piece :: pieces, .last (.inl (endsWindow_of_isDefinedCall ⟨ins, hins⟩ hcall)), ?_, ?_⟩
      · rw [startsBehind, if_pos hcall]
        exact .cons ⟨heads_of_call hv once hcall hnext, k, hrun⟩ hpieces
      · rw [List.flatten_cons, hflat]
        rfl

theorem exists_pieces_of_block (hv : p.Valid) (once : p.ListsOnce) (hB : p.block b = .ok B) :
    ∃ pieces, List.Forall₂ p.Piece (p.starts B.instrs) pieces ∧ pieces.flatten = B.instrs := by
  cases hl : B.instrs with
  | nil => exact ⟨[], .nil, rfl⟩
  | cons i l =>
    have hl' : B.instrs = [] ++ i :: l := hl
    obtain ⟨piece, k, pieces, hrun, hpieces, hflat⟩ := exists_pieces hv once hB hl'
    have hfirst : p.firstInBlock b = .ok (some i) := bind_eq_ok_iff.2 ⟨B, hB, by rw [hl]; rfl⟩
    exact ⟨piece :: pieces, .cons ⟨heads_of_firstInBlock hv once hfirst, k, hrun⟩ hpieces, hflat⟩

end Program

namespace Window

variable {p : Program} {c : ContextId} {b : BlockId} {B : Block} {i : InstrId} {l : List InstrId}
  {w : Window}

/-- The windows of a block in a context: they begin where windows begin, their instructions are those of
the block, nothing inside of them ends a window, and the window around an instruction is the one of them
that holds it. -/
structure Partition (p : Program) (c : ContextId) (B : Block) (ws : List Window) : Prop where
  starts : (p.starts B.instrs).mapM (startingAt p c) = .ok ws
  covers : ∃ ls, ws.mapM (·.instrs p) = .ok ls ∧ ls.flatten = B.instrs
  inside : ∀ w ∈ ws, ∀ l, w.instrs p = .ok l → ∀ i ∈ l.dropLast, ∃ ins, p.instr i = .ok ins ∧
    ins.op.isTerminator = false ∧ p.isDefinedCall i = .ok false
  around : ∀ i ∈ B.instrs, ∃ w ∈ ws, around p c i = .ok { w with anchor := i } ∧
    ∀ v ∈ ws, (∃ l, v.instrs p = .ok l ∧ i ∈ l) ↔ v = w

structure Covers (p : Program) (c : ContextId) (w : Window) (l : List InstrId) : Prop where
  context : w.context = c
  anchor : w.anchor = w.first
  spans : w.Spans p l
  instrs : w.instrs p = .ok l

theorem covers_of_piece (hv : p.Valid) (once : p.ListsOnce) (h : p.Piece i l)
    (hi : ∃ b n, p.StandsAt b n i) (c : ContextId) :
    ∃ w, startingAt p c i = .ok w ∧ w.Covers p c l := by
  obtain ⟨hheads, k, hrun⟩ := h
  obtain ⟨hforward, hto⟩ := hrun.scanForward_eq_ok hv once hi
  exact ⟨⟨c, i, k, i⟩, bind_eq_ok_iff.2 ⟨k, hforward, rfl⟩, rfl, rfl, ⟨hheads, hi, hrun⟩, hto⟩

theorem exists_windows {is : List InstrId} {pieces : List (List InstrId)} (hv : p.Valid)
    (once : p.ListsOnce) (h : List.Forall₂ p.Piece is pieces)
    (hstands : ∀ i ∈ pieces.flatten, ∃ b n, p.StandsAt b n i) (c : ContextId) :
    ∃ ws, is.mapM (startingAt p c) = .ok ws ∧ ws.mapM (·.instrs p) = .ok pieces ∧
      ∀ w ∈ ws, ∃ l, w.Covers p c l := by
  induction h with
  | nil => exact ⟨[], rfl, rfl, List.forall_mem_nil _⟩
  | cons hpiece _ ih =>
    rw [List.flatten_cons, List.forall_mem_append] at hstands
    obtain ⟨hhead, hrest⟩ := hstands
    obtain ⟨k, hrun⟩ := hpiece.2
    obtain ⟨rest, rfl⟩ := hrun.eq_cons
    obtain ⟨w, hw, hcovers⟩ := covers_of_piece hv once hpiece (hhead _ List.mem_cons_self) c
    obtain ⟨ws, hws, hinstrs, hcovered⟩ := ih hrest
    exact ⟨w :: ws, mapM_cons_eq_ok_iff.2 ⟨w, ws, hw, hws, rfl⟩,
      mapM_cons_eq_ok_iff.2 ⟨_, _, hcovers.instrs, hinstrs, rfl⟩,
      List.forall_mem_cons.2 ⟨⟨_, hcovers⟩, hcovered⟩⟩

theorem Covers.eq {v : Window} {l' : List InstrId} (hw : w.Covers p c l) (hv' : v.Covers p c l')
    (hv : p.Valid) (once : p.ListsOnce) (hi : i ∈ l) (hi' : i ∈ l') : v = w := by
  have hfirst := hw.spans.first_eq hv once hv'.spans hi hi'
  have hlast := (hw.spans.run.unique (hfirst ▸ hv'.spans.run)).2
  obtain ⟨_, _, _, _⟩ := w
  obtain ⟨_, _, _, _⟩ := v
  cases hw.context
  cases hv'.context
  cases hw.anchor
  cases hv'.anchor
  cases hfirst
  cases hlast
  rfl

theorem Spans.around_eq (h : w.Spans p l) (hv : p.Valid) (once : p.ListsOnce) (hi : i ∈ l)
    (hstands : ∃ b n, p.StandsAt b n i) : around p w.context i = .ok { w with anchor := i } := by
  obtain ⟨b, n, hn⟩ := hstands
  obtain ⟨B, hB, hget⟩ := id hn
  have hlength := hv.length_instrs_le once hB
  have hlt := (List.getElem?_eq_some_iff.1 hget).1
  obtain ⟨j, hback⟩ := Program.exists_scanBackward (n := p.walkBound) hv once hn
    (by rw [Program.walkBound]; omega)
  obtain ⟨hheads, hfalls⟩ := Program.falls_of_scanBackward hv once hback
  obtain rfl := hheads.unique hv once h.heads hfalls (h.run.falls_of_mem hi)
  obtain ⟨hforward, -⟩ := h.run.scanForward_eq_ok hv once h.stands
  refine bind_eq_ok_iff.2 ⟨w.first, hback, bind_eq_ok_iff.2 ⟨_, bind_eq_ok_iff.2 ⟨_, hforward, rfl⟩, ?_⟩⟩
  rfl

theorem exists_partition (hv : p.Valid) (once : p.ListsOnce) (hB : p.block b = .ok B)
    (c : ContextId) : ∃ ws, Partition p c B ws := by
  obtain ⟨pieces, hpieces, hflat⟩ := Program.exists_pieces_of_block hv once hB
  have hstands : ∀ i ∈ pieces.flatten, ∃ b n, p.StandsAt b n i := by
    intro i hi
    obtain ⟨n, hn⟩ := Program.standsAt_of_mem hB (hflat ▸ hi)
    exact ⟨b, n, hn⟩
  obtain ⟨ws, hws, hinstrs, hcovered⟩ := exists_windows hv once hpieces hstands c
  have hcovers : ∀ w ∈ ws, ∀ l, w.instrs p = .ok l → w.Covers p c l := by
    intro w hw l hl
    obtain ⟨l', hcover⟩ := hcovered w hw
    cases hl.symm.trans hcover.instrs
    exact hcover
  refine ⟨ws, hws, ⟨pieces, hinstrs, hflat⟩, fun w hw l hl i hi ↦ ?_, fun i hi ↦ ?_⟩
  · exact Program.endsWindow_eq_false_iff.1 ((hcovers w hw l hl).spans.run.endsWindow_of_mem_dropLast hi)
  · obtain ⟨l, hl, hil⟩ := List.mem_flatten.1 (hflat ▸ hi)
    obtain ⟨w, hw, hwl⟩ := exists_of_mem_mapM hinstrs hl
    have hcover := hcovers w hw l hwl
    refine ⟨w, hw, ?_, fun v hvs ↦ ⟨fun hv' ↦ ?_, ?_⟩⟩
    · rw [← hcover.context]
      exact hcover.spans.around_eq hv once hil (hstands i (hflat ▸ hi))
    · obtain ⟨l', hl', hil'⟩ := hv'
      exact hcover.eq (hcovers v hvs l' hl') hv once hil hil'
    · rintro rfl
      exact ⟨l, hwl, hil⟩

end Window

end Durability
