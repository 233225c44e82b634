import Durability.Proofs.WindowGraph.Search

namespace Durability

variable {p : Program} {pts : PointsTo} {v : Value} {i : InstrId} {l l' : List InstrId}
  {P : Config → Value → Prop} {L L' : List Config}

namespace Program

def FlushedIn (p : Program) (pts : PointsTo) (v : Value) (l : List InstrId) : Prop :=
  ∃ i ∈ l, ∃ w, p.Flushes i w ∧ pts.mayAlias v w = true

theorem FlushedIn.mono (h : p.FlushedIn pts v l) (hl : ∀ i ∈ l, i ∈ l') : p.FlushedIn pts v l' := by
  obtain ⟨i, hi, hw⟩ := h
  exact ⟨i, hl i hi, hw⟩

/-- Every store that `P` holds of is followed by a flush. -/
def FlushesAll (p : Program) (pts : PointsTo) (P : Config → Value → Prop) : List Config → Prop
  | [] => True
  | c :: L => (∀ v, p.Stores c.instr v → P c v → p.FlushedIn pts v (L.map Config.instr)) ∧
      FlushesAll p pts P L

theorem FlushesAll.append (h : p.FlushesAll pts P L) (h' : p.FlushesAll pts P L') :
    p.FlushesAll pts P (L ++ L') := by
  induction L with
  | nil => exact h'
  | cons c L ih =>
    refine ⟨fun v hv hP ↦ (h.1 v hv hP).mono fun i hi ↦ ?_, ih h.2⟩
    change i ∈ (L ++ L').map Config.instr
    rw [List.map_append]
    exact List.mem_append_left _ hi

theorem FlushesAll.flushedIn {before after : List Config} {c : Config}
    (h : p.FlushesAll pts P (before ++ c :: after)) (hv : p.Stores c.instr v) (hP : P c v) :
    p.FlushedIn pts v (after.map Config.instr) := by
  induction before with
  | nil => exact h.1 v hv hP
  | cons _ before ih => exact ih h.2

theorem flushesAll_of_not (h : ∀ c ∈ L, ∀ v, ¬ P c v) : p.FlushesAll pts P L := by
  induction L with
  | nil => trivial
  | cons c L ih =>
    obtain ⟨hc, hL⟩ := List.forall_mem_cons.1 h
    exact ⟨fun v _ hP ↦ absurd hP (hc v), ih hL⟩

theorem flushesAll_concat {c : Config} {w : Value} (hc : p.Flushes c.instr w)
    (h : ∀ d ∈ L, ∀ v, P d v → pts.mayAlias v w = true) : p.FlushesAll pts P (L ++ [c]) := by
  induction L with
  | nil => exact ⟨fun v hv ↦ absurd hv (not_stores_of_flushes hc), trivial⟩
  | cons d L ih =>
    obtain ⟨hd, hL⟩ := List.forall_mem_cons.1 h
    refine ⟨fun v _ hP ↦ ⟨c.instr, List.mem_map_of_mem ?_, w, hc, hd v hP⟩, ih hL⟩
    exact List.mem_append_right L (List.mem_singleton.2 rfl)

end Program

namespace WindowGraph

variable {g : WindowGraph} {n : Nat} {w : Window} {pm : PmFacts} {pending pending' : List Value}

theorem operand_zero_eq_ok {ins : Instruction} (h : Program.operand ins 0 = .ok v) :
    ins.inputs.head? = some v := by
  rw [List.head?_eq_getElem?]
  exact Fault.lookup_eq_ok_iff.1 h

theorem mem_pendingAfter_iff (h : pendingAfter p pts pm pending i = .ok pending') :
    v ∈ pending' ↔ v ∈ pending ∧ ¬ p.FlushedIn pts v [i] ∨
      p.Stores i v ∧ pm.reaches pts v = true := by
  obtain ⟨ins, hins, h⟩ := bind_eq_ok_iff.1 h
  have hstores : p.Stores i v ↔ ins.op = .store ∧ ins.pointer? = some v := by
    constructor
    · intro hs
      obtain ⟨ins', hins', hs⟩ := hs
      cases hins.symm.trans hins'
      exact hs
    · exact fun hs ↦ ⟨ins, hins, hs⟩
  have hflushed : p.FlushedIn pts v [i] ↔
      ∃ how w, ins.op = .flush how ∧ ins.pointer? = some w ∧ pts.mayAlias v w = true := by
    constructor
    · intro hf
      obtain ⟨j, hj, w, hf, halias⟩ := hf
      obtain rfl := List.mem_singleton.1 hj
      obtain ⟨ins', how, hins', hop, hw⟩ := hf
      cases hins.symm.trans hins'
      exact ⟨how, w, hop, hw, halias⟩
    · intro hf
      obtain ⟨how, w, hop, hw, halias⟩ := hf
      exact ⟨i, List.mem_singleton_self i, w, ⟨ins, how, hins, hop, hw⟩, halias⟩
  rw [hstores, hflushed]
  split at h
  · next hop =>
    obtain ⟨w, hw, h⟩ := bind_eq_ok_iff.1 h
    have hpointer : ins.pointer? = some w := by
      rw [Instruction.pointer?, hop]
      exact operand_zero_eq_ok hw
    obtain rfl := pure_eq_ok_iff.1 h
    by_cases hreaches : pm.reaches pts w = true
    · simp only [hop, hpointer, hreaches]
      grind
    · simp only [hop, hpointer, hreaches]
      grind
  · next how hop =>
    obtain ⟨w, hw, h⟩ := bind_eq_ok_iff.1 h
    have hpointer : ins.pointer? = some w := by
      rw [Instruction.pointer?, hop]
      exact operand_zero_eq_ok hw
    obtain rfl := pure_eq_ok_iff.1 h
    simp [hop, hpointer]
  · next hstore hflush =>
    obtain rfl := pure_eq_ok_iff.1 h
    have hstore : ins.op ≠ .store := hstore
    have hflush : ∀ how, ins.op ≠ .flush how := hflush
    simp [hstore, hflush]

theorem pendingAfter_eq_ok (h : pendingAfter p pts pm pending i = .ok pending') :
    (∀ v ∈ pending, v ∈ pending' ∨ p.FlushedIn pts v [i]) ∧
      ∀ v, p.Stores i v → pm.reaches pts v = true → v ∈ pending' := by
  refine ⟨fun v hv ↦ ?_, fun v hv hreaches ↦ (mem_pendingAfter_iff h).2 (.inr ⟨hv, hreaches⟩)⟩
  by_cases hflushed : p.FlushedIn pts v [i]
  · exact .inr hflushed
  · exact .inl ((mem_pendingAfter_iff h).2 (.inl ⟨hv, hflushed⟩))

theorem flushesAll_of_foldlM {P : Config → Value → Prop}
    (hP : ∀ c v, P c v → pm.reaches pts v = true)
    (h : l.foldlM (pendingAfter p pts pm) pending = .ok []) :
    (∀ v ∈ pending, p.FlushedIn pts v l) ∧ ∀ s, p.FlushesAll pts P (l.map (Config.mk s)) := by
  induction l generalizing pending with
  | nil =>
    cases h
    exact ⟨fun v hv ↦ absurd hv List.not_mem_nil, fun s ↦ trivial⟩
  | cons i l ih =>
    obtain ⟨pending', hi, h⟩ := foldlM_cons_eq_ok_iff.1 h
    obtain ⟨hwait, hstore⟩ := pendingAfter_eq_ok hi
    obtain ⟨hflushed, hall⟩ := ih h
    refine ⟨fun v hv ↦ ?_, fun s ↦ ⟨fun v hv hPv ↦ ?_, hall s⟩⟩
    · obtain hv | hv := hwait v hv
      · exact (hflushed v hv).mono fun _ ↦ List.mem_cons_of_mem i
      · exact hv.mono fun j hj ↦ List.mem_singleton.1 hj ▸ List.mem_cons_self
    · have hl : (l.map (Config.mk s)).map Config.instr = l := by simp [Function.comp_def]
      rw [hl]
      exact hflushed v (hstore v hv (hP _ v hPv))

theorem leavesUnflushed_eq_ok {x : Context} {b : Bool} (hn : g.windowAt? n = some w)
    (hx : g.contexts.get w.context = .ok x) (h : g.leavesUnflushed p pts n = .ok b) :
    ∃ l pending, g.effectiveWindow p n = .ok l ∧
      l.foldlM (pendingAfter p pts x.pm) [] = .ok pending ∧ b = !pending.isEmpty := by
  obtain ⟨node, hnode, h⟩ := bind_eq_ok_iff.1 h
  rw [windowAt?, node_eq_ok_iff.1 hnode] at hn
  cases hn
  obtain ⟨x', hx', h⟩ := bind_eq_ok_iff.1 h
  cases hx.symm.trans hx'
  obtain ⟨l, hl, h⟩ := bind_eq_ok_iff.1 h
  obtain ⟨pending, hpending, h⟩ := bind_eq_ok_iff.1 h
  exact ⟨l, pending, hl, hpending, (pure_eq_ok_iff.1 h).symm⟩

theorem flushesAll_of_leavesUnflushed {x : Context} {P : Config → Value → Prop}
    (hn : g.windowAt? n = some w) (hx : g.contexts.get w.context = .ok x)
    (hP : ∀ c v, P c v → x.pm.reaches pts v = true)
    (h : g.leavesUnflushed p pts n = .ok false) :
    ∃ l, g.effectiveWindow p n = .ok l ∧ ∀ s, p.FlushesAll pts P (l.map (Config.mk s)) := by
  obtain ⟨l, pending, hl, hpending, hempty⟩ := leavesUnflushed_eq_ok hn hx h
  obtain rfl : pending = [] := by simpa using hempty
  exact ⟨l, hl, (flushesAll_of_foldlM hP hpending).2⟩

def effectiveFrom (g : WindowGraph) (n : Nat) (instrs : List InstrId) : Nat :=
  if isRoot n then ((instrs.idxOf? g.start.anchor).map (· + 1)).getD 0 else 0

def effectiveUpTo (g : WindowGraph) (n : Nat) (instrs : List InstrId) : Nat :=
  if g.isStop n then (instrs.idxOf? g.stop.anchor).getD instrs.length else instrs.length

theorem effectiveWindow_eq_ok {instrs : List InstrId} (hn : g.windowAt? n = some w)
    (hw : w.Spans p instrs) (h : g.effectiveWindow p n = .ok l) : w.instrs p = .ok instrs ∧
      l = if g.effectiveFrom n instrs ≤ g.effectiveUpTo n instrs
        then (instrs.take (g.effectiveUpTo n instrs)).drop (g.effectiveFrom n instrs)
        else instrs.drop (g.effectiveFrom n instrs) := by
  obtain ⟨node, hnode, h⟩ := bind_eq_ok_iff.1 h
  rw [windowAt?, node_eq_ok_iff.1 hnode] at hn
  cases hn
  obtain ⟨instrs', hinstrs, h⟩ := bind_eq_ok_iff.1 h
  obtain rfl := hw.instrs_eq_ok hinstrs
  exact ⟨hinstrs, (pure_eq_ok_iff.1 h).symm⟩

section Bounds

variable {before mid rest after : List InstrId}

theorem effectiveFrom_eq (hnodup : (before ++ rest).Nodup)
    (hroot : if isRoot n then ∃ b, before = b ++ [g.start.anchor] else before = []) :
    g.effectiveFrom n (before ++ rest) = before.length := by
  rw [effectiveFrom]
  split at hroot
  · next hn =>
    obtain ⟨b, rfl⟩ := hroot
    rw [if_pos hn, (Program.idxOf?_eq_some_iff_of_nodup hnodup (k := b.length)).2 (by simp)]
    simp
  · next hn =>
    subst hroot
    rw [if_neg hn]
    rfl

theorem effectiveUpTo_eq (hnodup : (before ++ after).Nodup)
    (hstop : if g.isStop n then ∃ b, after = g.stop.anchor :: b else after = []) :
    g.effectiveUpTo n (before ++ after) = before.length := by
  rw [effectiveUpTo]
  split at hstop
  · next hn =>
    obtain ⟨b, rfl⟩ := hstop
    rw [if_pos hn, (Program.idxOf?_eq_some_iff_of_nodup hnodup (k := before.length)).2 (by simp)]
    rfl
  · next hn =>
    subst hstop
    rw [if_neg hn, List.append_nil]

/-- The part of a window that is looked at comes after the first event and before the second one. -/
theorem effectiveWindow_eq (hn : g.windowAt? n = some w) (hw : w.Spans p (before ++ mid ++ after))
    (hroot : if isRoot n then ∃ b, before = b ++ [g.start.anchor] else before = [])
    (hstop : if g.isStop n then ∃ b, after = g.stop.anchor :: b else after = [])
    (h : g.effectiveWindow p n = .ok l) : l = mid := by
  have hnodup := hw.run.nodup
  have hupTo := effectiveUpTo_eq hnodup hstop
  have hfrom : g.effectiveFrom n (before ++ mid ++ after) = before.length := by
    rw [List.append_assoc] at hnodup ⊢
    exact effectiveFrom_eq hnodup hroot
  have hl := (effectiveWindow_eq_ok hn hw h).2
  rw [hfrom, hupTo, if_pos (by simp), List.take_left, List.drop_left] at hl
  exact hl

theorem effectiveWindow_eq_behind (hn : g.windowAt? n = some w)
    (hw : w.Spans p (before ++ [g.start.anchor] ++ rest)) (hroot : isRoot n = true)
    (hstop : g.isStop n = true) (hmem : g.stop.anchor ∈ before ++ [g.start.anchor])
    (h : g.effectiveWindow p n = .ok l) : l = rest := by
  have hnodup := hw.run.nodup
  have hfrom := effectiveFrom_eq (g := g) hnodup (by rw [if_pos hroot]; exact ⟨before, rfl⟩)
  obtain ⟨k, hk, hanchor⟩ := List.getElem_of_mem hmem
  have hupTo : g.effectiveUpTo n (before ++ [g.start.anchor] ++ rest) = k := by
    have hidx := (Program.idxOf?_eq_some_iff_of_nodup hnodup (k := k)).2 (by
      rw [List.getElem?_append_left hk, List.getElem?_eq_getElem hk, hanchor])
    rw [effectiveUpTo, if_pos hstop, hidx]
    rfl
  have hl := (effectiveWindow_eq_ok hn hw h).2
  rw [hfrom, hupTo, if_neg (by omega), List.drop_left] at hl
  exact hl

end Bounds

end WindowGraph

end Durability
