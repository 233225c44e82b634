import Durability.Proofs.Redundancy.Always
import Durability.Proofs.Redundancy.Unflushed
import Durability.Proofs.Repair.Fixes
import Durability.Proofs.WindowGraph.Walk
import Durability.Sample.Programs
import Durability.Sample.Traces

namespace Durability

variable {p : Program} {pts : PointsTo} {g : WindowGraph} {n : Nat} {w : Window} {x : Context}
  {v₀ : Value} {l a seg post rest : List InstrId} {L : List Config}

namespace WindowGraph

/-- The window of the first event holds `i` behind the anchor. -/
def BehindStart (p : Program) (g : WindowGraph) (i : InstrId) : Prop :=
  ∃ l, g.start.instrs p = .ok l ∧ i ∈ l.drop (l.idxOf g.start.anchor + 1)

/-- Where the two events share a window, the second one comes behind the first. -/
def InOrder (p : Program) (g : WindowGraph) : Prop :=
  g.start.same g.stop = true → g.BehindStart p g.stop.anchor

/-- Control is in the window of the first event. -/
def InStart (p : Program) (g : WindowGraph) (c : Config) : Prop :=
  ∃ x l, g.contexts.get g.start.context = .ok x ∧ g.start.instrs p = .ok l ∧
    c.stack = x.callStack ∧ c.instr ∈ l

/-- A store through `v` at `c` may go to what the first event accesses through `v₀`, and it lies behind
the first event in its window. If the events are in order it may lie in any other window as well, and
if the first event then is a flush also before it. -/
def Concerns (p : Program) (pts : PointsTo) (g : WindowGraph) (v₀ : Value) (c : Config) (v : Value) :
    Prop :=
  pts.mayAlias v v₀ = true ∧ (g.InStart p c ∧ g.BehindStart p c.instr ∨
    g.InOrder p ∧ (¬ g.InStart p c ∨ p.Flushes g.start.anchor v₀))

theorem instrs_of_leavesUnflushed {b : Bool} (hn : g.windowAt? n = some w)
    (hx : g.contexts.get w.context = .ok x) (hw : w.Spans p l)
    (h : g.leavesUnflushed p pts n = .ok b) : w.instrs p = .ok l := by
  obtain ⟨l', -, hl', -⟩ := leavesUnflushed_eq_ok hn hx h
  exact (effectiveWindow_eq_ok hn hw hl').1

theorem behindStart_iff {b : List InstrId} {i : InstrId}
    (h : g.start.instrs p = .ok (b ++ g.start.anchor :: rest))
    (hnodup : (b ++ g.start.anchor :: rest).Nodup) : g.BehindStart p i ↔ i ∈ rest := by
  have hdrop : (b ++ g.start.anchor :: rest).drop (b.length + 1) = rest := by
    rw [List.append_cons, List.drop_left' (by simp)]
  constructor
  · rintro ⟨l, hl, hi⟩
    cases h.symm.trans hl
    rwa [Program.idxOf_append_cons hnodup, hdrop] at hi
  · exact fun hi ↦ ⟨_, h, by rwa [Program.idxOf_append_cons hnodup, hdrop]⟩

namespace Complete

variable (hg : g.Complete p pts)
  (hall : ∀ {n w}, g.windowAt? n = some w → (g.children n ≠ [] ∨ g.isStop n = true) →
    g.leavesUnflushed p pts n = .ok false)
  (horder : g.InOrder p)
  (hv₀ : ∃ ins, p.instr g.start.anchor = .ok ins ∧ ins.pointer? = some v₀)

include hg hv₀ in
theorem reaches_of_concerns (hn : g.windowAt? n = some w) (hx : g.contexts.get w.context = .ok x)
    {c : Config} {v : Value} (h : g.Concerns p pts v₀ c v) : x.pm.reaches pts v = true := by
  obtain ⟨s, hs, hs₀⟩ := SortedSet.intersects_iff.1 h.1
  obtain ⟨ins, hins, hpointer⟩ := hv₀
  obtain ⟨x', hx', hfacts⟩ := (hg.sound.fits n w hn).2
  cases hx.symm.trans hx'
  exact PmFacts.reaches_of_has hs (hfacts s ⟨ins, v₀, hins, hpointer, hs₀⟩)

include hg hall hv₀ in
theorem flushesAll_effective (hn : g.windowAt? n = some w) (hx : g.contexts.get w.context = .ok x)
    (hw : w.Spans p (a ++ seg ++ post)) (hlive : g.children n ≠ [] ∨ g.isStop n = true)
    (ha : if isRoot n then ∃ b, a = b ++ [g.start.anchor] else a = [])
    (hpost : if g.isStop n then ∃ b, post = g.stop.anchor :: b else post = []) (s : List InstrId) :
    p.FlushesAll pts (g.Concerns p pts v₀) (seg.map (Config.mk s)) := by
  obtain ⟨l, hl, hflushes⟩ := flushesAll_of_leavesUnflushed hn hx
    (fun c v hc ↦ hg.reaches_of_concerns hv₀ hn hx hc) (hall hn hlive)
  rw [← effectiveWindow_eq hn hw ha hpost hl]
  exact hflushes s

include hg hall horder hv₀ in
/-- What the root has before the anchor of the first event does no harm when it comes up again. -/
theorem flushesAll_root (hn : g.windowAt? root = some w) (hx : g.contexts.get w.context = .ok x)
    (hw : w.Spans p (seg ++ post)) (hlive : g.children root ≠ [] ∨ g.isStop root = true)
    (hpost : if g.isStop root then ∃ b, post = g.stop.anchor :: b else post = []) :
    p.FlushesAll pts (g.Concerns p pts v₀) (seg.map (Config.mk x.callStack)) := by
  obtain rfl : g.start = w := Option.some.inj (hg.connected.root.symm.trans hn)
  have hinstrs := instrs_of_leavesUnflushed hn hx hw (hall hn hlive)
  have hanchor : g.start.anchor ∈ seg := by
    obtain ⟨l', hl', hmem⟩ := hg.start
    rw [(hl'.run.unique hw.run).1] at hmem
    split at hpost
    · next hstop =>
      obtain ⟨c, rfl⟩ := hpost
      obtain ⟨b, rest, hl⟩ := List.append_of_mem hmem
      have hnodup := hw.run.nodup
      have hbehind := horder (hg.isStop_eq hn ▸ hstop)
      rw [behindStart_iff (hl ▸ hinstrs) (hl ▸ hnodup)] at hbehind
      exact Program.mem_of_append_eq (hl ▸ hnodup) hl hbehind
    · subst hpost
      rwa [List.append_nil] at hmem
  obtain ⟨b, mid, rfl⟩ := List.append_of_mem hanchor
  have hspans : g.start.Spans p ((b ++ [g.start.anchor]) ++ mid ++ post) := by simpa using hw
  have hmid := hg.flushesAll_effective hall hv₀ hn hx hspans hlive ⟨b, rfl⟩ hpost x.callStack
  rw [List.append_cons, List.map_append]
  refine Program.FlushesAll.append ?_ hmid
  by_cases hflush : p.Flushes g.start.anchor v₀
  · rw [List.map_append]
    exact Program.flushesAll_concat hflush fun d _ v hv ↦ hv.1
  · refine Program.flushesAll_of_not fun c hc v hv ↦ ?_
    obtain ⟨i, hi, rfl⟩ := List.mem_map.1 hc
    have hnodup := hw.run.nodup
    rw [List.append_assoc, List.cons_append] at hinstrs hnodup
    obtain ⟨-, ⟨-, hbehind⟩ | ⟨-, hout | hflush'⟩⟩ := hv
    · rw [behindStart_iff hinstrs hnodup] at hbehind
      rw [List.append_cons] at hnodup
      exact (List.nodup_append.1 hnodup).2.2 i hi i hbehind rfl
    · refine hout ⟨x, _, hx, hinstrs, rfl, ?_⟩
      rw [List.append_cons]
      exact List.mem_append_left _ hi
    · exact hflush hflush'

include hg hall horder hv₀ in
theorem flushesAll_node (hn : g.windowAt? n = some w) (hx : g.contexts.get w.context = .ok x)
    (hw : w.Spans p (a ++ seg ++ post)) (hlive : g.children n ≠ [] ∨ g.isStop n = true)
    (ha : a = [] ∨ isRoot n = true ∧ ∃ b, a = b ++ [g.start.anchor])
    (hpost : if g.isStop n then ∃ b, post = g.stop.anchor :: b else post = []) :
    p.FlushesAll pts (g.Concerns p pts v₀) (seg.map (Config.mk x.callStack)) := by
  obtain rfl | ⟨hroot, ha⟩ := ha
  · cases hroot : isRoot n with
    | true =>
      obtain rfl := beq_iff_eq.1 hroot
      exact hg.flushesAll_root hall horder hv₀ hn hx hw hlive hpost
    | false => exact hg.flushesAll_effective hall hv₀ hn hx hw hlive (by simp [hroot]) hpost _
  · exact hg.flushesAll_effective hall hv₀ hn hx hw hlive (by rwa [if_pos hroot]) hpost _

include hg hall horder hv₀ in
theorem flushesAll_walk (h : g.Walk p n rest L) (hn : g.windowAt? n = some w)
    (hw : w.Spans p (a ++ rest)) (ha : a = [] ∨ isRoot n = true ∧ ∃ b, a = b ++ [g.start.anchor]) :
    p.FlushesAll pts (g.Concerns p pts v₀) L := by
  induction h generalizing a w with
  | @stop n _ _ before after hn' hx hstop =>
    cases hn.symm.trans hn'
    rw [← List.append_assoc] at hw
    exact hg.flushesAll_node hall horder hv₀ hn hx hw (.inr hstop) ha
      (by rw [if_pos hstop]; exact ⟨after, rfl⟩)
  | @pass n m _ v _ rest l L hn' hx hstop hm hv hl hwalk ih =>
    cases hn.symm.trans hn'
    rw [← List.append_nil (a ++ rest)] at hw
    have hnode := hg.flushesAll_node hall horder hv₀ hn hx hw (.inl (List.ne_nil_of_mem hm)) ha
      (by simp [hstop])
    exact hnode.append (ih (a := []) hv hl (.inl rfl))

variable (hv : p.Valid) (once : p.ListsOnce) {x z : Context}
  (hx : g.contexts.get g.start.context = .ok x) (hz : g.contexts.get g.stop.context = .ok z)
  (hexec : p.Execution ⟨x.callStack, g.start.anchor⟩ L ⟨z.callStack, g.stop.anchor⟩)
  (hfirst : ⟨z.callStack, g.stop.anchor⟩ ∉ L)

include hg hall hv₀ hv once hx hz hexec hfirst

theorem flushesAll_of_inOrder (horder : g.InOrder p) : p.FlushesAll pts (g.Concerns p pts v₀) L := by
  have hroot := hg.connected.root
  obtain ⟨l, hl, hmem⟩ := hg.start
  obtain ⟨b, rest, rfl⟩ := List.append_of_mem hmem
  have hahead : g.isStop root = true → g.stop.anchor ∈ rest := by
    intro hstop
    have hinstrs := instrs_of_leavesUnflushed hroot hx hl (hall hroot (.inr hstop))
    exact (behindStart_iff hinstrs hl.run.nodup).1 (horder (hg.isStop_eq hroot ▸ hstop))
  have hwalk := hg.walk hroot hv once hx hz hl hexec hfirst hahead
  rw [List.append_cons] at hl
  exact hg.flushesAll_walk hall horder hv₀ hwalk hroot hl (.inr ⟨rfl, b, rfl⟩)

/-- Control that has left the window arrives at the second event before it is behind the first one
again. -/
theorem flushesAll_of_not_inOrder (hnot : ¬ g.InOrder p) :
    p.FlushesAll pts (g.Concerns p pts v₀) L := by
  obtain ⟨hsame, hbefore⟩ := Classical.not_imp.1 hnot
  have hroot := hg.connected.root
  have hstop : g.isStop root = true := (hg.isStop_eq hroot).trans hsame
  obtain ⟨l, hl, hmem⟩ := hg.start
  obtain ⟨b, rest, rfl⟩ := List.append_of_mem hmem
  have hinstrs := instrs_of_leavesUnflushed hroot hx hl (hall hroot (.inr hstop))
  have hrest : ∀ i, g.BehindStart p i ↔ i ∈ rest := fun i ↦ behindStart_iff hinstrs hl.run.nodup
  rw [hrest] at hbefore
  obtain ⟨hmemStop, hcontext⟩ := hg.mem_of_isStop hroot hstop hl
  obtain ⟨inside, after, rfl, -⟩ | ⟨L', rfl, hleft⟩ := hexec.through (hl.run.split rfl)
  · exact absurd (List.mem_append_right _ List.mem_cons_self) hbefore
  · rw [List.append_cons] at hl hmemStop
    have hanchor := (List.mem_append.1 hmemStop).resolve_right hbefore
    obtain ⟨l, hwindow, hflushes⟩ := flushesAll_of_leavesUnflushed hroot hx
      (fun c v hc ↦ hg.reaches_of_concerns hv₀ hroot hx hc) (hall hroot (.inr hstop))
    rw [effectiveWindow_eq_behind hroot hl rfl hstop hanchor hwindow] at hflushes
    refine (hflushes x.callStack).append (Program.flushesAll_of_not fun c hc v hconcerns ↦ ?_)
    obtain ⟨-, ⟨⟨x', l', hx', -, hstack, -⟩, hbehind⟩ | ⟨horder, -⟩⟩ := hconcerns
    · cases hx.symm.trans hx'
      rw [hcontext] at hx
      cases hx.symm.trans hz
      obtain ⟨c₁, c₂, hsplit⟩ := List.append_of_mem hanchor
      have hfalls : Relation.ReflTransGen p.Falls g.stop.anchor c.instr := by
        rw [hsplit, List.append_assoc, List.cons_append] at hl
        exact (hl.run.split rfl).falls_of_mem
          (List.mem_cons_of_mem _ (List.mem_append_right c₂ ((hrest _).1 hbehind)))
      have hpassed := hleft.mem_of_falls hv once
        (fun i hi ↦ hg.sound.table.defined_of_mem hz hi) hl.run.last_stuck hfalls (s := x.callStack)
        (hstack ▸ hc)
      exact hfirst (List.mem_append_right _ hpassed)
    · exact hnot horder

end Complete

end WindowGraph

namespace FlowProblem

open WindowGraph

variable {env : Surroundings} {first last : Event} {a : FlowProblem} {facts : Findings}

theorem between_eq_ok (h : FlowProblem.between env pts first last = .ok a) :
    a.program = env.program ∧ a.pts = pts ∧ construct env pts first last = .ok a.graph := by
  obtain ⟨g, hg, h⟩ := bind_eq_ok_iff.1 h
  cases h
  exact ⟨rfl, rfl, hg⟩

theorem Clean.leavesUnflushed (h : a.Clean) {n : Nat} {w : Window}
    (hn : a.graph.windowAt? n = some w)
    (hlive : a.graph.children n ≠ [] ∨ a.graph.isStop n = true) :
    a.graph.leavesUnflushed a.program a.pts n = .ok false := by
  refine h n (mem_nodeIds_iff.2 ⟨w, hn⟩) ?_
  rw [isRelevant, Bool.or_eq_true, Bool.not_eq_true']
  exact hlive.imp_left fun hne ↦ by simpa using hne

/-- Every store between the two events that `P` holds of is flushed before the second one: on all
executions from the anchor of the first event to the first arrival at that of the second. -/
def FlushesBetween (a : FlowProblem) (P : Config → Value → Prop) : Prop :=
  ∀ x z L, a.graph.contexts.get a.graph.start.context = .ok x →
    a.graph.contexts.get a.graph.stop.context = .ok z →
      a.program.Execution ⟨x.callStack, a.graph.start.anchor⟩ L
        ⟨z.callStack, a.graph.stop.anchor⟩ →
        ⟨z.callStack, a.graph.stop.anchor⟩ ∉ L →
          ∀ before c after v, L = before ++ c :: after → a.program.Stores c.instr v → P c v →
            ∃ d ∈ after, ∃ w, a.program.Flushes d.instr w ∧ a.pts.mayAlias v w = true

/-- If a flush is found to be always redundant, the stores that this is about are flushed between the
two events. -/
theorem flushesBetween_of_alwaysRedundant (hv : env.program.validate = .ok ())
    (once : env.program.ListsOnce) (hindex : LocationIndex.ofProgram env.program = .ok env.index)
    (ha : FlowProblem.between env pts first last = .ok a)
    (h : a.alwaysRedundant (.initial a.graph) = (.ok true, facts))
    (hv₀ : ∃ ins, a.program.instr a.graph.start.anchor = .ok ins ∧ ins.pointer? = some v₀) :
    a.FlushesBetween (a.graph.Concerns a.program a.pts v₀) := by
  obtain ⟨hp, hpts, hconstruct⟩ := between_eq_ok ha
  have hclean := (alwaysRedundant_iff (construct_connected hconstruct)).1 ⟨facts, h⟩
  rw [← hp] at hv once
  have hvalid := Program.validate_eq_ok_iff.1 hv
  have hg : a.graph.Complete a.program a.pts := by
    rw [hp, hpts]
    exact construct_complete (hp ▸ hvalid) (hp ▸ once) hindex hconstruct
  rintro x z L hx hz hexec hfirst before c after v rfl hstore hconcerns
  have hflushes : a.program.FlushesAll a.pts (a.graph.Concerns a.program a.pts v₀)
      (before ++ c :: after) := by
    by_cases horder : a.graph.InOrder a.program
    · exact hg.flushesAll_of_inOrder hclean.leavesUnflushed hv₀ hvalid once hx hz hexec hfirst horder
    · exact hg.flushesAll_of_not_inOrder hclean.leavesUnflushed hv₀ hvalid once hx hz hexec hfirst horder
  obtain ⟨i, hi, w, hw, halias⟩ := hflushes.flushedIn hstore hconcerns
  obtain ⟨d, hd, rfl⟩ := List.mem_map.1 hi
  exact ⟨d, hd, w, hw, halias⟩

theorem exists_between (p : Program) (t : Trace) (first last : Event)
    (P : RepairTask → FlowProblem → Prop) [∀ task a, Decidable (P task a)]
    (h : (RepairTask.make .usual p t).map (fun task ↦
      (FlowProblem.between task.toSurroundings task.pts first last).map fun a ↦ decide (P task a)) =
        .ok (.ok true)) :
    ∃ task a, RepairTask.make .usual p t = .ok task ∧
      FlowProblem.between task.toSurroundings task.pts first last = .ok a ∧ a.program = p ∧
      P task a := by
  obtain ⟨task, htask, h⟩ := map_eq_ok_iff.1 h
  obtain ⟨a, ha, h⟩ := map_eq_ok_iff.1 h
  exact ⟨task, a, htask, ha, (between_eq_ok ha).1.trans (RepairTask.make_eq_ok htask).1,
    of_decide_eq_true h⟩

section Samples

open Sample

def flushAt (place : Place) : Event := event .flush place [] cacheLine false

def callBetween : Program :=
  (build ([.reserve "touch" 0, .reserve "main" 0]
      ++ body 0 0 [[store 5, flush 6, ret 7]]
      ++ body 1 1 [[flush 20, call 0 21, flush 22, ret 23]]) []).program

theorem callBetween_execution : callBetween.Execution ⟨[], ⟨3⟩⟩
    [⟨[], ⟨4⟩⟩, ⟨[⟨4⟩], ⟨0⟩⟩, ⟨[⟨4⟩], ⟨1⟩⟩, ⟨[⟨4⟩], ⟨2⟩⟩] ⟨[], ⟨5⟩⟩ := by
  have hcall : callBetween.Step ⟨[], ⟨4⟩⟩ ⟨[] ++ [⟨4⟩], ⟨0⟩⟩ :=
    .call (f := ⟨0⟩) (by decide +kernel) (by decide +kernel) (by decide +kernel)
  have hret : callBetween.Step ⟨[] ++ [⟨4⟩], ⟨2⟩⟩ ⟨[], ⟨5⟩⟩ :=
    .ret (by decide +kernel : callBetween.instr ⟨2⟩ = .ok ⟨.ret, [], some ⟨file, 7⟩, some ⟨0⟩⟩) rfl
      (by decide +kernel)
  refine .cons (Program.Falls.step ⟨by decide +kernel, by decide +kernel⟩) (.cons hcall ?_)
  refine .cons (Program.Falls.step ⟨by decide +kernel, by decide +kernel⟩) ?_
  exact .cons (Program.Falls.step ⟨by decide +kernel, by decide +kernel⟩) (.step hret)

theorem flushesBetween_callBetween : ∃ task a facts,
    RepairTask.make .usual callBetween (.new .generic) = .ok task ∧
      FlowProblem.between task.toSurroundings task.pts (flushAt ("main", 20))
        (flushAt ("main", 22)) = .ok a ∧
      a.alwaysRedundant (.initial a.graph) = (.ok true, facts) ∧
      a.program.Execution ⟨[], ⟨3⟩⟩ [⟨[], ⟨4⟩⟩, ⟨[⟨4⟩], ⟨0⟩⟩, ⟨[⟨4⟩], ⟨1⟩⟩, ⟨[⟨4⟩], ⟨2⟩⟩] ⟨[], ⟨5⟩⟩ ∧
      a.program.Stores ⟨0⟩ pool ∧
      ∃ d ∈ [Config.mk [⟨4⟩] ⟨1⟩, ⟨[⟨4⟩], ⟨2⟩⟩], ∃ w, a.program.Flushes d.instr w ∧
        a.pts.mayAlias pool w = true := by
  obtain ⟨task, a, htask, ha, hp, hstart, hstop, hstack, halias, hclean⟩ :=
    exists_between callBetween (.new .generic) (flushAt ("main", 20)) (flushAt ("main", 22)) (fun _ a ↦
      a.graph.start = ⟨⟨0⟩, ⟨3⟩, ⟨4⟩, ⟨3⟩⟩ ∧ a.graph.stop = ⟨⟨0⟩, ⟨5⟩, ⟨6⟩, ⟨5⟩⟩ ∧
        (a.graph.contexts.get ⟨0⟩).map (·.callStack) = .ok [] ∧ a.pts.mayAlias pool pool = true ∧
        a.Clean) (by decide +kernel)
  obtain ⟨facts, hfacts⟩ :=
    (alwaysRedundant_iff (construct_connected (between_eq_ok ha).2.2)).2 hclean
  obtain ⟨x, hx, hxs⟩ := map_eq_ok_iff.1 hstack
  have hexec := callBetween_execution
  have hstore : callBetween.Stores ⟨0⟩ pool :=
    ⟨⟨.store, [pool, .const 1], some ⟨file, 5⟩, some ⟨0⟩⟩, by decide +kernel, rfl, rfl⟩
  have hanchor : callBetween.instr ⟨3⟩ =
      .ok ⟨.flush .clwb, [pool], some ⟨file, 20⟩, some ⟨1⟩⟩ := by decide +kernel
  rw [← hp] at hexec hstore hanchor
  refine ⟨task, a, facts, htask, ha, hfacts, hexec, hstore, ?_⟩
  obtain ⟨hprogram, -, -, hindex⟩ := RepairTask.make_eq_ok htask
  have hflushes := flushesBetween_of_alwaysRedundant (by rw [hprogram]; decide +kernel)
    (by rw [hprogram]; decide +kernel) (by rw [hprogram]; exact hindex) ha hfacts
    (by rw [hstart]; exact ⟨_, hanchor, rfl⟩)
  refine hflushes x x _ (by rw [hstart]; exact hx) (by rw [hstop]; exact hx)
    (by rw [hstart, hstop, hxs]; exact hexec) (by rw [hstop, hxs]; decide) [⟨[], ⟨4⟩⟩] ⟨[⟨4⟩], ⟨0⟩⟩ _
    pool rfl hstore ⟨halias, .inr ⟨?_, .inl ?_⟩⟩
  · intro hsame
    rw [hstart, hstop] at hsame
    cases hsame
  · rintro ⟨y, l, hy, -, hys, -⟩
    rw [hstart] at hy
    cases hx.symm.trans hy
    cases hxs.symm.trans hys.symm

/-- A flush in a loop that may store. -/
def loopBack : Program :=
  (build (.reserve "main" 0 ::
      body 0 0 [[flush 10, fork (.const 1) 1 2 11], [store 12, branch 0 13], [ret 14]]) []).program

theorem loopBack_execution :
    loopBack.Execution ⟨[], ⟨0⟩⟩ [⟨[], ⟨1⟩⟩, ⟨[], ⟨2⟩⟩, ⟨[], ⟨3⟩⟩] ⟨[], ⟨0⟩⟩ := by
  have hfork : loopBack.Step ⟨[], ⟨1⟩⟩ ⟨[], ⟨2⟩⟩ :=
    .branch (b := ⟨1⟩) (by decide +kernel : loopBack.instr ⟨1⟩ =
      .ok ⟨.condBranch ⟨1⟩ ⟨2⟩, [.const 1], some ⟨file, 11⟩, some ⟨0⟩⟩) (by decide) (by decide +kernel)
  have hback : loopBack.Step ⟨[], ⟨3⟩⟩ ⟨[], ⟨0⟩⟩ :=
    .branch (b := ⟨0⟩) (by decide +kernel : loopBack.instr ⟨3⟩ =
      .ok ⟨.branch ⟨0⟩, [], some ⟨file, 13⟩, some ⟨1⟩⟩) (by decide) (by decide +kernel)
  refine .cons (Program.Falls.step ⟨by decide +kernel, by decide +kernel⟩) (.cons hfork ?_)
  exact .cons (Program.Falls.step ⟨by decide +kernel, by decide +kernel⟩) (.step hback)

theorem not_flushesBetween_loopBack : ∃ task a facts,
    RepairTask.make .usual loopBack (.new .generic) = .ok task ∧ loopBack.validate = .ok () ∧
      loopBack.ListsOnce ∧
      FlowProblem.between task.toSurroundings task.pts (flushAt ("main", 10))
        (flushAt ("main", 10)) = .ok a ∧
      a.alwaysRedundant (.initial a.graph) = (.ok true, facts) ∧
      (∃ ins, a.program.instr a.graph.start.anchor = .ok ins ∧ ins.pointer? = some pool) ∧
      ¬ a.FlushesBetween fun _ v ↦ a.pts.mayAlias v pool = true := by
  obtain ⟨task, a, htask, ha, hp, hstart, hstop, hstack, halias, hclean⟩ :=
    exists_between loopBack (.new .generic) (flushAt ("main", 10)) (flushAt ("main", 10)) (fun _ a ↦
      a.graph.start = ⟨⟨0⟩, ⟨0⟩, ⟨1⟩, ⟨0⟩⟩ ∧ a.graph.stop = ⟨⟨0⟩, ⟨0⟩, ⟨1⟩, ⟨0⟩⟩ ∧
        (a.graph.contexts.get ⟨0⟩).map (·.callStack) = .ok [] ∧ a.pts.mayAlias pool pool = true ∧
        a.Clean) (by decide +kernel)
  obtain ⟨facts, hfacts⟩ :=
    (alwaysRedundant_iff (construct_connected (between_eq_ok ha).2.2)).2 hclean
  obtain ⟨x, hx, hxs⟩ := map_eq_ok_iff.1 hstack
  have hanchor : loopBack.instr ⟨0⟩ =
      .ok ⟨.flush .clwb, [pool], some ⟨file, 10⟩, some ⟨0⟩⟩ := by decide +kernel
  have hstore : loopBack.Stores ⟨2⟩ pool :=
    ⟨⟨.store, [pool, .const 1], some ⟨file, 12⟩, some ⟨1⟩⟩, by decide +kernel, rfl, rfl⟩
  have hlast : loopBack.instr ⟨3⟩ = .ok ⟨.branch ⟨0⟩, [], some ⟨file, 13⟩, some ⟨1⟩⟩ := by
    decide +kernel
  have hexec := loopBack_execution
  rw [← hp] at hanchor hstore hlast hexec
  refine ⟨task, a, facts, htask, by decide +kernel, by decide +kernel, ha, hfacts, ?_, fun h ↦ ?_⟩
  · rw [hstart]
    exact ⟨_, hanchor, rfl⟩
  · obtain ⟨d, hd, w, ⟨ins, how, hins, hop, -⟩, -⟩ := h x x _ (by rw [hstart]; exact hx)
      (by rw [hstop]; exact hx) (by rw [hstart, hstop, hxs]; exact hexec)
      (by rw [hstop, hxs]; decide) [⟨[], ⟨1⟩⟩] ⟨[], ⟨2⟩⟩ _ pool rfl hstore halias
    -- nothing but a branch comes after the store
    obtain rfl := List.mem_singleton.1 hd
    cases hlast.symm.trans hins
    cases hop

end Samples

end FlowProblem

end Durability
