import Durability.Fix.Report
import Durability.Proofs.Fix.Failure
import Durability.Proofs.Program.Json
import Durability.Proofs.Program.Total

namespace Durability

variable {p q r : Program} {source : Source} {i j : InstrId} {b : BlockId} {B : Block}
  {ins : Instruction} {gone gone' : InstrId → Bool} {fix : Fix}

namespace Program

/-- Each instruction of `p` is where it was in `q`, or it is `gone` and in no block. -/
structure Retains (gone : InstrId → Bool) (p q : Program) : Prop where
  functions : q.functions = p.functions
  block : ∀ b B, p.block b = .ok B → ∃ B', q.block b = .ok B' ∧ B'.function = B.function
  instr : ∀ i ins, p.instr i = .ok ins →
    q.instr i = .ok (if gone i then { ins with block := none } else ins)

theorem exists_block_setInstrs (h : p.block b = .ok B) (c : BlockId) (l : List InstrId) :
    ∃ B', (p.setInstrs c l).block b = .ok B' ∧ B'.function = B.function := by
  refine ⟨if c.index = b.index then { B with instrs := l } else B, ?_, by split <;> rfl⟩
  rw [block_eq_ok_iff] at h ⊢
  rw [setInstrs, List.getElem?_modify, h]
  rfl

theorem retains_of_insertAfter (h : p.insertAfter i ins = .ok (j, q)) :
    Retains (fun _ ↦ false) p q := by
  obtain ⟨old, c, C, k, -, -, -, rfl⟩ := insertAfter_eq_ok_iff.1 h
  exact ⟨rfl, fun b B hB ↦ exists_block_setInstrs hB c _, fun x ins hx ↦ instr_of_append rfl hx⟩

theorem retains_of_insertFlush {how : FlushPrimitive} (h : p.insertFlush how i = .ok (j, q)) :
    Retains (fun _ ↦ false) p q := by
  obtain ⟨ins, v, -, -, h⟩ := insertFlush_eq_ok h
  exact retains_of_insertAfter h

theorem retains_of_insertFence {how : FencePrimitive} (h : p.insertFence how i = .ok (j, q)) :
    Retains (fun _ ↦ false) p q := by
  obtain ⟨ins, -, h⟩ := insertFence_eq_ok h
  exact retains_of_insertAfter h

theorem retains_of_detach (h : p.detach i = .ok q) : Retains (fun x ↦ x = i) p q := by
  obtain ⟨old, c, C, k, -, rfl⟩ := exists_of_detach h
  refine ⟨rfl, fun b B hB ↦ exists_block_setInstrs hB c _, fun x ins hx ↦ ?_⟩
  simpa using instr_of_detach rfl hx

namespace Retains

theorem refl (p : Program) : Retains (fun _ ↦ false) p p :=
  ⟨rfl, fun _ B hB ↦ ⟨B, hB, rfl⟩, fun _ _ hi ↦ hi⟩

variable (h : Retains gone p q)

include h

theorem trans (h' : Retains gone' q r) : Retains (fun i ↦ gone i || gone' i) p r where
  functions := h'.functions.trans h.functions
  block b B hB := by
    obtain ⟨B', hB', hfunction⟩ := h.block b B hB
    obtain ⟨B'', hB'', hfunction'⟩ := h'.block b B' hB'
    exact ⟨B'', hB'', hfunction'.trans hfunction⟩
  instr i ins hi := by
    rw [h'.instr i _ (h.instr i ins hi)]
    cases gone i <;> cases gone' i <;> rfl

theorem functionOf_of_gone (hi : p.instr i = .ok ins) (hgone : gone i = true) :
    q.functionOf i = .ok none := by
  have hq := h.instr i ins hi
  rw [hgone, if_pos rfl] at hq
  exact bind_eq_ok_iff.2 ⟨none, blockOf_eq_ok_iff.2 ⟨_, hq, rfl⟩, rfl⟩

theorem function_eq (f : FunctionId) : q.function f = p.function f := by
  rw [Program.function, Program.function, h.functions]

variable (hstays : gone i = false)

include hstays

theorem instr_of_stays (hi : p.instr i = .ok ins) : q.instr i = .ok ins := by
  rw [h.instr i ins hi, hstays]
  rfl

theorem functionOf_of_stays {f? : Option FunctionId} (hf : p.functionOf i = .ok f?) :
    q.functionOf i = .ok f? := by
  obtain ⟨b?, hb, hf⟩ := bind_eq_ok_iff.1 hf
  obtain ⟨ins, hi, hblock⟩ := blockOf_eq_ok_iff.1 hb
  have hqb := blockOf_eq_ok_iff.2 ⟨ins, h.instr_of_stays hstays hi, hblock⟩
  refine bind_eq_ok_iff.2 ⟨b?, hqb, ?_⟩
  cases b? with
  | none => exact hf
  | some b =>
    obtain ⟨B, hB, hf⟩ := bind_eq_ok_iff.1 hf
    obtain ⟨B', hB', hfunction⟩ := h.block b B hB
    exact bind_eq_ok_iff.2 ⟨B', hB', hfunction ▸ hf⟩

theorem functionNameOf_of_stays {name? : Option String} (hname : p.functionNameOf i = .ok name?) :
    q.functionNameOf i = .ok name? := by
  obtain ⟨f?, hf, hname⟩ := bind_eq_ok_iff.1 hname
  refine bind_eq_ok_iff.2 ⟨f?, h.functionOf_of_stays hstays hf, ?_⟩
  cases f? with
  | none => exact hname
  | some f =>
    obtain ⟨F, hF, hname⟩ := bind_eq_ok_iff.1 hname
    exact bind_eq_ok_iff.2 ⟨F, (h.function_eq f).trans hF, hname⟩

theorem sourceOf_of_stays {source? : Option (String × SourceLine)}
    (hsource : p.sourceOf i = .ok source?) : q.sourceOf i = .ok source? := by
  obtain ⟨f?, hf, hsource⟩ := bind_eq_ok_iff.1 hsource
  refine bind_eq_ok_iff.2 ⟨f?, h.functionOf_of_stays hstays hf, ?_⟩
  cases f? with
  | none => exact hsource
  | some f =>
    obtain ⟨ins, hi, hsource⟩ := bind_eq_ok_iff.1 hsource
    refine bind_eq_ok_iff.2 ⟨ins, h.instr_of_stays hstays hi, ?_⟩
    rwa [h.function_eq]

end Retains

end Program

open Program

theorem Fix.retains_of_apply {u : Unit} (h : fix.apply source i p = (.ok u, q)) :
    Retains (fun x ↦ x = i && fix.kind = .removeFlush) p q := by
  have hcarried := carried_of_apply h
  generalize fix.kind = kind at hcarried ⊢
  cases hcarried with
  | addFlush hflush => simpa using retains_of_insertFlush hflush
  | addFence hfence => simpa using retains_of_insertFence hfence
  | addFlushAndFence hflush hfence =>
    simpa using (retains_of_insertFlush hflush).trans (retains_of_insertFence hfence)
  | removeFlush hremove => simpa using retains_of_detach (removeFlush_eq_ok hremove)

namespace ReportEntry

variable {e : ReportEntry}

/-- What becomes of an entry when its fix is carried out: a flush that is taken out is nowhere. -/
def afterRepair (e : ReportEntry) : ReportEntry :=
  if e.fix = .removeFlush then { e with function := none, file := none, line := none } else e

theorem ofFix_eq_ok (h : ofFix p i fix = .ok e) :
    e.instr = i ∧ e.fix = fix.kind ∧ e.dependent = fix.dependent ∧ ∃ ins, p.instr i = .ok ins := by
  obtain ⟨source?, hsource, h⟩ := bind_eq_ok_iff.1 h
  obtain ⟨f?, hf, -⟩ := bind_eq_ok_iff.1 hsource
  obtain ⟨b?, hb, -⟩ := bind_eq_ok_iff.1 hf
  obtain ⟨ins, hi, -⟩ := blockOf_eq_ok_iff.1 hb
  cases source? with
  | none =>
    obtain ⟨name?, -, h⟩ := bind_eq_ok_iff.1 h
    cases pure_eq_ok_iff.1 h
    exact ⟨rfl, rfl, rfl, ins, hi⟩
  | some s =>
    cases pure_eq_ok_iff.1 h
    exact ⟨rfl, rfl, rfl, ins, hi⟩

theorem exists_ofFix (hv : p.Valid) (hi : p.Attached i) (fix : Fix) :
    ∃ e, ofFix p i fix = .ok e ∧ e.function ≠ none := by
  obtain ⟨source?, hsource⟩ := hi.exists_sourceOf hv
  obtain ⟨name, hname⟩ := hi.exists_functionNameOf
  cases source? with
  | none =>
    exact ⟨_, bind_eq_ok_iff.2 ⟨none, hsource, bind_eq_ok_iff.2 ⟨some name, hname, rfl⟩⟩, nofun⟩
  | some s => exact ⟨_, bind_eq_ok_iff.2 ⟨some s, hsource, rfl⟩, nofun⟩

theorem ofFix_of_retains (h : Retains gone p q) (hgone : gone i = decide (fix.kind = .removeFlush))
    (he : ofFix p i fix = .ok e) : ofFix q i fix = .ok e.afterRepair := by
  obtain ⟨hinstr, hfix, hdependent, ins, hi⟩ := ofFix_eq_ok he
  by_cases hk : fix.kind = .removeFlush
  · rw [hk, decide_eq_true rfl] at hgone
    have hf := h.functionOf_of_gone hi hgone
    have hsource : q.sourceOf i = .ok none := bind_eq_ok_iff.2 ⟨none, hf, rfl⟩
    have hname : q.functionNameOf i = .ok none := bind_eq_ok_iff.2 ⟨none, hf, rfl⟩
    refine bind_eq_ok_iff.2 ⟨none, hsource, bind_eq_ok_iff.2 ⟨none, hname, ?_⟩⟩
    rw [afterRepair, if_pos (hfix.trans hk), hinstr, hfix, hdependent]
    rfl
  · rw [decide_eq_false hk] at hgone
    rw [afterRepair, if_neg (hfix ▸ hk)]
    obtain ⟨source?, hsource, he⟩ := bind_eq_ok_iff.1 he
    refine bind_eq_ok_iff.2 ⟨source?, h.sourceOf_of_stays hgone hsource, ?_⟩
    cases source? with
    | some s => exact he
    | none =>
      obtain ⟨name?, hname, he⟩ := bind_eq_ok_iff.1 he
      exact bind_eq_ok_iff.2 ⟨name?, h.functionNameOf_of_stays hgone hname, he⟩

theorem map_afterRepair {entries : List ReportEntry} (h : ∀ e ∈ entries, e.fix ≠ .removeFlush) :
    entries.map afterRepair = entries := by
  have hself : ∀ e ∈ entries, e.afterRepair = e := fun e he ↦ if_neg (h e he)
  rw [List.map_congr_left hself, List.map_id']

theorem toJson_afterRepair_ne (h : e.fix = .removeFlush) (hfunction : e.function ≠ none) :
    e.afterRepair.toJson ≠ e.toJson := by
  intro heq
  rw [afterRepair, if_pos h] at heq
  obtain ⟨name, hname⟩ := Option.ne_none_iff_exists'.1 hfunction
  simp [toJson, hname, Json.optional] at heq

theorem whole_toJson (e : ReportEntry) : e.toJson.Whole := by
  have hdependent := Json.whole_optional InstrId.whole_toJson e.dependent
  have hfunction := Json.whole_optional Json.Whole.str e.function
  have hfile := Json.whole_optional Json.Whole.str e.file
  have hline := Json.whole_optional (fun n : Int64 ↦ Json.Whole.int n.toInt) e.line
  have hinstr := InstrId.whole_toJson e.instr
  simp [toJson, hinstr, hdependent, hfunction, hfile, hline]

end ReportEntry

theorem whole_reportJson (entries : List ReportEntry) : (reportJson entries).Whole :=
  Json.whole_list ReportEntry.whole_toJson entries

theorem pretty_afterRepair_iff {entries : List ReportEntry} (depth : Nat)
    (hfunction : ∀ e ∈ entries, e.function ≠ none) :
    (reportJson (entries.map .afterRepair)).pretty depth = (reportJson entries).pretty depth ↔
      ∀ e ∈ entries, e.fix ≠ .removeFlush := by
  constructor
  · intro htext e he hremove
    have hjson := Json.eq_of_pretty_eq (whole_reportJson _) (whole_reportJson _) htext
    simp only [reportJson, Json.list, List.map_map, Json.arr.injEq, List.map_inj_left] at hjson
    exact ReportEntry.toJson_afterRepair_ne hremove (hfunction e he) (hjson e he)
  · intro hkept
    rw [ReportEntry.map_afterRepair hkept]

namespace FixMap

variable {m : FixMap} {es : List Entry} {entries : List ReportEntry}

theorem retains_of_forM {u : Unit} (apart : es.Pairwise (fun e f ↦ e.1 ≠ f.1))
    (h : (es.forM fun e ↦ e.2.apply source e.1) p = (.ok u, q)) :
    Retains (removes (SortedMap.find · es)) p q := by
  induction es generalizing p with
  | nil =>
    cases h
    exact .refl _
  | cons e es ih =>
    obtain ⟨hne, apart⟩ := List.pairwise_cons.1 apart
    obtain ⟨⟨⟩, r, happly, hrest⟩ := Stateful.bind_eq_ok_iff.1 h
    rw [funext (removes_cons (find_eq_none hne))]
    exact (Fix.retains_of_apply happly).trans (ih apart hrest)

section Applied

variable {modified : Bool} (h : (m.apply source).run p = (.ok modified, q))

include h

theorem plain_of_apply : ∀ e ∈ m.entries, e.2.kind.isConditional = false := by
  obtain ⟨hall, -⟩ := apply_eq_ok h
  exact fun e he ↦ plain_of_forM hall e (mem_applicationOrder.2 he)

theorem retains_of_apply : Retains (removes m.get?) p q := by
  have plain := plain_of_apply h
  obtain ⟨hall, -⟩ := apply_eq_ok h
  rw [applicationOrder_of_plain plain] at hall
  exact retains_of_forM m.apart_entries hall

theorem report_of_apply (hentries : m.report p = .ok entries) :
    m.report q = .ok (entries.map .afterRepair) := by
  refine mapM_map_eq_ok (fun e he entry hentry ↦ ?_) hentries
  have hremoves : removes m.get? e.1 = decide (e.2.kind = .removeFlush) := by
    rw [removes, SortedMap.get?, find_of_mem m.apart_entries (mem_applicationOrder.1 he)]
    rfl
  exact ReportEntry.ofFix_of_retains (retains_of_apply h) hremoves hentry

end Applied

theorem exists_report (hv : p.Valid) (hm : ∀ e ∈ m.entries, p.Attached e.1) :
    ∃ entries, m.report p = .ok entries ∧ ∀ e ∈ entries, e.function ≠ none := by
  have hentry (e : Entry) (he : e ∈ m.applicationOrder) :
      ∃ entry, ReportEntry.ofFix p e.1 e.2 = .ok entry ∧ entry.function ≠ none :=
    ReportEntry.exists_ofFix hv (hm e (mem_applicationOrder.1 he)) e.2
  obtain ⟨entries, hentries⟩ := mapM_eq_ok fun e he ↦ (hentry e he).imp fun _ ↦ And.left
  refine ⟨entries, hentries, fun entry hmem ↦ ?_⟩
  obtain ⟨e, he, hof⟩ := exists_of_mem_mapM hentries hmem
  obtain ⟨entry', hof', hfunction⟩ := hentry e he
  cases hof.symm.trans hof'
  exact hfunction

end FixMap

end Durability
