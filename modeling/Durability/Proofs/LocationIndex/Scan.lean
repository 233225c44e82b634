import Durability.Proofs.LocationIndex

namespace Durability

variable {ε α : Type} {p : Program} {i : InstrId} {loc own : Location}

/-- `i` is a store, a flush, a fence or a call, and `own` is where it is. -/
structure Program.IndexedAt (p : Program) (i : InstrId) (own : Location) : Prop where
  instr : ∃ ins, p.instr i = .ok ins ∧ ins.op.isIndexed = true
  location : p.locationOf i = .ok own
  valid : own.isValid = true

/-- A scan of what the blocks of the functions list comes upon `i` at a position. -/
structure Program.LiesAt (p : Program) (i : InstrId) (loc : Location) : Prop where
  attached : ∃ is, p.attached = .ok is ∧ i ∈ is
  agrees : ∃ own, p.IndexedAt i own ∧ own.Agrees loc

theorem filterM_eq_ok {f : α → Except ε Bool} {q : α → Bool} {l : List α}
    (h : ∀ a ∈ l, f a = .ok (q a)) : l.filterM f = .ok (l.filter q) := by
  have aux : ∀ {l acc : List α}, (∀ a ∈ l, f a = .ok (q a)) →
      l.filterAuxM f acc = .ok ((l.filter q).reverse ++ acc) := by
    intro l
    induction l with
    | nil => exact fun _ ↦ rfl
    | cons a l ih =>
      intro acc h
      obtain ⟨ha, hl⟩ := List.forall_mem_cons.1 h
      refine bind_eq_ok_iff.2 ⟨q a, ha, ?_⟩
      cases hq : q a with
      | false => rw [List.filter_cons_of_neg (by simp [hq]), ← ih hl, cond_false]
      | true => rw [List.filter_cons_of_pos hq, List.reverse_cons, List.append_assoc, ih hl]; rfl
  refine bind_eq_ok_iff.2 ⟨_, aux h, ?_⟩
  rw [List.append_nil, List.reverse_reverse]
  rfl

theorem Attempt.ofExcept_eq_error_iff {x : Except ε α} {e : Failure ε} :
    ofExcept x = .error e ↔ ∃ cause, x = .error cause ∧ e = .refused cause := by
  cases x <;> simp [ofExcept, eq_comm]

namespace LocationIndex

variable {x y : LocationIndex} {k : Key} {entry : Location × InstrId} {is : List InstrId}
  {keep : InstrId → Except Fault Bool} {q : InstrId → Bool}

theorem drawer_cons (d : Key × List (Location × InstrId))
    (ds : List (Key × List (Location × InstrId))) :
    drawer ⟨d :: ds⟩ k = if d.1 = k then d.2 else drawer ⟨ds⟩ k := by
  rw [drawer, drawer]
  by_cases h : d.1 = k <;> simp [h]

theorem drawer_file (k' : Key) (ds : List (Key × List (Location × InstrId))) :
    drawer ⟨file k entry ds⟩ k' = drawer ⟨ds⟩ k' ++ if k = k' then [entry] else [] := by
  induction ds with
  | nil =>
    rw [file, drawer_cons]
    rfl
  | cons d ds ih =>
    rw [file]
    by_cases hd : d.1 = k
    · rw [if_pos hd, drawer_cons, drawer_cons, hd]
      by_cases hk : k = k'
      · simp only [if_pos hk]
      · simp only [if_neg hk, List.append_nil]
    · rw [if_neg hd, drawer_cons, drawer_cons, ih]
      by_cases hk' : d.1 = k'
      · rw [if_pos hk', if_pos hk', if_neg fun hk ↦ hd (hk'.trans hk.symm), List.append_nil]
      · rw [if_neg hk', if_neg hk']

theorem mem_drawer_register (h : register p x i = .ok y) :
    entry ∈ y.drawer k ↔ entry ∈ x.drawer k ∨
      entry.2 = i ∧ p.IndexedAt i entry.1 ∧ keyOf entry.1 = k := by
  obtain ⟨ins, hins, h⟩ := bind_eq_ok_iff.1 h
  by_cases hop : ins.op.isIndexed
  · rw [if_pos hop] at h
    obtain ⟨own, hown, h⟩ := bind_eq_ok_iff.1 h
    obtain rfl := pure_eq_ok_iff.1 h
    by_cases hvalid : own.isValid
    · rw [if_pos hvalid, add, drawer_file, List.mem_append]
      refine or_congr_right ?_
      constructor
      · intro hentry
        split at hentry
        · next hk =>
          rw [List.mem_singleton.1 hentry]
          exact ⟨rfl, ⟨⟨ins, hins, hop⟩, hown, hvalid⟩, hk⟩
        · cases hentry
      · intro hentry
        obtain ⟨rfl, hindexed, hk⟩ := hentry
        cases hown.symm.trans hindexed.location
        rw [if_pos hk]
        exact List.mem_singleton.2 rfl
    · rw [if_neg hvalid]
      refine (or_iff_left fun hentry ↦ ?_).symm
      cases hown.symm.trans hentry.2.1.location
      exact hvalid hentry.2.1.valid
  · rw [if_neg hop] at h
    obtain rfl := pure_eq_ok_iff.1 h
    refine (or_iff_left fun hentry ↦ ?_).symm
    obtain ⟨ins', hins', hop'⟩ := hentry.2.1.instr
    cases hins.symm.trans hins'
    exact hop hop'

theorem mem_drawer_foldlM (h : is.foldlM (register p) x = .ok y) :
    entry ∈ y.drawer k ↔ entry ∈ x.drawer k ∨
      entry.2 ∈ is ∧ p.IndexedAt entry.2 entry.1 ∧ keyOf entry.1 = k := by
  induction is generalizing x with
  | nil =>
    cases h
    exact (or_iff_left fun hentry ↦ List.not_mem_nil hentry.1).symm
  | cons i is ih =>
    obtain ⟨z, hz, h⟩ := foldlM_cons_eq_ok_iff.1 h
    rw [ih h, mem_drawer_register hz, or_assoc, List.mem_cons, or_and_right]
    refine or_congr_right (or_congr_left (and_congr_right fun hi ↦ ?_))
    rw [hi]

/-- The index loses nothing and adds nothing. -/
theorem mem_lookup_iff (h : ofProgram p = .ok x) : i ∈ x.lookup loc ↔ p.LiesAt i loc := by
  obtain ⟨is, his, h⟩ := bind_eq_ok_iff.1 h
  simp only [lookup, List.mem_map, List.mem_filter, decide_eq_true_eq, mem_drawer_foldlM h]
  constructor
  · intro hentry
    obtain ⟨entry, ⟨hentry | ⟨hmem, hindexed, -⟩, hagrees⟩, rfl⟩ := hentry
    · cases hentry
    · exact ⟨⟨is, his, hmem⟩, entry.1, hindexed, hagrees⟩
  · intro hlies
    obtain ⟨⟨is', his', hmem⟩, own, hindexed, hagrees⟩ := hlies
    cases his.symm.trans his'
    have hkey : keyOf own = keyOf loc := Prod.ext hagrees.1 hagrees.2.1
    exact ⟨(own, i), ⟨.inr ⟨hmem, hindexed, hkey⟩, hagrees⟩, rfl⟩

/-- How the index answers for a position at which `is` are the instructions. -/
structure AnswersWith (x : LocationIndex) (loc : Location) (is : List InstrId) : Prop where
  get : ∀ js, x.get loc = .ok js ↔ js = is ∧ is ≠ []
  unmapped : ∀ e, x.get loc = .error e ↔ e = .unmapped loc ∧ is = []
  contains : x.contains loc = true ↔ is ≠ []
  unique : ∀ keep q, (∀ i ∈ is, keep i = .ok (q i)) → ∀ i,
    x.uniqueWhere loc keep = .ok i ↔ is.filter q = [i]
  notUnique : ∀ keep q, (∀ i ∈ is, keep i = .ok (q i)) → ∀ e,
    x.uniqueWhere loc keep = .error e ↔ e = .refused (.unmapped loc) ∧ is.filter q = [] ∨
      e = .refused (.ambiguous loc (is.filter q).length) ∧ 2 ≤ (is.filter q).length

theorem get_eq (x : LocationIndex) (loc : Location) : x.get loc =
    if (SortedSet.ofList (x.lookup loc)).toList = [] then .error (.unmapped loc)
    else .ok (SortedSet.ofList (x.lookup loc)).toList := by
  rw [get]
  simp only [List.isEmpty_iff]

theorem exactlyOne_eq_ok_iff : exactlyOne loc is = .ok i ↔ is = [i] := by
  refine ⟨eq_singleton_of_exactlyOne, fun h ↦ ?_⟩
  rw [h]
  rfl

theorem exactlyOne_eq_error_iff {e : RepairError} : exactlyOne loc is = .error e ↔
    e = .unmapped loc ∧ is = [] ∨ e = .ambiguous loc is.length ∧ 2 ≤ is.length := by
  match is with
  | [] => simp [exactlyOne, eq_comm]
  | [i] => simp [exactlyOne]
  | i :: j :: is => simp [exactlyOne, eq_comm]

theorem uniqueWhere_eq (hget : x.get loc = if is = [] then .error (.unmapped loc) else .ok is)
    (hkeep : ∀ i ∈ is, keep i = .ok (q i)) :
    x.uniqueWhere loc keep = Attempt.ofExcept (exactlyOne loc (is.filter q)) := by
  rw [uniqueWhere, hget]
  by_cases his : is = []
  · rw [if_pos his, his]
    rfl
  · have hfilter : is.filterM (fun i ↦ (Attempt.lift (keep i) : Attempt RepairError Bool)) =
        .ok (is.filter q) := filterM_eq_ok fun i hi ↦ by rw [hkeep i hi]; rfl
    rw [if_neg his]
    change is.filterM (fun i ↦ (Attempt.lift (keep i) : Attempt RepairError Bool)) >>= _ = _
    rw [hfilter]
    rfl

theorem answersWith_toList (x : LocationIndex) (loc : Location) :
    x.AnswersWith loc (SortedSet.ofList (x.lookup loc)).toList := by
  have hget := get_eq x loc
  have hcontains : x.contains loc = true ↔ (SortedSet.ofList (x.lookup loc)).toList ≠ [] := by
    rw [contains, Bool.not_eq_true', Bool.eq_false_iff, not_iff_not, List.isEmpty_iff,
      List.eq_nil_iff_forall_not_mem, List.eq_nil_iff_forall_not_mem]
    exact forall_congr' fun i ↦ not_congr SortedSet.mem_ofList.symm
  generalize (SortedSet.ofList (x.lookup loc)).toList = is at hget hcontains
  refine ⟨fun js ↦ ?_, fun e ↦ ?_, hcontains, fun keep q hkeep i ↦ ?_, fun keep q hkeep e ↦ ?_⟩
  · rw [hget]
    by_cases his : is = [] <;> simp [his, eq_comm]
  · rw [hget]
    by_cases his : is = [] <;> simp [his, eq_comm]
  · rw [uniqueWhere_eq hget hkeep, Attempt.ofExcept_eq_ok_iff, exactlyOne_eq_ok_iff]
  · rw [uniqueWhere_eq hget hkeep, Attempt.ofExcept_eq_error_iff]
    simp only [exactlyOne_eq_error_iff, or_and_right, exists_or, and_assoc]
    refine or_congr ?_ ?_ <;> simp [and_comm]

/-- A valid program has an index, and what this answers for any position are the instructions that a
scan of the program finds there, each once and in the order of their ids. -/
theorem ofProgram_scans (hv : p.validate = .ok ()) : ∃ x, ofProgram p = .ok x ∧ ∀ loc, ∃ is,
    is.Pairwise (fun i j ↦ i.index < j.index) ∧ (∀ i, i ∈ is ↔ p.LiesAt i loc) ∧
      x.AnswersWith loc is := by
  obtain ⟨x, hx⟩ := exists_ofProgram (Program.validate_eq_ok_iff.1 hv)
  refine ⟨x, hx, fun loc ↦ ⟨(SortedSet.ofList (x.lookup loc)).toList, ?_, fun i ↦ ?_,
    answersWith_toList x loc⟩⟩
  · exact (SortedSet.ofList (x.lookup loc)).increasing.imp Nat.compare_eq_lt.1
  · rw [SortedSet.mem_toList, SortedSet.mem_ofList, mem_lookup_iff hx]

/-- On one line a store and a flush, from files whose names do not agree with each other, and further on
a flush in a block that `main` lists twice. -/
def twoFiles : Program where
  globals := ["pool"]
  functions := [⟨"main", .defined, 0, [⟨0⟩, ⟨1⟩, ⟨1⟩]⟩]
  blocks := [⟨⟨0⟩, [⟨1⟩, ⟨0⟩, ⟨2⟩]⟩, ⟨⟨0⟩, [⟨3⟩, ⟨4⟩]⟩]
  instructions := [⟨.store, [.global ⟨0⟩, .const 1], some ⟨"pm/pool.h", 3⟩, some ⟨0⟩⟩,
    ⟨.flush .clwb, [.global ⟨0⟩], some ⟨"pm/pool.c", 3⟩, some ⟨0⟩⟩,
    ⟨.branch ⟨1⟩, [], some ⟨"pm/pool.c", 3⟩, some ⟨0⟩⟩,
    ⟨.flush .clwb, [.global ⟨0⟩], some ⟨"pm/pool.c", 5⟩, some ⟨1⟩⟩,
    ⟨.ret, [], none, some ⟨1⟩⟩]

theorem ofProgram_scans_twoFiles : twoFiles.validate = .ok () ∧
    ∃ x, ofProgram twoFiles = .ok x ∧ x.get ⟨"main", "pool", 3⟩ = .ok [⟨0⟩, ⟨1⟩] ∧
      x.get ⟨"main", "src/pm/pool.c", 3⟩ = .ok [⟨1⟩] ∧
      x.get ⟨"main", "pool.c", 5⟩ = .ok [⟨3⟩] ∧ ∀ loc, ∃ is,
        is.Pairwise (fun i j ↦ i.index < j.index) ∧ (∀ i, i ∈ is ↔ twoFiles.LiesAt i loc) ∧
          x.AnswersWith loc is := by
  have hv : twoFiles.validate = .ok () := by decide +kernel
  obtain ⟨x, hx, hscans⟩ := ofProgram_scans hv
  have hget : (ofProgram twoFiles).map (fun x ↦ (x.get ⟨"main", "pool", 3⟩,
      x.get ⟨"main", "src/pm/pool.c", 3⟩, x.get ⟨"main", "pool.c", 5⟩)) =
      .ok (.ok [⟨0⟩, ⟨1⟩], .ok [⟨1⟩], .ok [⟨3⟩]) := by decide +kernel
  rw [hx] at hget
  obtain ⟨hwide, hget⟩ := Prod.mk.inj (Except.ok.inj hget)
  obtain ⟨hnarrow, htwice⟩ := Prod.mk.inj hget
  exact ⟨hv, x, hx, hwide, hnarrow, htwice, hscans⟩

end LocationIndex

end Durability
