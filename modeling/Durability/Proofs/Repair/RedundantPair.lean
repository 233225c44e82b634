import Durability.Proofs.Repair.Unpersisted

namespace Durability

variable {settings : Settings} {t : Trace} {range a : ByteRange} {e d : Event} {bug k n o r : Nat}
  {redundant : Option Event} {cause : RepairError} {l : List (Event × Nat)}

namespace Event

def FlushesExactly (range : ByteRange) (e : Event) : Prop :=
  e.kind = .flush ∧ e.addresses = [range]

/-- A flush that overlaps the range and is not of the range itself. -/
def FlushesPart (range : ByteRange) (e : Event) : Prop :=
  e.kind = .flush ∧ ∃ a, e.addresses = [a] ∧ a ≠ range ∧ a.overlaps range = true

/-- Whether the search cannot go on behind `e`. -/
def Stops (settings : Settings) (range : ByteRange) (e : Event) : Prop :=
  e.Misaddressed settings ∨ e.FlushesPart range

/-- What is said of an event at `k` behind which the search cannot go on; its addresses come first. -/
inductive Objects (settings : Settings) (bug : Nat) (range : ByteRange) (k : Nat) (e : Event) :
    RepairError → Prop
  | address : e.Misaddressed settings → Objects settings bug range k e (e.addressError k)
  | overlap : ¬ e.Misaddressed settings → e.FlushesPart range →
      Objects settings bug range k e (.partialOverlap bug k)

theorem Stops.exists_objects (h : e.Stops settings range) (bug k : Nat) :
    ∃ cause, e.Objects settings bug range k cause := by
  by_cases hfit : e.Misaddressed settings
  · exact ⟨_, .address hfit⟩
  · exact ⟨_, .overlap hfit (h.resolve_left hfit)⟩

theorem FlushesExactly.not_stops (h : e.FlushesExactly range)
    (hline : range.inOneLine settings.cacheLineSize = true) : ¬ e.Stops settings range := by
  rintro (⟨-, hnot⟩ | ⟨-, a, ha, hne, -⟩)
  · exact hnot ⟨range, h.2, hline⟩
  · exact hne (List.singleton_inj.1 (ha.symm.trans h.2))

end Event

namespace Trace

theorem findRedundant_fit (hop : e.kind.isOperation = true) (haddress : e.addresses = [a])
    (hline : a.inOneLine settings.cacheLineSize = true) :
    findRedundant settings bug range redundant ((e, k) :: l) =
      if e.kind = .flush then
        if a = range then
          match redundant with
          | none => findRedundant settings bug range (some e) l
          | some d => .ok (e, d)
        else if a.overlaps range then .error (.partialOverlap bug k)
        else findRedundant settings bug range redundant l
      else findRedundant settings bug range redundant l := by
  rw [findRedundant.eq_def]
  dsimp only
  rw [if_pos hop, checkAddress_of_inOneLine haddress hline]
  rfl

theorem findRedundant_flushesExactly (hall : e.FlushesExactly range)
    (hline : range.inOneLine settings.cacheLineSize = true) :
    findRedundant settings bug range redundant ((e, k) :: l) =
      match redundant with
      | none => findRedundant settings bug range (some e) l
      | some d => .ok (e, d) := by
  rw [findRedundant_fit (by rw [hall.1]; rfl) hall.2 hline, if_pos hall.1, if_pos rfl]

theorem findRedundant_objects (h : e.Objects settings bug range k cause) :
    findRedundant settings bug range redundant ((e, k) :: l) = .error cause := by
  cases h with
  | address hfit =>
    rw [findRedundant.eq_def]
    dsimp only
    rw [if_pos hfit.1, checkAddress_of_not hfit.2]
    rfl
  | overlap hfit hpart =>
    obtain ⟨hk, a, ha, hne, hover⟩ := hpart
    have hop : e.kind.isOperation = true := by rw [hk]; rfl
    obtain ⟨b, hb, hline⟩ := Event.exists_address hfit hop
    obtain rfl := List.singleton_inj.1 (ha.symm.trans hb)
    rw [findRedundant_fit hop ha hline, if_pos hk, if_neg hne, if_pos hover]

theorem findRedundant_past (hstops : ¬ e.Stops settings range) (hall : ¬ e.FlushesExactly range) :
    findRedundant settings bug range redundant ((e, k) :: l) =
      findRedundant settings bug range redundant l := by
  by_cases hop : e.kind.isOperation = true
  · obtain ⟨a, ha, hline⟩ := Event.exists_address (fun hfit ↦ hstops (.inl hfit)) hop
    rw [findRedundant_fit hop ha hline]
    split
    · next hk =>
      have hne : a ≠ range := fun heq ↦ hall ⟨hk, heq ▸ ha⟩
      rw [if_neg hne, if_neg fun hover ↦ hstops (.inr ⟨hk, a, ha, hne, hover⟩)]
    · rfl
  · rw [findRedundant.eq_def]
    exact if_neg hop

theorem findRedundant_before (bug : Nat) (redundant : Option Event) (hk : k ≤ n)
    (hstops : t.NoneIn (·.Stops settings range) k n) (hall : t.NoneIn (·.FlushesExactly range) k n) :
    findRedundant settings bug range redundant (t.before n) =
      findRedundant settings bug range redundant (t.before k) := by
  induction hk with
  | refl => rfl
  | @step n hk ih =>
    have ih := ih (hstops.mono le_rfl n.le_succ) (hall.mono le_rfl n.le_succ)
    cases he : t.events[n]? with
    | none => rw [before_succ_of_none he, ih]
    | some e =>
      rw [before_succ he, findRedundant_past (hstops n e hk n.lt_succ_self he)
        (hall n e hk n.lt_succ_self he), ih]

/-- The answer to a report of a flush of `range`: something that stops the search before it has found two
flushes, a flush that is missing, or the latest flush of the range with the one before it. -/
inductive Pairs (settings : Settings) (t : Trace) (bug : Nat) (range : ByteRange) :
    Except RepairError (Event × Event) → Prop
  | objection {k : Nat} {e : Event} {cause : RepairError} : t.Latest bug (·.Stops settings range) k e →
      (∀ r d o c, t.Latest bug (·.FlushesExactly range) r d →
        t.Latest r (·.FlushesExactly range) o c → o < k) →
      e.Objects settings bug range k cause → Pairs settings t bug range (.error cause)
  | noFlush : t.NoneIn (·.Stops settings range) 0 bug → t.NoneIn (·.FlushesExactly range) 0 bug →
      Pairs settings t bug range (.error (.anchorNotFound bug .redundantFlush))
  | oneFlush {r : Nat} {d : Event} : t.NoneIn (·.Stops settings range) 0 bug →
      t.Latest bug (·.FlushesExactly range) r d → t.NoneIn (·.FlushesExactly range) 0 r →
      Pairs settings t bug range (.error (.anchorNotFound bug .earlierFlush))
  | pair {r o : Nat} {d c : Event} : t.Latest bug (·.FlushesExactly range) r d →
      t.Latest r (·.FlushesExactly range) o c → t.NoneIn (·.Stops settings range) o bug →
      Pairs settings t bug range (.ok (c, d))

section InOneLine

variable (hline : range.inOneLine settings.cacheLineSize = true)
include hline

theorem Latest.ne_of_stops {c : Event} (ho : t.Latest n (·.FlushesExactly range) o c)
    (hk : t.Latest bug (·.Stops settings range) k e) : k ≠ o := by
  rintro rfl
  cases hk.event.symm.trans ho.event
  exact ho.holds.not_stops hline hk.holds

theorem exists_pairs (t : Trace) (bug : Nat) : ∃ v, t.Pairs settings bug range v := by
  obtain ⟨k, e, hk⟩ | hstops := t.latest_or_noneIn (·.Stops settings range) bug
  · obtain ⟨cause, hcause⟩ := hk.holds.exists_objects bug k
    by_cases h : ∃ r d o c, t.Latest bug (·.FlushesExactly range) r d ∧
        t.Latest r (·.FlushesExactly range) o c ∧ k ≤ o
    · obtain ⟨r, d, o, c, hr, ho, hko⟩ := h
      have hlt : k < o := Nat.lt_of_le_of_ne hko (ho.ne_of_stops hline hk)
      exact ⟨_, .pair hr ho (hk.later.mono hlt le_rfl)⟩
    · refine ⟨_, .objection hk (fun r d o c hr ho ↦ ?_) hcause⟩
      exact Nat.lt_of_not_le fun hko ↦ h ⟨r, d, o, c, hr, ho, hko⟩
  · obtain ⟨r, d, hr⟩ | hnone := t.latest_or_noneIn (·.FlushesExactly range) bug
    · obtain ⟨o, c, ho⟩ | hnone := t.latest_or_noneIn (·.FlushesExactly range) r
      · exact ⟨_, .pair hr ho (hstops.mono (Nat.zero_le o) le_rfl)⟩
      · exact ⟨_, .oneFlush hstops hr hnone⟩
    · exact ⟨_, .noFlush hstops hnone⟩

theorem findRedundant_first (hr : t.Latest bug (·.FlushesExactly range) r d)
    (hstops : t.NoneIn (·.Stops settings range) (r + 1) bug) :
    findRedundant settings bug range none (t.before bug) =
      findRedundant settings bug range (some d) (t.before r) := by
  rw [findRedundant_before bug none (Nat.succ_le_of_lt hr.lt) hstops hr.later, before_succ hr.event,
    findRedundant_flushesExactly hr.holds hline]

theorem findRedundant_objection (hk : t.Latest bug (·.Stops settings range) k e)
    (habove : ∀ r d o c, t.Latest bug (·.FlushesExactly range) r d →
      t.Latest r (·.FlushesExactly range) o c → o < k) (hcause : e.Objects settings bug range k cause) :
    findRedundant settings bug range none (t.before bug) = .error cause := by
  by_cases h : ∃ r d, t.Latest bug (·.FlushesExactly range) r d ∧ k < r
  · obtain ⟨r, d, hr, hkr⟩ := h
    have hnone : t.NoneIn (·.FlushesExactly range) (k + 1) r :=
      noneIn_of_latest_lt fun o c ho ↦ Nat.lt_succ_of_lt (habove r d o c hr ho)
    rw [findRedundant_first hline hr (hk.later.mono (Nat.succ_le_succ hkr.le) le_rfl),
      findRedundant_before bug (some d) (Nat.succ_le_of_lt hkr) (hk.later.mono le_rfl hr.lt.le) hnone,
      before_succ hk.event, findRedundant_objects hcause]
  · have hnone : t.NoneIn (·.FlushesExactly range) (k + 1) bug := noneIn_of_latest_lt fun r d hr ↦
      Nat.lt_succ_of_le (Nat.le_of_not_lt fun hkr ↦ h ⟨r, d, hr, hkr⟩)
    rw [findRedundant_before bug none (Nat.succ_le_of_lt hk.lt) hk.later hnone, before_succ hk.event,
      findRedundant_objects hcause]

theorem findRedundant_of_pairs {v : Except RepairError (Event × Event)}
    (h : t.Pairs settings bug range v) :
    findRedundant settings bug range none (t.before bug) = v := by
  cases h with
  | objection hk habove hcause => exact findRedundant_objection hline hk habove hcause
  | noFlush hstops hnone =>
    rw [findRedundant_before bug none (Nat.zero_le bug) hstops hnone]
    rfl
  | @oneFlush r d hstops hr hnone =>
    rw [findRedundant_first hline hr (hstops.mono (Nat.zero_le _) le_rfl),
      findRedundant_before bug (some d) (Nat.zero_le r) (hstops.mono le_rfl hr.lt.le) hnone]
    rfl
  | @pair r o d c hr ho hstops =>
    rw [findRedundant_first hline hr (hstops.mono (ho.lt.le.trans r.le_succ) le_rfl),
      findRedundant_before bug (some d) (Nat.succ_le_of_lt ho.lt) (hstops.mono o.le_succ hr.lt.le)
        ho.later,
      before_succ ho.event, findRedundant_flushesExactly ho.holds hline]

end InOneLine

end Trace

namespace RepairTask

variable {task : RepairTask} {b : Event}

/-- There is just one answer to a report of a flush that was not needed, and it is given: as an error that
leaves everything as it is, or by an analysis of two flushes. -/
theorem requiredFlush_pairs (hb : task.trace.events[bug]? = some b) (haddress : b.addresses = [range])
    (hline : range.inOneLine task.settings.cacheLineSize = true) :
    ∃ v, task.trace.Pairs task.settings bug range v ∧
      (∀ v', task.trace.Pairs task.settings bug range v' → v' = v) ∧
      (∀ cause, v = .error cause →
        ∀ s, (task.requiredFlush bug).run s = (.error (.refused cause), s)) ∧
      (∀ earlier redundant, v = .ok (earlier, redundant) →
        task.requiredFlush bug = task.unflush earlier redundant) := by
  obtain ⟨v, hv⟩ := Trace.exists_pairs hline task.trace bug
  have hpair : task.trace.redundantPair task.settings bug = Attempt.ofExcept v := by
    rw [Trace.redundantPair, Trace.target_eq_ok hb haddress hline]
    exact congrArg Attempt.ofExcept (Trace.findRedundant_of_pairs hline hv)
  refine ⟨v, hv, fun v' hv' ↦ ?_, ?_, ?_⟩
  · exact (Trace.findRedundant_of_pairs hline hv').symm.trans (Trace.findRedundant_of_pairs hline hv)
  · rintro cause rfl s
    rw [requiredFlush, hpair]
    rfl
  · rintro earlier redundant rfl
    rw [requiredFlush, hpair]
    rfl

theorem storeBetween_pairs : (Sample.acrossCallsTrace true).Pairs .usual 4 Sample.cacheLine
    (.ok ((Sample.acrossCallsTrace true).events[1], (Sample.acrossCallsTrace true).events[3])) := by
  have hbetween : (Sample.acrossCallsTrace true).NoneIn (·.FlushesExactly Sample.cacheLine) 2 3 := by
    intro k e hk hlt he
    obtain rfl : k = 2 := by omega
    cases he
    exact fun h ↦ nomatch h.1
  have hstops : (Sample.acrossCallsTrace true).NoneIn (·.Stops .usual Sample.cacheLine) 1 4 := by
    rintro k e hk hlt he (⟨hop, hnot⟩ | ⟨hflush, a, ha, hne, -⟩)
    · obtain rfl | rfl | rfl : k = 1 ∨ k = 2 ∨ k = 3 := by omega
      all_goals
        cases he
        exact hnot ⟨_, rfl, by decide⟩
    · obtain rfl | rfl | rfl : k = 1 ∨ k = 2 ∨ k = 3 := by omega
      · cases he
        cases ha
        exact hne rfl
      · cases he
        cases hflush
      · cases he
        cases ha
        exact hne rfl
  refine .pair (r := 3) (o := 1) ⟨by decide, rfl, ⟨rfl, rfl⟩, ?_⟩ ⟨by decide, rfl, ⟨rfl, rfl⟩, hbetween⟩
    hstops
  intro k e hk hlt
  omega

theorem requiredFlush_pairs_storeBetween : ∃ task : RepairTask,
    make .usual (Sample.acrossCalls true).program (Sample.acrossCallsTrace true) = .ok task ∧
      task.requiredFlush 4 = task.unflush (Sample.acrossCallsTrace true).events[1]
        (Sample.acrossCallsTrace true).events[3] := by
  have hvalid : (Sample.acrossCalls true).program.validate = .ok () := by decide +kernel
  obtain ⟨task, htask⟩ :=
    exists_make .usual (Program.validate_eq_ok_iff.1 hvalid) (Sample.acrossCallsTrace true)
  obtain ⟨-, hsettings, htrace, -⟩ := make_eq_ok htask
  have hb : task.trace.events[4]? = some (Sample.acrossCallsTrace true).events[4] := by
    rw [htrace]
    rfl
  have hline : Sample.cacheLine.inOneLine task.settings.cacheLineSize = true := by
    rw [hsettings]
    decide
  obtain ⟨v, -, hunique, -, hanalysed⟩ := requiredFlush_pairs hb rfl hline
  rw [hsettings, htrace] at hunique
  exact ⟨task, htask, hanalysed _ _ (hunique _ storeBetween_pairs).symm⟩

end RepairTask

end Durability
