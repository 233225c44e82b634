import Durability.Proofs.Repair.AssertPersisted
import Durability.Proofs.Trace.Latest

namespace Durability

variable {settings : Settings} {t : Trace} {range a : ByteRange} {e : Event} {bug j k n : Nat}
  {fenced : Bool}

namespace Event

/-- A store or flush that has not just one address, or not within one line. -/
def Misaddressed (settings : Settings) (e : Event) : Prop :=
  e.kind.isOperation = true ∧
    ¬ ∃ a, e.addresses = [a] ∧ a.inOneLine settings.cacheLineSize = true

def addressError (k : Nat) (e : Event) : RepairError :=
  match e.addresses with
  | [a] => .crossesLine k a
  | as => .addressCount k as.length

theorem exists_address (hfit : ¬ e.Misaddressed settings) (hop : e.kind.isOperation = true) :
    ∃ a, e.addresses = [a] ∧ a.inOneLine settings.cacheLineSize = true :=
  Classical.not_not.1 fun hnot ↦ hfit ⟨hop, hnot⟩

end Event

namespace Trace

theorem checkAddress_of_not
    (h : ¬ ∃ a, e.addresses = [a] ∧ a.inOneLine settings.cacheLineSize = true) :
    checkAddress settings k e = .error (e.addressError k) := by
  rw [checkAddress, Event.single?, Event.addressError]
  rcases haddresses : e.addresses with _ | ⟨a, _ | ⟨b, as⟩⟩
  · rfl
  · exact if_neg fun hline ↦ h ⟨a, haddresses, hline⟩
  · rfl

theorem target_eq_ok (he : t.events[k]? = some e) (haddress : e.addresses = [a])
    (hline : a.inOneLine settings.cacheLineSize = true) : t.target settings k = .ok a := by
  rw [target, Fault.lookup_eq_ok_iff.2 he]
  exact Attempt.ofExcept_eq_ok_iff.2 (checkAddress_of_inOneLine haddress hline)

def FencedIn (t : Trace) (start n : Nat) : Prop :=
  ∃ k f, start ≤ k ∧ k < n ∧ t.events[k]? = some f ∧ f.kind = .fence

theorem findUnpersisted_misaddressed {l : List (Event × Nat)} (h : e.Misaddressed settings) :
    findUnpersisted settings bug range fenced ((e, k) :: l) = .error (e.addressError k) := by
  have hfence : e.kind ≠ .fence := fun hk ↦ by
    have hop := h.1
    rw [hk] at hop
    cases hop
  rw [findUnpersisted, if_neg hfence, if_pos h.1, checkAddress_of_not h.2]
  rfl

theorem findUnpersisted_store {l : List (Event × Nat)} (hk : e.kind = .store)
    (haddress : e.addresses = [range]) (hline : range.inOneLine settings.cacheLineSize = true) :
    findUnpersisted settings bug range fenced ((e, k) :: l) =
      .ok (e, if fenced then .addFlush else .addFlushAndFence) := by
  rw [findUnpersisted, if_neg (by rw [hk]; decide), if_pos (by rw [hk]; rfl),
    checkAddress_of_inOneLine haddress hline]
  exact if_pos ⟨hk, rfl⟩

theorem findUnpersisted_flush {l : List (Event × Nat)} (hk : e.kind = .flush)
    (haddress : e.addresses = [a]) (hline : a.inOneLine settings.cacheLineSize = true)
    (hover : a.overlaps range = true) :
    findUnpersisted settings bug range fenced ((e, k) :: l) =
      if fenced then .error (.contradictoryState bug k) else .ok (e, .addFence) := by
  have hstore : ¬ (e.kind = .store ∧ a = range) := fun h ↦ by cases hk.symm.trans h.1
  rw [findUnpersisted, if_neg (by rw [hk]; decide), if_pos (by rw [hk]; rfl),
    checkAddress_of_inOneLine haddress hline]
  change (if e.kind = .store ∧ a = range then _ else _) = _
  rw [if_neg hstore, if_pos ⟨hk, hover⟩]
  rfl

theorem findUnpersisted_past {l : List (Event × Nat)} (hfit : ¬ e.Misaddressed settings)
    (hpast : ¬ e.Settles range) :
    findUnpersisted settings bug range fenced ((e, k) :: l) =
      findUnpersisted settings bug range (fenced || e.kind = .fence) l := by
  rw [findUnpersisted]
  split
  · next hk => rw [hk, decide_eq_true rfl, Bool.or_true]
  · next hk =>
    rw [decide_eq_false hk, Bool.or_false]
    split
    · next hop =>
      obtain ⟨a, haddress, hline⟩ := Event.exists_address hfit hop
      rw [checkAddress_of_inOneLine haddress hline]
      change (if e.kind = .store ∧ a = range then _ else _) = _
      have hstore : ¬ (e.kind = .store ∧ a = range) := fun h ↦ hpast (.inl ⟨h.1, h.2 ▸ haddress⟩)
      have hflush : ¬ (e.kind = .flush ∧ a.overlaps range = true) := fun h ↦
        hpast (.inr ⟨h.1, a, haddress, h.2⟩)
      rw [if_neg hstore, if_neg hflush]
    · rfl

theorem fencedIn_succ (hk : k ≤ n) : t.FencedIn k (n + 1) ↔
    (∃ e, t.events[n]? = some e ∧ e.kind = .fence) ∨ t.FencedIn k n := by
  constructor
  · rintro ⟨i, f, hi, hin, hf, hfence⟩
    obtain hlt | rfl := Nat.lt_succ_iff_lt_or_eq.1 hin
    · exact .inr ⟨i, f, hi, hlt, hf, hfence⟩
    · exact .inl ⟨f, hf, hfence⟩
  · rintro (⟨e, he, hfence⟩ | ⟨i, f, hi, hin, hf, hfence⟩)
    · exact ⟨n, e, hk, n.lt_succ_self, he, hfence⟩
    · exact ⟨i, f, hi, Nat.lt_succ_of_lt hin, hf, hfence⟩

theorem findUnpersisted_before (bug : Nat) (hk : k ≤ n) (hfit : t.NoneIn (·.Misaddressed settings) k n)
    (hpast : t.NoneIn (·.Settles range) k n) (fenced : Bool) :
    ∃ fenced' : Bool, (fenced' = true ↔ fenced = true ∨ t.FencedIn k n) ∧
      findUnpersisted settings bug range fenced (t.before n) =
        findUnpersisted settings bug range fenced' (t.before k) := by
  induction hk generalizing fenced with
  | refl =>
    have hnone : ¬ t.FencedIn k k := fun ⟨_, _, hi, hik, _⟩ ↦ Nat.not_le_of_lt hik hi
    exact ⟨fenced, by rw [or_iff_left hnone], rfl⟩
  | @step n hk ih =>
    have ih := ih (hfit.mono le_rfl n.le_succ) (hpast.mono le_rfl n.le_succ)
    cases he : t.events[n]? with
    | none =>
      rw [before_succ_of_none he]
      obtain ⟨fenced', hiff, heq⟩ := ih fenced
      refine ⟨fenced', ?_, heq⟩
      simp only [hiff, fencedIn_succ hk, he, reduceCtorEq, false_and, exists_false, false_or]
    | some e =>
      rw [before_succ he, findUnpersisted_past (hfit n e hk n.lt_succ_self he)
        (hpast n e hk n.lt_succ_self he)]
      obtain ⟨fenced', hiff, heq⟩ := ih (fenced || e.kind = .fence)
      refine ⟨fenced', ?_, heq⟩
      simp only [hiff, fencedIn_succ hk, he, Option.some.injEq, exists_eq_left', Bool.or_eq_true,
        decide_eq_true_eq, or_assoc]

/-- The search for what left `range` without persistence ends at `e`, the latest event that settles it. -/
structure EndsAt (settings : Settings) (t : Trace) (bug : Nat) (range : ByteRange) (j : Nat) (e : Event) :
    Prop where
  latest : t.Latest bug (·.Settles range) j e
  fit : t.NoneIn (·.Misaddressed settings) j bug

/-- The answer to a failed assertion of persistence of `range`: an address that cannot be made use of,
nothing to put it down to, or the latest event that settles it and the fix that this calls for. -/
inductive Blames (settings : Settings) (t : Trace) (bug : Nat) (range : ByteRange) :
    Except RepairError (Event × FixKind) → Prop
  | misaddressed {k : Nat} {e : Event} : t.Latest bug (·.Misaddressed settings) k e →
      (∀ j d, t.Latest bug (·.Settles range) j d → j ≤ k) →
      Blames settings t bug range (.error (e.addressError k))
  | nothing : t.NoneIn (·.Misaddressed settings) 0 bug → t.NoneIn (·.Settles range) 0 bug →
      Blames settings t bug range (.error (.anchorNotFound bug .storeOrFlush))
  | fencedFlush {j : Nat} {e : Event} : t.EndsAt settings bug range j e → e.kind = .flush →
      t.FencedIn (j + 1) bug → Blames settings t bug range (.error (.contradictoryState bug j))
  | flush {j : Nat} {e : Event} : t.EndsAt settings bug range j e → e.kind = .flush →
      ¬ t.FencedIn (j + 1) bug → Blames settings t bug range (.ok (e, .addFence))
  | fencedStore {j : Nat} {e : Event} : t.EndsAt settings bug range j e → e.kind = .store →
      t.FencedIn (j + 1) bug → Blames settings t bug range (.ok (e, .addFlush))
  | store {j : Nat} {e : Event} : t.EndsAt settings bug range j e → e.kind = .store →
      ¬ t.FencedIn (j + 1) bug → Blames settings t bug range (.ok (e, .addFlushAndFence))

theorem EndsAt.exists_blames (h : t.EndsAt settings bug range j e) :
    ∃ r, t.Blames settings bug range r := by
  obtain ⟨hk, -⟩ | ⟨hk, -⟩ := h.latest.holds
  · by_cases hfence : t.FencedIn (j + 1) bug
    · exact ⟨_, .fencedStore h hk hfence⟩
    · exact ⟨_, .store h hk hfence⟩
  · by_cases hfence : t.FencedIn (j + 1) bug
    · exact ⟨_, .fencedFlush h hk hfence⟩
    · exact ⟨_, .flush h hk hfence⟩

theorem exists_blames (settings : Settings) (t : Trace) (bug : Nat) (range : ByteRange) :
    ∃ r, t.Blames settings bug range r := by
  obtain ⟨j, d, hj⟩ | hnone := t.latest_or_noneIn (·.Settles range) bug
  · obtain ⟨k, e, hk⟩ | hfit := t.latest_or_noneIn (·.Misaddressed settings) bug
    · by_cases hjk : j ≤ k
      · exact ⟨_, .misaddressed hk fun j' d' hj' ↦ (hj'.unique hj).1 ▸ hjk⟩
      · exact EndsAt.exists_blames ⟨hj, hk.later.mono (Nat.succ_le_of_lt (Nat.lt_of_not_le hjk)) le_rfl⟩
    · exact EndsAt.exists_blames ⟨hj, hfit.mono (Nat.zero_le j) le_rfl⟩
  · obtain ⟨k, e, hk⟩ | hfit := t.latest_or_noneIn (·.Misaddressed settings) bug
    · refine ⟨_, .misaddressed hk fun j d hj ↦ ?_⟩
      exact absurd hj.holds (hnone j d (Nat.zero_le j) hj.lt hj.event)
    · exact ⟨_, .nothing hfit hnone⟩

theorem findUnpersisted_at (hk : k < bug) (he : t.events[k]? = some e)
    (hfit : t.NoneIn (·.Misaddressed settings) (k + 1) bug)
    (hpast : t.NoneIn (·.Settles range) (k + 1) bug) :
    ∃ fenced : Bool, (fenced = true ↔ t.FencedIn (k + 1) bug) ∧
      findUnpersisted settings bug range false (t.before bug) =
        findUnpersisted settings bug range fenced ((e, k) :: t.before k) := by
  obtain ⟨fenced, hiff, heq⟩ :=
    findUnpersisted_before bug (Nat.succ_le_of_lt hk) hfit hpast false
  exact ⟨fenced, by simpa using hiff, by rw [heq, before_succ he]⟩

section EndsAt

variable (h : t.EndsAt settings bug range j e)
include h

theorem EndsAt.findUnpersisted_eq :
    ∃ fenced : Bool, (fenced = true ↔ t.FencedIn (j + 1) bug) ∧
      findUnpersisted settings bug range false (t.before bug) =
        findUnpersisted settings bug range fenced ((e, j) :: t.before j) :=
  findUnpersisted_at h.latest.lt h.latest.event (h.fit.mono j.le_succ le_rfl) h.latest.later

theorem EndsAt.store (hk : e.kind = .store) :
    ∃ fenced : Bool, (fenced = true ↔ t.FencedIn (j + 1) bug) ∧
      findUnpersisted settings bug range false (t.before bug) =
        .ok (e, if fenced then .addFlush else .addFlushAndFence) := by
  obtain ⟨fenced, hiff, heq⟩ := h.findUnpersisted_eq
  obtain ⟨-, haddress⟩ | ⟨hk', -⟩ := h.latest.holds
  · have hfit := h.fit j e le_rfl h.latest.lt h.latest.event
    obtain ⟨a, ha, hline⟩ := Event.exists_address hfit (by rw [hk]; rfl)
    obtain rfl := List.singleton_inj.1 (haddress.symm.trans ha)
    exact ⟨fenced, hiff, heq.trans (findUnpersisted_store hk haddress hline)⟩
  · cases hk.symm.trans hk'

theorem EndsAt.flush (hk : e.kind = .flush) :
    ∃ fenced : Bool, (fenced = true ↔ t.FencedIn (j + 1) bug) ∧
      findUnpersisted settings bug range false (t.before bug) =
        if fenced then .error (.contradictoryState bug j) else .ok (e, .addFence) := by
  obtain ⟨fenced, hiff, heq⟩ := h.findUnpersisted_eq
  obtain ⟨hk', -⟩ | ⟨-, b, hb, hover⟩ := h.latest.holds
  · cases hk.symm.trans hk'
  · have hfit := h.fit j e le_rfl h.latest.lt h.latest.event
    obtain ⟨a, ha, hline⟩ := Event.exists_address hfit (by rw [hk]; rfl)
    obtain rfl := List.singleton_inj.1 (hb.symm.trans ha)
    exact ⟨fenced, hiff, heq.trans (findUnpersisted_flush hk hb hline hover)⟩

end EndsAt

theorem findUnpersisted_of_blames {r : Except RepairError (Event × FixKind)}
    (h : t.Blames settings bug range r) :
    findUnpersisted settings bug range false (t.before bug) = r := by
  cases h with
  | misaddressed hk hpast =>
    have hnone : t.NoneIn (·.Settles range) _ bug :=
      noneIn_of_latest_lt fun j d hj ↦ Nat.lt_succ_of_le (hpast j d hj)
    obtain ⟨fenced, -, heq⟩ := findUnpersisted_at hk.lt hk.event hk.later hnone
    rw [heq, findUnpersisted_misaddressed hk.holds]
  | nothing hfit hnone =>
    obtain ⟨fenced, -, heq⟩ := findUnpersisted_before bug (Nat.zero_le bug) hfit hnone false
    rw [heq]
    rfl
  | fencedFlush h hk hfence =>
    obtain ⟨fenced, hiff, heq⟩ := h.flush hk
    rw [heq, if_pos (hiff.2 hfence)]
  | flush h hk hfence =>
    obtain ⟨fenced, hiff, heq⟩ := h.flush hk
    rw [heq, if_neg fun hf ↦ hfence (hiff.1 hf)]
  | fencedStore h hk hfence =>
    obtain ⟨fenced, hiff, heq⟩ := h.store hk
    rw [heq, if_pos (hiff.2 hfence)]
  | store h hk hfence =>
    obtain ⟨fenced, hiff, heq⟩ := h.store hk
    rw [heq, if_neg fun hf ↦ hfence (hiff.1 hf)]

end Trace

namespace RepairTask

variable {task : RepairTask} {b : Event}

/-- There is just one answer to a failed assertion of persistence, and it is given: as an error that
leaves everything as it is, or as a fix at the event that is to blame. -/
theorem assertPersisted_blames (hb : task.trace.events[bug]? = some b) (haddress : b.addresses = [range])
    (hline : range.inOneLine task.settings.cacheLineSize = true) :
    ∃ r, task.trace.Blames task.settings bug range r ∧
      (∀ r', task.trace.Blames task.settings bug range r' → r' = r) ∧
      (∀ cause, r = .error cause →
        ∀ s, (task.assertPersisted bug).run s = (.error (.refused cause), s)) ∧
      (∀ e kind, r = .ok (e, kind) → task.assertPersisted bug = task.fixAt e kind) := by
  obtain ⟨r, hr⟩ := task.trace.exists_blames task.settings bug range
  have hunpersisted : task.trace.unpersisted task.settings bug = Attempt.ofExcept r := by
    rw [Trace.unpersisted, Trace.target_eq_ok hb haddress hline]
    exact congrArg Attempt.ofExcept (Trace.findUnpersisted_of_blames hr)
  refine ⟨r, hr, fun r' hr' ↦ ?_, ?_, ?_⟩
  · exact (Trace.findUnpersisted_of_blames hr').symm.trans (Trace.findUnpersisted_of_blames hr)
  · rintro cause rfl s
    rw [assertPersisted, hunpersisted]
    rfl
  · rintro e kind rfl
    rw [assertPersisted, hunpersisted]
    rfl

def fencedStore : Trace :=
  Sample.trace [Sample.event .store ("main", 10) [] Sample.word false,
    (Sample.event .fence ("main", 12) [] Sample.word false).toFence,
    Sample.event .flush ("main", 14) [] ⟨0x2000, 64⟩ false,
    Sample.event .assertPersisted ("main", 16) [] Sample.word true]

theorem fencedStore_blames :
    fencedStore.Blames .usual 3 Sample.word (.ok (fencedStore.events[0], .addFlush)) := by
  have hsettles : fencedStore.NoneIn (·.Settles Sample.word) 1 3 := by
    intro k e hk hlt he
    obtain rfl | rfl : k = 1 ∨ k = 2 := by omega
    · cases he
      rintro (⟨h, -⟩ | ⟨h, -⟩) <;> cases h
    · cases he
      rintro (⟨h, -⟩ | ⟨-, a, ha, hover⟩)
      · cases h
      · cases ha
        exact absurd hover (by decide)
  have hfit : fencedStore.NoneIn (·.Misaddressed .usual) 0 3 := by
    rintro k e - hlt he ⟨hop, hnot⟩
    obtain rfl | rfl | rfl : k = 0 ∨ k = 1 ∨ k = 2 := by omega
    · cases he
      exact hnot ⟨_, rfl, by decide⟩
    · cases he
      cases hop
    · cases he
      exact hnot ⟨_, rfl, by decide⟩
  exact .fencedStore ⟨⟨by decide, rfl, .inl ⟨rfl, rfl⟩, hsettles⟩, hfit⟩ rfl
    ⟨1, _, by decide, by decide, rfl, rfl⟩

theorem assertPersisted_blames_fencedStore : ∃ task : RepairTask,
    make .usual Sample.straightLine.program fencedStore = .ok task ∧
      task.assertPersisted 3 = task.fixAt fencedStore.events[0] .addFlush := by
  have hvalid : Sample.straightLine.program.validate = .ok () := by decide +kernel
  obtain ⟨task, htask⟩ := exists_make .usual (Program.validate_eq_ok_iff.1 hvalid) fencedStore
  obtain ⟨-, hsettings, htrace, -⟩ := make_eq_ok htask
  have hb : task.trace.events[3]? = some fencedStore.events[3] := by
    rw [htrace]
    rfl
  have hline : Sample.word.inOneLine task.settings.cacheLineSize = true := by
    rw [hsettings]
    decide
  obtain ⟨r, -, hunique, -, hfix⟩ := assertPersisted_blames hb rfl hline
  rw [hsettings, htrace] at hunique
  exact ⟨task, htask, hfix _ _ (hunique _ fencedStore_blames).symm⟩

end RepairTask

end Durability
