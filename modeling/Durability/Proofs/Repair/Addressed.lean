import Durability.Proofs.Repair.Expects
import Durability.Proofs.Repair.RedundantPair
import Durability.Proofs.Trace.Document

namespace Durability

variable {settings : Settings} {p : Program} {t : Trace} {range : ByteRange} {e : Event} {bug k : Nat}

/-- A failure that is not about the number of addresses of an event. -/
def Failure.NotAddressCount : Failure RepairError → Prop
  | .refused (.addressCount _ _) => False
  | _ => True

open Failure

/-- If events of its kind have one address, the event has just one. -/
def Event.Addressed (e : Event) : Prop :=
  e.kind.fields = [.address, .length] → ∃ a, e.addresses = [a]

def Trace.Addressed (t : Trace) : Prop := ∀ e ∈ t.events, e.Addressed

theorem Record.Denotes.addressed {r : Record} (h : r.Denotes e) : e.Addressed := by
  intro hfields
  have hwords := congrArg List.length h.addresses
  rw [hfields] at hwords
  rcases he : e.addresses with _ | ⟨a, _ | ⟨b, as⟩⟩ <;> rw [he] at hwords
  · cases hwords
  · exact ⟨a, rfl⟩
  · cases hwords

theorem Trace.addressed_of_denotes {rs : List Record} (h : List.Forall₂ Record.Denotes rs t.events) :
    t.Addressed := by
  rw [Addressed]
  generalize t.events = es at h
  induction h with
  | nil => exact List.forall_mem_nil _
  | cons hr _ ih => exact List.forall_mem_cons.2 ⟨hr.addressed, ih⟩

namespace Trace.Addressed

variable (h : t.Addressed)
include h

theorem notAddressCount_addressError (he : t.events[k]? = some e)
    (hfields : e.kind.fields = [.address, .length]) : NotAddressCount (.refused (e.addressError k)) := by
  obtain ⟨a, ha⟩ := h e (List.mem_of_getElem? he) hfields
  rw [Event.addressError, ha]
  exact trivial

theorem notAddressCount_of_misaddressed (he : t.events[k]? = some e) (hfit : e.Misaddressed settings) :
    NotAddressCount (.refused (e.addressError k)) := by
  refine h.notAddressCount_addressError he ?_
  have hop := hfit.1
  cases hk : e.kind <;> rw [hk] at hop <;> first | rfl | cases hop

theorem target_cases (settings : Settings) (he : t.events[k]? = some e)
    (hfields : e.kind.fields = [.address, .length]) :
    (∃ a, a.inOneLine settings.cacheLineSize = true ∧ t.target settings k = .ok a) ∨
      ∃ cause, NotAddressCount (.refused cause) ∧ t.target settings k = .error (.refused cause) := by
  by_cases hline : ∃ a, e.addresses = [a] ∧ a.inOneLine settings.cacheLineSize = true
  · obtain ⟨a, ha, hline⟩ := hline
    exact .inl ⟨a, hline, target_eq_ok he ha hline⟩
  · refine .inr ⟨_, h.notAddressCount_addressError he hfields, ?_⟩
    rw [target, Fault.lookup_eq_ok_iff.2 he]
    exact congrArg Attempt.ofExcept (checkAddress_of_not hline)

theorem failsOnly_of_blames {r : Except RepairError (Event × FixKind)}
    (hr : t.Blames settings bug range r) : FailsOnly (NotAddressCount ∘ .refused) r := by
  cases hr with
  | misaddressed hk => exact .error (h.notAddressCount_of_misaddressed hk.event hk.holds)
  | nothing | fencedFlush => exact .error trivial
  | flush | fencedStore | store => exact .of_ok ⟨_, rfl⟩

theorem failsOnly_of_pairs {v : Except RepairError (Event × Event)}
    (hv : t.Pairs settings bug range v) : FailsOnly (NotAddressCount ∘ .refused) v := by
  cases hv with
  | objection hk _ hobjects =>
    cases hobjects with
    | address hfit => exact .error (h.notAddressCount_of_misaddressed hk.event hfit)
    | overlap => exact .error trivial
  | noFlush | oneFlush => exact .error trivial
  | pair => exact .of_ok ⟨_, rfl⟩

theorem unpersisted_failsOnly (he : t.events[bug]? = some e) (hkind : e.kind = .assertPersisted) :
    FailsOnly NotAddressCount (t.unpersisted settings bug) := by
  obtain ⟨a, -, ha⟩ | ⟨cause, hcause, ha⟩ := h.target_cases settings he (by rw [hkind]; rfl)
  · obtain ⟨r, hr⟩ := t.exists_blames settings bug a
    rw [unpersisted, ha]
    exact .ofExcept ((findUnpersisted_of_blames hr).symm ▸ h.failsOnly_of_blames hr)
  · rw [unpersisted, ha]
    exact .error hcause

theorem redundantPair_failsOnly (he : t.events[bug]? = some e) (hkind : e.kind = .requiredFlush) :
    FailsOnly NotAddressCount (t.redundantPair settings bug) := by
  obtain ⟨a, hline, ha⟩ | ⟨cause, hcause, ha⟩ := h.target_cases settings he (by rw [hkind]; rfl)
  · obtain ⟨v, hv⟩ := exists_pairs hline t bug
    rw [redundantPair, ha]
    exact .ofExcept ((findRedundant_of_pairs hline hv).symm ▸ h.failsOnly_of_pairs hv)
  · rw [redundantPair, ha]
    exact .error hcause

end Trace.Addressed

theorem Trace.Addressed.expects {task : RepairTask} (h : task.trace.Addressed) :
    task.Expects NotAddressCount where
  program := ⟨fun _ ↦ trivial, fun _ _ ↦ trivial, fun _ ↦ trivial, fun _ _ ↦ trivial, fun _ ↦ trivial⟩
  noLeaves _ _ := trivial
  invalidLeaf _ := trivial
  conflictingFixes _ _ _ := trivial
  unhandledFixes _ _ _ := trivial
  unpersisted _ _ := h.unpersisted_failsOnly
  redundantPair _ _ := h.redundantPair_failsOnly

namespace Trace

variable {d : Document} {source : Source}

theorem mem_bugs_iff_of_denotes {rs : List Record} (h : List.Forall₂ Record.Denotes rs t.events) :
    k ∈ t.bugs ↔ ∃ r : Record, rs[k]? = some r ∧ r.isBug = true := by
  have hmarks : t.events.map (·.isBug) = rs.map (·.isBug) := by
    rw [← List.forall₂_eq_eq_eq, List.forall₂_map_left_iff, List.forall₂_map_right_iff]
    exact (h.imp fun r e hr ↦ hr.isBug).flip
  have hmark := congrArg (·[k]?) hmarks
  simp only [List.getElem?_map] at hmark
  rw [mem_bugs_iff]
  simpa [Option.map_eq_some_iff] using congrArg (· = some true) hmark

/-- A document with a source that is known is loaded if and only if each record has a name that is known and
the fields that go with it; otherwise the first record that lacks something is the error. A trace that is
loaded has the events of the records in order and the marked ones as its bugs, and a valid program is never
refused its repair for a number of addresses. -/
theorem ofDocument_exact (hsource : Document.sourceOf d.source = .ok source) :
    (∀ text, (Yaml.parse? text).bind Document.ofYaml? = some d → parse text = ofDocument d) ∧
      ((∃ t, ofDocument d = .ok t) ↔ ∀ r ∈ d.records, r.Complete) ∧
      (∀ cause, ofDocument d = .error cause ↔ ∃ k, ∃ r : Record, d.records[k]? = some r ∧
        (∀ j (q : Record), j < k → d.records[j]? = some q → q.Complete) ∧ r.Lacks k cause) ∧
      ∀ t, ofDocument d = .ok t →
        t.source = source ∧ List.Forall₂ Record.Denotes d.records t.events ∧
        t.bugs.Pairwise (· < ·) ∧
        (∀ k, k ∈ t.bugs ↔ ∃ r : Record, d.records[k]? = some r ∧ r.isBug = true) ∧
        ∀ settings p, p.validate = .ok () → ∀ k n,
          (computeRepair settings p t).1 ≠ .error (.refused (.addressCount k n)) := by
  refine ⟨fun text htext ↦ ?_, exists_ofDocument_iff hsource,
    fun cause ↦ ofDocument_eq_error_iff hsource, fun t ht ↦ ?_⟩
  · rw [parse, htext]
  · obtain ⟨ht, hevents⟩ := (ofDocument_eq_ok_iff hsource).1 ht
    refine ⟨ht, hevents, t.bugs_increasing, fun k ↦ mem_bugs_iff_of_denotes hevents, ?_⟩
    intro settings p hv k n hrefused
    refine computeRepair_failsOnly (E := NotAddressCount) hv (fun task htask ↦ ?_) _ hrefused
    obtain ⟨-, -, htrace, -⟩ := RepairTask.make_eq_ok htask
    have haddressed : task.trace.Addressed := htrace ▸ addressed_of_denotes hevents
    exact haddressed.expects

section Sample

open Sample

def recordAt (event : String) (line : Int64) (range : Option ByteRange) (isBug : Bool) : Record where
  event := event
  timestamp := 0
  location := location ("main", line)
  isBug := isBug
  stack := [location ("main", line)]
  address := range.map (·.address)
  length := range.map (·.length)
  addressA := none
  lengthA := none
  addressB := none
  lengthB := none

def unflushed : Document where
  source := some "PMTest"
  records := [recordAt "STORE" 10 (some word) false, recordAt "Fence" 12 none false,
    recordAt "assert_Persisted" 16 (some word) true]

theorem ofDocument_exact_unflushed :
    Document.sourceOf unflushed.source = .ok .pmTest ∧ straightLine.program.validate = .ok () ∧
      ∃ t, ofDocument unflushed = .ok t ∧ t.source = .pmTest ∧ (∀ k, k ∈ t.bugs ↔ k = 2) ∧
        ∀ k n, (computeRepair .usual straightLine.program t).1 ≠ .error (.refused (.addressCount k n)) := by
  have hsource : Document.sourceOf unflushed.source = .ok .pmTest := by decide +kernel
  have hv : straightLine.program.validate = .ok () := by decide +kernel
  obtain ⟨-, hloads, -, htrace⟩ := ofDocument_exact hsource
  have hcomplete : ∀ r ∈ unflushed.records, r.Complete := by
    simp only [unflushed, List.forall_mem_cons]
    exact ⟨⟨.store, by decide +kernel, by decide⟩, ⟨.fence, by decide +kernel, by decide⟩,
      ⟨.assertPersisted, by decide +kernel, by decide⟩, List.forall_mem_nil _⟩
  obtain ⟨t, ht⟩ := hloads.2 hcomplete
  obtain ⟨hpmTest, -, -, hbugs, hrepair⟩ := htrace t ht
  refine ⟨hsource, hv, t, ht, hpmTest, fun k ↦ (hbugs k).trans ?_, hrepair .usual _ hv⟩
  rcases k with _ | _ | _ | k <;> simp [unflushed, recordAt]

end Sample

end Trace

end Durability
