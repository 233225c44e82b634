import Durability.Proofs.Attempt
import Durability.Proofs.Trace.Bugs
import Durability.Trace.Document
import Mathlib.Data.List.Forall2

namespace Durability

inductive AddressField
  | address
  | length
  | addressA
  | lengthA
  | addressB
  | lengthB

def AddressField.name : AddressField → String
  | address => "address"
  | length => "length"
  | addressA => "address_a"
  | lengthA => "length_a"
  | addressB => "address_b"
  | lengthB => "length_b"

namespace EventKind

def word? : EventKind → Option String
  | store => some "store"
  | flush => some "flush"
  | fence => some "fence"
  | assertPersisted => some "assert_persisted"
  | assertOrdered => some "assert_ordered"
  | requiredFlush => some "required_flush"
  | invalid => none

/-- The fields that go with such an event: the start and the length of each of its ranges. -/
def fields : EventKind → List AddressField
  | store | flush | assertPersisted | requiredFlush => [.address, .length]
  | assertOrdered => [.addressA, .lengthA, .addressB, .lengthB]
  | fence | invalid => []

end EventKind

namespace ByteRange

def words (as : List ByteRange) : List UInt64 := as.flatMap fun a ↦ [a.address, a.length]

def ofWords : List UInt64 → List ByteRange
  | address :: length :: more => ⟨address, length⟩ :: ofWords more
  | _ => []

theorem ofWords_words (as : List ByteRange) : ofWords (words as) = as := by
  induction as with
  | nil => rfl
  | cons a as ih => exact congrArg (a :: ·) ih

theorem words_ofWords {ws : List UInt64} (h : ws.length % 2 = 0) : words (ofWords ws) = ws := by
  fun_induction ofWords ws with
  | case1 address length more ih =>
    have hmore : more.length % 2 = 0 := by
      rw [List.length_cons, List.length_cons] at h
      omega
    exact congrArg ([address, length] ++ ·) (ih hmore)
  | case2 ws hws =>
    rcases ws with _ | ⟨w, _ | ⟨w', more⟩⟩
    · rfl
    · cases h
    · exact absurd rfl (hws w w' more)

end ByteRange

namespace Record

open ByteRange

variable {r : Record} {k : Nat} {kind : EventKind} {e : Event} {cause : RepairError}
  {fs : List AddressField} {ws : List UInt64}

def value (r : Record) : AddressField → Option UInt64
  | .address => r.address
  | .length => r.length
  | .addressA => r.addressA
  | .lengthA => r.lengthA
  | .addressB => r.addressB
  | .lengthB => r.lengthB

/-- The record has the name of events of this kind, in letters of any case. -/
def Named (r : Record) (kind : EventKind) : Prop := kind.word? = some r.event.toLower

instance (r : Record) (kind : EventKind) : Decidable (r.Named kind) :=
  inferInstanceAs (Decidable (kind.word? = some r.event.toLower))

/-- The record has a name that is known, and the fields that go with it. -/
def Complete (r : Record) : Prop :=
  ∃ kind, r.Named kind ∧ ∀ f ∈ kind.fields, (r.value f).isSome = true

/-- The record stands for the event `e`. -/
structure Denotes (r : Record) (e : Event) : Prop where
  kind : r.Named e.kind
  addresses : e.kind.fields.map r.value = (words e.addresses).map some
  name : e.name = r.event
  timestamp : e.timestamp = r.timestamp
  location : e.location = r.location
  stack : e.stack = r.stack
  isBug : e.isBug = r.isBug

/-- What is said of the record at `k` if it stands for no event: its name is not known, or it is without a
field that goes with the name, of which the first one counts. -/
inductive Lacks (r : Record) (k : Nat) : RepairError → Prop
  | name : (∀ kind, ¬ r.Named kind) → Lacks r k (.unknownEvent r.event)
  | field {kind : EventKind} {before after : List AddressField} {f : AddressField} : r.Named kind →
      kind.fields = before ++ f :: after → (∀ g ∈ before, (r.value g).isSome = true) →
      r.value f = none → Lacks r k (.missingField k r.event f.name)

theorem named_ofName_or (r : Record) : r.Named (.ofName r.event) ∨
    EventKind.ofName r.event = .invalid ∧ ∀ kind, ¬ r.Named kind := by
  simp only [Named]
  rw [EventKind.ofName.eq_def]
  split
  iterate 6 next h => exact .inl (congrArg some h.symm)
  refine .inr ⟨rfl, fun kind hkind ↦ ?_⟩
  cases kind <;> simp_all [EventKind.word?]

theorem Named.ofName_eq (h : r.Named kind) : EventKind.ofName r.event = kind := by
  cases kind with
  | invalid => cases h
  | _ => rw [EventKind.ofName, ← Option.some.inj h]; rfl

theorem need_eq_ok_iff {f : AddressField} {w : UInt64} :
    r.need k f.name (r.value f) = .ok w ↔ r.value f = some w := by
  cases r.value f <;> simp [need]

theorem need_eq_error_iff {f : AddressField} : r.need k f.name (r.value f) = .error cause ↔
    r.value f = none ∧ .missingField k r.event f.name = cause := by
  cases r.value f <;> simp [need]

def read (r : Record) (k : Nat) (fs : List AddressField) : Except RepairError (List UInt64) :=
  fs.mapM fun f ↦ r.need k f.name (r.value f)

theorem read_eq_ok_iff : r.read k fs = .ok ws ↔ fs.map r.value = ws.map some := by
  induction fs generalizing ws with
  | nil => cases ws <;> simp [read, pure, Except.pure]
  | cons f fs ih =>
    rw [read, mapM_cons_eq_ok_iff]
    constructor
    · rintro ⟨w, ws, hw, hws, rfl⟩
      exact List.cons_eq_cons.2 ⟨need_eq_ok_iff.1 hw, ih.1 hws⟩
    · intro h
      cases ws with
      | nil => cases h
      | cons w ws =>
        obtain ⟨hw, hws⟩ := List.cons_eq_cons.1 h
        exact ⟨w, ws, need_eq_ok_iff.2 hw, ih.2 hws, rfl⟩

theorem exists_read_iff : (∃ ws, r.read k fs = .ok ws) ↔ ∀ f ∈ fs, (r.value f).isSome = true := by
  simp only [read, exists_mapM_eq_ok_iff, need_eq_ok_iff, Option.isSome_iff_exists]

theorem read_eq_error_iff : r.read k fs = .error cause ↔ ∃ before f after,
    fs = before ++ f :: after ∧ (∀ g ∈ before, (r.value g).isSome = true) ∧ r.value f = none ∧
      .missingField k r.event f.name = cause := by
  simp only [read, mapM_eq_error_iff, need_eq_error_iff, need_eq_ok_iff, Option.isSome_iff_exists]

theorem Named.addresses_eq (h : r.Named kind) :
    r.addresses k kind = ofWords <$> r.read k kind.fields := by
  cases kind with
  | invalid => cases h
  | fence => rfl
  | _ => simp [addresses, read, EventKind.fields, AddressField.name, value, ofWords]

def eventAt (r : Record) (kind : EventKind) (addresses : List ByteRange) : Event :=
  { kind, name := r.event, timestamp := r.timestamp, location := r.location, addresses
    stack := r.stack, isBug := r.isBug }

theorem Named.toEvent_eq (h : r.Named kind) (k : Nat) :
    r.toEvent k = (fun ws ↦ r.eventAt kind (ofWords ws)) <$> r.read k kind.fields := by
  have hevent : r.toEvent k = r.eventAt kind <$> r.addresses k kind := by
    rw [← h.ofName_eq]
    rfl
  rw [hevent, h.addresses_eq]
  exact (comp_map _ _ _).symm

theorem toEvent_of_not_named (h : ∀ kind, ¬ r.Named kind) (k : Nat) :
    r.toEvent k = .error (.unknownEvent r.event) := by
  obtain hof | ⟨hof, -⟩ := r.named_ofName_or
  · exact absurd hof (h _)
  · rw [toEvent, hof]
    rfl

theorem Named.denotes_iff (h : r.Named kind) : r.Denotes e ↔
    ∃ ws, kind.fields.map r.value = ws.map some ∧ r.eventAt kind (ofWords ws) = e := by
  constructor
  · intro hd
    obtain rfl : e.kind = kind := hd.kind.ofName_eq.symm.trans h.ofName_eq
    refine ⟨words e.addresses, hd.addresses, ?_⟩
    obtain ⟨kind, name, timestamp, location, addresses, stack, isBug⟩ := e
    obtain ⟨-, -, rfl, rfl, rfl, rfl, rfl⟩ := hd
    rw [ofWords_words, eventAt]
  · rintro ⟨ws, hws, rfl⟩
    have hlength : ws.length % 2 = 0 := by
      rw [← List.length_map some, ← hws, List.length_map]
      cases kind <;> rfl
    exact ⟨h, hws.trans (congrArg _ (words_ofWords hlength).symm), rfl, rfl, rfl, rfl, rfl⟩

theorem toEvent_eq_ok_iff : r.toEvent k = .ok e ↔ r.Denotes e := by
  obtain h | ⟨-, hnone⟩ := r.named_ofName_or
  · rw [h.toEvent_eq, h.denotes_iff, map_eq_ok_iff]
    simp only [read_eq_ok_iff]
  · rw [toEvent_of_not_named hnone]
    exact ⟨fun h ↦ (nomatch h), fun h ↦ absurd h.kind (hnone _)⟩

theorem exists_toEvent_iff : (∃ e, r.toEvent k = .ok e) ↔ r.Complete := by
  obtain h | ⟨-, hnone⟩ := r.named_ofName_or
  · rw [h.toEvent_eq, exists_map_eq_ok_iff, exists_read_iff]
    exact ⟨fun hfields ↦ ⟨_, h, hfields⟩, fun ⟨_, hkind, hfields⟩ ↦ hkind.ofName_eq ▸ hfields⟩
  · rw [toEvent_of_not_named hnone]
    exact ⟨fun ⟨_, h⟩ ↦ (nomatch h), fun ⟨_, h, _⟩ ↦ absurd h (hnone _)⟩

theorem toEvent_eq_error_iff : r.toEvent k = .error cause ↔ r.Lacks k cause := by
  obtain h | ⟨-, hnone⟩ := r.named_ofName_or
  · rw [h.toEvent_eq, map_eq_error_iff, read_eq_error_iff]
    constructor
    · rintro ⟨before, f, after, hfields, hbefore, hf, rfl⟩
      exact .field h hfields hbefore hf
    · rintro (hnone | ⟨hkind, hfields, hbefore, hf⟩)
      · exact absurd h (hnone _)
      · exact ⟨_, _, _, hkind.ofName_eq ▸ hfields, hbefore, hf, rfl⟩
  · rw [toEvent_of_not_named hnone]
    constructor
    · rintro ⟨⟩
      exact .name hnone
    · rintro (- | ⟨hkind, -⟩)
      · rfl
      · exact absurd hkind (hnone _)

end Record

namespace Trace

variable {d : Document} {source : Source} {t : Trace} {cause : RepairError}

theorem mapM_toEvent_eq_ok_iff {rs : List Record} {n : Nat} {es : List Event} :
    ((rs.zipIdx n).mapM fun (r, k) ↦ r.toEvent k) = .ok es ↔ List.Forall₂ Record.Denotes rs es := by
  induction rs generalizing n es with
  | nil => cases es <;> simp [pure, Except.pure]
  | cons r rs ih =>
    rw [List.zipIdx_cons, mapM_cons_eq_ok_iff]
    simp only [ih, Record.toEvent_eq_ok_iff, List.forall₂_cons_left_iff]

theorem foldlM_add {α : Type} {f : α → Except RepairError Event} {l : List α} (t : Trace) :
    l.foldlM (fun t a ↦ return t.add (← f a)) t =
      (fun es ↦ ⟨t.source, .ofList (t.events ++ es)⟩) <$> l.mapM f := by
  induction l generalizing t with
  | nil =>
    refine congrArg (Except.ok ∘ Trace.mk t.source) (EventLog.ext_events ?_)
    exact (List.append_nil _).symm
  | cons a l ih =>
    rw [List.foldlM_cons, List.mapM_cons]
    cases f a with
    | error cause => rfl
    | ok e =>
      change l.foldlM _ (t.add e) = _ <$> (l.mapM f >>= fun es ↦ pure (e :: es))
      rw [ih, add_eq, events_mk, bind_pure_comp, ← comp_map]
      simp only [List.append_assoc, List.singleton_append, Function.comp_def]

section Source

variable (hsource : Document.sourceOf d.source = .ok source)
include hsource

theorem ofDocument_eq : ofDocument d =
    (fun es ↦ ⟨source, .ofList es⟩) <$> d.records.zipIdx.mapM fun (r, k) ↦ r.toEvent k := by
  rw [ofDocument, hsource]
  exact foldlM_add (.new source)

theorem ofDocument_eq_ok_iff :
    ofDocument d = .ok t ↔ t.source = source ∧ List.Forall₂ Record.Denotes d.records t.events := by
  rw [ofDocument_eq hsource, map_eq_ok_iff]
  simp only [mapM_toEvent_eq_ok_iff]
  constructor
  · rintro ⟨es, hes, rfl⟩
    exact ⟨rfl, hes⟩
  · rintro ⟨rfl, hes⟩
    exact ⟨t.events, hes, congrArg (Trace.mk t.source) (EventLog.ext_events rfl)⟩

theorem exists_ofDocument_iff : (∃ t, ofDocument d = .ok t) ↔ ∀ r ∈ d.records, r.Complete := by
  have hrecords : (∃ t, ofDocument d = .ok t) ↔ ∀ x ∈ d.records.zipIdx, x.1.Complete := by
    simp only [ofDocument_eq hsource, exists_map_eq_ok_iff, exists_mapM_eq_ok_iff,
      Record.exists_toEvent_iff]
  rw [hrecords, ← List.forall_mem_map (P := Record.Complete), List.zipIdx_map_fst]

theorem ofDocument_eq_error_iff : ofDocument d = .error cause ↔
    ∃ k, ∃ r : Record, d.records[k]? = some r ∧
      (∀ j (q : Record), j < k → d.records[j]? = some q → q.Complete) ∧ r.Lacks k cause := by
  rw [ofDocument_eq hsource, map_eq_error_iff, mapM_eq_error_iff, exists_zipIdx_eq_append_iff]
  simp only [Record.exists_toEvent_iff, Record.toEvent_eq_error_iff]

end Source

end Trace

end Durability
