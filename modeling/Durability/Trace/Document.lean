import Durability.RepairError
import Durability.Yaml.Parser

namespace Durability

/-- An event as it is stored. Which of the addresses it needs depends on its name. -/
structure Record where
  event : String
  timestamp : UInt64
  location : Location
  isBug : Bool
  stack : List Location
  address : Option UInt64
  length : Option UInt64
  addressA : Option UInt64
  lengthA : Option UInt64
  addressB : Option UInt64
  lengthB : Option UInt64
deriving DecidableEq

structure Document where
  source : Option String
  records : List Record
deriving DecidableEq

namespace Location

def ofMembers? (ms : List (String × Yaml)) : Option Location := do
  return {
    function := ← Yaml.required ms "function" Yaml.text?
    file := ← Yaml.required ms "file" Yaml.text?
    line := ← Yaml.required ms "line" Yaml.int64? }

def ofYaml? (y : Yaml) : Option Location := y.map?.bind ofMembers?

end Location

namespace Record

def ofYaml? (y : Yaml) : Option Record := do
  let ms ← y.map?
  let word (name : String) := Yaml.optional ms name Yaml.uint64?
  return {
    event := ← Yaml.required ms "event" Yaml.text?
    timestamp := ← Yaml.required ms "timestamp" Yaml.uint64?
    location := ← Location.ofMembers? ms
    isBug := ← Yaml.required ms "is_bug" Yaml.bool?
    stack := ← Yaml.required ms "stack" (Yaml.list? Location.ofYaml?)
    address := ← word "address"
    length := ← word "length"
    addressA := ← word "address_a"
    lengthA := ← word "length_a"
    addressB := ← word "address_b"
    lengthB := ← word "length_b" }

variable (r : Record) (index : Nat)

def need (name : String) : Option UInt64 → Except RepairError UInt64
  | some n => .ok n
  | none => .error (.missingField index r.event name)

def addresses : EventKind → Except RepairError (List ByteRange)
  | .invalid => .error (.unknownEvent r.event)
  | .fence => .ok []
  | .assertOrdered => do
    let a := ⟨← r.need index "address_a" r.addressA, ← r.need index "length_a" r.lengthA⟩
    let b := ⟨← r.need index "address_b" r.addressB, ← r.need index "length_b" r.lengthB⟩
    return [a, b]
  | .store | .flush | .assertPersisted | .requiredFlush => do
    return [⟨← r.need index "address" r.address, ← r.need index "length" r.length⟩]

def toEvent : Except RepairError Event := do
  let kind := EventKind.ofName r.event
  return {
    kind, name := r.event, timestamp := r.timestamp, location := r.location
    addresses := ← r.addresses index kind, stack := r.stack, isBug := r.isBug }

end Record

namespace Document

def sourceOfYaml? (y : Yaml) : Option (Option String) :=
  y.map?.bind fun ms ↦ Yaml.optional ms "source" Yaml.text?

/-- Documents, records and frames are read as mappings only. -/
def ofYaml? (y : Yaml) : Option Document := do
  let ms ← y.map?
  return {
    source := (← Yaml.optional ms "metadata" sourceOfYaml?).join
    records := ← Yaml.required ms "trace" (Yaml.list? Record.ofYaml?) }

/-- A document without a source is of no tool in particular. -/
def sourceOf : Option String → Except RepairError Source
  | none => .ok .generic
  | some name =>
    match Source.ofName? name with
    | some source => .ok source
    | none => .error (.unknownSource name)

end Document

namespace Trace

/-- The trace of a document, event by event. The first record that is not an event is the error. -/
def ofDocument (d : Document) : Except RepairError Trace := do
  let source ← Document.sourceOf d.source
  d.records.zipIdx.foldlM (fun t (r, index) ↦ return t.add (← r.toEvent index)) (.new source)

def parse (text : String) : Except RepairError Trace :=
  match (Yaml.parse? text).bind Document.ofYaml? with
  | none => .error .unreadableTrace
  | some d => ofDocument d

end Trace

end Durability
