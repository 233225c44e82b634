import Durability.Trace.ByteRange
import Durability.Trace.Location

namespace Durability

inductive EventKind
  | store
  | flush
  | fence
  | assertPersisted
  | assertOrdered
  | requiredFlush
  /-- Any event whose name is not known. -/
  | invalid
deriving DecidableEq

namespace EventKind

/-- The kind of an event with this name, in letters of any case. -/
def ofName (name : String) : EventKind :=
  match name.toLower with
  | "store" => store
  | "flush" => flush
  | "fence" => fence
  | "assert_persisted" => assertPersisted
  | "assert_ordered" => assertOrdered
  | "required_flush" => requiredFlush
  | _ => invalid

def name : EventKind → String
  | store => "Store"
  | flush => "Flush"
  | fence => "Fence"
  | assertPersisted => "AssertPersisted"
  | assertOrdered => "AssertOrdered"
  | requiredFlush => "RequiredFlush"
  | invalid => "Invalid"

def isOperation : EventKind → Bool
  | store | flush => true
  | _ => false

end EventKind

structure Event where
  kind : EventKind
  name : String
  timestamp : UInt64
  location : Location
  addresses : List ByteRange
  /-- Innermost frame first; the first frame is the position of the event itself. -/
  stack : List Location
  isBug : Bool
deriving DecidableEq

namespace Event

variable (e : Event)

def single? : Option ByteRange :=
  match e.addresses with
  | [a] => some a
  | _ => none

/-- Where the event is looked up in a program: its innermost frame if it has frames. -/
def anchor : Location := e.stack.head?.getD e.location

def callers : List Location := e.stack.tail.reverse

def sameFrame (a b : Location) : Bool := a.function == b.function && a.file == b.file

/-- Whether two events happen under the same chain of calls. The innermost line does not count. -/
def sameCalls (d e : Event) : Bool :=
  match d.stack, e.stack with
  | [], [] => true
  | a :: as, b :: bs => sameFrame a b && as == bs
  | _, _ => false

end Event

inductive Source
  | pmTest
  | generic
deriving DecidableEq

namespace Source

def name : Source → String
  | pmTest => "PmTest"
  | generic => "Generic"

def ofName? (name : String) : Option Source :=
  match name.toUpper with
  | "PMTEST" => some pmTest
  | "GENERIC" => some generic
  | _ => none

end Source

def Event.marked (es : List Event) : List Nat := (es.zipIdx.filter (·.1.isBug)).map (·.2)

theorem Event.marked_concat (es : List Event) (e : Event) :
    marked (es ++ [e]) = if e.isBug then marked es ++ [es.length] else marked es := by
  rw [marked, List.zipIdx_append, List.filter_append, List.map_append, Nat.zero_add]
  cases h : e.isBug with
  | true => simp [marked, h]
  | false => simp [marked, h]

/-- Events in the order of time. The indices of those that report a bug are kept along with them. -/
structure EventLog where
  events : List Event
  bugs : List Nat
  bugs_eq : bugs = Event.marked events
deriving DecidableEq

namespace EventLog

instance : EmptyCollection EventLog := ⟨⟨[], [], rfl⟩⟩

/-- Puts `e` at the end. Its index is noted first if it reports a bug. -/
def add (l : EventLog) (e : Event) : EventLog where
  bugs := if e.isBug then l.bugs ++ [l.events.length] else l.bugs
  events := l.events ++ [e]
  bugs_eq := by rw [l.bugs_eq, Event.marked_concat]

def ofList (es : List Event) : EventLog := ⟨es, Event.marked es, rfl⟩

instance : Coe (List Event) EventLog := ⟨ofList⟩

end EventLog

structure Trace where
  source : Source
  log : EventLog
deriving DecidableEq

namespace Trace

def new (source : Source) : Trace := ⟨source, ∅⟩

variable (t : Trace)

abbrev events : List Event := t.log.events

abbrev bugs : List Nat := t.log.bugs

@[simp] theorem events_mk (source : Source) (es : List Event) :
    (⟨source, .ofList es⟩ : Trace).events = es := rfl

def add (e : Event) : Trace := { t with log := t.log.add e }

def event? (index : Nat) : Option Event := t.events[index]?

def before (index : Nat) : List (Event × Nat) := (t.events.take index).zipIdx.reverse

end Trace

end Durability
