import Durability.Trace.Event

namespace Durability.Sample

abbrev Place := String × Int64

def location (place : Place) : Location := ⟨place.1, "pm/pool.c", place.2⟩

def event (kind : EventKind) (place : Place) (callers : List Place) (range : ByteRange)
    (isBug : Bool) : Event :=
  { kind, name := kind.name, timestamp := 0, location := location place, addresses := [range]
    stack := (place :: callers).map location, isBug }

def trace (events : List Event) : Trace :=
  ⟨.generic, events.mapIdx fun n e ↦ { e with timestamp := .ofNat n }⟩

def word : ByteRange := ⟨0x1000, 8⟩

def cacheLine : ByteRange := ⟨0x1000, 64⟩

def acrossCallsTrace (storeBetween : Bool) : Trace :=
  trace ([event .store ("write_and_flush", 5) [("main", 20)] word false,
      event .flush ("write_and_flush", 6) [("main", 20)] cacheLine false]
    ++ (if storeBetween then [event .store ("main", 21) [] word false] else [])
    ++ [event .flush ("flush_only", 10) [("main", 22)] cacheLine false,
      event .requiredFlush ("flush_only", 10) [("main", 22)] cacheLine true])

def branchingTrace : Trace :=
  trace [event .store ("main", 10) [] word false, event .flush ("main", 11) [] cacheLine false,
    event .flush ("main", 16) [] cacheLine false,
    event .requiredFlush ("main", 16) [] cacheLine true]

end Durability.Sample
