import Durability.Fault

namespace Durability

structure Settings where
  /-- In bytes. Events have to stay within one line. -/
  cacheLineSize : Nat
  /-- Where several instructions share a line, keep those that can cause the event. -/
  narrowByKind : Bool
  dumpGraphs : Bool
  printFixes : Bool
deriving DecidableEq

inductive Flag
  | keepAllKinds
  | dumpGraphs
  | printFixes
deriving DecidableEq

namespace Flag

def name : Flag → String
  | keepAllKinds => "disable-mapped-instruction-filtering-by-event-kind"
  | dumpGraphs => "dump-context-graph-dot-files"
  | printFixes => "enable-debug-print-fix-map"

def all : List Flag := [keepAllKinds, dumpGraphs, printFixes]

def ofName? (name : String) : Option Flag := all.find? (·.name == name)

end Flag

namespace Settings

def usual : Settings := ⟨64, true, false, false⟩

def depart (s : Settings) : Flag → Settings
  | .keepAllKinds => { s with narrowByKind := false }
  | .dumpGraphs => { s with dumpGraphs := true }
  | .printFixes => { s with printFixes := true }

def ofFlags (flags : List Flag) : Settings := flags.foldl depart usual

def isPowerOfTwo (n : Nat) : Bool := n != 0 && 1 <<< n.log2 == n

def make (size : Nat) (flags : List Flag) : Except Fault Settings := do
  Fault.require .lineSizeNotPowerOfTwo (isPowerOfTwo size)
  return { ofFlags flags with cacheLineSize := size }

end Settings

end Durability
