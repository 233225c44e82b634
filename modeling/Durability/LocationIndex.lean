import Durability.Collection.SortedSet
import Durability.RepairError
import Durability.Settings

namespace Durability

namespace Program

variable (p : Program)

/-- Where a trace would report `i`. Without a source line it is a position that is not valid. -/
def locationOf (i : InstrId) : Except Fault Location := do
  match ← p.sourceOf i with
  | some (function, loc) => return ⟨function, loc.file, loc.line⟩
  | none => return ⟨(← p.functionNameOf i).getD "", "", 0⟩

end Program

namespace Op

def isIndexed : Op → Bool
  | store | flush _ | fence _ | call _ => true
  | _ => false

def causes : Op → EventKind → Bool
  | store, .store => true
  | flush _, .flush | flush _, .requiredFlush => true
  | fence _, .fence => true
  | _, _ => false

end Op

abbrev LocationIndex.Key := String × Int64

/-- Instructions are filed under function and line. Files only have to agree, so they are compared when
a position is looked up. -/
structure LocationIndex where
  drawers : List (LocationIndex.Key × List (Location × InstrId))

namespace LocationIndex

def empty : LocationIndex := ⟨[]⟩

def keyOf (loc : Location) : Key := (loc.function, loc.line)

def file (k : Key) (entry : Location × InstrId) :
    List (Key × List (Location × InstrId)) → List (Key × List (Location × InstrId))
  | [] => [(k, [entry])]
  | d :: ds => if d.1 = k then (k, d.2 ++ [entry]) :: ds else d :: file k entry ds

def add (x : LocationIndex) (loc : Location) (i : InstrId) : LocationIndex :=
  ⟨file (keyOf loc) (loc, i) x.drawers⟩

def drawer (x : LocationIndex) (k : Key) : List (Location × InstrId) :=
  match x.drawers.find? (·.1 = k) with
  | some d => d.2
  | none => []

def register (p : Program) (x : LocationIndex) (i : InstrId) : Except Fault LocationIndex := do
  if (← p.instr i).op.isIndexed then
    let loc ← p.locationOf i
    return if loc.isValid then x.add loc i else x
  else return x

/-- The stores, flushes, fences and calls of a program that have a source line. -/
def ofProgram (p : Program) : Except Fault LocationIndex := do
  (← p.attached).foldlM (register p) empty

variable (x : LocationIndex) (loc : Location)

def lookup : List InstrId :=
  ((x.drawer (keyOf loc)).filter (·.1.Agrees loc)).map (·.2)

def contains : Bool := !(x.lookup loc).isEmpty

def get : Except RepairError (List InstrId) :=
  let is := (SortedSet.ofList (x.lookup loc)).toList
  if is.isEmpty then .error (.unmapped loc) else .ok is

def exactlyOne (loc : Location) : List InstrId → Except RepairError InstrId
  | [i] => .ok i
  | [] => .error (.unmapped loc)
  | is => .error (.ambiguous loc is.length)

def uniqueWhere (keep : InstrId → Except Fault Bool) : Attempt RepairError InstrId := do
  let is ← Attempt.ofExcept (x.get loc)
  let kept ← is.filterM fun i ↦ Attempt.lift (keep i)
  Attempt.ofExcept (exactlyOne loc kept)

def unique : Attempt RepairError InstrId := x.uniqueWhere loc fun _ ↦ .ok true

variable (settings : Settings) (p : Program) (kind : EventKind)

/-- The instructions that an event of this kind refers to: those that cause such events, if there
are any and the settings do not say otherwise. -/
def instrsFor : Attempt RepairError (List InstrId) := do
  let is ← Attempt.ofExcept (x.get loc)
  if settings.narrowByKind then
    let fitting ← is.filterM fun i ↦ do return (← p.instr i).op.causes kind
    return if fitting.isEmpty then is else fitting
  else return is

def uniqueFor : Attempt RepairError InstrId := do
  Attempt.ofExcept (exactlyOne loc (← x.instrsFor loc settings p kind))

end LocationIndex

end Durability
