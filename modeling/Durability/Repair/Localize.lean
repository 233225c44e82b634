import Durability.RepairError
import Durability.Settings

namespace Durability.Trace

variable (settings : Settings) (t : Trace)

def checkAddress (index : Nat) (e : Event) : Except RepairError ByteRange :=
  match e.single? with
  | none => .error (.addressCount index e.addresses.length)
  | some a => if a.inOneLine settings.cacheLineSize then .ok a else .error (.crossesLine index a)

def target (index : Nat) : Attempt RepairError ByteRange := do
  Attempt.ofExcept (checkAddress settings index (← Fault.lookup t.events index))

/-- The store or flush that left `range` without persistence at `bug`, and the fix for it. Stores have
to be of the range itself, flushes have to overlap it. -/
def findUnpersisted (bug : Nat) (range : ByteRange) (fenced : Bool) :
    List (Event × Nat) → Except RepairError (Event × FixKind)
  | [] => .error (.anchorNotFound bug .storeOrFlush)
  | (e, index) :: earlier =>
    if e.kind = .fence then findUnpersisted bug range true earlier
    else if e.kind.isOperation then do
      let a ← checkAddress settings index e
      if e.kind = .store ∧ a = range then
        return (e, if fenced then .addFlush else .addFlushAndFence)
      else if e.kind = .flush ∧ a.overlaps range then
        if fenced then .error (.contradictoryState bug index) else return (e, .addFence)
      else findUnpersisted bug range fenced earlier
    else findUnpersisted bug range fenced earlier

/-- The latest flush of `range` and the one before it, of which `redundant` may be found already. -/
def findRedundant (bug : Nat) (range : ByteRange) (redundant : Option Event) :
    List (Event × Nat) → Except RepairError (Event × Event)
  | [] => .error (.anchorNotFound bug
      (if redundant.isNone then .redundantFlush else .earlierFlush))
  | (e, index) :: earlier =>
    if e.kind.isOperation then do
      let a ← checkAddress settings index e
      if e.kind = .flush then
        if a = range then
          match redundant with
          | none => findRedundant bug range (some e) earlier
          | some r => return (e, r)
        else if a.overlaps range then .error (.partialOverlap bug index)
        else findRedundant bug range redundant earlier
      else findRedundant bug range redundant earlier
    else findRedundant bug range redundant earlier

def unpersisted (bug : Nat) : Attempt RepairError (Event × FixKind) := do
  let range ← t.target settings bug
  Attempt.ofExcept (findUnpersisted settings bug range false (t.before bug))

def redundantPair (bug : Nat) : Attempt RepairError (Event × Event) := do
  let range ← t.target settings bug
  Attempt.ofExcept (findRedundant settings bug range none (t.before bug))

end Durability.Trace
