import Durability.Collection.SortedMap
import Durability.RepairError

namespace Durability

abbrev FixMap := SortedMap InstrId Fix

namespace FixMap

/-- What `incoming` leaves at an instruction that has `existing`: nothing new if the two are equal,
both if one flushes and the other fences. -/
def merge (i : InstrId) (existing incoming : Fix) : Except RepairError Fix :=
  if existing = incoming then .ok existing
  else match existing.kind, incoming.kind with
    | .addFlush, .addFence | .addFence, .addFlush => .ok (.plain .addFlushAndFence)
    | .addFlush, .removeFlush | .addFlushAndFence, .removeFlush =>
      .error (.conflictingFixes i existing incoming)
    | _, _ => .error (.unhandledFixes i existing incoming)

/-- A change of the fixes, with whether it is one. -/
abbrev Recording := ExceptT RepairError (StateM FixMap)

def put (i : InstrId) (fix : Fix) : Recording Bool := do
  modify (·.insert i fix)
  return true

/-- Takes in `incoming`, together with what is at `i` already. -/
def record (i : InstrId) (incoming : Fix) : Recording Bool := do
  match (← get).get? i with
  | none => put i incoming
  | some existing =>
    let fix ← merge i existing incoming
    if fix = existing then return false else put i fix

def add (m : FixMap) (i : InstrId) (incoming : Fix) : Except RepairError (Bool × FixMap) :=
  match (record i incoming).run m with
  | (.ok new, m) => .ok (new, m)
  | (.error e, _) => .error e

theorem record_run (m : FixMap) (i : InstrId) (incoming : Fix) : (record i incoming).run m =
    match m.get? i with
    | none => (.ok true, m.insert i incoming)
    | some existing =>
      match merge i existing incoming with
      | .error e => (.error e, m)
      | .ok fix => if fix = existing then (.ok false, m) else (.ok true, m.insert i fix) := by
  change (match m.get? i with
    | none => put i incoming
    | some existing => do
      let fix ← merge i existing incoming
      if fix = existing then return false else put i fix : Recording Bool) m = _
  cases m.get? i with
  | none => rfl
  | some existing =>
    dsimp only
    cases merge i existing incoming with
    | error e => rfl
    | ok fix =>
      change (if fix = existing then return false else put i fix : Recording Bool) m =
        if fix = existing then (.ok false, m) else (.ok true, m.insert i fix)
      split <;> rfl

theorem add_eq (m : FixMap) (i : InstrId) (incoming : Fix) : m.add i incoming =
    match m.get? i with
    | none => .ok (true, m.insert i incoming)
    | some existing => do
      let fix ← merge i existing incoming
      return if fix = existing then (false, m) else (true, m.insert i fix) := by
  rw [add, record_run]
  cases m.get? i with
  | none => rfl
  | some existing =>
    dsimp only
    cases merge i existing incoming with
    | error e => rfl
    | ok fix =>
      change _ = Except.ok (if fix = existing then (false, m) else (true, m.insert i fix))
      by_cases hsame : fix = existing
      · simp only [if_pos hsame]
      · simp only [if_neg hsame]

/-- What is refused changes nothing. -/
theorem record_eq_error {m m' : FixMap} {i : InstrId} {incoming : Fix} {e : RepairError}
    (h : (record i incoming).run m = (.error e, m')) : m.add i incoming = .error e ∧ m' = m := by
  refine ⟨by rw [add, h], ?_⟩
  rw [record_run] at h
  repeat' split at h
  all_goals cases h
  rfl

def render (m : FixMap) : String :=
  Text.record "FixMap" ["fixes: " ++
    Text.braces (m.entries.map fun (i, fix) ↦ s!"{i}: {fix.render}")]

end FixMap

end Durability
