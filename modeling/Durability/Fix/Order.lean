import Durability.Fix.Map

namespace Durability.FixMap

abbrev Entry := InstrId × Fix

def take? (i : InstrId) : List Entry → Option (Entry × List Entry)
  | [] => none
  | e :: waiting =>
    if e.1 = i then some (e, waiting)
    else (take? i waiting).map fun (d, rest) ↦ (d, e :: rest)

theorem length_of_take? {i : InstrId} {waiting rest : List Entry} {e : Entry}
    (h : take? i waiting = some (e, rest)) : waiting.length = rest.length + 1 := by
  induction waiting generalizing rest with
  | nil => cases h
  | cons d waiting ih =>
    rw [take?] at h
    split at h
    · cases h; rfl
    · obtain ⟨⟨x, r⟩, hr, he⟩ := Option.map_eq_some_iff.1 h
      cases he
      simp [ih hr]

/-- The conditional flushes found by following dependents from `next`, as far as they wait, and the
entries that go on waiting. -/
def follow (waiting : List Entry) (next : Option InstrId) : List Entry × List Entry :=
  match next with
  | none => ([], waiting)
  | some i =>
    match _h : take? i waiting with
    | none => ([], waiting)
    | some (e, rest) =>
      let (chain, rest) := follow rest e.2.dependent
      (e :: chain, rest)
termination_by waiting.length
decreasing_by
  have := length_of_take? _h
  omega

/-- Each removal behind its chain, whose far end comes first; last the flushes left over. -/
def chains (waiting : List Entry) : List Entry → List Entry
  | [] => waiting
  | removal :: removals =>
    let (chain, rest) := follow waiting removal.2.dependent
    chain.reverse ++ removal :: chains rest removals

def applicationOrder (m : FixMap) : List Entry :=
  m.entries.filter (fun e ↦ !e.2.kind.isConditional)
    ++ chains (m.entries.filter (·.2.kind == .addFlushIf))
      (m.entries.filter (·.2.kind == .removeFlushIf))

end Durability.FixMap
