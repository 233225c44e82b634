import Durability.Fault

namespace Durability.Rounds

variable {σ α : Type}

/-- The state after each item in turn has changed what those before it have left. None if nothing
has changed it. -/
def round (step : σ → α → Option σ) : List α → σ → Option σ
  | [], _ => none
  | a :: l, s =>
    match step s a with
    | none => round step l s
    | some s => some ((round step l s).getD s)

/-- The state that no item changes any more, if no more rounds than given are needed to come to it. -/
def settle (step : σ → α → Option σ) (l : List α) : Nat → σ → Except Fault σ
  | 0, _ => .error .endless
  | rounds + 1, s =>
    match round step l s with
    | none => .ok s
    | some s => settle step l rounds s

end Durability.Rounds
