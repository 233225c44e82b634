namespace Durability.Traversal

/-- The nodes of `unvisited` that are met from `queue` on, in breadth-first order. -/
def order (next : Nat → List Nat) (unvisited queue : List Nat) : List Nat :=
  match queue with
  | [] => []
  | n :: queue =>
    if n ∈ unvisited then n :: order next (unvisited.erase n) (queue ++ next n)
    else order next unvisited queue
termination_by (unvisited.length, queue.length)
decreasing_by
  · next h =>
    have := List.length_pos_of_mem h
    refine Prod.Lex.left _ _ ?_
    rw [List.length_erase_of_mem h]
    omega
  · exact Prod.Lex.right _ (by simp)

end Durability.Traversal
