/-! # Stable sorting

Insertion from the left: each element moves back over the elements that are greater than it.
Elements that compare equal keep their order. -/

namespace CypherTraversal.Sorting

variable {α : Type}

def insertDescending (cmp : α → α → Ordering) (x : α) : List α → List α
  | [] => [x]
  | y :: ys => if cmp x y = .lt then y :: insertDescending cmp x ys else x :: y :: ys

def sort (cmp : α → α → Ordering) (xs : List α) : List α :=
  (xs.foldl (fun sorted x => insertDescending cmp x sorted) []).reverse

end CypherTraversal.Sorting
