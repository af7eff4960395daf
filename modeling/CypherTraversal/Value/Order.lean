import CypherTraversal.Value.Basic

/-! # Comparing values

Equality of lists and maps is the conjunction of the equalities of their parts, in three-valued
logic: one part that differs settles it, and otherwise one unknown part leaves it unknown.
Comparison of lists is lexicographic. The sort order is defined for all values and puts maps
before lists, lists before texts, and null last. -/

namespace CypherTraversal

def Truth.both : Option Bool → Option Bool → Option Bool
  | some false, _ => some false
  | _, some false => some false
  | some true, some true => some true
  | _, _ => none

namespace Value

mutual

def eq? : Value → Value → Option Bool
  | scalar a, scalar b => a.eq? b
  | scalar .null, _ => none
  | _, scalar .null => none
  | list xs, list ys => if xs.length = ys.length then eqItems? xs ys else some false
  | map xs, map ys => if xs.map Prod.fst = ys.map Prod.fst then eqEntries? xs ys else some false
  | _, _ => some false

def eqItems? : List Value → List Value → Option Bool
  | x :: xs, y :: ys => Truth.both (eq? x y) (eqItems? xs ys)
  | _, _ => some true

def eqEntries? : List (String × Value) → List (String × Value) → Option Bool
  | (_, x) :: xs, (_, y) :: ys => Truth.both (eq? x y) (eqEntries? xs ys)
  | _, _ => some true

end

mutual

def compare? : Value → Value → Option Ordering
  | scalar a, scalar b => a.compare? b
  | list xs, list ys => compareItems? xs ys
  | _, _ => none

def compareItems? : List Value → List Value → Option Ordering
  | [], [] => some .eq
  | [], _ :: _ => some .lt
  | _ :: _, [] => some .gt
  | x :: xs, y :: ys =>
    match compare? x y with
    | some .eq => compareItems? xs ys
    | other => other

end

def rank : Value → Nat
  | map _ => 0
  | list _ => 1
  | scalar s => s.rank

mutual

def order : Value → Value → Ordering
  | scalar a, scalar b => a.order b
  | list xs, list ys => orderItems xs ys
  | map xs, map ys => orderEntries xs ys
  | a, b => compare a.rank b.rank

def orderItems : List Value → List Value → Ordering
  | [], [] => .eq
  | [], _ :: _ => .lt
  | _ :: _, [] => .gt
  | x :: xs, y :: ys => (order x y).then (orderItems xs ys)

def orderEntries : List (String × Value) → List (String × Value) → Ordering
  | [], [] => .eq
  | [], _ :: _ => .lt
  | _ :: _, [] => .gt
  | (k, x) :: xs, (l, y) :: ys => ((compare k l).then (order x y)).then (orderEntries xs ys)

end

end Value
end CypherTraversal
