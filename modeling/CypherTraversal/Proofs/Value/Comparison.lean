import CypherTraversal.Proofs.Run.Objects
import CypherTraversal.Run.Predicate
import CypherTraversal.Traversal.OfExpr
import Mathlib.Order.Compare

/-! # Laws of comparison

Equality of values does not depend on the order of its sides, and comparison turns round with
them. Objects that are values compare as the values do, so a predicate on such objects is the
three-valued comparison, with unknown read as false. -/

namespace CypherTraversal

open List

variable (c : Comparison) (a b : Scalar)

/-! ### Exchanged sides -/

theorem Binary64.compare?_swap (x y : Binary64) :
    y.compare? x = (x.compare? y).map Ordering.swap := by
  unfold compare?
  rw [Bool.or_comm]
  by_cases h : (x.isNaN || y.isNaN) = true
  · rw [if_pos h, if_pos h]
    rfl
  · rw [if_neg h, if_neg h, Option.map_some, ← Std.OrientedOrd.eq_swap]

theorem Binary64.same_comm (x y : Binary64) : x.same y = y.same x := by
  unfold same
  rw [compare?_swap x y]
  rcases x.compare? y with _ | _ | _ | _ <;> rfl

namespace Scalar

theorem eq?_comm : a.eq? b = b.eq? a := by
  cases a <;> cases b
  case bool.bool | int.int | str.str => exact congrArg some BEq.comm
  case int.float | float.int | float.float => exact congrArg some (Binary64.same_comm _ _)
  all_goals rfl

theorem same_comm : a.same b = b.same a := by
  cases a <;> cases b
  case bool.bool | int.int | str.str => exact Bool.beq_comm
  case float.float => exact Binary64.same_comm _ _
  all_goals rfl

theorem compare?_swap : b.compare? a = (a.compare? b).map Ordering.swap := by
  cases a <;> cases b
  case bool.bool | int.int | str.str => exact congrArg some Std.OrientedOrd.eq_swap
  case int.float | float.int | float.float => exact Binary64.compare?_swap _ _
  all_goals rfl

end Scalar

namespace Object

mutual

theorem same_comm : ∀ x y : Object, x.same y = y.same x
  | scalar a, y => by
    cases y with
    | scalar b => exact Scalar.same_comm a b
    | _ => rfl
  | vertex a, y => by
    cases y with
    | vertex b => exact Bool.beq_comm
    | _ => rfl
  | edge a, y => by
    cases y with
    | edge b => exact Bool.beq_comm
    | _ => rfl
  | list xs, y => by
    cases y with
    | list ys => exact sameItems_comm xs ys
    | _ => rfl
  | map xs, y => by
    cases y with
    | map ys => exact sameEntries_comm xs ys
    | _ => rfl
  | entry k v, y => by
    cases y with
    | entry l w => rw [same, same, same_comm k l, same_comm v w]
    | _ => rfl
  | groups gs, y => by
    cases y with
    | groups hs => exact sameGroups_comm gs hs
    | _ => rfl

theorem sameItems_comm : ∀ xs ys : List Object, sameItems xs ys = sameItems ys xs
  | [], [] | [], _ :: _ | _ :: _, [] => rfl
  | x :: xs, y :: ys => by rw [sameItems, sameItems, same_comm x y, sameItems_comm xs ys]

theorem sameEntries_comm :
    ∀ xs ys : List (String × Object), sameEntries xs ys = sameEntries ys xs
  | [], [] | [], _ :: _ | _ :: _, [] => rfl
  | (k, x) :: xs, (l, y) :: ys => by
    rw [sameEntries, sameEntries, same_comm x y, sameEntries_comm xs ys, Bool.beq_comm (a := k)]

theorem sameGroups_comm : ∀ gs hs : List (Object × Object), sameGroups gs hs = sameGroups hs gs
  | [], [] | [], _ :: _ | _ :: _, [] => rfl
  | (k, v) :: gs, (l, w) :: hs => by
    rw [sameGroups, sameGroups, same_comm k l, same_comm v w, sameGroups_comm gs hs]

end

mutual

theorem eq?_comm : ∀ x y : Object, x.eq? y = y.eq? x
  | scalar a, y => by
    cases y with
    | scalar b => exact Scalar.eq?_comm a b
    | _ => cases a <;> rfl
  | list xs, y => by
    cases y with
    | scalar b => cases b <;> rfl
    | list ys =>
      rw [eq?, eq?, eqItems?_comm xs ys]
      by_cases h : xs.length = ys.length
      · rw [if_pos h, if_pos h.symm]
      · rw [if_neg h, if_neg (Ne.symm h)]
    | _ => rfl
  | map xs, y => by
    cases y with
    | scalar b => cases b <;> rfl
    | map ys =>
      rw [eq?, eq?, eqEntries?_comm xs ys]
      by_cases h : xs.map Prod.fst = ys.map Prod.fst
      · rw [if_pos h, if_pos h.symm]
      · rw [if_neg h, if_neg (Ne.symm h)]
    | _ => rfl
  | vertex _, y | edge _, y | entry .., y | groups _, y => by
    cases y with
    | scalar b => cases b <;> rfl
    | _ => exact congrArg some (same_comm _ _)

theorem eqItems?_comm : ∀ xs ys : List Object, eqItems? xs ys = eqItems? ys xs
  | x :: xs, y :: ys => by rw [eqItems?, eqItems?, eq?_comm x y, eqItems?_comm xs ys]
  | [], [] | [], _ :: _ | _ :: _, [] => rfl

theorem eqEntries?_comm :
    ∀ xs ys : List (String × Object), eqEntries? xs ys = eqEntries? ys xs
  | (_, x) :: xs, (_, y) :: ys => by
    rw [eqEntries?, eqEntries?, eq?_comm x y, eqEntries?_comm xs ys]
  | [], [] | [], _ :: _ | _ :: _, [] => rfl

end

end Object

namespace Value

mutual

theorem compare?_swap : ∀ a b : Value, b.compare? a = (a.compare? b).map Ordering.swap
  | scalar a, scalar b => by rw [compare?, compare?, Scalar.compare?_swap]
  | list xs, list ys => by rw [compare?, compare?, compareItems?_swap xs ys]
  | scalar _, list _ | scalar _, map _ | list _, scalar _ | list _, map _ | map _, scalar _
  | map _, list _ | map _, map _ => rfl

theorem compareItems?_swap : ∀ xs ys : List Value,
    compareItems? ys xs = (compareItems? xs ys).map Ordering.swap
  | [], [] | [], _ :: _ | _ :: _, [] => rfl
  | x :: xs, y :: ys => by
    rw [compareItems?, compareItems?, compare?_swap x y, compareItems?_swap xs ys]
    rcases compare? x y with _ | _ | _ | _ <;> rfl

end

theorem eq_null_of_isNull {v : Value} (h : v.isNull) : v = null := by
  cases v with
  | scalar s =>
    cases s with
    | null => rfl
    | _ => cases h
  | _ => cases h

end Value

/-! ### Objects that are values -/

namespace Object

@[simp]
theorem isNull_ofValue (v : Value) : (ofValue v).isNull = v.isNull := by
  cases v <;> rfl

theorem length_ofItems (xs : List Value) : (ofItems xs).length = xs.length := by
  rw [ofItems_eq_map, length_map]

theorem map_fst_ofEntries (xs : List (String × Value)) :
    (ofEntries xs).map Prod.fst = xs.map Prod.fst := by
  rw [ofEntries_eq_map, map_map]
  rfl

mutual

theorem eq?_ofValue : ∀ a b : Value, (ofValue a).eq? (ofValue b) = a.eq? b
  | .scalar a, .scalar b => rfl
  | .list xs, .list ys => by
    rw [ofValue, ofValue, eq?, Value.eq?, length_ofItems, length_ofItems, eqItems?_ofItems xs ys]
  | .map xs, .map ys => by
    rw [ofValue, ofValue, eq?, Value.eq?, map_fst_ofEntries, map_fst_ofEntries,
      eqEntries?_ofEntries xs ys]
  | .scalar s, .list _ | .scalar s, .map _ | .list _, .scalar s | .map _, .scalar s => by
    cases s <;> rfl
  | .list _, .map _ | .map _, .list _ => rfl

theorem eqItems?_ofItems : ∀ xs ys : List Value,
    eqItems? (ofItems xs) (ofItems ys) = Value.eqItems? xs ys
  | x :: xs, y :: ys => by
    rw [ofItems, ofItems, eqItems?, Value.eqItems?, eq?_ofValue x y, eqItems?_ofItems xs ys]
  | [], [] | [], _ :: _ | _ :: _, [] => rfl

theorem eqEntries?_ofEntries : ∀ xs ys : List (String × Value),
    eqEntries? (ofEntries xs) (ofEntries ys) = Value.eqEntries? xs ys
  | (_, x) :: xs, (_, y) :: ys => by
    rw [ofEntries, ofEntries, eqEntries?, Value.eqEntries?, eq?_ofValue x y,
      eqEntries?_ofEntries xs ys]
  | [], [] | [], _ :: _ | _ :: _, [] => rfl

end

end Object

theorem Value.eq?_comm (a b : Value) : a.eq? b = b.eq? a := by
  rw [← Object.eq?_ofValue, Object.eq?_comm, Object.eq?_ofValue]

namespace Object

mutual

theorem compare?_ofValue : ∀ a b : Value, (ofValue a).compare? (ofValue b) = a.compare? b
  | .scalar a, .scalar b => rfl
  | .list xs, .list ys => by
    rw [ofValue, ofValue, compare?, Value.compare?, compareItems?_ofItems xs ys]
  | .scalar _, .list _ | .scalar _, .map _ | .list _, .scalar _ | .list _, .map _
  | .map _, .scalar _ | .map _, .list _ | .map _, .map _ => rfl

theorem compareItems?_ofItems : ∀ xs ys : List Value,
    compareItems? (ofItems xs) (ofItems ys) = Value.compareItems? xs ys
  | [], [] | [], _ :: _ | _ :: _, [] => rfl
  | x :: xs, y :: ys => by
    have hitems := compareItems?_ofItems xs ys
    rw [ofItems, ofItems, compareItems?, Value.compareItems?, compare?_ofValue x y]
    rcases Value.compare? x y with _ | _ | _ | _
    · rfl
    · rfl
    · exact hitems
    · rfl

end

theorem ofValue_inj {a b : Value} (h : ofValue a = ofValue b) : a = b := by
  have hvalue := congrArg (toValue default) h
  rw [toValue_ofValue, toValue_ofValue] at hvalue
  exact Except.ok.inj hvalue

end Object

/-! ### Comparisons -/

namespace Comparison

theorem eval?_flip (a b : Value) : c.flip.eval? a b = c.eval? b a := by
  cases c
  case eq => exact a.eq?_comm b
  case ne => exact congrArg (Option.map not) (a.eq?_comm b)
  all_goals
    show (a.compare? b).map _ = (b.compare? a).map _
    rw [a.compare?_swap b]
    rcases a.compare? b with _ | _ | _ | _ <;> rfl

theorem eval?_negate (a b : Value) : c.negate.eval? a b = (c.eval? a b).map not := by
  cases c
  case eq => rfl
  case ne =>
    show a.eq? b = ((a.eq? b).map not).map not
    rcases a.eq? b with _ | _ | _ <;> rfl
  all_goals
    show (a.compare? b).map _ = ((a.compare? b).map _).map not
    rcases a.compare? b with _ | _ | _ | _ <;> rfl

theorem eval?_null_right {a b : Value} (hb : b.isNull) : c.eval? a b = none := by
  obtain rfl := Value.eq_null_of_isNull hb
  have hcompare : a.compare? .null = none := by rcases a with (_ | _) | _ | _ <;> rfl
  have heq : a.eq? .null = none := by rcases a with (_ | _) | _ | _ <;> rfl
  cases c
  case eq => exact heq
  case ne => exact congrArg (Option.map not) heq
  all_goals exact congrArg (Option.map _) hcompare

theorem eval?_null_left {a b : Value} (ha : a.isNull) : c.eval? a b = none := by
  rw [← eval?_flip, eval?_null_right _ ha]

theorem holds_ofValue (a : Value) {b : Value} (hb : b.isNull = false) :
    c.holds (.ofValue a) (.ofValue b) = (c.eval? a b == some true) := by
  have hnull : ¬(Object.ofValue b).isNull = true := by simp [hb]
  cases c
  case eq =>
    rw [holds, if_neg hnull, Object.eq?_ofValue]
    rfl
  case ne =>
    rw [holds, if_neg hnull, Object.eq?_ofValue]
    show _ = ((a.eq? b).map not == some true)
    rcases a.eq? b with _ | _ | _ <;> rfl
  all_goals
    rw [holds, Object.compare?_ofValue]
    show _ = ((a.compare? b).map _ == some true)
    rcases a.compare? b with _ | _ | _ | _ <;> rfl

end Comparison
end CypherTraversal
