import CypherTraversal.Proofs.Value.Comparison

/-! # The sort order is linear

A number that is compared as a floating point number loses digits, and so the sort order of all
values is not transitive. Values without floating point numbers are in a linear order. -/

namespace CypherTraversal

open Value

/-! ### Orderings of three things -/

/-- What the ordering `x` of two things and the ordering `y` of the second and a third say about the
ordering `z` of the first and the third. -/
structure Composes (x y z : Ordering) : Prop where
  left : x = .eq → z = y
  right : y = .eq → z = x
  both : x = y → z = x

namespace Composes

variable {x y z x' y' z' : Ordering}

theorem of_compare {α : Type} [Ord α] [Std.TransOrd α] (a b c : α) :
    Composes (compare a b) (compare b c) (compare a c) := by
  refine ⟨Std.TransCmp.congr_left, fun h => (Std.TransCmp.congr_right h).symm, fun h => ?_⟩
  cases hab : compare a b with
  | lt => exact Std.TransCmp.lt_trans hab (h.symm.trans hab)
  | eq => exact (Std.TransCmp.congr_left hab).trans (h.symm.trans hab)
  | gt => exact Std.TransCmp.gt_trans hab (h.symm.trans hab)

theorem andThen (h : Composes x y z) (h' : x = .eq → y = .eq → Composes x' y' z') :
    Composes (x.then x') (y.then y') (z.then z') := by
  obtain ⟨hx, hy, hxy⟩ := h
  cases x <;> cases y
  case eq.eq =>
    obtain rfl := hx rfl
    exact h' rfl rfl
  all_goals constructor <;> grind [Ordering.then]

theorem flip (h : Composes x y z) : Composes y x z :=
  ⟨h.right, h.left, fun hyx => (h.both hyx.symm).trans hyx.symm⟩

theorem le (h : Composes x y z) (hx : x ≠ .gt) (hy : y ≠ .gt) : z ≠ .gt := by
  obtain ⟨hleft, hright, hboth⟩ := h
  cases x <;> cases y <;> simp_all

end Composes

/-! ### Scalars -/

namespace Scalar

variable {a b c : Scalar} {o : Ordering}

def isFloat : Scalar → Bool
  | float _ => true
  | _ => false

theorem order_rank (a b : Scalar) : a.order b = (compare a.rank b.rank).then (a.order b) := by
  cases a <;> cases b <;> rfl

theorem order_composes (ha : a.isFloat = false) (hb : b.isFloat = false) (hc : c.isFloat = false) :
    Composes (a.order b) (b.order c) (a.order c) := by
  rw [order_rank a b, order_rank b c, order_rank a c]
  refine (Composes.of_compare a.rank b.rank c.rank).andThen fun hab hbc => ?_
  cases a <;> cases b <;> try cases hab; done
  all_goals cases c <;> try cases hbc; done
  case null.null.null => exact ⟨fun _ => rfl, fun _ => rfl, fun _ => rfl⟩
  case bool.bool.bool | int.int.int | str.str.str => exact .of_compare _ _ _
  all_goals first | cases ha; done | cases hb; done | cases hc

theorem order_swap (a b : Scalar) : b.order a = (a.order b).swap := by
  have hgetD (x : Option Ordering) (y : Ordering) :
      (x.map .swap).getD y.swap = (x.getD y).swap := by cases x <;> rfl
  cases a <;> cases b
  case bool.bool | int.int | str.str | float.float => exact Std.OrientedOrd.eq_swap
  case int.float | float.int =>
    exact (congrArg₂ Option.getD (compare?_swap _ _) Std.OrientedOrd.eq_swap).trans (hgetD _ _)
  all_goals rfl

theorem eq_of_order (ha : a.isFloat = false) (hb : b.isFloat = false) (h : a.order b = .eq) :
    a = b := by
  cases a <;> cases b <;> try cases h; done
  case null.null => rfl
  case bool.bool => exact congrArg bool (Std.LawfulEqOrd.eq_of_compare h)
  case int.int => exact congrArg int (Std.LawfulEqOrd.eq_of_compare h)
  case str.str => exact congrArg str (Std.LawfulEqOrd.eq_of_compare h)
  all_goals first | cases ha; done | cases hb

theorem order_of_compare? (ha : a.isFloat = false) (hb : b.isFloat = false)
    (h : a.compare? b = some o) : a.order b = o := by
  cases a <;> cases b <;> try cases h; done
  case bool.bool | int.int | str.str => exact Option.some.inj h
  all_goals first | cases ha; done | cases hb

end Scalar

/-! ### Values -/

namespace Value

mutual

/-- All scalars in the value pass. -/
def Leaves (P : Scalar → Prop) : Value → Prop
  | scalar s => P s
  | list items => ItemLeaves P items
  | map entries => EntryLeaves P entries

def ItemLeaves (P : Scalar → Prop) : List Value → Prop
  | [] => True
  | v :: vs => Leaves P v ∧ ItemLeaves P vs

def EntryLeaves (P : Scalar → Prop) : List (String × Value) → Prop
  | [] => True
  | (_, v) :: vs => Leaves P v ∧ EntryLeaves P vs

end

abbrev Floatless (v : Value) : Prop :=
  v.Leaves fun s => s.isFloat = false

variable {a b c : Value}

theorem order_rank (a b : Value) : a.order b = (compare a.rank b.rank).then (a.order b) := by
  cases a with
  | scalar s =>
    cases b with
    | scalar t => exact s.order_rank t
    | _ => cases s <;> rfl
  | _ =>
    cases b with
    | scalar t => cases t <;> rfl
    | _ => rfl

theorem scalar_of_rank {s : Scalar} (h : (scalar s).rank = b.rank) : ∃ t, b = scalar t := by
  cases b with
  | scalar t => exact ⟨t, rfl⟩
  | _ => cases s <;> cases h

theorem list_of_rank {xs : List Value} (h : (list xs).rank = b.rank) : ∃ ys, b = list ys := by
  cases b with
  | scalar t => cases t <;> cases h
  | list ys => exact ⟨ys, rfl⟩
  | map _ => cases h

theorem map_of_rank {xs : List (String × Value)} (h : (map xs).rank = b.rank) :
    ∃ ys, b = map ys := by
  cases b with
  | scalar t => cases t <;> cases h
  | list _ => cases h
  | map ys => exact ⟨ys, rfl⟩

theorem composes_of_rank (h : a.rank = b.rank → b.rank = c.rank →
      Composes (a.order b) (b.order c) (a.order c)) :
    Composes (a.order b) (b.order c) (a.order c) := by
  rw [order_rank a b, order_rank b c, order_rank a c]
  exact (Composes.of_compare a.rank b.rank c.rank).andThen fun hab hbc =>
    h (Std.LawfulEqOrd.eq_of_compare hab) (Std.LawfulEqOrd.eq_of_compare hbc)

mutual

theorem order_composes : ∀ {a b c : Value}, a.Floatless → b.Floatless → c.Floatless →
    Composes (a.order b) (b.order c) (a.order c)
  | scalar _, _, _, ha, hb, hc => composes_of_rank fun hab hbc => by
    obtain ⟨_, rfl⟩ := scalar_of_rank hab
    obtain ⟨_, rfl⟩ := scalar_of_rank hbc
    exact Scalar.order_composes ha hb hc
  | list _, _, _, ha, hb, hc => composes_of_rank fun hab hbc => by
    obtain ⟨_, rfl⟩ := list_of_rank hab
    obtain ⟨_, rfl⟩ := list_of_rank hbc
    exact orderItems_composes ha hb hc
  | map _, _, _, ha, hb, hc => composes_of_rank fun hab hbc => by
    obtain ⟨_, rfl⟩ := map_of_rank hab
    obtain ⟨_, rfl⟩ := map_of_rank hbc
    exact orderEntries_composes ha hb hc

theorem orderItems_composes : ∀ {xs ys zs : List Value}, ItemLeaves (·.isFloat = false) xs →
    ItemLeaves (·.isFloat = false) ys → ItemLeaves (·.isFloat = false) zs →
    Composes (orderItems xs ys) (orderItems ys zs) (orderItems xs zs)
  | [], [], _, _, _, _ | _ :: _, [], [], _, _, _ | [], _ :: _, [], _, _, _
  | [], _ :: _, _ :: _, _, _, _ | _ :: _, [], _ :: _, _, _, _ | _ :: _, _ :: _, [], _, _, _ => by
    constructor <;> simp +contextual [orderItems]
  | x :: xs, y :: ys, z :: zs, hx, hy, hz =>
    (order_composes hx.1 hy.1 hz.1).andThen fun _ _ => orderItems_composes hx.2 hy.2 hz.2

theorem orderEntries_composes : ∀ {xs ys zs : List (String × Value)},
    EntryLeaves (·.isFloat = false) xs → EntryLeaves (·.isFloat = false) ys →
    EntryLeaves (·.isFloat = false) zs →
    Composes (orderEntries xs ys) (orderEntries ys zs) (orderEntries xs zs)
  | [], [], _, _, _, _ | _ :: _, [], [], _, _, _ | [], _ :: _, [], _, _, _
  | [], _ :: _, _ :: _, _, _, _ | _ :: _, [], _ :: _, _, _, _ | _ :: _, _ :: _, [], _, _, _ => by
    constructor <;> simp +contextual [orderEntries]
  | (k, x) :: xs, (l, y) :: ys, (m, z) :: zs, hx, hy, hz =>
    ((Composes.of_compare k l m).andThen fun _ _ =>
      order_composes hx.1 hy.1 hz.1).andThen fun _ _ => orderEntries_composes hx.2 hy.2 hz.2

end

mutual

theorem order_swap : ∀ a b : Value, b.order a = (a.order b).swap
  | scalar s, scalar t => s.order_swap t
  | list xs, list ys => orderItems_swap xs ys
  | map xs, map ys => orderEntries_swap xs ys
  | scalar _, list _ | scalar _, map _ | list _, scalar _ | list _, map _ | map _, scalar _
  | map _, list _ => Std.OrientedOrd.eq_swap

theorem orderItems_swap : ∀ xs ys : List Value, orderItems ys xs = (orderItems xs ys).swap
  | [], [] | [], _ :: _ | _ :: _, [] => rfl
  | x :: xs, y :: ys => by
    rw [orderItems, orderItems, order_swap x y, orderItems_swap xs ys, Ordering.swap_then]

theorem orderEntries_swap : ∀ xs ys : List (String × Value),
    orderEntries ys xs = (orderEntries xs ys).swap
  | [], [] | [], _ :: _ | _ :: _, [] => rfl
  | (k, x) :: xs, (l, y) :: ys => by
    rw [orderEntries, orderEntries, order_swap x y, orderEntries_swap xs ys, Ordering.swap_then,
      Ordering.swap_then, Std.OrientedOrd.eq_swap (a := l)]

end

theorem rank_of_order (h : a.order b = .eq) : a.rank = b.rank := by
  rw [order_rank, Ordering.then_eq_eq] at h
  exact Std.LawfulEqOrd.eq_of_compare h.1

mutual

theorem eq_of_order : ∀ {a b : Value}, a.Floatless → b.Floatless → a.order b = .eq → a = b
  | scalar _, _, ha, hb, h => by
    obtain ⟨_, rfl⟩ := scalar_of_rank (rank_of_order h)
    rw [Scalar.eq_of_order ha hb h]
  | list _, _, ha, hb, h => by
    obtain ⟨_, rfl⟩ := list_of_rank (rank_of_order h)
    rw [eq_of_orderItems ha hb h]
  | map _, _, ha, hb, h => by
    obtain ⟨_, rfl⟩ := map_of_rank (rank_of_order h)
    rw [eq_of_orderEntries ha hb h]

theorem eq_of_orderItems : ∀ {xs ys : List Value}, ItemLeaves (·.isFloat = false) xs →
    ItemLeaves (·.isFloat = false) ys → orderItems xs ys = .eq → xs = ys
  | [], [], _, _, _ => rfl
  | x :: xs, y :: ys, hx, hy, h => by
    obtain ⟨hhead, htail⟩ := Ordering.then_eq_eq.mp h
    rw [eq_of_order hx.1 hy.1 hhead, eq_of_orderItems hx.2 hy.2 htail]

theorem eq_of_orderEntries : ∀ {xs ys : List (String × Value)},
    EntryLeaves (·.isFloat = false) xs → EntryLeaves (·.isFloat = false) ys →
    orderEntries xs ys = .eq → xs = ys
  | [], [], _, _, _ => rfl
  | (k, x) :: xs, (l, y) :: ys, hx, hy, h => by
    obtain ⟨hhead, htail⟩ := Ordering.then_eq_eq.mp h
    obtain ⟨hkey, hhead⟩ := Ordering.then_eq_eq.mp hhead
    rw [Std.LawfulEqOrd.eq_of_compare hkey, eq_of_order hx.1 hy.1 hhead,
      eq_of_orderEntries hx.2 hy.2 htail]

end

mutual

theorem order_of_compare? : ∀ {a b : Value} {o : Ordering}, a.Floatless → b.Floatless →
    a.compare? b = some o → a.order b = o
  | scalar _, scalar _, _, ha, hb, h => Scalar.order_of_compare? ha hb h
  | list _, list _, _, ha, hb, h => order_of_compareItems? ha hb h

theorem order_of_compareItems? : ∀ {xs ys : List Value} {o : Ordering},
    ItemLeaves (·.isFloat = false) xs → ItemLeaves (·.isFloat = false) ys →
    compareItems? xs ys = some o → orderItems xs ys = o
  | [], [], _, _, _, h | [], _ :: _, _, _, _, h | _ :: _, [], _, _, _, h => Option.some.inj h
  | x :: xs, y :: ys, _, hx, hy, h => by
    rw [compareItems?] at h
    rw [orderItems]
    rcases hxy : compare? x y with _ | _ | _ | _ <;> rw [hxy] at h
    case none => cases h
    case some.eq => rw [order_of_compare? hx.1 hy.1 hxy, ← order_of_compareItems? hx.2 hy.2 h]; rfl
    all_goals
      cases h
      rw [order_of_compare? hx.1 hy.1 hxy]
      rfl

end

theorem order_null (h : a ≠ null) : a.order null = .lt := by
  cases a with
  | scalar s =>
    cases s with
    | null => exact absurd rfl h
    | _ => rfl
  | _ => rfl

theorem order_self (a : Value) : a.order a = .eq := by
  have hswap := order_swap a a
  cases h : a.order a with
  | eq => rfl
  | _ => rw [h] at hswap; cases hswap

end Value

/-- **Values without floating point numbers are in a linear order.** Such values are taken for equal
only if they are, they are ordered the other way round when they are exchanged, and smaller than the
smaller is smaller. Null is the greatest. Where values can be compared, the sort order is the
comparison. -/
theorem floatless_values_in_order {a b c : Value} (ha : a.Floatless) (hb : b.Floatless)
    (hc : c.Floatless) :
    (a.order b = .eq ↔ a = b) ∧ b.order a = (a.order b).swap ∧
      (a.order b ≠ .gt → b.order c ≠ .gt → a.order c ≠ .gt) ∧
      (a ≠ .null → a.order .null = .lt) ∧ ∀ o, a.compare? b = some o → a.order b = o := by
  refine ⟨⟨eq_of_order ha hb, ?_⟩, a.order_swap b, (order_composes ha hb hc).le,
    order_null, fun _ => order_of_compare? ha hb⟩
  rintro rfl
  exact a.order_self

theorem shorter_list_in_front :
    let a : Value := .list [.map [("k", .int 1)], .str "x"]
    let b : Value := .list [.map [("k", .int 1)], .str "x", .null]
    a.order b = .lt ∧ b.order .null = .lt ∧ a.order .null ≠ .gt := by
  intro a b
  have hab : a.order b = .lt := by decide
  obtain ⟨-, -, htrans, -⟩ := floatless_values_in_order (a := a) (b := b) (c := .null)
    (by simp [a, Leaves, ItemLeaves, EntryLeaves, Scalar.isFloat])
    (by simp [b, Leaves, ItemLeaves, EntryLeaves, Scalar.isFloat]) rfl
  exact ⟨hab, rfl, htrans (by rw [hab]; decide) (by decide)⟩

end CypherTraversal
