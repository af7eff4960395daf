import CypherTraversal.Proofs.Lowering.Sorted

/-! # The order that rows are sorted in

Rows are sorted by objects. The order of objects is the sort order of values but for maps: no two
of them are told apart, as if all were empty. Lists are compared item by item, so it shows through
them too. -/

namespace CypherTraversal

open Run LowerClause List

/-! ### Values and objects -/

namespace Value

mutual

/-- The value with no entries in its maps. -/
def emptied : Value → Value
  | scalar s => scalar s
  | list items => list (emptiedItems items)
  | map _ => map []

def emptiedItems : List Value → List Value
  | [] => []
  | v :: vs => emptied v :: emptiedItems vs

end

end Value

namespace Object

mutual

theorem order_ofValue : ∀ a b : Value, (ofValue a).order (ofValue b) = a.emptied.order b.emptied
  | .scalar _, .scalar _ => rfl
  | .list xs, .list ys => orderItems_ofItems xs ys
  | .map _, .map _ => rfl
  | .scalar s, .list _ | .scalar s, .map _ | .list _, .scalar s | .map _, .scalar s => by
    cases s <;> rfl
  | .list _, .map _ | .map _, .list _ => rfl

theorem orderItems_ofItems : ∀ xs ys : List Value, orderItems (ofItems xs) (ofItems ys) =
    Value.orderItems (Value.emptiedItems xs) (Value.emptiedItems ys)
  | [], [] | [], _ :: _ | _ :: _, [] => rfl
  | x :: xs, y :: ys => by
    rw [ofItems, ofItems, orderItems, order_ofValue x y, orderItems_ofItems xs ys]
    rfl

end

end Object

/-! ### Rows -/

section Rows

variable {c : LoweringContext} {o : ResolvedOrder} {f order : Traversal} {ps : Parameters}
  {g : Graph} {ts : List Traverser} {v : Traverser → Value}

theorem LowerClause.orderRows_outcome (hf : o.steps c = .ok f)
    (horder : orderRows c [o] = .ok order)
    (hv : ∀ t ∈ ts, f.objects ps t g = .ok [.ofValue (v t)]) :
    (order.run ps ts).outcome g = (.ok (Sorting.sort (fun s t => Process.orderKeys
      [(.ofValue (v s), o.direction)] [(.ofValue (v t), o.direction)]) ts), g) := by
  obtain ⟨steps, keys, rfl, hne, hsteps, hkeys⟩ := orderRows_keys (cons_ne_nil _ _) horder
  obtain ⟨⟨f', _⟩, _, ⟨hf', hreads, rfl⟩, hnil, rfl⟩ := forall₂_cons_left_iff.mp hkeys
  cases hnil
  obtain rfl : f = f' := Except.ok.inj (hf.symm.trans hf')
  have hruns (t) (ht : t ∈ ts) : ∃ us, (f.run ps [t]).outcome g = (.ok us, g) := by
    obtain ⟨us, hus, -⟩ := map_eq_ok.mp (hv t ht)
    exact ⟨us, Prod.ext hus (hreads.graph rfl)⟩
  have hfirst (t) (ht : t ∈ ts) : f.firstObject ps g t = .ofValue (v t) := by
    rw [Traversal.firstObject, hv t ht]
    rfl
  rw [Traversal.order_outcome hne hsteps fun t ht => forall_mem_singleton.mpr (hruns t ht)]
  refine congrArg (fun us => (Except.ok us, g)) (Sorting.sort_congr fun s hs t ht => ?_)
  rw [← hfirst s hs, ← hfirst t ht]
  rfl

end Rows

/-- **Rows are sorted with all maps alike.** The order of the objects that two values become is the
sort order of the values after each map in them, or in lists in them, has been emptied; it is the
sort order of the values if that changes neither. Rows that are sorted by a key whose values are
`v` come out so that their values are sorted in this order, stably. -/
theorem rows_sort_with_maps_alike (c : LoweringContext) (o : ResolvedOrder) (ps : Parameters)
    (g : Graph) :
    (∀ a b : Value, (Object.ofValue a).order (.ofValue b) = a.emptied.order b.emptied) ∧
    (∀ a b : Value, a.emptied = a → b.emptied = b →
      (Object.ofValue a).order (.ofValue b) = a.order b) ∧
    ∀ (f order : Traversal) (ts : List Traverser) (v : Traverser → Value), o.steps c = .ok f →
      orderRows c [o] = .ok order → (∀ t ∈ ts, f.objects ps t g = .ok [.ofValue (v t)]) →
      ∃ us, (order.run ps ts).outcome g = (.ok us, g) ∧
        us.map v = Sorting.sort (fun a b => if o.ascending then a.emptied.order b.emptied
          else b.emptied.order a.emptied) (ts.map v) ∧
        ((∀ t ∈ ts, (v t).emptied = v t) →
          us.map v = Sorting.sort (fun a b => if o.ascending then a.order b else b.order a)
            (ts.map v)) := by
  have hplain (a b : Value) (ha : a.emptied = a) (hb : b.emptied = b) :
      (Object.ofValue a).order (.ofValue b) = a.order b := by rw [Object.order_ofValue, ha, hb]
  refine ⟨Object.order_ofValue, hplain, fun f order ts v hf horder hv => ?_⟩
  have hsorted : (Sorting.sort (fun s t => Process.orderKeys [(.ofValue (v s), o.direction)]
      [(.ofValue (v t), o.direction)]) ts).map v = Sorting.sort (fun a b =>
        if o.ascending then a.emptied.order b.emptied else b.emptied.order a.emptied)
        (ts.map v) := by
    rw [Sorting.sort_map]
    refine congrArg (fun cmp => (Sorting.sort cmp ts).map v) (funext₂ fun s t => ?_)
    rw [ResolvedOrder.direction]
    cases o.ascending <;> exact Ordering.then_eq.trans (Object.order_ofValue _ _)
  refine ⟨_, orderRows_outcome hf horder hv, hsorted, fun hempty => hsorted.trans ?_⟩
  refine Sorting.sort_congr fun a ha b hb => ?_
  obtain ⟨s, hs, rfl⟩ := mem_map.mp ha
  obtain ⟨t, ht, rfl⟩ := mem_map.mp hb
  rw [hempty s hs, hempty t ht]

theorem lists_of_maps_sort_by_length :
    let one : Value := .list [.map [("a", .int 1)]]
    let two : Value := .list [.map [("a", .int 2)]]
    let rows : List Traverser :=
      [two, .list [], one].map fun v => ⟨.map [("m", .ofValue v)], [], none⟩
    let value (t : Traverser) : Value := ((t.place.selected "m").bind fun x =>
      (x.toValue .modern).toOption).getD .null
    ∃ order us, orderRows ⟨⟨[], none⟩, [], none, "RETURN"⟩ [⟨.var "m", "m", true⟩] = .ok order ∧
      (Traversal.run [] order rows).outcome .modern = (.ok us, .modern) ∧
      us.map value = [.list [], two, one] := by
  intro one two rows value
  have hvalues : ∀ t ∈ rows, Traversal.objects [] [.select "m"] t .modern =
      .ok [.ofValue (value t)] := by
    simp only [rows, map_cons, map_nil, forall_mem_cons]
    exact ⟨rfl, rfl, rfl, forall_mem_nil _⟩
  obtain ⟨-, -, hsorts⟩ := rows_sort_with_maps_alike ⟨⟨[], none⟩, [], none, "RETURN"⟩
    ⟨.var "m", "m", true⟩ [] .modern
  obtain ⟨us, hus, hsorted, -⟩ := hsorts _ _ rows value rfl rfl hvalues
  exact ⟨_, us, rfl, hus, hsorted⟩

theorem maps_are_not_sorted :
    Value.order (.map [("a", .int 2)]) (.map [("a", .int 1)]) = .gt ∧
    ((Session.submit ⟨.native, true, .empty "g"⟩
      "UNWIND [\x7ba: 2\x7d, \x7ba: 1\x7d] AS m RETURN m ORDER BY m" []).1.toOption.map fun table =>
        table.rows.map fun row => (row.find? "m").map Value.text) =
          some [some "\x7ba: 2\x7d", some "\x7ba: 1\x7d"] := by
  decide +kernel

end CypherTraversal
