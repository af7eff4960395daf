import CypherTraversal.Proofs.Conditions.Values
import CypherTraversal.Proofs.Value.Linear

/-! # Sorted streams

The order of objects is that of values which stand for them: maps and groups of rows for the empty
map, and vertices and edges for other maps, since they come between the empty map and lists. So it
is linear in the same way, and a stream is sorted by its keys. -/

namespace CypherTraversal

open Run List Process Traversal

/-! ### The order of objects -/

namespace Object

mutual

def sortValue : Object → Value
  | scalar s => .scalar s
  | vertex v => .map [("", .int v.index)]
  | edge e => .map [("edge", .int e.index)]
  | list items => .list (sortValues items)
  | map _ | entry .. | groups _ => .map []

def sortValues : List Object → List Value
  | [] => []
  | x :: xs => sortValue x :: sortValues xs

end

theorem order_index (k : String) (m n : Nat) :
    Value.order (.map [(k, .int m)]) (.map [(k, .int n)]) = compare m n := by
  show ((compare k k).then (compare (m : Int) n)).then .eq = compare m n
  rw [Std.ReflOrd.compare_self, Ordering.eq_then, Ordering.then_eq, compare, compare]
  simp only [instOrdInt, instOrdNat, compareOfLessAndEq, Int.ofNat_lt, Int.natCast_inj]

mutual

theorem order_eq (x y : Object) : x.order y = x.sortValue.order y.sortValue := by
  cases x <;> cases y
  case list.list xs ys => exact orderItems_eq xs ys
  case vertex.vertex | edge.edge => exact (order_index _ _ _).symm
  any_goals rfl
  case scalar.entry s _ _ | entry.scalar _ _ s => cases s <;> rfl
  all_goals rename_i x y; first | cases x <;> rfl | cases y <;> rfl
termination_by structural x

theorem orderItems_eq : ∀ xs ys : List Object,
    orderItems xs ys = Value.orderItems (sortValues xs) (sortValues ys)
  | [], [] | [], _ :: _ | _ :: _, [] => rfl
  | x :: xs, y :: ys => by rw [orderItems, order_eq x y, orderItems_eq xs ys]; rfl

end

abbrev Floatless (x : Object) : Prop :=
  x.sortValue.Floatless

theorem order_swap (x y : Object) : y.order x = (x.order y).swap := by
  rw [order_eq, order_eq, Value.order_swap]

theorem order_composes {x y z : Object} (hx : x.Floatless) (hy : y.Floatless) (hz : z.Floatless) :
    Composes (x.order y) (y.order z) (x.order z) := by
  rw [order_eq, order_eq, order_eq]
  exact Value.order_composes hx hy hz

end Object

/-! ### The order of keys -/

/-- How a key tells two rows apart: in the order of its objects, or the other way round. -/
def SortOrder.directs : SortOrder → Ordering → Ordering
  | asc, o => o
  | desc, o => o.swap

namespace Process

theorem orderKeys_cons (x y : Object) (o p : SortOrder) (xs ys : List (Object × SortOrder)) :
    orderKeys ((x, o) :: xs) ((y, p) :: ys) = (o.directs (x.order y)).then (orderKeys xs ys) := by
  cases o with
  | asc => rfl
  | desc => exact congrArg (Ordering.then · _) (Object.order_swap x y)

variable {α κ : Type} (x : κ → α → Object) (keys : List (κ × SortOrder)) {a b c : α}

abbrev keyed (a : α) : List (Object × SortOrder) :=
  keys.map fun k => (x k.1 a, k.2)

/-- What the first key that tells two rows apart says of them. -/
def difference? (a b : α) : Option Ordering :=
  (keys.map fun k => k.2.directs ((x k.1 a).order (x k.1 b))).find? (· ≠ .eq)

theorem orderKeys_keyed (a b : α) :
    orderKeys (keyed x keys a) (keyed x keys b) = (difference? x keys a b).getD .eq := by
  induction keys with
  | nil => rfl
  | cons k keys ih =>
    rw [keyed, map_cons, keyed, map_cons, orderKeys_cons, difference?, map_cons, find?_cons]
    cases k.2.directs ((x k.1 a).order (x k.1 b)) with
    | eq => exact ih
    | _ => rfl

theorem difference?_eq_none : difference? x keys a b = none ↔
    orderKeys (keyed x keys a) (keyed x keys b) = .eq := by
  rw [orderKeys_keyed]
  cases h : difference? x keys a b with
  | none => exact iff_of_true rfl rfl
  | some o => simpa using find?_some h

theorem orderKeys_swap (a b : α) : orderKeys (keyed x keys b) (keyed x keys a) =
    (orderKeys (keyed x keys a) (keyed x keys b)).swap := by
  induction keys with
  | nil => rfl
  | cons k keys ih =>
    simp only [keyed, map_cons, orderKeys_cons, Ordering.swap_then]
    refine congrArg₂ Ordering.then ?_ ih
    rw [Object.order_swap (x k.1 a)]
    cases k.2 <;> rfl

variable {x keys}

theorem orderKeys_composes (ha : ∀ k ∈ keys, (x k.1 a).Floatless)
    (hb : ∀ k ∈ keys, (x k.1 b).Floatless) (hc : ∀ k ∈ keys, (x k.1 c).Floatless) :
    Composes (orderKeys (keyed x keys a) (keyed x keys b))
      (orderKeys (keyed x keys b) (keyed x keys c))
      (orderKeys (keyed x keys a) (keyed x keys c)) := by
  induction keys with
  | nil => exact ⟨fun _ => rfl, fun _ => rfl, fun _ => rfl⟩
  | cons k keys ih =>
    obtain ⟨ha, has⟩ := forall_mem_cons.mp ha
    obtain ⟨hb, hbs⟩ := forall_mem_cons.mp hb
    obtain ⟨hc, hcs⟩ := forall_mem_cons.mp hc
    refine .andThen ?_ fun _ _ => ih has hbs hcs
    cases k.2 with
    | asc => exact Object.order_composes ha hb hc
    | desc => exact (Object.order_composes hc hb ha).flip

end Process

/-! ### The step -/

/-- The object that a key gives for a row: the first one that it leads to, or null. -/
def Traversal.firstObject (ps : Parameters) (g : Graph) (t : Traverser) (f : Traversal) : Object :=
  ((f.objects ps t g).toOption.bind List.head?).getD .null

/-- The traversal and the direction of a key that rows are sorted by. -/
def Step.sortKey? : Step → Option (Traversal × SortOrder)
  | .by f => some (f, .asc)
  | .byOrder f o => some (f, o)
  | _ => none

variable {ps : Parameters} {g g' : Graph} {ts us : List Traverser} {steps : List Step}
  {keys : List (Traversal × SortOrder)}

theorem Step.modulate_sortKeys (ps : Parameters)
    (h : Forall₂ (fun s k => s.sortKey? = some k) steps keys) :
    ∃ ms, Step.Modulate ps steps ms ∧
      ms.filterMap Modulator.sortKey? = keys.map fun k => (k.1.run ps, k.2) := by
  induction h with
  | nil => exact ⟨[], .nil, rfl⟩
  | @cons s k _ _ hs _ ih =>
    obtain ⟨ms, hms, hkeys⟩ := ih
    obtain ⟨m, hm, hkey⟩ : ∃ m, (∃ text, stage ps s = .modulator m text) ∧
        m.sortKey? = some (k.1.run ps, k.2) := by
      cases s <;> cases hs <;> exact ⟨_, ⟨_, rfl⟩, rfl⟩
    exact ⟨m :: ms, .cons hm hms, by rw [filterMap_cons_some hkey, hkeys, map_cons]⟩

namespace Process

/-- The keys of a row, with their directions. -/
abbrev keysOf (ps : Parameters) (g : Graph) (keys : List (Traversal × SortOrder)) :
    Traverser → List (Object × SortOrder) :=
  keyed (fun f t => firstObject ps g t f) keys

theorem keyObjects_outcome {t : Traverser}
    (h : ∀ k ∈ keys, ∃ us, (k.1.run ps [t]).outcome g = (.ok us, g)) :
    (keyObjects t (keys.map fun k => (some (k.1.run ps), k.2))).outcome g =
      (.ok (keysOf ps g keys t), g) := by
  induction keys with
  | nil => rfl
  | cons k keys ih =>
    obtain ⟨⟨us, hus⟩, hkeys⟩ := forall_mem_cons.mp h
    have hkey : (keyObject (some (k.1.run ps)) t).outcome g =
        (.ok (k.1.firstObject ps g t), g) := by
      refine (outcome_bind_ok hus).trans ?_
      rw [firstObject, objects, hus]
      cases us <;> rfl
    rw [map_cons, keyObjects, outcome_bind_ok hkey, outcome_bind_ok (ih hkeys)]
    rfl

theorem withKeys_outcome
    (h : ∀ t ∈ ts, ∀ k ∈ keys, ∃ us, (k.1.run ps [t]).outcome g = (.ok us, g)) :
    (withKeys (keys.map fun k => (some (k.1.run ps), k.2)) ts).outcome g =
      (.ok (ts.map fun t => (keysOf ps g keys t, t)), g) := by
  induction ts with
  | nil => rfl
  | cons t ts ih =>
    obtain ⟨ht, hts⟩ := forall_mem_cons.mp h
    rw [withKeys, outcome_bind_ok (keyObjects_outcome ht), outcome_bind_ok (ih hts)]
    rfl

theorem keyObjects_of_ok {t : Traverser} {xs : List (Object × SortOrder)}
    (hkeys : ∀ k ∈ keys, k.1.ReadsOnly fun _ => true)
    (h : (keyObjects t (keys.map fun k => (some (k.1.run ps), k.2))).outcome g = (.ok xs, g')) :
    g' = g ∧ ∀ k ∈ keys, ∃ us, (k.1.run ps [t]).outcome g = (.ok us, g) := by
  induction keys generalizing xs with
  | nil =>
    cases h
    exact ⟨rfl, forall_mem_nil _⟩
  | cons k keys ih =>
    obtain ⟨hk, hkeys⟩ := forall_mem_cons.mp hkeys
    obtain ⟨x, m, rest, hx, hrest, -⟩ := of_outcome_both h
    obtain ⟨us, m', hus, hx⟩ := of_outcome_bind hx
    cases hx
    obtain rfl := hk.graph hus
    obtain ⟨rfl, hruns⟩ := ih hkeys hrest
    exact ⟨rfl, forall_mem_cons.mpr ⟨⟨us, hus⟩, hruns⟩⟩

theorem withKeys_of_ok {rows : List (List (Object × SortOrder) × Traverser)}
    (hkeys : ∀ k ∈ keys, k.1.ReadsOnly fun _ => true)
    (h : (withKeys (keys.map fun k => (some (k.1.run ps), k.2)) ts).outcome g = (.ok rows, g')) :
    ∀ t ∈ ts, ∀ k ∈ keys, ∃ us, (k.1.run ps [t]).outcome g = (.ok us, g) := by
  induction ts generalizing rows with
  | nil => exact forall_mem_nil _
  | cons t ts ih =>
    obtain ⟨xs, m, rest, hxs, hrest, -⟩ := of_outcome_both h
    obtain ⟨rfl, ht⟩ := keyObjects_of_ok hkeys hxs
    exact forall_mem_cons.mpr ⟨ht, ih hrest⟩

end Process

namespace Traversal

theorem run_order (ps : Parameters) (hne : keys ≠ [])
    (hsteps : Forall₂ (fun s k => s.sortKey? = some k) steps keys) :
    ∃ ms, run ps (.order :: steps) = (Process.order ms).andThen (fun ts => return ts) ∧
      sortKeys ms = keys.map fun k => (some (k.1.run ps), k.2) := by
  obtain ⟨ms, hms, hkeys⟩ := Step.modulate_sortKeys ps hsteps
  have hnil : ms ≠ [] := fun h => hne (map_eq_nil_iff.mp (hkeys.symm.trans (h ▸ rfl)))
  refine ⟨ms, run_modulated rfl hms, ?_⟩
  rw [sortKeys, if_neg (by simpa using hnil), hkeys, map_map]
  rfl

theorem order_outcome (hne : keys ≠ [])
    (hsteps : Forall₂ (fun s k => s.sortKey? = some k) steps keys)
    (hruns : ∀ t ∈ ts, ∀ k ∈ keys, ∃ us, (k.1.run ps [t]).outcome g = (.ok us, g)) :
    (run ps (.order :: steps) ts).outcome g =
      (.ok (Sorting.sort (fun t u => orderKeys (keysOf ps g keys t) (keysOf ps g keys u)) ts),
        g) := by
  obtain ⟨ms, hms, hkeys⟩ := run_order ps hne hsteps
  rw [hms, andThen, Process.order, hkeys, bind_assoc, outcome_bind_ok (withKeys_outcome hruns),
    Sorting.sort_map, map_map]
  exact congrArg (fun us => (Except.ok us, g)) (map_id _)

theorem order_of_ok (hne : keys ≠ []) (hsteps : Forall₂ (fun s k => s.sortKey? = some k) steps keys)
    (hkeys : ∀ k ∈ keys, k.1.ReadsOnly fun _ => true)
    (hrun : (run ps (.order :: steps) ts).outcome g = (.ok us, g')) :
    us = Sorting.sort (fun t u => orderKeys (keysOf ps g keys t) (keysOf ps g keys u)) ts := by
  obtain ⟨ms, hms, hsort⟩ := run_order ps hne hsteps
  obtain ⟨ws, m, hws, -⟩ := of_outcome_bind (hms ▸ hrun)
  obtain ⟨rows, m', hrows, -⟩ := of_outcome_bind hws
  rw [hsort] at hrows
  cases hrun.symm.trans (order_outcome hne hsteps (withKeys_of_ok hkeys hrows))
  rfl

end Traversal

/-- **Streams are sorted by their keys, stably.** The step leads to the rows that it is given. The
first key that tells two of them apart, if any does, says that the one in front is smaller, or
greater where the key is descending. Rows that no key tells apart stay in their order. A key that
leads nowhere is null. -/
theorem order_sorts_stably (hne : keys ≠ [])
    (hsteps : Forall₂ (fun s k => s.sortKey? = some k) steps keys)
    (hruns : ∀ t ∈ ts, ∀ k ∈ keys, ∃ us, (k.1.run ps [t]).outcome g = (.ok us, g))
    (hfloat : ∀ t ∈ ts, ∀ k ∈ keys, (k.1.firstObject ps g t).Floatless) :
    let difference? := Process.difference? (fun f t => Traversal.firstObject ps g t f) keys
    ∃ us, (Traversal.run ps (.order :: steps) ts).outcome g = (.ok us, g) ∧ us.Perm ts ∧
      us.Pairwise (fun t u => difference? t u ≠ some .gt) ∧
      ∀ t ∈ ts, us.filter (fun u => difference? t u = none) =
        ts.filter fun u => difference? t u = none := by
  intro difference?
  have hcomposes {s t u : Traverser} (hs : s ∈ ts) (ht : t ∈ ts) (hu : u ∈ ts) :=
    orderKeys_composes (x := fun f t => firstObject ps g t f) (hfloat s hs)
      (hfloat t ht) (hfloat u hu)
  refine ⟨_, Traversal.order_outcome hne hsteps hruns, Sorting.sort_perm ts, ?sorted,
    fun t ht => ?stable⟩
  case sorted =>
    refine (Sorting.sort_pairwise (orderKeys_swap _ keys) fun s hs t ht u hu =>
      (hcomposes hs ht hu).le).imp fun hle hgt => hle ?_
    rw [orderKeys_keyed]
    exact congrArg (Option.getD · .eq) hgt
  case stable =>
    refine Sorting.filter_sort_members fun u hu v hv hut hvt => ?_
    have hut := (difference?_eq_none _ keys).mp (of_decide_eq_true hut)
    have hvt := (difference?_eq_none _ keys).mp (of_decide_eq_true hvt)
    have htu := (orderKeys_swap _ keys t u).trans (congrArg Ordering.swap hut)
    rw [(hcomposes hu ht hv).left htu, hvt]
    exact Ordering.noConfusion

theorem greater_number_first :
    let rows : List Traverser := [⟨.int 1, [], none⟩, ⟨.int 2, [("x", .null)], none⟩]
    (Traversal.run [] [.order, .byOrder [] .desc] rows).outcome .modern =
      (.ok rows.reverse, .modern) ∧ rows.reverse.Perm rows := by
  intro rows
  let keys : List (Traversal × SortOrder) := [([], .desc)]
  have hsteps : Forall₂ (fun s k => Step.sortKey? s = some k) [.byOrder [] .desc] keys :=
    .cons rfl .nil
  have hruns : ∀ t ∈ rows, ∀ k ∈ keys, ∃ us,
      (run [] k.1 [t]).outcome .modern = (.ok us, .modern) :=
    fun t _ => forall_mem_singleton.mpr ⟨[t], rfl⟩
  have hfloat : ∀ t ∈ rows, ∀ k ∈ keys, (firstObject [] .modern t k.1).Floatless :=
    forall_mem_cons.mpr ⟨forall_mem_singleton.mpr rfl,
      forall_mem_singleton.mpr (forall_mem_singleton.mpr rfl)⟩
  obtain ⟨us, hrun, hperm, -⟩ := order_sorts_stably (cons_ne_nil _ _) hsteps hruns hfloat
  obtain rfl : rows.reverse = us := Except.ok.inj (congrArg Prod.fst hrun)
  exact ⟨hrun, hperm⟩

end CypherTraversal
