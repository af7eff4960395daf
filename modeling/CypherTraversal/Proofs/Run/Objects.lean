import CypherTraversal.Proofs.Answers
import CypherTraversal.Run.Export

/-! # Objects and their parts

What passes from the parts of an object to the object holds of all objects. An object is exported
as its parts are, and a value that has become an object is exported as it was. -/

namespace CypherTraversal

open List

theorem Value.induction {P : Value → Prop} (scalar : ∀ s, P (.scalar s))
    (list : ∀ vs, (∀ v ∈ vs, P v) → P (.list vs)) (map : ∀ es, (∀ e ∈ es, P e.2) → P (.map es))
    (v : Value) : P v :=
  @Value.rec P (fun vs => ∀ v ∈ vs, P v) (fun es => ∀ e ∈ es, P e.2) (fun e => P e.2)
    scalar list map (forall_mem_nil _) (fun _ _ hv hvs => forall_mem_cons.mpr ⟨hv, hvs⟩)
    (forall_mem_nil _) (fun _ _ he hes => forall_mem_cons.mpr ⟨he, hes⟩) (fun _ _ hv => hv) v

namespace Object

theorem induction {P : Object → Prop} (scalar : ∀ s, P (.scalar s)) (vertex : ∀ v, P (.vertex v))
    (edge : ∀ e, P (.edge e)) (list : ∀ xs, (∀ x ∈ xs, P x) → P (.list xs))
    (map : ∀ es, (∀ e ∈ es, P e.2) → P (.map es)) (entry : ∀ k v, P k → P v → P (.entry k v))
    (groups : ∀ gs, (∀ g ∈ gs, P (.entry g.1 g.2)) → P (.groups gs)) (x : Object) : P x :=
  @Object.rec P (fun xs => ∀ x ∈ xs, P x) (fun es => ∀ e ∈ es, P e.2)
    (fun gs => ∀ g ∈ gs, P (.entry g.1 g.2)) (fun e => P e.2) (fun g => P (.entry g.1 g.2))
    scalar vertex edge list map entry groups
    (forall_mem_nil _) (fun _ _ hx hxs => forall_mem_cons.mpr ⟨hx, hxs⟩)
    (forall_mem_nil _) (fun _ _ he hes => forall_mem_cons.mpr ⟨he, hes⟩)
    (forall_mem_nil _) (fun _ _ hg hgs => forall_mem_cons.mpr ⟨hg, hgs⟩)
    (fun _ _ hx => hx) (fun k v hk hv => entry k v hk hv) x

theorem ofItems_eq_map (vs : List Value) : ofItems vs = vs.map ofValue :=
  eq_map rfl (fun _ _ => rfl) vs

theorem ofEntries_eq_map (es : List (String × Value)) :
    ofEntries es = es.map fun e => (e.1, ofValue e.2) :=
  eq_map rfl (fun _ _ => rfl) es

/-! ### Exports -/

variable (g : Graph)

theorem toValues_eq_mapM (xs : List Object) : toValues g xs = xs.mapM (toValue g) := by
  induction xs with
  | nil => rfl
  | cons x xs ih => rw [mapM_cons, toValues, ih]

theorem toValue_list (xs : List Object) :
    (list xs).toValue g = xs.mapM (toValue g) >>= fun vs => .ok (.list vs) := by
  rw [toValue, toValues_eq_mapM]
  rfl

theorem toEntries_eq_mapM (es : List (String × Object)) :
    toEntries g es = es.mapM fun e => e.2.toValue g >>= fun v => .ok (e.1, v) := by
  induction es with
  | nil => rfl
  | cons e es ih =>
    rw [mapM_cons, toEntries, ih, bind_assoc]
    rfl

theorem toValue_map (es : List (String × Object)) :
    (map es).toValue g = (es.mapM fun e => e.2.toValue g >>= fun v => .ok (e.1, v)) >>=
      fun vs => .ok (.map vs) := by
  rw [toValue, toEntries_eq_mapM]
  rfl

theorem toValue_groups (gs : List (Object × Object)) :
    (groups gs).toValue g = (gs.mapM fun p => (entry p.1 p.2).toValue g) >>=
      fun vs => .ok (.list vs) := by
  refine congrArg (· >>= _) ?_
  induction gs with
  | nil => rfl
  | cons p gs ih =>
    rw [mapM_cons, groupValues, ih, toValue]
    simp only [bind_assoc, pure_bind]

theorem toValue_ofValue (v : Value) : toValue g (ofValue v) = .ok v := by
  induction v using Value.induction with
  | scalar s => rfl
  | list vs ih =>
    rw [ofValue, ofItems_eq_map, toValue_list]
    exact bind_eq_ok.mpr ⟨vs, mapM_eq_ok.mpr (forall₂_map_left_iff.mpr (forall₂_same.mpr ih)), rfl⟩
  | map es ih =>
    rw [ofValue, ofEntries_eq_map, toValue_map]
    refine bind_eq_ok.mpr ⟨es, mapM_eq_ok.mpr (forall₂_map_left_iff.mpr (forall₂_same.mpr ?_)), rfl⟩
    exact fun e he => bind_eq_ok.mpr ⟨e.2, ih e he, rfl⟩

end Object
end CypherTraversal
