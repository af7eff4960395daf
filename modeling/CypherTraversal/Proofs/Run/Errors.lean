import CypherTraversal.Proofs.Lowering.Windows
import CypherTraversal.Proofs.Run.Objects
import CypherTraversal.Run.Traversal

/-! # Errors of the parts of steps

What a step is made of fails in few ways: a parameter is missing, an object is not a number, a sum
does not fit, or an element is not in the graph. Windows, the ends of edges and the places of
properties are apart: they have errors of their own. -/

namespace CypherTraversal

open Run List Error

variable {ps : Parameters}

inductive Error.OfObject : Error → Prop
  | notNumber (object : String) : OfObject (.execution (.notNumber object))
  | sumOverflow : OfObject (.execution .sumOverflow)
  | notFound (element : String) : OfObject (.notFound element)

inductive Error.OfPart : Error → Prop
  | missingParameter (name : String) : OfPart (.execution (.missingParameter name))
  | ofObject {e : Error} (h : e.OfObject) : OfPart e

theorem Parameters.value_fails {E : Error → Prop}
    (hE : ∀ name, E (.execution (.missingParameter name))) (ps : Parameters) (name : String) :
    FailsWith E (ps.value name) := by
  unfold Parameters.value
  split
  · exact .ok _
  · exact .error (hE _)

theorem Operand.resolve_failsWith {E : Error → Prop} {o : Operand}
    (h : ∀ name ∈ o.parameters, FailsWith E (ps.value name)) (t : Traverser) :
    FailsWith E (o.resolve ps t) := by
  cases o with
  | value v | label name => exact .ok _
  | parameter name => exact (h name mem_cons_self).bind fun _ => .ok _

theorem Parameters.value_ofPart (ps : Parameters) (name : String) :
    FailsWith OfPart (ps.value name) :=
  ps.value_fails .missingParameter name

theorem Operand.resolve_ofPart (ps : Parameters) (t : Traverser) (o : Operand) :
    FailsWith OfPart (o.resolve ps t) :=
  resolve_failsWith (fun name _ => ps.value_ofPart name) t

theorem Predicate.test_fails {E : Error → Prop} {t : Traverser} {p : Predicate}
    (h : ∀ o ∈ p.operands, FailsWith E (o.resolve ps t)) (x : Object) :
    FailsWith E (p.test ps t x) := by
  cases p with
  | compare c o | within o | text m o => exact (h o mem_cons_self).bind fun _ => .ok _
  | between low high =>
    refine (h low mem_cons_self).bind fun y => ?_
    split
    · exact (h high (mem_cons_of_mem low mem_cons_self)).bind fun _ => .ok _
    · exact .ok _
  | without o =>
    rw [Predicate.test]
    split
    · exact .ok _
    · exact (h o mem_cons_self).bind fun _ => .ok _

theorem Bound.Counts.count_ofPart {n : Bound} (h : n.Counts ps) (clause : String) :
    FailsWith OfPart (n.count ps clause) := by
  have hcount (k : Nat) : FailsWith OfPart ((Value.int k).rowCount clause) :=
    .ok k
  cases n with
  | literal n =>
    obtain ⟨k, rfl⟩ := Int.eq_ofNat_of_zero_le h
    exact hcount k
  | parameter name =>
    unfold Bound.count Parameters.value
    dsimp only
    cases hv : Entries.find? name ps with
    | none => exact FailsWith.error (OfPart.missingParameter name)
    | some v =>
      obtain ⟨k, rfl⟩ := h v hv
      exact hcount k

section Reductions

variable {E : Error → Prop} (hnumber : ∀ object, E (.execution (.notNumber object)))

include hnumber

theorem Process.numbers_fails (xs : List Object) : FailsWith E (numbers xs) := by
  refine .mapM fun x _ => ?_
  split
  · split
    · exact .ok _
    · exact .error (hnumber _)
  · exact .error (hnumber _)

theorem Process.reduce_fails (hsum : E (.execution .sumOverflow)) (r : Reduction)
    (xs : List Object) : FailsWith E (reduce r xs) := by
  cases r with
  | count | min | max => exact .ok _
  | mean =>
    refine (numbers_fails hnumber xs).bind fun ns => ?_
    dsimp only
    split <;> exact .ok _
  | sum =>
    refine (numbers_fails hnumber xs).bind fun ns => ?_
    split
    · exact .ok _
    · refine .bind (.foldlM (fun a b => ?_) ns _) fun _ => .ok _
      unfold addNumbers
      split
      · split
        · exact .ok _
        · exact .error hsum
      · exact .ok _

end Reductions

theorem Process.reduce_ofObject (r : Reduction) (xs : List Object) :
    FailsWith OfObject (reduce r xs) :=
  reduce_fails .notNumber .sumOverflow r xs

namespace Object

variable (g : Graph)

theorem toValue_ofObject (x : Object) : FailsWith OfObject (x.toValue g) := by
  induction x using Object.induction with
  | scalar s => exact .ok _
  | vertex _ | edge _ =>
    rw [toValue]
    split
    · exact .ok _
    · exact .error (.notFound _)
  | list xs ih =>
    rw [toValue_list]
    exact (FailsWith.mapM ih).bind fun _ => .ok _
  | map es ih =>
    rw [toValue_map]
    exact (FailsWith.mapM fun e he => (ih e he).bind fun _ => .ok _).bind fun _ => .ok _
  | entry k v hk hv => exact hk.bind fun _ => hv.bind fun _ => .ok _
  | groups gs ih =>
    rw [toValue_groups]
    exact (FailsWith.mapM ih).bind fun _ => .ok _

theorem toValues_ofObject (xs : List Object) : FailsWith OfObject (toValues g xs) := by
  rw [toValues_eq_mapM]
  exact .mapM fun x _ => x.toValue_ofObject g

end Object

namespace Graph

variable (g : Graph)

theorem addEdge_ofObject (label : String) (a b : VertexId) :
    FailsWith OfObject (g.addEdge label a b []) := by
  unfold addEdge
  split
  · exact .error (.notFound _)
  · split
    · exact .error (.notFound _)
    · exact .ok _

theorem setVertexProperty_ofObject (id : VertexId) (key : String) (v : Value) :
    FailsWith OfObject (g.setVertexProperty id key v) := by
  unfold setVertexProperty
  split
  · exact .error (.notFound _)
  · exact .ok _

theorem setEdgeProperty_ofObject (id : EdgeId) (key : String) (v : Value) :
    FailsWith OfObject (g.setEdgeProperty id key v) := by
  unfold setEdgeProperty
  split
  · exact .error (.notFound _)
  · exact .ok _

end Graph

/-! ### Errors that do not come from objects of the wrong kind

A run fails in one of two places because of the kind of an object: where an end of an edge is no
vertex, and where a property is set on what is no element. -/

def Error.Benign (e : Error) : Prop :=
  (∀ x, e ≠ .execution (.notVertex x)) ∧ ∀ key, e ≠ .execution (.notElement key)

theorem Error.OfObject.benign {e : Error} (h : e.OfObject) : e.Benign := by
  cases h <;> exact ⟨nofun, nofun⟩

theorem FailsWith.benign {α : Type} {r : Except Error α} (h : FailsWith OfObject r) :
    FailsWith Benign r :=
  h.mono fun _ h => h.benign

theorem Error.OfPart.benign {e : Error} (h : e.OfPart) : e.Benign := by
  cases h with
  | missingParameter name => exact ⟨nofun, nofun⟩
  | ofObject h => exact h.benign

theorem Operand.resolve_benign (ps : Parameters) (t : Traverser) (o : Operand) :
    FailsWith Benign (o.resolve ps t) :=
  (o.resolve_ofPart ps t).mono fun _ h => h.benign

theorem Predicate.test_benign (ps : Parameters) (t : Traverser) (x : Object) (p : Predicate) :
    FailsWith Benign (p.test ps t x) :=
  p.test_fails (fun o _ => o.resolve_benign ps t) x

theorem Bound.count_fails {E : Error → Prop} {n : Bound} {clause : String}
    (hvalue : ∀ name ∈ n.parameters, FailsWith E (ps.value name))
    (hrange : ∀ got, E (.range clause got)) : FailsWith E (n.count ps clause) := by
  have hcount (v : Value) : FailsWith E (v.rowCount clause) := by
    obtain ⟨k, -, hk⟩ | hout := v.rowCount_cases clause
    · rw [hk]
      exact .ok k
    · rw [hout]
      exact .error (hrange _)
  cases n with
  | literal n => exact hcount (.int n)
  | parameter name => exact (hvalue name mem_cons_self).bind hcount

theorem Bound.count_benign (ps : Parameters) (clause : String) (n : Bound) :
    FailsWith Benign (n.count ps clause) :=
  count_fails (fun name _ => (ps.value_ofPart name).mono fun _ h => h.benign)
    fun _ => ⟨nofun, nofun⟩

end CypherTraversal
