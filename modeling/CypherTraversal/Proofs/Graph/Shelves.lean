import CypherTraversal.Proofs.Graph.Calls
import Mathlib.Data.List.Nodup

/-! # Shelves of a graph

A graph keeps its vertices and its edges on two shelves. What is said of adding elements and of
setting their properties is the same for both: a new element stands behind those that were there,
and a property changes one element where it stands and nothing else. -/

namespace CypherTraversal

open List

namespace Graph

def properties? (g : Graph) : Object → Option (Entries Value)
  | .vertex v => (g.vertex? v).map Vertex.properties
  | .edge e => (g.edge? e).map Edge.properties
  | _ => none

theorem run_changes (f : Traversal) (ps : Parameters) (ts : List Traverser) (g : Graph) :
    Changes g ((f.run ps ts).outcome g).2 := by
  have hplaced (t : Traversal) : t.Placed fun _ => True := .inr fun _ => trivial
  have hkeeps : (f.run ps).Keeps (Changes g) fun _ => True :=
    Step.run_keeps (changes_kept g) (fun _ _ => trivial) f
      (fun s _ => ⟨windowsFail_true ps s, fun _ _ _ _ _ => trivial, fun t _ => hplaced t⟩)
      (hplaced f)
  exact (hkeeps ts fun _ _ => trivial).kept .refl

/-- Identifiers have not run out. -/
structure InSpan (g : Graph) : Prop where
  vertices : g.vertices.length < IdSource.span
  edges : g.edges.length < IdSource.span

theorem InSpan.of_changes {g h : Graph} (hh : h.InSpan) (hc : Changes g h) : g.InSpan := by
  have hvertices := hc.growsTo.vertices.length_le
  have hedges := hc.growsTo.edges.length_le
  rw [length_map, length_map] at hvertices hedges
  exact ⟨Nat.lt_of_le_of_lt hvertices hh.vertices, Nat.lt_of_le_of_lt hedges hh.edges⟩

structure Within (g h : Graph) : Prop where
  vertices : g.vertices <+: h.vertices
  edges : g.edges <+: h.edges

namespace Within

variable {f g h : Graph}

theorem refl (g : Graph) : g.Within g :=
  ⟨prefix_rfl, prefix_rfl⟩

theorem trans (hf : f.Within g) (hg : g.Within h) : f.Within h :=
  ⟨hf.vertices.trans hg.vertices, hf.edges.trans hg.edges⟩

theorem properties? (hg : g.Within h) {x : Object} {p : Entries Value}
    (hx : g.properties? x = some p) : h.properties? x = some p := by
  cases x with
  | vertex v =>
    obtain ⟨w, hw, rfl⟩ := Option.map_eq_some_iff.mp hx
    exact Option.map_eq_some_iff.mpr ⟨w, hg.vertices.find?_eq_some hw, rfl⟩
  | edge e =>
    obtain ⟨w, hw, rfl⟩ := Option.map_eq_some_iff.mp hx
    exact Option.map_eq_some_iff.mpr ⟨w, hg.edges.find?_eq_some hw, rfl⟩
  | _ => cases hx

theorem isSome (hg : g.Within h) {x : Object} (hx : (g.properties? x).isSome) :
    (h.properties? x).isSome := by
  obtain ⟨p, hp⟩ := Option.isSome_iff_exists.mp hx
  rw [hg.properties? hp]
  rfl

end Within

variable {α ι : Type} [DecidableEq ι] {key : α → ι} {done rest : List α} {a : α}

theorem update_append (f : α → α) (hdone : ∀ d ∈ done, key d ≠ key a) :
    update key (key a) f (done ++ a :: rest) = done ++ f a :: rest := by
  induction done with
  | nil => exact if_pos rfl
  | cons d done ih =>
    obtain ⟨hd, hdone⟩ := forall_mem_cons.mp hdone
    rw [cons_append, update, if_neg hd, ih hdone, cons_append]

theorem find?_append_cons (hdone : ∀ d ∈ done, key d ≠ key a) :
    (done ++ a :: rest).find? (fun b => key b = key a) = some a := by
  have hnone : done.find? (fun b => key b = key a) = none :=
    find?_eq_none.mpr fun d hd => by simpa using hdone d hd
  rw [find?_append, hnone, Option.none_or]
  exact find?_cons_of_pos (by simp)

end Graph

/-! ### Shelves -/

structure Shelf (α β : Type) where
  held : Graph → List α
  others : Graph → β
  object : α → Object
  properties : α → Entries Value
  fill : Entries Value → α → α
  object_fill : ∀ p a, object (fill p a) = object a
  fill_fill : ∀ p q a, fill p (fill q a) = fill p a
  properties_fill : ∀ p a, properties (fill p a) = p
  fill_properties : ∀ a, fill (properties a) a = a
  nodup : ∀ {g : Graph}, g.Sound → g.InSpan → ((held g).map object).Nodup
  within : ∀ {g h : Graph}, held g <+: held h → others h = others g → g.Within h
  shows : ∀ {g : Graph} {done rest : List α} {a : α}, held g = done ++ a :: rest →
    (∀ d ∈ done, object d ≠ object a) → g.properties? (object a) = some (properties a)
  set : ∀ {g h : Graph} {done rest : List α} {a : α} {key : String} {value : Value}
    {t : Traverser} {us : List Traverser}, held g = done ++ a :: rest →
    (∀ d ∈ done, object d ≠ object a) → t.object = object a →
    (Process.setElement key t value).outcome g = (.ok us, h) →
    us = [t] ∧ held h = done ++ fill (setProperty key value (properties a)) a :: rest ∧
      others h = others g

namespace Shelf

open Run

theorem ids_of_objects {α β : Type} {id : α → β} {object : β → Object}
    {done : List α} {a : α} (hdone : ∀ d ∈ done, object (id d) ≠ object (id a)) :
    ∀ d ∈ done, id d ≠ id a :=
  fun d hd heq => hdone d hd (congrArg object heq)

def vertices : Shelf Vertex (List Edge × String) where
  held := Graph.vertices
  others g := (g.edges, g.name)
  object v := .vertex v.id
  properties := Vertex.properties
  fill properties v := { v with properties }
  object_fill _ _ := rfl
  fill_fill _ _ _ := rfl
  properties_fill _ _ := rfl
  fill_properties _ := rfl
  nodup hg hspan := by
    rw [show (fun v : Vertex => Object.vertex v.id) = Object.vertex ∘ Vertex.id from rfl,
      ← List.map_map, hg.vertexIds_eq hspan.vertices, List.map_map]
    refine List.Nodup.map (fun i j hij => ?_) List.nodup_range'
    cases hij
    rfl
  within hheld hothers := ⟨hheld, (Prod.mk.inj hothers).1 ▸ List.prefix_rfl⟩
  shows hheld hdone := by
    rw [Graph.properties?, Graph.vertex?, hheld, Graph.find?_append_cons (ids_of_objects hdone)]
    rfl
  set hheld hdone hobject hrun := by
    obtain ⟨_, _, hgraph, hrun⟩ := of_outcome_bind hrun
    cases hgraph
    rw [hobject] at hrun
    obtain ⟨_, hset, hrun⟩ := of_outcome_ofExcept hrun
    cases Graph.setVertexProperty_eq_ok hset
    cases hrun
    refine ⟨rfl, ?_, rfl⟩
    show Graph.update _ _ _ _ = _
    rw [hheld, Graph.update_append _ (ids_of_objects hdone)]

def edges : Shelf Edge (List Vertex × String) where
  held := Graph.edges
  others g := (g.vertices, g.name)
  object e := .edge e.id
  properties := Edge.properties
  fill properties e := { e with properties }
  object_fill _ _ := rfl
  fill_fill _ _ _ := rfl
  properties_fill _ _ := rfl
  fill_properties _ := rfl
  nodup hg hspan := by
    rw [show (fun e : Edge => Object.edge e.id) = Object.edge ∘ Edge.id from rfl,
      ← List.map_map, hg.edgeIds_eq hspan.edges, List.map_map]
    refine List.Nodup.map (fun i j hij => ?_) List.nodup_range'
    cases hij
    rfl
  within hheld hothers := ⟨(Prod.mk.inj hothers).1 ▸ List.prefix_rfl, hheld⟩
  shows hheld hdone := by
    rw [Graph.properties?, Graph.edge?, hheld, Graph.find?_append_cons (ids_of_objects hdone)]
    rfl
  set hheld hdone hobject hrun := by
    obtain ⟨_, _, hgraph, hrun⟩ := of_outcome_bind hrun
    cases hgraph
    rw [hobject] at hrun
    obtain ⟨_, hset, hrun⟩ := of_outcome_ofExcept hrun
    cases Graph.setEdgeProperty_eq_ok hset
    cases hrun
    refine ⟨rfl, ?_, rfl⟩
    show Graph.update _ _ _ _ = _
    rw [hheld, Graph.update_append _ (ids_of_objects hdone)]

end Shelf
end CypherTraversal
