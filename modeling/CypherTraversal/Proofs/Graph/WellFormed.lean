import CypherTraversal.Run.Step

/-! # Well-formed graphs

Identifiers are unique, edges have both their ends, and no property is null. -/

namespace CypherTraversal.Graph

open List

variable {g : Graph} {w : Vertex} {x : Edge} {key : String}

def NoNulls (g : Graph) : Prop :=
  (∀ v ∈ g.vertices, ∀ p ∈ v.properties, p.2.isNull = false) ∧
    ∀ e ∈ g.edges, ∀ p ∈ e.properties, p.2.isNull = false

instance (g : Graph) : Decidable g.NoNulls :=
  inferInstanceAs (Decidable (_ ∧ _))

/-- Identifiers are unique and edges have their ends. -/
structure WellFormed (g : Graph) : Prop where
  vertexIds : (g.vertices.map Vertex.id).Nodup
  edgeIds : (g.edges.map Edge.id).Nodup
  ends : ∀ e ∈ g.edges, (g.vertex? e.source).isSome ∧ (g.vertex? e.target).isSome

theorem vertex?_id {v : VertexId} (h : g.vertex? v = some w) : w.id = v := by
  simpa using find?_some h

theorem edge?_id {e : EdgeId} (h : g.edge? e = some x) : x.id = e := by
  simpa using find?_some h

theorem find?_of_nodup_map {α β : Type} [DecidableEq β] {key : α → β} {xs : List α}
    (h : (xs.map key).Nodup) {x : α} (hx : x ∈ xs) :
    xs.find? (fun y => key y = key x) = some x := by
  induction xs with
  | nil => cases hx
  | cons y ys ih =>
    obtain ⟨hy, hys⟩ := nodup_cons.mp h
    rcases mem_cons.mp hx with rfl | hx
    · exact find?_cons_of_pos (by simp)
    · have hne : key y ≠ key x := fun heq => hy (heq ▸ mem_map_of_mem hx)
      rw [find?_cons_of_neg (by simpa using hne)]
      exact ih hys hx

theorem WellFormed.vertex?_of_mem (h : g.WellFormed)
    (hw : w ∈ g.vertices) : g.vertex? w.id = some w :=
  find?_of_nodup_map h.vertexIds hw

theorem WellFormed.edge?_of_mem (h : g.WellFormed) (hx : x ∈ g.edges) :
    g.edge? x.id = some x :=
  find?_of_nodup_map h.edgeIds hx

theorem mem_of_find? {v : α} {entries : Entries α}
    (h : Entries.find? key entries = some v) : (key, v) ∈ entries := by
  induction entries with
  | nil => cases h
  | cons e rest ih =>
    rw [Entries.find?] at h
    split at h
    · rename_i hkey
      cases h
      rw [← hkey]
      exact mem_cons_self
    · exact mem_cons_of_mem e (ih h)

theorem NoNulls.property? (h : g.NoNulls) {x : Object} {v : Value}
    (hv : g.property? key x = some v) : v.isNull = false := by
  cases x with
  | vertex id =>
    obtain ⟨w, hw, hv⟩ := Option.bind_eq_some_iff.mp hv
    exact h.1 w (mem_of_find?_eq_some hw) _ (mem_of_find? hv)
  | edge id =>
    obtain ⟨w, hw, hv⟩ := Option.bind_eq_some_iff.mp hv
    exact h.2 w (mem_of_find?_eq_some hw) _ (mem_of_find? hv)
  | _ => cases hv

end CypherTraversal.Graph
