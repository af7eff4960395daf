import CypherTraversal.Proofs.Expressions.Reading
import CypherTraversal.Proofs.Patterns.Places

/-! # Rows of a scope

A row carries the variables in scope as labels of its path. It answers for them a second time where
its object is a map: a name selects the entry of the map first. A row of a scope has both in
agreement, and each variable stands for an object of its kind. -/

namespace CypherTraversal

open Run List

/-! ### Kinds of objects -/

/-- The objects that a variable of a kind can hold. -/
def Kind.describes (k : Kind) (x : Object) : Bool :=
  match k with
  | node => (x matches .vertex _)
  | relationship => (x matches .edge _)
  | map => (x matches .map _)
  | list => (x matches .list _)
  | scalar | aggregate | value => true

def Object.isMap (x : Object) : Bool :=
  x matches .map _

variable {ok : String → Bool} {k : Kind} {x : Object} {bs cs : List Binding} {b : Binding}
  {t u : Traverser} {name : String}

theorem Kind.describes_node (h : node.describes x) : ∃ v, x = .vertex v := by
  cases x with
  | vertex v => exact ⟨v, rfl⟩
  | _ => cases h

theorem Kind.describes_relationship (h : relationship.describes x) : ∃ e, x = .edge e := by
  cases x with
  | edge e => exact ⟨e, rfl⟩
  | _ => cases h

theorem Kind.describes_element (hk : k.isElement) (h : k.describes x) :
    (∃ v, x = .vertex v) ∨ ∃ e, x = .edge e := by
  cases k with
  | node => exact .inl (describes_node h)
  | relationship => exact .inr (describes_relationship h)
  | _ => cases hk

theorem Kind.isMap_of_describes (hk : k.isElement) (h : k.describes x) : x.isMap = false := by
  rcases describes_element hk h with ⟨v, rfl⟩ | ⟨e, rfl⟩
  · rfl
  · rfl

theorem Kind.allKeys_of_describes (hk : k.isElement) (h : k.describes x) : x.allKeys ok := by
  rcases describes_element hk h with ⟨v, rfl⟩ | ⟨e, rfl⟩
  · rfl
  · rfl

theorem Place.selected_of_isMap {p : Place} (h : p.1.isMap = false) (name : String) :
    p.selected name = p.2.lookup name := by
  unfold selected
  split
  · rename_i hmap
    rw [hmap] at h
    cases h
  · rfl

/-! ### Labels -/

def Traverser.Labels (bs : List Binding) (t : Traverser) : Prop :=
  ∀ b ∈ bs, ∃ x, t.labelled? b.name = some x ∧ b.kind.describes x

namespace Traverser.Labels

theorem of_path (h : t.Labels bs) (hpath : u.path = t.path) : u.Labels bs := by
  intro b hb
  unfold labelled?
  rw [hpath]
  exact h b hb

theorem mark (h : t.Labels bs) (hname : name ∉ bs.map Binding.name)
    (hk : k.describes t.object) : (t.mark name).Labels (bs ++ [⟨name, k⟩]) := by
  refine forall_mem_append.mpr ⟨fun b hb => ?_, forall_mem_singleton.mpr ?_⟩
  · have hne : b.name ≠ name := fun heq => hname (heq ▸ mem_map_of_mem hb)
    obtain ⟨x, hx, hdescribes⟩ := h b hb
    refine ⟨x, ?_, hdescribes⟩
    unfold labelled? Traverser.mark
    rw [lookup_cons, beq_false_of_ne hne]
    exact hx
  · exact ⟨t.object, lookup_cons_self, hk⟩

end Traverser.Labels

/-! ### Rows -/

structure Traverser.Row (ok : String → Bool) (bs : List Binding) (t : Traverser) : Prop where
  keys : t.AllKeys ok
  labels : t.Labels bs
  selects : ∀ b ∈ bs, t.place.selected b.name = t.labelled? b.name

structure Traverser.RowAt (ok : String → Bool) (bs : List Binding) (k : Kind) (t : Traverser) :
    Prop extends t.Row ok bs where
  described : k.describes t.object

namespace Traverser.Row

theorem of_labels (hkeys : t.AllKeys ok) (hlabels : t.Labels bs) (hmap : t.object.isMap = false) :
    t.Row ok bs :=
  ⟨hkeys, hlabels, fun b _ => Place.selected_of_isMap (p := t.place) hmap b.name⟩

theorem empty (hkeys : t.AllKeys ok) : t.Row ok [] :=
  ⟨hkeys, forall_mem_nil _, forall_mem_nil _⟩

theorem subset (h : t.Row ok bs) (hcs : ∀ b ∈ cs, b ∈ bs) : t.Row ok cs :=
  ⟨h.keys, fun b hb => h.labels b (hcs b hb), fun b hb => h.selects b (hcs b hb)⟩

theorem goTo (h : t.Row ok bs) (hpath : u.path = t.path) (hk : k.isElement)
    (hu : k.describes u.object) : u.RowAt ok bs k := by
  refine ⟨of_labels ⟨Kind.allKeys_of_describes hk hu, ?_⟩ (h.labels.of_path hpath)
    (Kind.isMap_of_describes hk hu), hu⟩
  rw [hpath]
  exact h.keys.path

theorem selected (h : t.Row ok bs) (hb : b ∈ bs) :
    ∃ x, t.labelled? b.name = some x ∧ t.place.selected b.name = some x ∧ b.kind.describes x := by
  obtain ⟨x, hx, hdescribes⟩ := h.labels b hb
  exact ⟨x, hx, (h.selects b hb).trans hx, hdescribes⟩

end Traverser.Row

theorem Traverser.RowAt.mark (h : t.RowAt ok bs k) (hk : k.isElement)
    (hname : name ∉ bs.map Binding.name) : (t.mark name).RowAt ok (bs ++ [⟨name, k⟩]) k :=
  ⟨.of_labels (h.keys.mark name) (h.labels.mark hname h.described)
    (Kind.isMap_of_describes hk h.described), h.described⟩

/-! ### Maps of rows -/

def Object.MapOf (bs : List Binding) (x : Object) : Prop :=
  ∃ entries, x = .map entries ∧
    ∀ b ∈ bs, ∃ y, Entries.find? b.name entries = some y ∧ b.kind.describes y

structure Traverser.MapRow (ok : String → Bool) (bs : List Binding) (t : Traverser) : Prop where
  keys : t.AllKeys ok
  map : t.object.MapOf bs

abbrev Traversal.Takes (ok : String → Bool) (ps : Parameters) (S T : Traverser → Prop)
    (f : Traversal) : Prop :=
  f.Carries ps (Graph.AllKeys ok) Error.Benign S T

theorem Scope.mem_of_kind? {s : Scope} (h : s.kind? name = some k) : ⟨name, k⟩ ∈ s.bindings := by
  obtain ⟨b, hb, rfl⟩ := Option.map_eq_some_iff.mp h
  obtain rfl : b.name = name := by simpa using find?_some hb
  exact mem_of_find?_eq_some hb

end CypherTraversal
