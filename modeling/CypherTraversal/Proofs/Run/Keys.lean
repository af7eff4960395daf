import CypherTraversal.Proofs.Graph.WellFormed
import CypherTraversal.Proofs.Run.Objects

/-! # Keys of maps

Whether all keys of the maps inside a value, an object, a graph or a traverser pass a test. What
is looked up in a map that passes, and what is made of objects that pass, passes too. -/

namespace CypherTraversal

open List Value

variable {y : Object} {properties : Entries Value} {e : Edge} {entries : List (String × Object)}
  {g' : Graph} {key : String} {v : Value} {x : Object} {ok : String → Bool}

/-! ### Values and objects -/

namespace Value

mutual

/-- All keys of the maps in the value pass. -/
def allKeys (ok : String → Bool) : Value → Bool
  | scalar _ => true
  | list items => itemKeys ok items
  | map entries => entryKeys ok entries

def itemKeys (ok : String → Bool) : List Value → Bool
  | [] => true
  | v :: vs => allKeys ok v && itemKeys ok vs

def entryKeys (ok : String → Bool) : List (String × Value) → Bool
  | [] => true
  | (k, v) :: es => ok k && allKeys ok v && entryKeys ok es

end

theorem allKeys_list_iff {items : List Value} :
    (list items).allKeys ok ↔ ∀ v ∈ items, v.allKeys ok :=
  iff_forall_mem (F := itemKeys ok) rfl fun _ _ => Bool.and_eq_true_iff

theorem allKeys_map_iff {entries : List (String × Value)} :
    (map entries).allKeys ok ↔ ∀ e ∈ entries, ok e.1 ∧ e.2.allKeys ok :=
  iff_forall_mem (F := entryKeys ok) rfl fun _ _ => by simp [entryKeys]

end Value

namespace Object

mutual

def allKeys (ok : String → Bool) : Object → Bool
  | scalar _ | vertex _ | edge _ => true
  | list items => itemKeys ok items
  | map entries => entryKeys ok entries
  | entry k v => allKeys ok k && allKeys ok v
  | groups gs => groupKeys ok gs

def itemKeys (ok : String → Bool) : List Object → Bool
  | [] => true
  | x :: xs => allKeys ok x && itemKeys ok xs

def entryKeys (ok : String → Bool) : List (String × Object) → Bool
  | [] => true
  | (k, x) :: es => ok k && allKeys ok x && entryKeys ok es

def groupKeys (ok : String → Bool) : List (Object × Object) → Bool
  | [] => true
  | (k, v) :: gs => allKeys ok k && allKeys ok v && groupKeys ok gs

end

theorem allKeys_list_iff {items : List Object} :
    (list items).allKeys ok ↔ ∀ x ∈ items, x.allKeys ok :=
  iff_forall_mem (F := itemKeys ok) rfl fun _ _ => Bool.and_eq_true_iff

theorem allKeys_map_iff : (map entries).allKeys ok ↔ ∀ e ∈ entries, ok e.1 ∧ e.2.allKeys ok :=
  iff_forall_mem (F := entryKeys ok) rfl fun _ _ => by simp [entryKeys]

theorem allKeys_entry_iff {k v : Object} :
    (entry k v).allKeys ok ↔ k.allKeys ok ∧ v.allKeys ok := by
  rw [allKeys, Bool.and_eq_true]

theorem allKeys_groups_iff {gs : List (Object × Object)} :
    (groups gs).allKeys ok ↔ ∀ g ∈ gs, g.1.allKeys ok ∧ g.2.allKeys ok :=
  iff_forall_mem (F := groupKeys ok) rfl fun _ _ => by simp [groupKeys]

mutual

theorem allKeys_ofValue : ∀ v : Value, (ofValue v).allKeys ok = v.allKeys ok
  | .scalar _ => rfl
  | .list items => allKeys_ofItems items
  | .map entries => allKeys_ofEntries entries

theorem allKeys_ofItems : ∀ vs : List Value, itemKeys ok (ofItems vs) = Value.itemKeys ok vs
  | [] => rfl
  | v :: vs => by rw [ofItems, itemKeys, Value.itemKeys, allKeys_ofValue v, allKeys_ofItems vs]

theorem allKeys_ofEntries :
    ∀ es : List (String × Value), entryKeys ok (ofEntries es) = Value.entryKeys ok es
  | [] => rfl
  | (k, v) :: es => by
    rw [ofEntries, entryKeys, Value.entryKeys, allKeys_ofValue v, allKeys_ofEntries es]

end

theorem allKeys_of_forall (hok : ∀ k, ok k) (x : Object) : x.allKeys ok := by
  induction x using Object.induction with
  | list xs ih => exact allKeys_list_iff.mpr ih
  | map es ih => exact allKeys_map_iff.mpr fun e he => ⟨hok e.1, ih e he⟩
  | entry k v hk hv => exact allKeys_entry_iff.mpr ⟨hk, hv⟩
  | groups gs ih => exact allKeys_groups_iff.mpr fun g hg => allKeys_entry_iff.mp (ih g hg)
  | _ => rfl

theorem allKeys_find? (h : (map entries).allKeys ok) (hx : Entries.find? key entries = some x) :
    x.allKeys ok :=
  (allKeys_map_iff.mp h _ (Graph.mem_of_find? hx)).2

theorem allKeys_parts (h : x.allKeys ok) (hy : y ∈ Process.parts x) : y.allKeys ok := by
  cases x with
  | list items => exact allKeys_list_iff.mp h y hy
  | map entries =>
    obtain ⟨e, he, rfl⟩ := mem_map.mp hy
    exact allKeys_entry_iff.mpr ⟨rfl, (allKeys_map_iff.mp h e he).2⟩
  | groups gs =>
    obtain ⟨g, hg, rfl⟩ := mem_map.mp hy
    exact allKeys_entry_iff.mpr (allKeys_groups_iff.mp h g hg)
  | scalar s =>
    cases s with
    | null => cases hy
    | _ => exact mem_singleton.mp hy ▸ h
  | vertex v | edge e | entry k v => exact mem_singleton.mp hy ▸ h

theorem allKeys_sides? {c : Column} (h : x.allKeys ok)
    (hy : Process.sides? c x = some y) : y.allKeys ok := by
  have hside {k v : Object} (hk : k.allKeys ok) (hv : v.allKeys ok) :
      (Process.side c k v).allKeys ok := by
    cases c with
    | keys => exact hk
    | values => exact hv
  cases x with
  | entry k v =>
    cases hy
    exact hside (allKeys_entry_iff.mp h).1 (allKeys_entry_iff.mp h).2
  | groups gs =>
    cases hy
    refine allKeys_list_iff.mpr fun z hz => ?_
    obtain ⟨g, hg, rfl⟩ := mem_map.mp hz
    exact hside (allKeys_groups_iff.mp h g hg).1 (allKeys_groups_iff.mp h g hg).2
  | map entries =>
    cases hy
    refine allKeys_list_iff.mpr fun z hz => ?_
    obtain ⟨e, he, rfl⟩ := mem_map.mp hz
    exact hside rfl (allKeys_map_iff.mp h e he).2
  | _ => cases hy

end Object

theorem Value.allKeys_of_forall (hok : ∀ k, ok k) (v : Value) : v.allKeys ok :=
  (Object.allKeys_ofValue v).symm.trans (Object.allKeys_of_forall hok (.ofValue v))

/-! ### Entries -/

namespace Entries

variable {α : Type} {key : String} {v : α} {e : String × α} {entries : Entries α}

theorem mem_insert (h : e ∈ insert key v entries) : e = (key, v) ∨ e ∈ entries := by
  induction entries with
  | nil => exact .inl (mem_singleton.mp h)
  | cons d rest ih =>
    obtain ⟨k, w⟩ := d
    rw [insert] at h
    split at h
    · rcases mem_cons.mp h with h | h
      · exact .inl h
      · exact .inr (mem_cons_of_mem _ h)
    · split at h
      · exact mem_cons.mp h
      · rcases mem_cons.mp h with rfl | h
        · exact .inr mem_cons_self
        · exact (ih h).imp_right (mem_cons_of_mem _)

theorem erase_sublist (key : String) (entries : Entries α) : erase key entries <+ entries := by
  induction entries with
  | nil => exact nil_sublist _
  | cons d rest ih =>
    rw [erase]
    split
    · exact sublist_cons_self d rest
    · exact ih.cons_cons d

theorem mem_erase (h : e ∈ erase key entries) : e ∈ entries :=
  (erase_sublist key entries).subset h

theorem find?_insert_self : find? key (insert key v entries) = some v := by
  induction entries with
  | nil => exact if_pos rfl
  | cons d rest ih =>
    obtain ⟨k, w⟩ := d
    rw [insert]
    split
    · exact if_pos rfl
    · rename_i hne
      split
      · exact if_pos rfl
      · rw [find?, if_neg (Ne.symm hne), ih]

theorem find?_insert_of_ne {other : String} (h : other ≠ key) :
    find? other (insert key v entries) = find? other entries := by
  induction entries with
  | nil => exact if_neg h.symm
  | cons d rest ih =>
    obtain ⟨k, w⟩ := d
    rw [insert]
    split
    · rename_i heq
      rw [find?, find?, if_neg h.symm, if_neg (heq ▸ h.symm)]
    · split
      · rw [find?, if_neg h.symm]
      · rw [find?, find?, ih]

theorem mem_foldl_insert {pairs : List (String × α)} {acc : Entries α}
    (h : e ∈ pairs.foldl (fun entries p => insert p.1 p.2 entries) acc) : e ∈ pairs ∨ e ∈ acc := by
  induction pairs generalizing acc with
  | nil => exact .inr h
  | cons p pairs ih =>
    rcases ih h with h | h
    · exact .inl (mem_cons_of_mem _ h)
    · rcases mem_insert h with rfl | h
      · exact .inl mem_cons_self
      · exact .inr h

theorem mem_ofList {pairs : List (String × α)} (h : e ∈ ofList pairs) : e ∈ pairs := by
  rcases mem_foldl_insert h with h | h
  · exact h
  · cases h

theorem find?_foldl_insert {pairs : List (String × α)} {acc : Entries α}
    (h : key ∈ pairs.map Prod.fst ∨ ∃ w, find? key acc = some w) :
    ∃ w, find? key (pairs.foldl (fun entries p => insert p.1 p.2 entries) acc) = some w := by
  induction pairs generalizing acc with
  | nil =>
    rcases h with h | h
    · cases h
    · exact h
  | cons p pairs ih =>
    refine ih ?_
    by_cases hp : key = p.1
    · exact .inr ⟨p.2, hp ▸ find?_insert_self⟩
    · rcases h with h | ⟨w, hw⟩
      · rcases mem_cons.mp h with h | h
        · exact absurd h hp
        · exact .inl h
      · exact .inr ⟨w, by rw [find?_insert_of_ne hp, hw]⟩

theorem exists_find?_ofList {pairs : List (String × α)} (h : key ∈ pairs.map Prod.fst) :
    ∃ w, find? key (ofList pairs) = some w ∧ (key, w) ∈ pairs := by
  obtain ⟨w, hw⟩ : ∃ w, find? key (ofList pairs) = some w := find?_foldl_insert (.inl h)
  exact ⟨w, hw, mem_ofList (Graph.mem_of_find? hw)⟩

/-- The keys increase strictly: the order in which a map is kept. -/
def Increasing (entries : Entries α) : Prop :=
  entries.Pairwise fun d e => d.1 < e.1

theorem Increasing.insert (h : Increasing entries) : Increasing (insert key v entries) := by
  induction entries with
  | nil => exact pairwise_singleton _ _
  | cons d rest ih =>
    obtain ⟨k, w⟩ := d
    obtain ⟨hfirst, hrest⟩ := pairwise_cons.mp h
    rw [Entries.insert]
    split
    · rename_i hkey
      exact pairwise_cons.mpr ⟨fun e he => hkey ▸ hfirst e he, hrest⟩
    · rename_i hne
      split
      · rename_i hlt
        exact pairwise_cons.mpr
          ⟨forall_mem_cons.mpr ⟨hlt, fun e he => String.lt_trans hlt (hfirst e he)⟩, h⟩
      · rename_i hle
        refine pairwise_cons.mpr ⟨fun e he => ?_, ih hrest⟩
        rcases mem_insert he with rfl | he
        · exact Decidable.byContradiction fun hge =>
            hne (String.le_antisymm (String.not_lt.mp hge) (String.not_lt.mp hle))
        · exact hfirst e he

theorem Increasing.erase (h : Increasing entries) : Increasing (erase key entries) :=
  h.sublist (erase_sublist key entries)

/-- **However a map is put together, its keys increase.** -/
theorem increasing_ofList (pairs : List (String × α)) : Increasing (ofList pairs) :=
  foldlRecOn pairs _ Pairwise.nil fun _ h _ _ => h.insert

end Entries

/-! ### Graphs and traversers -/

def propertyKeys (ok : String → Bool) (properties : Entries Value) : Bool :=
  (Value.map properties).allKeys ok

def Graph.AllKeys (ok : String → Bool) (g : Graph) : Prop :=
  (∀ v ∈ g.vertices, propertyKeys ok v.properties) ∧ ∀ e ∈ g.edges, propertyKeys ok e.properties

instance (g : Graph) : Decidable (g.AllKeys ok) :=
  inferInstanceAs (Decidable (_ ∧ _))

theorem Graph.AllKeys.of_forall (hok : ∀ k, ok k) (g : Graph) : g.AllKeys ok :=
  ⟨fun _ _ => allKeys_of_forall hok _, fun _ _ => allKeys_of_forall hok _⟩

theorem Graph.AllKeys.property? {g : Graph} (h : g.AllKeys ok) (hv : g.property? key x = some v) :
    v.allKeys ok := by
  cases x with
  | vertex id =>
    obtain ⟨w, hw, hv⟩ := Option.bind_eq_some_iff.mp hv
    have hkeys := h.1 w (mem_of_find?_eq_some hw)
    exact (allKeys_map_iff.mp hkeys _ (Graph.mem_of_find? hv)).2
  | edge id =>
    obtain ⟨w, hw, hv⟩ := Option.bind_eq_some_iff.mp hv
    have hkeys := h.2 w (mem_of_find?_eq_some hw)
    exact (allKeys_map_iff.mp hkeys _ (Graph.mem_of_find? hv)).2
  | _ => cases hv

structure Traverser.AllKeys (ok : String → Bool) (t : Traverser) : Prop where
  object : t.object.allKeys ok
  path : ∀ l ∈ t.path, l.2.allKeys ok

namespace Traverser.AllKeys

variable {t : Traverser}

theorem of_forall (hok : ∀ k, ok k) (t : Traverser) : t.AllKeys ok :=
  ⟨Object.allKeys_of_forall hok _, fun _ _ => Object.allKeys_of_forall hok _⟩

theorem moveTo (h : t.AllKeys ok) (hx : x.allKeys ok) : (t.moveTo x).AllKeys ok :=
  ⟨hx, h.path⟩

theorem mark (h : t.AllKeys ok) (l : String) : (t.mark l).AllKeys ok :=
  ⟨h.object, forall_mem_cons.mpr ⟨h.object, h.path⟩⟩

theorem fresh (hx : x.allKeys ok) : Traverser.AllKeys ok { object := x } :=
  ⟨hx, forall_mem_nil _⟩

theorem labelled? (h : t.AllKeys ok) {l : String} (hx : t.labelled? l = some x) : x.allKeys ok := by
  obtain ⟨l₁, l₂, hpath, -⟩ := lookup_eq_some_iff.mp hx
  exact h.path (l, x) (hpath ▸ mem_append_right _ mem_cons_self)

end Traverser.AllKeys

/-! ### Changes to a graph -/

def exportKeys : List String :=
  ["_type", "_id", "_label", "_outV", "_inV", "key", "value"]

theorem propertyKeys_insert (h : propertyKeys ok properties)
    (hkey : ok key) (hv : v.allKeys ok) : propertyKeys ok (properties.insert key v) := by
  refine allKeys_map_iff.mpr fun e he => ?_
  rcases Entries.mem_insert he with rfl | he
  · exact ⟨hkey, hv⟩
  · exact allKeys_map_iff.mp h e he

theorem propertyKeys_set (h : propertyKeys ok properties)
    (hkey : ok key) (hv : v.allKeys ok) : propertyKeys ok (setProperty key v properties) := by
  unfold setProperty
  split
  · exact allKeys_map_iff.mpr fun e he =>
      allKeys_map_iff.mp h e (Entries.mem_erase he)
  · exact propertyKeys_insert h hkey hv

section Exported

variable (hok : ∀ k ∈ exportKeys, ok k)

include hok

theorem Vertex.allKeys_toValue {v : Vertex} (h : propertyKeys ok v.properties) :
    v.toValue.allKeys ok := by
  have htype := propertyKeys_insert h (hok "_type" (by decide)) (v := .str "node") rfl
  have hid := propertyKeys_insert htype (hok "_id" (by decide))
    (v := .int (signedIndex v.id.index)) rfl
  exact propertyKeys_insert hid (hok "_label" (by decide)) (v := .str v.label) rfl

theorem Edge.allKeys_toValue (h : propertyKeys ok e.properties) : e.toValue.allKeys ok := by
  have htype := propertyKeys_insert h (hok "_type" (by decide)) (v := .str "relationship") rfl
  have hid := propertyKeys_insert htype (hok "_id" (by decide))
    (v := .int (signedIndex e.id.index)) rfl
  have hlabel := propertyKeys_insert hid (hok "_label" (by decide)) (v := .str e.label) rfl
  have hsource := propertyKeys_insert hlabel (hok "_outV" (by decide))
    (v := .int (signedIndex e.source.index)) rfl
  exact propertyKeys_insert hsource (hok "_inV" (by decide))
    (v := .int (signedIndex e.target.index)) rfl

theorem entryValue_allKeys {k : Value} (hk : k.allKeys ok) (hv : v.allKeys ok) :
    (entryValue k v).allKeys ok := by
  refine allKeys_map_iff.mpr fun e he => ?_
  rcases mem_pair.mp he with rfl | rfl
  · exact ⟨hok "key" (by decide), hk⟩
  · exact ⟨hok "value" (by decide), hv⟩

theorem Object.allKeys_toValue {g : Graph} (hg : g.AllKeys ok) {x : Object} (h : x.allKeys ok) :
    Gives (·.allKeys ok) (x.toValue g) := by
  induction x using Object.induction with
  | scalar s => exact .ok rfl
  | vertex i =>
    rw [toValue]
    split
    · rename_i v hv
      exact .ok (Vertex.allKeys_toValue hok (hg.1 v (mem_of_find?_eq_some hv)))
    · exact .error _
  | edge i =>
    rw [toValue]
    split
    · rename_i e he
      exact .ok (Edge.allKeys_toValue hok (hg.2 e (mem_of_find?_eq_some he)))
    · exact .error _
  | list xs ih =>
    rw [toValue_list]
    have hxs : Gives _ _ := .mapM fun x hx => ih x hx (allKeys_list_iff.mp h x hx)
    exact hxs.bind fun vs hvs => .ok (Value.allKeys_list_iff.mpr hvs)
  | map es ih =>
    rw [toValue_map]
    refine (Gives.mapM fun e he => ?_).bind fun vs hvs => .ok (Value.allKeys_map_iff.mpr hvs)
    obtain ⟨hk, hx⟩ := allKeys_map_iff.mp h e he
    exact (ih e he hx).bind fun v hv => .ok ⟨hk, hv⟩
  | entry k v hk hv =>
    obtain ⟨hkey, hvalue⟩ := allKeys_entry_iff.mp h
    exact (hk hkey).bind fun _ hk => (hv hvalue).bind fun _ hv => .ok (entryValue_allKeys hok hk hv)
  | groups gs ih =>
    rw [toValue_groups]
    have hgs : Gives _ _ := .mapM fun p hp => ih p hp
      (allKeys_entry_iff.mpr (allKeys_groups_iff.mp h p hp))
    exact hgs.bind fun vs hvs => .ok (Value.allKeys_list_iff.mpr hvs)

end Exported

/-! ### Changes of graphs -/

namespace Graph

variable {g : Graph} {id : VertexId}

theorem mem_update {α ι : Type} [DecidableEq ι] {key : α → ι} {id : ι} {f : α → α} {a : α}
    {as : List α} (h : a ∈ update key id f as) : a ∈ as ∨ ∃ b ∈ as, a = f b := by
  induction as with
  | nil => cases h
  | cons b as ih =>
    rw [update] at h
    split at h
    · rcases mem_cons.mp h with rfl | h
      · exact .inr ⟨b, mem_cons_self, rfl⟩
      · exact .inl (mem_cons_of_mem _ h)
    · rcases mem_cons.mp h with rfl | h
      · exact .inl mem_cons_self
      · rcases ih h with h | ⟨u, hu, rfl⟩
        · exact .inl (mem_cons_of_mem _ h)
        · exact .inr ⟨u, mem_cons_of_mem _ hu, rfl⟩

theorem addEdge_eq_ok {label : String} {source target : VertexId}
    {added : Edge × Graph} (h : g.addEdge label source target properties = .ok added) :
    (g.vertex? source).isSome ∧ (g.vertex? target).isSome ∧
      added = g.connect label source target properties := by
  unfold addEdge at h
  split at h
  · cases h
  · rename_i hsource
    split at h
    · cases h
    · rename_i htarget
      cases h
      exact ⟨Option.isSome_iff_ne_none.mpr (by simpa using hsource),
        Option.isSome_iff_ne_none.mpr (by simpa using htarget), rfl⟩

theorem setVertexProperty_eq_ok {value : Value} (h : g.setVertexProperty id key value = .ok g') :
    g' = { g with vertices := g.vertices |> update Vertex.id id fun v =>
      { v with properties := setProperty key value v.properties } } := by
  unfold setVertexProperty at h
  split at h
  · cases h
  · cases h
    rfl

theorem setEdgeProperty_eq_ok {id : EdgeId} {value : Value}
    (h : g.setEdgeProperty id key value = .ok g') :
    g' = { g with edges := g.edges |> update Edge.id id fun e =>
      { e with properties := setProperty key value e.properties } } := by
  unfold setEdgeProperty at h
  split at h
  · cases h
  · cases h
    rfl

end Graph

namespace Graph.AllKeys

variable {g : Graph}

theorem addVertex (h : g.AllKeys ok) (label : String) : (g.addVertex label []).2.AllKeys ok :=
  ⟨forall_mem_append.mpr ⟨h.1, forall_mem_singleton.mpr rfl⟩, h.2⟩

theorem addEdge (h : g.AllKeys ok) {label : String} {a b : VertexId}
    (he : g.addEdge label a b [] = .ok (e, g')) : g'.AllKeys ok := by
  obtain ⟨-, -, ⟨⟩⟩ := addEdge_eq_ok he
  exact ⟨h.1, forall_mem_append.mpr ⟨h.2, forall_mem_singleton.mpr rfl⟩⟩

variable {key : String} {value : Value} (hkey : ok key) (hvalue : value.allKeys ok)

include hkey hvalue

theorem setVertexProperty (h : g.AllKeys ok) {id : VertexId}
    (hg : g.setVertexProperty id key value = .ok g') : g'.AllKeys ok := by
  obtain rfl := setVertexProperty_eq_ok hg
  refine ⟨fun v hv => ?_, h.2⟩
  rcases mem_update hv with hv | ⟨w, hw, rfl⟩
  · exact h.1 v hv
  · exact propertyKeys_set (h.1 w hw) hkey hvalue

theorem setEdgeProperty (h : g.AllKeys ok) {id : EdgeId}
    (hg : g.setEdgeProperty id key value = .ok g') : g'.AllKeys ok := by
  obtain rfl := setEdgeProperty_eq_ok hg
  refine ⟨h.1, fun e he => ?_⟩
  rcases mem_update he with he | ⟨d, hd, rfl⟩
  · exact h.2 e he
  · exact propertyKeys_set (h.2 d hd) hkey hvalue

end Graph.AllKeys

end CypherTraversal
