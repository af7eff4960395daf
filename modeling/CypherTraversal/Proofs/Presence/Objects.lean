import CypherTraversal.Proofs.Graph.Calls

/-! # Elements that are there

An object is present in a graph if every vertex and every edge that it is made of is an element of
the graph; a traverser is present if its object, the objects on its path and the vertex from which
it entered an edge are. Graphs only grow, so what is present stays present over every change, and an
object that is present can be exported. -/

namespace CypherTraversal

open List

namespace Graph

/-- Edges have their ends. -/
def Closed (g : Graph) : Prop :=
  ∀ e ∈ g.edges, (g.vertex? e.source).isSome ∧ (g.vertex? e.target).isSome

instance (g : Graph) : Decidable g.Closed :=
  inferInstanceAs (Decidable (∀ e ∈ g.edges, _))

theorem edge?_isSome_iff {g : Graph} {id : EdgeId} :
    (g.edge? id).isSome ↔ ∃ e ∈ g.edges, e.id = id := by
  simp [edge?]

theorem GrowsTo.edge? {g h : Graph} (hg : g.GrowsTo h) {id : EdgeId}
    (hid : (g.edge? id).isSome) : (h.edge? id).isSome := by
  obtain ⟨e, he, rfl⟩ := edge?_isSome_iff.mp hid
  obtain ⟨d, hd, heq⟩ := mem_map.mp (hg.edges.subset (mem_map_of_mem he))
  exact edge?_isSome_iff.mpr ⟨d, hd, congrArg Prod.fst heq⟩

theorem Closed.change {g h : Graph} (hg : g.Closed) (hc : Change g h) : h.Closed := by
  have hends : ∀ e ∈ g.edges, (h.vertex? e.source).isSome ∧ (h.vertex? e.target).isSome :=
    fun e he => ⟨hc.growsTo.vertex? (hg e he).1, hc.growsTo.vertex? (hg e he).2⟩
  cases hc with
  | addVertex label pairs => exact hends
  | addEdge pairs hadd =>
    obtain ⟨hsource, htarget, rfl⟩ := addEdge_eq_ok hadd
    exact forall_mem_append.mpr ⟨hends, forall_mem_singleton.mpr ⟨hsource, htarget⟩⟩
  | setVertexProperty hset =>
    obtain rfl := setVertexProperty_eq_ok hset
    exact hends
  | setEdgeProperty hset =>
    obtain rfl := setEdgeProperty_eq_ok hset
    intro e he
    rcases mem_update he with he | ⟨d, hd, rfl⟩
    · exact hends e he
    · exact hends d hd

theorem Closed.changes {g h : Graph} (hg : g.Closed) (hc : Changes g h) : h.Closed := by
  induction hc with
  | refl => exact hg
  | tail _ hstep ih => exact ih.change hstep

end Graph

/-! ### Objects -/

inductive Object.PresentIn (g : Graph) : Object → Prop
  | scalar (s : Scalar) : PresentIn g (.scalar s)
  | vertex {v : VertexId} (h : (g.vertex? v).isSome) : PresentIn g (.vertex v)
  | edge {e : EdgeId} (h : (g.edge? e).isSome) : PresentIn g (.edge e)
  | list {items : List Object} (h : ∀ x ∈ items, PresentIn g x) : PresentIn g (.list items)
  | map {entries : List (String × Object)} (h : ∀ p ∈ entries, PresentIn g p.2) :
    PresentIn g (.map entries)
  | entry {k v : Object} (hk : PresentIn g k) (hv : PresentIn g v) : PresentIn g (.entry k v)
  | groups {gs : List (Object × Object)} (hk : ∀ p ∈ gs, PresentIn g p.1)
      (hv : ∀ p ∈ gs, PresentIn g p.2) : PresentIn g (.groups gs)

namespace Object

variable {g h : Graph} {x y : Object}

theorem PresentIn.changes (hx : x.PresentIn g) (hc : Graph.Changes g h) : x.PresentIn h := by
  induction hx with
  | scalar s => exact .scalar s
  | vertex hv => exact .vertex (hc.growsTo.vertex? hv)
  | edge he => exact .edge (hc.growsTo.edge? he)
  | list _ ih => exact .list ih
  | map _ ih => exact .map ih
  | entry _ _ ihk ihv => exact .entry ihk ihv
  | groups _ _ ihk ihv => exact .groups ihk ihv

theorem presentIn_ofValue (v : Value) : (ofValue v).PresentIn g := by
  induction v using Value.induction with
  | scalar s => exact .scalar s
  | list vs ih =>
    rw [ofValue, ofItems_eq_map]
    exact .list (forall_mem_map.mpr ih)
  | map es ih =>
    rw [ofValue, ofEntries_eq_map]
    exact .map (forall_mem_map.mpr ih)

theorem PresentIn.parts (hx : x.PresentIn g) (hy : y ∈ Process.parts x) : y.PresentIn g := by
  cases hx with
  | scalar s =>
    cases s with
    | null => cases hy
    | _ => exact mem_singleton.mp hy ▸ .scalar _
  | vertex hv => exact mem_singleton.mp hy ▸ .vertex hv
  | edge he => exact mem_singleton.mp hy ▸ .edge he
  | list hitems => exact hitems y hy
  | map hentries =>
    obtain ⟨p, hp, rfl⟩ := mem_map.mp hy
    exact .entry (.scalar _) (hentries p hp)
  | entry hk hv => exact mem_singleton.mp hy ▸ .entry hk hv
  | groups hk hv =>
    obtain ⟨p, hp, rfl⟩ := mem_map.mp hy
    exact .entry (hk p hp) (hv p hp)

theorem PresentIn.side {k v : Object} (hk : k.PresentIn g) (hv : v.PresentIn g) (c : Column) :
    (Process.side c k v).PresentIn g := by
  cases c with
  | keys => exact hk
  | values => exact hv

theorem PresentIn.sides? {c : Column} (hx : x.PresentIn g) (hy : Process.sides? c x = some y) :
    y.PresentIn g := by
  cases hx with
  | map hentries =>
    cases hy
    exact .list (forall_mem_map.mpr fun p hp => .side (.scalar _) (hentries p hp) c)
  | entry hk hv =>
    cases hy
    exact .side hk hv c
  | groups hk hv =>
    cases hy
    exact .list (forall_mem_map.mpr fun p hp => .side (hk p hp) (hv p hp) c)
  | _ => cases hy

theorem PresentIn.find? {entries : List (String × Object)} (hx : (Object.map entries).PresentIn g)
    {key : String} (hy : Entries.find? key entries = some y) : y.PresentIn g := by
  cases hx with
  | map hentries => exact hentries _ (Graph.mem_of_find? hy)

/-! ### Exports -/

theorem exists_toValue_entry {k v : Object} (hk : ∃ w, k.toValue g = .ok w)
    (hv : ∃ w, v.toValue g = .ok w) : ∃ w, (entry k v).toValue g = .ok w := by
  obtain ⟨key, hkey⟩ := hk
  obtain ⟨value, hvalue⟩ := hv
  exact ⟨entryValue key value, bind_eq_ok.mpr ⟨key, hkey, bind_eq_ok.mpr ⟨value, hvalue, rfl⟩⟩⟩

theorem PresentIn.exists_toValue (hx : x.PresentIn g) : ∃ v, x.toValue g = .ok v := by
  induction hx with
  | scalar s => exact ⟨.scalar s, rfl⟩
  | @vertex v hv =>
    obtain ⟨w, hw⟩ := Option.isSome_iff_exists.mp hv
    exact ⟨w.toValue, by rw [toValue, hw]⟩
  | @edge e he =>
    obtain ⟨d, hd⟩ := Option.isSome_iff_exists.mp he
    exact ⟨d.toValue, by rw [toValue, hd]⟩
  | list _ ih =>
    obtain ⟨vs, hvs⟩ := exists_mapM_eq_ok ih
    rw [toValue_list]
    exact ⟨.list vs, bind_eq_ok.mpr ⟨vs, hvs, rfl⟩⟩
  | map _ ih =>
    rw [toValue_map]
    refine (exists_mapM_eq_ok fun e he => ?_).elim fun vs hvs =>
      ⟨.map vs, bind_eq_ok.mpr ⟨vs, hvs, rfl⟩⟩
    obtain ⟨v, hv⟩ := ih e he
    exact ⟨(e.1, v), bind_eq_ok.mpr ⟨v, hv, rfl⟩⟩
  | entry _ _ ihk ihv => exact exists_toValue_entry ihk ihv
  | groups _ _ ihk ihv =>
    obtain ⟨vs, hvs⟩ := exists_mapM_eq_ok fun p hp => exists_toValue_entry (ihk p hp) (ihv p hp)
    rw [toValue_groups]
    exact ⟨.list vs, bind_eq_ok.mpr ⟨vs, hvs, rfl⟩⟩

end Object

/-! ### Traversers -/

/-- All elements that the row holds are in the graph. -/
structure Traverser.PresentIn (g : Graph) (t : Traverser) : Prop where
  object : t.object.PresentIn g
  path : ∀ l ∈ t.path, l.2.PresentIn g
  origin : ∀ v, t.origin = some v → (g.vertex? v).isSome

namespace Traverser.PresentIn

variable {g h : Graph} {t : Traverser}

theorem changes (ht : t.PresentIn g) (hc : Graph.Changes g h) : t.PresentIn h :=
  ⟨ht.object.changes hc, fun l hl => (ht.path l hl).changes hc,
    fun v hv => hc.growsTo.vertex? (ht.origin v hv)⟩

theorem fresh {x : Object} (hx : x.PresentIn g) : PresentIn g { object := x } :=
  ⟨hx, forall_mem_nil _, fun _ hv => by cases hv⟩

theorem moveTo (ht : t.PresentIn g) {x : Object} (hx : x.PresentIn g) :
    (t.moveTo x).PresentIn g :=
  ⟨hx, ht.path, ht.origin⟩

theorem mark (ht : t.PresentIn g) (l : String) : (t.mark l).PresentIn g :=
  ⟨ht.object, forall_mem_cons.mpr ⟨ht.object, ht.path⟩, ht.origin⟩

theorem labelled? (ht : t.PresentIn g) {l : String} {x : Object} (hx : t.labelled? l = some x) :
    x.PresentIn g := by
  obtain ⟨l₁, l₂, hpath, -⟩ := lookup_eq_some_iff.mp hx
  exact ht.path (l, x) (hpath ▸ mem_append_right _ mem_cons_self)

theorem resolve (ht : t.PresentIn g) {ps : Parameters} {o : Operand} {x : Object}
    (hx : o.resolve ps t = .ok x) : x.PresentIn g := by
  cases o with
  | value v =>
    cases hx
    exact Object.presentIn_ofValue v
  | parameter name =>
    obtain ⟨v, -, hx⟩ := bind_eq_ok.mp hx
    cases hx
    exact Object.presentIn_ofValue v
  | label name =>
    cases hx
    cases hl : t.labelled? name with
    | none => exact .scalar .null
    | some y => exact ht.labelled? hl

end Traverser.PresentIn

end CypherTraversal
