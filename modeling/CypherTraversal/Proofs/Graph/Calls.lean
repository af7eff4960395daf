import CypherTraversal.Graph.Sample
import CypherTraversal.Proofs.Run.Keeping
import CypherTraversal.Proofs.Run.Keys
import Mathlib.Logic.Relation

/-! # Graphs under calls

Whatever calls a session makes, a graph only grows, its identifiers stay those that were given out
and its edges end at its vertices. -/

namespace CypherTraversal

open List

variable {ids : List Nat} {next : Nat} {properties : Entries Value} {g' : Graph} {key : String}
  {e : Error} {g h : Graph} {id : VertexId} {r : Except Error Graph}

theorem Run.Ensures.kept {I : Graph → Prop} {Q : α → Prop} {E : Error → Prop} {x : Run α}
    (h : x.Ensures I Q E) (hg : I g) : I (x.outcome g).2 := by
  obtain ⟨g', hg', ⟨_, hx, -⟩ | ⟨_, hx, -⟩⟩ := h g hg
  · rwa [hx]
  · rwa [hx]

namespace Graph

/-! ### Changes -/

inductive Change (g : Graph) : Graph → Prop
  | addVertex (label : String) (pairs : List (String × Value)) :
    Change g (g.addVertex label (propertiesOf pairs)).2
  | addEdge {label : String} {source target : VertexId} (pairs : List (String × Value))
      {added : Edge × Graph}
      (h : g.addEdge label source target (propertiesOf pairs) = .ok added) : Change g added.2
  | setVertexProperty {id : VertexId} {key : String} {value : Value} {g' : Graph}
      (h : g.setVertexProperty id key value = .ok g') : Change g g'
  | setEdgeProperty {id : EdgeId} {key : String} {value : Value} {g' : Graph}
      (h : g.setEdgeProperty id key value = .ok g') : Change g g'

def Changes : Graph → Graph → Prop :=
  Relation.ReflTransGen Change

theorem changes_kept (g : Graph) : Kept (Changes g) where
  addVertex label hg := hg.tail (.addVertex label [])
  addEdge hg h := hg.tail (.addEdge [] h)
  setVertexProperty hg h := hg.tail (.setVertexProperty h)
  setEdgeProperty hg h := hg.tail (.setEdgeProperty h)

theorem windowsFail_true (ps : Parameters) (s : Step) : s.WindowsFail ps fun _ => True := by
  cases s with
  | skip n | limit n => exact fun _ _ => trivial
  | range low high => exact ⟨fun _ _ => trivial, fun _ _ => trivial⟩
  | _ => trivial

theorem execute_changes (t : Traversal) (ps : Parameters) (g : Graph) :
    Changes g (t.execute ps g).2 :=
  (Traversal.results_keep (changes_kept g) (fun _ _ => trivial)
    fun s _ => windowsFail_true ps s).kept .refl

/-! ### What a change keeps -/

def Numbered (ids : List Nat) (next : Nat) : Prop :=
  ids = (List.range ids.length).map (fun i => (i + 1) % IdSource.span) ∧
    next = (ids.length + 1) % IdSource.span

instance (ids : List Nat) (next : Nat) : Decidable (Numbered ids next) :=
  inferInstanceAs (Decidable (_ ∧ _))

theorem Numbered.append (h : Numbered ids next) :
    Numbered (ids ++ [next]) ((next + 1) % IdSource.span) := by
  obtain ⟨hids, hnext⟩ := h
  constructor
  · rw [length_append, length_singleton, range_succ, map_append, ← hids, map_singleton, hnext]
  · rw [length_append, length_singleton, hnext, Nat.mod_add_mod]

theorem Numbered.eq_range' (h : Numbered ids next)
    (hlength : ids.length < IdSource.span) : ids = List.range' 1 ids.length := by
  rw [range'_eq_map_range]
  refine h.1.trans (map_congr_left fun i hi => ?_)
  have hi : i < ids.length := mem_range.mp hi
  rw [Nat.mod_eq_of_lt (by omega), Nat.add_comm]

def fixedVertex (v : Vertex) : VertexId × String := (v.id, v.label)

def fixedEdge (e : Edge) : EdgeId × String × VertexId × VertexId :=
  (e.id, e.label, e.source, e.target)

/-- Elements are only added; identifiers, labels and ends stay. -/
structure GrowsTo (g h : Graph) : Prop where
  vertices : g.vertices.map fixedVertex <+: h.vertices.map fixedVertex
  edges : g.edges.map fixedEdge <+: h.edges.map fixedEdge

theorem GrowsTo.refl (g : Graph) : g.GrowsTo g :=
  ⟨prefix_rfl, prefix_rfl⟩

theorem GrowsTo.trans {f : Graph} (hf : f.GrowsTo g) (hg : g.GrowsTo h) : f.GrowsTo h :=
  ⟨hf.vertices.trans hg.vertices, hf.edges.trans hg.edges⟩

/-- Identifiers count up from one, edges have their ends and no property is null. -/
structure Sound (g : Graph) : Prop where
  vertexIds : Numbered (g.vertices.map (·.id.index)) g.ids.vertex
  edgeIds : Numbered (g.edges.map (·.id.index)) g.ids.edge
  ends : ∀ e ∈ g.edges, (g.vertex? e.source).isSome ∧ (g.vertex? e.target).isSome
  noNulls : g.NoNulls

theorem Sound.vertexIds_eq (h : g.Sound) (hlength : g.vertices.length < IdSource.span) :
    g.vertices.map Vertex.id = (List.range' 1 g.vertices.length).map VertexId.mk := by
  have hindices := h.vertexIds.eq_range' (by rwa [length_map])
  rw [length_map] at hindices
  rw [← hindices, map_map]
  rfl

theorem Sound.edgeIds_eq (h : g.Sound) (hlength : g.edges.length < IdSource.span) :
    g.edges.map Edge.id = (List.range' 1 g.edges.length).map EdgeId.mk := by
  have hindices := h.edgeIds.eq_range' (by rwa [length_map])
  rw [length_map] at hindices
  rw [← hindices, map_map]
  rfl

theorem vertex?_isSome_iff : (g.vertex? id).isSome ↔ ∃ v ∈ g.vertices, v.id = id := by
  simp [vertex?]

theorem GrowsTo.vertex? (hg : g.GrowsTo h) (hid : (g.vertex? id).isSome) :
    (h.vertex? id).isSome := by
  obtain ⟨v, hv, rfl⟩ := vertex?_isSome_iff.mp hid
  obtain ⟨w, hw, heq⟩ := mem_map.mp (hg.vertices.subset (mem_map_of_mem hv))
  exact vertex?_isSome_iff.mpr ⟨w, hw, congrArg Prod.fst heq⟩

theorem map_update {α ι : Type} [DecidableEq ι] {key : α → ι} {id : ι} {f : α → α} {p : α → β}
    (hf : ∀ a, p (f a) = p a) (as : List α) : (update key id f as).map p = as.map p := by
  induction as with
  | nil => rfl
  | cons a as ih =>
    rw [update]
    split
    · rw [map_cons, hf, map_cons]
    · rw [map_cons, ih, map_cons]

theorem setProperty_noNulls
    (h : ∀ p ∈ properties, p.2.isNull = false) (key : String) (value : Value) :
    ∀ p ∈ setProperty key value properties, p.2.isNull = false := by
  intro p hp
  rw [setProperty] at hp
  split at hp
  · exact h p (Entries.mem_erase hp)
  · rename_i hvalue
    rcases Entries.mem_insert hp with rfl | hp
    · exact Bool.eq_false_iff.mpr hvalue
    · exact h p hp

theorem propertiesOf_noNulls (pairs : List (String × Value)) :
    ∀ p ∈ propertiesOf pairs, p.2.isNull = false := by
  unfold propertiesOf
  generalize hstart : ([] : Entries Value) = properties
  have h : ∀ p ∈ properties, p.2.isNull = false := hstart ▸ forall_mem_nil _
  clear hstart
  induction pairs generalizing properties with
  | nil => exact h
  | cons pair pairs ih => exact ih _ (setProperty_noNulls h pair.1 pair.2)

theorem Change.growsTo (hc : Change g h) : g.GrowsTo h := by
  cases hc with
  | addVertex label pairs =>
    exact ⟨(prefix_append _ _).map fixedVertex, prefix_rfl⟩
  | addEdge pairs hadd =>
    obtain ⟨-, -, rfl⟩ := addEdge_eq_ok hadd
    exact ⟨prefix_rfl, (prefix_append _ _).map fixedEdge⟩
  | setVertexProperty hset =>
    obtain rfl := setVertexProperty_eq_ok hset
    refine ⟨⟨[], ?_⟩, prefix_rfl⟩
    rw [append_nil, map_update]
    exact fun _ => rfl
  | setEdgeProperty hset =>
    obtain rfl := setEdgeProperty_eq_ok hset
    refine ⟨prefix_rfl, ⟨[], ?_⟩⟩
    rw [append_nil, map_update]
    exact fun _ => rfl

theorem Sound.ends_after (hg : g.Sound) (hc : Change g h) {e : Edge} (he : e ∈ g.edges) :
    (h.vertex? e.source).isSome ∧ (h.vertex? e.target).isSome :=
  ⟨hc.growsTo.vertex? (hg.ends e he).1, hc.growsTo.vertex? (hg.ends e he).2⟩

theorem Sound.change (hg : g.Sound) (hc : Change g h) : h.Sound := by
  cases hc with
  | addVertex label pairs =>
    refine ⟨?_, hg.edgeIds, fun e he => hg.ends_after (.addVertex label pairs) he, ?_, hg.noNulls.2⟩
    · simpa [Graph.addVertex, IdSource.takeVertex] using hg.vertexIds.append
    · exact forall_mem_append.mpr
        ⟨hg.noNulls.1, forall_mem_singleton.mpr (propertiesOf_noNulls pairs)⟩
  | addEdge pairs hadd =>
    obtain ⟨hsource, htarget, rfl⟩ := addEdge_eq_ok hadd
    refine ⟨hg.vertexIds, ?_, ?_, hg.noNulls.1, ?_⟩
    · simpa [connect, IdSource.takeEdge] using hg.edgeIds.append
    · exact forall_mem_append.mpr ⟨hg.ends, forall_mem_singleton.mpr ⟨hsource, htarget⟩⟩
    · exact forall_mem_append.mpr
        ⟨hg.noNulls.2, forall_mem_singleton.mpr (propertiesOf_noNulls pairs)⟩
  | setVertexProperty hset =>
    have hends := fun e => hg.ends_after (e := e) (.setVertexProperty hset)
    obtain rfl := setVertexProperty_eq_ok hset
    refine ⟨?_, hg.edgeIds, hends, fun v hv => ?_, hg.noNulls.2⟩
    · rw [map_update]
      · exact hg.vertexIds
      · exact fun _ => rfl
    · rcases mem_update hv with hv | ⟨w, hw, rfl⟩
      · exact hg.noNulls.1 v hv
      · exact setProperty_noNulls (hg.noNulls.1 w hw) _ _
  | setEdgeProperty hset =>
    obtain rfl := setEdgeProperty_eq_ok hset
    refine ⟨hg.vertexIds, ?_, fun e he => ?_, hg.noNulls.1, fun e he => ?_⟩
    · rw [map_update]
      · exact hg.edgeIds
      · exact fun _ => rfl
    · rcases mem_update he with he | ⟨d, hd, rfl⟩
      · exact hg.ends e he
      · exact hg.ends d hd
    · rcases mem_update he with he | ⟨d, hd, rfl⟩
      · exact hg.noNulls.2 e he
      · exact setProperty_noNulls (hg.noNulls.2 d hd) _ _

/-! ### Runs of changes -/

theorem Changes.growsTo (hc : Changes g h) : g.GrowsTo h := by
  induction hc with
  | refl => exact .refl g
  | tail _ hstep ih => exact ih.trans hstep.growsTo

theorem Sound.changes (hg : g.Sound) (hc : Changes g h) : h.Sound := by
  induction hc with
  | refl => exact hg
  | tail _ hstep ih => exact ih.change hstep

theorem empty_sound (name : String) : (empty name).Sound :=
  ⟨⟨rfl, rfl⟩, ⟨rfl, rfl⟩, forall_mem_nil _, forall_mem_nil _, forall_mem_nil _⟩

theorem modern_sound : modern.Sound :=
  ⟨by decide +kernel, by decide +kernel, by decide +kernel, by decide +kernel⟩

/-! ### Sessions -/

/-- A call that can change a graph. -/
inductive Call where
  | addVertex (label : String) (pairs : List (String × Value))
  | addEdge (label : String) (source target : VertexId) (pairs : List (String × Value))
  | setVertexProperty (id : VertexId) (key : String) (value : Value)
  | setEdgeProperty (id : EdgeId) (key : String) (value : Value)
  | execute (t : Traversal) (ps : Parameters)

namespace Call

/-- A call of the graph itself, which adds or sets one element. -/
def isDirect : Call → Bool
  | execute _ _ => false
  | _ => true

def answer (g : Graph) : Except Error Graph → Except Error Unit × Graph
  | .ok h => (.ok (), h)
  | .error e => (.error e, g)

def apply (g : Graph) : Call → Except Error Unit × Graph
  | addVertex label pairs => (.ok (), (g.addVertex label (propertiesOf pairs)).2)
  | addEdge label source target pairs =>
    answer g ((g.addEdge label source target (propertiesOf pairs)).map Prod.snd)
  | setVertexProperty id key value => answer g (g.setVertexProperty id key value)
  | setEdgeProperty id key value => answer g (g.setEdgeProperty id key value)
  | execute t ps => ((t.execute ps g).1.map fun _ => (), (t.execute ps g).2)

end Call

def after (g : Graph) (calls : List Call) : Graph :=
  calls.foldl (fun g c => (c.apply g).2) g

theorem Call.answer_changes (h : ∀ g', r = .ok g' → Change g g') : Changes g (answer g r).2 := by
  cases r with
  | ok g' => exact .single (h g' rfl)
  | error e => exact .refl

theorem Call.apply_changes (c : Call) (g : Graph) : Changes g (c.apply g).2 := by
  cases c with
  | addVertex label pairs => exact .single (.addVertex label pairs)
  | addEdge label source target pairs =>
    refine answer_changes fun g' h => ?_
    obtain ⟨added, hadd, rfl⟩ := map_eq_ok.mp h
    exact .addEdge pairs hadd
  | setVertexProperty id key value => exact answer_changes fun g' h => .setVertexProperty h
  | setEdgeProperty id key value => exact answer_changes fun g' h => .setEdgeProperty h
  | execute t ps => exact execute_changes t ps g

theorem Call.answer_unchanged (h : (Call.answer g r).1 = .error e) : (Call.answer g r).2 = g := by
  cases r with
  | ok g' => cases h
  | error e => rfl

theorem Call.apply_unchanged {c : Call} (hc : c.isDirect) (h : (c.apply g).1 = .error e) :
    (c.apply g).2 = g := by
  cases c with
  | addVertex label pairs => cases h
  | addEdge label source target pairs | setVertexProperty id key value
  | setEdgeProperty id key value => exact answer_unchanged h
  | execute t ps => cases hc

theorem Sound.after (hg : g.Sound) (calls : List Call) : (g.after calls).Sound :=
  List.foldlRecOn calls _ hg fun _ h c _ => h.changes (c.apply_changes _)

/-- **Graphs over whole sessions.** Whatever is called on the sample graph or on a graph without
elements, and however the calls end, identifiers count up from one in the order of the elements,
edges have both their ends and no property is null; and a further call keeps the elements where
they are, with their identifiers, labels and ends, and the whole graph if it is a direct call that
fails. -/
theorem session_keeps_graph {start : Graph} (hstart : start = modern ∨ ∃ name, start = empty name)
    (calls : List Call) (hvertices : (start.after calls).vertices.length < IdSource.span)
    (hedges : (start.after calls).edges.length < IdSource.span) :
    let g := start.after calls
    g.vertices.map Vertex.id = (List.range' 1 g.vertices.length).map VertexId.mk ∧
      g.edges.map Edge.id = (List.range' 1 g.edges.length).map EdgeId.mk ∧
      (∀ e ∈ g.edges, (∃ v ∈ g.vertices, v.id = e.source) ∧ ∃ v ∈ g.vertices, v.id = e.target) ∧
      g.NoNulls ∧
      ∀ c : Call, g.GrowsTo (c.apply g).2 ∧
        (c.isDirect → ∀ e, (c.apply g).1 = .error e → (c.apply g).2 = g) := by
  intro g
  have hsound : g.Sound := by
    rcases hstart with rfl | ⟨name, rfl⟩
    · exact modern_sound.after calls
    · exact (empty_sound name).after calls
  refine ⟨hsound.vertexIds_eq hvertices, hsound.edgeIds_eq hedges, fun e he => ?_, hsound.noNulls,
    fun c => ⟨(c.apply_changes g).growsTo, fun hc _ => c.apply_unchanged hc⟩⟩
  exact ⟨vertex?_isSome_iff.mp (hsound.ends e he).1, vertex?_isSome_iff.mp (hsound.ends e he).2⟩

/-- A vertex is added, an edge to nowhere is refused, and a run that adds two vertices fails at its
last step, where it is no longer at an element. -/
theorem reviews_keep_graph :
    let refused : Call := .addEdge "runs" ⟨7⟩ ⟨9⟩ []
    let failing : Call := .execute [.vertices, .hasLabel ["software"], .addVertex (some "review"),
      .label, .property "stars" [.constant (.value (.int 5))]] []
    let g := modern.after [.addVertex "robot" [("name", .str "r2"), ("owner", .null)], refused]
    let h := modern.after
      [.addVertex "robot" [("name", .str "r2"), ("owner", .null)], refused, failing]
    (refused.apply g).1 = .error (.notFound "VertexId(9)") ∧ (refused.apply g).2 = g ∧
      (failing.apply g).1 = .error (.execution (.notElement "stars")) ∧
      g.GrowsTo (failing.apply g).2 ∧ (failing.apply g).2.vertices.length = 9 ∧
      h.vertices.map Vertex.id = (List.range' 1 9).map VertexId.mk ∧ h.NoNulls := by
  intro refused failing g h
  have hg := session_keeps_graph (.inl rfl)
    [.addVertex "robot" [("name", .str "r2"), ("owner", .null)], refused]
    (by decide +kernel) (by decide +kernel)
  have hh := session_keeps_graph (.inl rfl)
    [.addVertex "robot" [("name", .str "r2"), ("owner", .null)], refused, failing]
    (by decide +kernel) (by decide +kernel)
  have hlength : h.vertices.length = 9 := by decide +kernel
  have hrefused : (refused.apply g).1 = .error (.notFound "VertexId(9)") := by decide +kernel
  exact ⟨hrefused, (hg.2.2.2.2 refused).2 rfl _ hrefused, by decide +kernel,
    (hg.2.2.2.2 failing).1, hlength, hlength ▸ hh.1, hh.2.2.2.1⟩

end Graph
end CypherTraversal
