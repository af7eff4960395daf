import CypherTraversal.Proofs.Bindings.Current
import CypherTraversal.Proofs.Creation.Elements

/-! # Created patterns

A pattern adds the nodes that are not bound and all of its relationships, each with its labels and
properties and under its name. -/

namespace CypherTraversal

open Run LowerClause List ResolvedPattern Traversal Traverser

variable {n : ResolvedNode} {x : String} {c : LoweringContext} {s m s' : Scope}
  {before mid after : List String} {g h g' : Graph} {t u w : Traverser} {ts us ws : List Traverser}
  {previous : String}

/-! ### Elements of patterns -/

/-- A relationship of a pattern with the names of the nodes beside it. -/
structure Link where
  left : String
  relationship : ResolvedRelationship
  right : String

namespace Link

def source (l : Link) : String :=
  if l.relationship.direction = .incoming then l.right else l.left

def target (l : Link) : String :=
  if l.relationship.direction = .incoming then l.left else l.right

end Link

/-- The nodes of a pattern that CREATE adds. -/
def ResolvedPattern.newNodes (p : ResolvedPattern) : List ResolvedNode :=
  p.nodes.filter fun n => !n.bound

def linksFrom : String → List (ResolvedRelationship × ResolvedNode) → List Link
  | _, [] => []
  | previous, (r, next) :: hops => ⟨previous, r, next.name⟩ :: linksFrom next.name hops

def ResolvedPattern.links (p : ResolvedPattern) : List Link :=
  linksFrom p.start.name p.hops

/-! ### Elements of rows -/

def Made (c : LoweringContext) (g g' : Graph) (name : String) (entries : List (String × Expr))
    (t u : Traverser) (own : Object) (properties : Entries Value) : Prop :=
  ∃ later earlier b values,
    u.path = later ++ (name, own) :: (earlier ++ t.path) ∧ name ∉ later.map Prod.fst ∧
    g.Within b ∧ b.Within g' ∧ (∀ p ∈ earlier, (b.properties? p.2).isSome) ∧
    Fills c (b.Filling own) ⟨own, (name, own) :: (earlier ++ t.path), t.origin⟩ [] entries values ∧
    properties = propertiesOf values

structure NodeMade (c : LoweringContext) (after : List String) (g g' : Graph) (n : ResolvedNode)
    (t u : Traverser) (v : Vertex) : Prop where
  inScope : n.name ∈ after
  label : v.label = n.labels.head?.getD Process.defaultLabel
  made : Made c g g' n.name n.properties t u (.vertex v.id) v.properties

structure LinkMade (c : LoweringContext) (after : List String) (g g' : Graph) (l : Link)
    (t u : Traverser) (e : Edge) : Prop where
  inScope : l.relationship.name ∈ after ∧ l.source ∈ after ∧ l.target ∈ after
  type : l.relationship.types.head? = some e.label
  source : u.labelled? l.source = some (.vertex e.source)
  target : u.labelled? l.target = some (.vertex e.target)
  made : Made c g g' l.relationship.name l.relationship.properties t u (.edge e.id) e.properties

structure Traverser.Grown (before after : List String) (g' : Graph) (t u : Traverser) : Prop where
  origin : u.origin = t.origin
  path : ∃ new, u.path = new ++ t.path ∧
    ∀ p ∈ new, p.1 ∉ before ∧ p.1 ∈ after ∧ (g'.properties? p.2).isSome

theorem Traverser.labelled?_of_path {new : List (String × Object)} (hpath : u.path = new ++ t.path)
    (hx : ∀ p ∈ new, p.1 ≠ x) : u.labelled? x = t.labelled? x := by
  have hnone : new.lookup x = none :=
    lookup_eq_none_iff.mpr fun p hp => bne_iff_ne.mpr (hx p hp).symm
  unfold labelled?
  rw [hpath, lookup_append, hnone, Option.none_or]

theorem Traverser.Grown.labelled? (hu : t.Grown before after g' u) (hx : x ∈ before) :
    u.labelled? x = t.labelled? x := by
  obtain ⟨new, hpath, hnew⟩ := hu.path
  exact labelled?_of_path hpath fun p hp heq => (hnew p hp).1 (heq ▸ hx)

theorem Traverser.Grown.trans (hscope : before ⊆ mid) (hscope' : mid ⊆ after)
    (hwithin : h.Within g') (hw : t.Grown before mid h w) (hu : w.Grown mid after g' u) :
    t.Grown before after g' u := by
  obtain ⟨horigin, new, hpath, hnew⟩ := hw
  obtain ⟨horigin', new', hpath', hnew'⟩ := hu
  refine ⟨horigin'.trans horigin, new' ++ new, ?_, forall_mem_append.mpr ⟨?_, ?_⟩⟩
  · rw [hpath', hpath, append_assoc]
  · intro p hp
    obtain ⟨hout, hin, hthere⟩ := hnew' p hp
    exact ⟨fun hs => hout (hscope hs), hin, hthere⟩
  · intro p hp
    obtain ⟨hout, hin, hthere⟩ := hnew p hp
    exact ⟨hout, hscope' hin, hwithin.isSome hthere⟩

/-! ### Longer ways -/

section Lifts

variable {name : String} {entries : List (String × Expr)} {own : Object}
  {properties : Entries Value}

theorem Made.later (hmade : Made c g h name entries t w own properties) (hname : name ∈ mid)
    (hu : w.Grown mid after g' u) (hwithin : h.Within g') :
    Made c g g' name entries t u own properties := by
  obtain ⟨later, earlier, b, values, hpath, hlater, hb, hbh, hearlier, hfills, hvalues⟩ := hmade
  obtain ⟨new, hpath', hnew⟩ := hu.path
  refine ⟨new ++ later, earlier, b, values, ?_, ?_, hb, hbh.trans hwithin, hearlier, hfills,
    hvalues⟩
  · rw [hpath', hpath, append_assoc]
  · rw [map_append, mem_append, not_or]
    refine ⟨fun hmem => ?_, hlater⟩
    obtain ⟨p, hp, rfl⟩ := mem_map.mp hmem
    exact (hnew p hp).1 hname

theorem Made.earlier (hwithin : g.Within h) (hw : t.Grown before mid h w)
    (hmade : Made c h g' name entries w u own properties) :
    Made c g g' name entries t u own properties := by
  obtain ⟨later, earlier, b, values, hpath, hlater, hb, hbg, hearlier, hfills, hvalues⟩ := hmade
  obtain ⟨horigin, new, hpath', hnew⟩ := hw
  rw [hpath', ← append_assoc] at hpath hfills
  rw [horigin] at hfills
  refine ⟨later, earlier ++ new, b, values, hpath, hlater, hwithin.trans hb, hbg, ?_, hfills,
    hvalues⟩
  exact forall_mem_append.mpr ⟨hearlier, fun p hp => hb.isSome (hnew p hp).2.2⟩

variable (hscope : mid ⊆ after)

include hscope

theorem NodeMade.later {v : Vertex} (hmade : NodeMade c mid g h n t w v)
    (hu : w.Grown mid after g' u) (hwithin : h.Within g') : NodeMade c after g g' n t u v :=
  ⟨hscope hmade.inScope, hmade.label, hmade.made.later hmade.inScope hu hwithin⟩

theorem LinkMade.later {l : Link} {e : Edge} (hmade : LinkMade c mid g h l t w e)
    (hu : w.Grown mid after g' u) (hwithin : h.Within g') : LinkMade c after g g' l t u e := by
  obtain ⟨⟨hname, hsource, htarget⟩, htype, hfrom, hto, hmade⟩ := hmade
  refine ⟨⟨hscope hname, hscope hsource, hscope htarget⟩, htype, ?_, ?_,
    hmade.later hname hu hwithin⟩
  · rw [hu.labelled? hsource, hfrom]
  · rw [hu.labelled? htarget, hto]

end Lifts

/-! ### Blocks -/

def Blocks {ι α : Type} (P : ι → Traverser → Traverser → α → Prop) (ts us : List Traverser)
    (is : List ι) (as : List α) : Prop :=
  ∃ blocks, as = blocks.flatten ∧
    List.Forall₂ (fun i block => List.Forall₂ (fun x a => P i x.1 x.2 a) (ts.zip us) block)
      is blocks

namespace Blocks

variable {ι α : Type} {P Q : ι → Traverser → Traverser → α → Prop} {is js : List ι} {as bs : List α}

theorem nil (P : ι → Traverser → Traverser → α → Prop) (ts us : List Traverser) :
    Blocks P ts us [] [] :=
  ⟨[], rfl, .nil⟩

theorem append (has : Blocks P ts us is as) (hbs : Blocks P ts us js bs) :
    Blocks P ts us (is ++ js) (as ++ bs) := by
  obtain ⟨blocks, rfl, hblocks⟩ := has
  obtain ⟨blocks', rfl, hblocks'⟩ := hbs
  exact ⟨blocks ++ blocks', flatten_append.symm, rel_append hblocks hblocks'⟩

theorem of_rows {R : Traverser → Traverser × α → Prop} {ms : List (Traverser × α)}
    (hms : Forall₂ R ts ms) {i : ι} (hP : ∀ t m, R t m → P i t m.1 m.2) :
    Blocks P ts (ms.map Prod.fst) [i] (ms.map Prod.snd) := by
  refine ⟨[ms.map Prod.snd], (flatten_singleton ..).symm, .cons ?_ .nil⟩
  induction hms with
  | nil => exact .nil
  | cons hm _ ih => exact .cons (hP _ _ hm) ih

theorem along {A B : Traverser → Traverser → Prop} {vs : List Traverser}
    (has : Blocks P ts us is as) (hts : Forall₂ A ws ts) (hus : Forall₂ B us vs)
    (hQ : ∀ {i t t' u u' a}, P i t u a → A t' t → B u u' → Q i t' u' a) :
    Blocks Q ws vs is as := by
  obtain ⟨blocks, rfl, hblocks⟩ := has
  refine ⟨blocks, rfl, hblocks.imp fun i block hblock => ?_⟩
  clear hblocks
  induction hts generalizing us vs block with
  | nil =>
    cases hblock
    exact .nil
  | cons hA _ ih =>
    cases hus with
    | nil =>
      cases hblock
      exact .nil
    | cons hB hus =>
      cases hblock with
      | cons hP hblock => exact .cons (hQ hP hA hB) (ih hus _ hblock)

theorem length_eq (has : Blocks P ts us is as) (hrows : ts.length = us.length) :
    as.length = ts.length * is.length := by
  obtain ⟨blocks, rfl, hblocks⟩ := has
  induction hblocks with
  | nil => simp
  | cons hblock _ ih =>
    have hlength := hblock.length_eq
    rw [length_zip, ← hrows, Nat.min_self] at hlength
    rw [flatten_cons, length_append, ih, ← hlength, length_cons, Nat.mul_succ, Nat.add_comm]

end Blocks

/-! ### Parts of patterns -/

/-- Behind the old vertices and edges the graph has, row by row, new ones for nodes and links. -/
structure Creates (c : LoweringContext) (before after : List String) (nodes : List ResolvedNode)
    (links : List Link) (g g' : Graph) (ts us : List Traverser) : Prop where
  name : g'.name = g.name
  scope : before ⊆ after
  rows : List.Forall₂ (Traverser.Grown before after g') ts us
  vertices : ∃ vs, g'.vertices = g.vertices ++ vs ∧ Blocks (NodeMade c after g g') ts us nodes vs
  edges : ∃ es, g'.edges = g.edges ++ es ∧ Blocks (LinkMade c after g g') ts us links es

namespace Creates

variable {nodes nodes' : List ResolvedNode} {links links' : List Link}

theorem within (hc : Creates c before after nodes links g g' ts us) : g.Within g' := by
  obtain ⟨vs, hvs, -⟩ := hc.vertices
  obtain ⟨es, hes, -⟩ := hc.edges
  exact ⟨hvs ▸ prefix_append _ _, hes ▸ prefix_append _ _⟩

theorem nil (hscope : before ⊆ after) : Creates c before after [] [] g g ts ts where
  name := rfl
  scope := hscope
  rows := forall₂_same.mpr fun _ _ => ⟨rfl, [], rfl, forall_mem_nil _⟩
  vertices := ⟨[], (append_nil _).symm, .nil ..⟩
  edges := ⟨[], (append_nil _).symm, .nil ..⟩

theorem append (hc : Creates c before mid nodes links g h ts ws)
    (hc' : Creates c mid after nodes' links' h g' ws us) :
    Creates c before after (nodes ++ nodes') (links ++ links') g g' ts us := by
  obtain ⟨vs, hvs, hnodes⟩ := hc.vertices
  obtain ⟨vs', hvs', hnodes'⟩ := hc'.vertices
  obtain ⟨es, hes, hlinks⟩ := hc.edges
  obtain ⟨es', hes', hlinks'⟩ := hc'.edges
  refine ⟨hc'.name.trans hc.name, List.Subset.trans hc.scope hc'.scope, ?_, ⟨vs ++ vs', ?_, ?_⟩,
    ⟨es ++ es', ?_, ?_⟩⟩
  · refine forall₂_trans ?_ hc.rows hc'.rows
    exact fun _ _ _ => .trans hc.scope hc'.scope hc'.within
  · rw [hvs', hvs, append_assoc]
  · refine (hnodes.along (A := Eq) (forall₂_refl ts) hc'.rows ?_).append
      (hnodes'.along (B := Eq) hc.rows (forall₂_refl us) ?_)
    · rintro _ _ _ _ _ _ hmade rfl hu
      exact hmade.later hc'.scope hu hc'.within
    · rintro _ _ _ _ _ _ hmade hw rfl
      exact ⟨hmade.inScope, hmade.label, .earlier hc.within hw hmade.made⟩
  · rw [hes', hes, append_assoc]
  · refine (hlinks.along (A := Eq) (forall₂_refl ts) hc'.rows ?_).append
      (hlinks'.along (B := Eq) hc.rows (forall₂_refl us) ?_)
    · rintro _ _ _ _ _ _ hmade rfl hu
      exact hmade.later hc'.scope hu hc'.within
    · rintro _ _ _ _ _ _ hmade hw rfl
      exact ⟨hmade.inScope, hmade.type, hmade.source, hmade.target,
        .earlier hc.within hw hmade.made⟩

end Creates

/-- The variables of nodes hold vertices. -/
def Traverser.CarriesNodes (bs : List Binding) (t : Traverser) : Prop :=
  ∀ x, ⟨x, .node⟩ ∈ bs → ∃ v, t.labelled? x = some (.vertex v)

instance (bs : List Binding) (t : Traverser) : Decidable (t.CarriesNodes bs) :=
  decidable_of_iff
      (∀ b ∈ bs, b.kind = .node → (t.labelled? b.name).any (Kind.node.describes ·)) <| by
    constructor
    · intro h x hx
      obtain ⟨y, hy, hnode⟩ := (Option.any_eq_true _ _).mp (h _ hx rfl)
      obtain ⟨v, rfl⟩ := Kind.describes_node hnode
      exact ⟨v, hy⟩
    · rintro h ⟨x, k⟩ hb rfl
      obtain ⟨v, hv⟩ := h x hb
      rw [hv]
      rfl

structure Traversal.Makes (c : LoweringContext) (s s' : Scope) (nodes : List ResolvedNode)
    (links : List Link) (f : Traversal) : Prop where
  starts : f.Starts c.parameters
  creates : ∀ {g g' : Graph} {ts us : List Traverser}, g.Sound → g'.InSpan →
    (∀ t ∈ ts, t.CarriesNodes s.bindings) → (f.run c.parameters ts).outcome g = (.ok us, g') →
    Creates c s.names s'.names nodes links g g' ts us ∧ ∀ u ∈ us, u.CarriesNodes s'.bindings

namespace Traversal.Makes

variable {nodes nodes' : List ResolvedNode} {links links' : List Link} {f k : Traversal}

theorem nil (c : LoweringContext) (s : Scope) : Makes c s s [] [] [] := by
  refine ⟨rfl, fun _ _ hts hrun => ?_⟩
  cases hrun
  exact ⟨.nil (Subset.refl _), hts⟩

theorem append (hf : f.Makes c s m nodes links) (hk : k.Makes c m s' nodes' links') :
    Makes c s s' (nodes ++ nodes') (links ++ links') (f ++ k) := by
  refine ⟨hf.starts.append hk.starts, fun {g g' ts us} hg hspan hts hrun => ?_⟩
  rw [run_append hk.starts] at hrun
  obtain ⟨ws, h, hfirst, hrest⟩ := of_outcome_bind hrun
  have hgh : Graph.Changes g h := by
    have hchanges := Graph.run_changes f c.parameters ts g
    rwa [hfirst] at hchanges
  have hhg : Graph.Changes h g' := by
    have hchanges := Graph.run_changes k c.parameters ws h
    rwa [hrest] at hchanges
  obtain ⟨hc, hws⟩ := hf.creates hg (hspan.of_changes hhg) hts hfirst
  obtain ⟨hc', hus⟩ := hk.creates (hg.changes hgh) hspan hws hrest
  exact ⟨hc.append hc', hus⟩

theorem reorder (hf : f.Makes c s m nodes links) (hscope : m.names ⊆ s'.names)
    (hbindings : ∀ b ∈ s'.bindings, b ∈ m.bindings) : f.Makes c s s' nodes links := by
  refine ⟨hf.starts, fun hg hspan hts hrun => ?_⟩
  obtain ⟨hc, hus⟩ := hf.creates hg hspan hts hrun
  have hmore := hc.append (.nil hscope)
  rw [append_nil, append_nil] at hmore
  exact ⟨hmore, fun u hu x hx => hus u hu x (hbindings _ hx)⟩

end Traversal.Makes

/-! ### Single elements -/

theorem Traverser.grown_mark {b : Binding} (hb : s.kind? b.name = none) {own : Object}
    (hown : (g'.properties? own).isSome) :
    t.Grown s.names (s.bind b.name b.kind).names g' ((t.moveTo own).mark b.name) := by
  refine ⟨rfl, [(b.name, own)], rfl, forall_mem_singleton.mpr ⟨?_, ?_, hown⟩⟩
  · exact Scope.kind?_eq_none_iff.mp hb
  · exact Scope.mem_names_of_kind? (Scope.kind?_bind hb)

theorem Shelf.of_new {α β : Type} {S : Shelf α β} {Q : Traverser → α → Prop} {b : Binding}
    {making f : Traversal} {entries : List (String × Expr)} (hmaking : S.Adds c.parameters Q making)
    (hnew : ∀ {t : Traverser} {a : α} (p : Entries Value), Q t a → Q t (S.fill p a))
    (hnode : ∀ a, b.kind = .node → ∃ v, S.object a = .vertex v) (hb : s.kind? b.name = none)
    (hkeys : (entries.map Prod.fst).Nodup) (hf : newProperties c entries = .ok f) (hg : g.Sound)
    (hspan : g'.InSpan) (hts : ∀ t ∈ ts, t.CarriesNodes s.bindings)
    (hrun : (Traversal.run c.parameters (making ++ .mark b.name :: f) ts).outcome g =
      (.ok us, g')) :
    S.others g' = S.others g ∧ (∀ u ∈ us, u.CarriesNodes (s.bind b.name b.kind).bindings) ∧
      ∃ ms : List (Traverser × α), us = ms.map Prod.fst ∧ S.held g' = S.held g ++ ms.map Prod.snd ∧
        Forall₂ (fun t m => t.CarriesNodes s.bindings ∧ Q t m.2 ∧
          t.Grown s.names (s.bind b.name b.kind).names g' m.1 ∧
          Made c g g' b.name entries t m.1 (S.object m.2) (S.properties m.2)) ts ms := by
  obtain ⟨hothers, ms, rfl, hheld, hms⟩ := S.of_element hmaking hnew hkeys hf hg hspan hrun
  have hwithin : g.Within g' := S.within (hheld ▸ prefix_append _ _) hothers
  have hrows := (forall₂_and_left _ _).mpr ⟨hts, hms⟩
  refine ⟨hothers, forall_mem_map.mpr ?_, ms, rfl, hheld, hrows.imp ?_⟩
  · refine (forall₂_and_right.mp (hrows.imp fun t m hm => ⟨fun x hx => ?_, hm⟩)).1
    rw [Scope.bind_bindings hb, mem_append, mem_singleton] at hx
    rw [hm.2.1]
    rcases hx with hx | hx
    · rw [(grown_mark hb hm.2.2.2.1).labelled? (mem_map_of_mem hx)]
      exact hm.1 x hx
    · obtain ⟨rfl, hkind⟩ := Binding.mk.inj hx
      obtain ⟨v, hv⟩ := hnode m.2 hkind.symm
      exact ⟨v, lookup_cons_self.trans (congrArg some hv)⟩
  · rintro t m ⟨ht, hm, hQ, hthere, values, hfills, hproperties⟩
    rw [hm] at hfills ⊢
    exact ⟨ht, hQ, grown_mark hb hthere, [], [], g, values, rfl, not_mem_nil, .refl g, hwithin,
      forall_mem_nil _, hfills, hproperties⟩

theorem vertex_makes (hname : s.kind? n.name = none) (hkeys : (n.properties.map Prod.fst).Nodup)
    {f : Traversal} (hf : newProperties c n.properties = .ok f) :
    Makes c s (s.bind n.name .node) [n] [] ([.addVertex n.labels.head?] ++ .mark n.name :: f) := by
  refine ⟨rfl, fun {g g' ts us} hg hspan hts hrun => ?_⟩
  obtain ⟨hothers, hus, ms, rfl, hheld, hms⟩ := Shelf.of_new (b := ⟨n.name, .node⟩)
    (Shelf.adds_vertex n.labels.head?) (fun _ hv => hv) (fun v _ => ⟨v.id, rfl⟩) hname hkeys hf hg
    hspan hts hrun
  obtain ⟨hedges, hgraph⟩ := Prod.mk.inj hothers
  refine ⟨⟨hgraph, fun _ hx => Scope.mem_names_bind hname hx, ?_, ⟨_, hheld, .of_rows hms ?_⟩,
    [], hedges.trans (append_nil _).symm, .nil ..⟩, hus⟩
  · exact forall₂_map_right_iff.mpr (hms.imp fun _ _ hm => hm.2.2.1)
  · rintro t m ⟨-, hlabel, -, hmade⟩
    exact ⟨Scope.mem_names_of_kind? (Scope.kind?_bind hname), hlabel, hmade⟩

theorem Traverser.CarriesNodes.endOf (ht : t.CarriesNodes s.bindings) (hx : ⟨x, .node⟩ ∈ s.bindings)
    {v : VertexId} (hv : Process.endOf t (some x) = .ok v) : t.labelled? x = some (.vertex v) := by
  obtain ⟨w, hw⟩ := ht x hx
  unfold Process.endOf at hv
  rw [Option.bind_some, hw] at hv
  cases hv
  exact hw

theorem edge_makes {l : Link} (hname : s.kind? l.relationship.name = none)
    (hleft : ⟨l.left, .node⟩ ∈ s.bindings) (hright : ⟨l.right, .node⟩ ∈ s.bindings)
    {type : String} (htype : l.relationship.types.head? = some type)
    (hkeys : (l.relationship.properties.map Prod.fst).Nodup) {f : Traversal}
    (hf : newProperties c l.relationship.properties = .ok f) :
    Makes c s (s.bind l.relationship.name .relationship) [] [l]
      ([.addEdge type, .fromLabel l.source, .toLabel l.target] ++
        .mark l.relationship.name :: f) := by
  refine ⟨rfl, fun {g g' ts us} hg hspan hts hrun => ?_⟩
  obtain ⟨hothers, hus, ms, rfl, hheld, hms⟩ := Shelf.of_new
    (b := ⟨l.relationship.name, .relationship⟩) (Shelf.adds_edge type l.source l.target)
    (fun _ he => he) (fun _ h => by cases h) hname hkeys hf hg hspan hts hrun
  obtain ⟨hvertices, hgraph⟩ := Prod.mk.inj hothers
  have hscope {x : String} (hx : x ∈ s.names) := Scope.mem_names_bind (k := .relationship) hname hx
  have hsource : ⟨l.source, .node⟩ ∈ s.bindings := by
    unfold Link.source
    split <;> assumption
  have htarget : ⟨l.target, .node⟩ ∈ s.bindings := by
    unfold Link.target
    split <;> assumption
  refine ⟨⟨hgraph, fun _ => hscope, ?_, ⟨[], hvertices.trans (append_nil _).symm, .nil ..⟩,
    ⟨_, hheld, .of_rows hms ?_⟩⟩, hus⟩
  · exact forall₂_map_right_iff.mpr (hms.imp fun _ _ hm => hm.2.2.1)
  · rintro t m ⟨ht, ⟨hlabel, hfrom, hto⟩, hgrown, hmade⟩
    refine ⟨⟨Scope.mem_names_of_kind? (Scope.kind?_bind hname), hscope (mem_map_of_mem hsource),
      hscope (mem_map_of_mem htarget)⟩, hlabel ▸ htype, ?_, ?_, hmade⟩
    · rw [hgrown.labelled? (mem_map_of_mem hsource), ht.endOf hsource hfrom]
    · rw [hgrown.labelled? (mem_map_of_mem htarget), ht.endOf htarget hto]

/-! ### Patterns -/

structure ResolvedPattern.DistinctKeys (p : ResolvedPattern) : Prop where
  start : (p.start.properties.map Prod.fst).Nodup
  hops : ∀ hop ∈ p.hops, (hop.1.properties.map Prod.fst).Nodup ∧
    (hop.2.properties.map Prod.fst).Nodup

theorem createNode_makes (hkeys : (n.properties.map Prod.fst).Nodup) (h : s.Binds [n.binding] s') :
    Gives (Makes c s s' ([n].filter fun n => !n.bound) []) (createNode c n) := by
  unfold ResolvedNode.binding at h
  unfold createNode
  split
  · rename_i hbound
    rw [hbound] at h
    rw [filter_cons_of_neg (by simp [hbound])]
    cases h with
    | known _ rest =>
      cases rest
      exact .ok (.nil c s)
  · rename_i hbound
    rw [Bool.not_eq_true] at hbound
    rw [hbound] at h
    rw [filter_cons_of_pos (by simp [hbound])]
    cases h with
    | fresh hname rest =>
      cases rest
      intro f hf
      obtain ⟨k, hk, hf⟩ := bind_eq_ok.mp hf
      cases hf
      exact vertex_makes hname hkeys hk

theorem createHop_makes {hop : ResolvedRelationship × ResolvedNode}
    (hprevious : s.kind? previous = some .node) (hnew : hop.1.bound = false)
    (hr : (hop.1.properties.map Prod.fst).Nodup) (hn : (hop.2.properties.map Prod.fst).Nodup)
    (h : s.Binds [hop.1.binding, hop.2.binding] s') :
    Gives (Makes c s s' ([hop.2].filter fun n => !n.bound)
      [⟨previous, hop.1, hop.2.name⟩]) (createHop c previous hop) := by
  unfold ResolvedRelationship.binding at h
  rw [hnew] at h
  obtain ⟨m, s'', hnode, hedge, hsubset⟩ := h.exchange (by simp [ResolvedNode.binding])
  have hscope : s''.names ⊆ s'.names := by
    rw [hedge.names_eq, hnode.names_eq, h.names_eq]
    cases hbound : hop.2.bound <;>
      simp [freshBindings, ResolvedNode.binding, hbound, subset_def, or_comm]
  have hleft : ⟨previous, .node⟩ ∈ m.bindings := Scope.mem_of_kind? (hnode.kind?_mono hprevious)
  have hright : ⟨hop.2.name, .node⟩ ∈ m.bindings :=
    Scope.mem_of_kind? (hnode.kind?_of_mem mem_cons_self)
  refine (createNode_makes hn hnode).bind fun f hf => ?_
  cases hedge with
  | fresh hname rest =>
    cases rest
    dsimp only
    split
    · exact .error _
    · rename_i type htype
      have hmakes {source target : String}
          (hsource : Link.source ⟨previous, hop.1, hop.2.name⟩ = source)
          (htarget : Link.target ⟨previous, hop.1, hop.2.name⟩ = target) :
          Gives (Makes c s s' ([hop.2].filter fun n => !n.bound)
            [⟨previous, hop.1, hop.2.name⟩]) (do
              return f ++ [.addEdge type, .fromLabel source, .toLabel target, .mark hop.1.name] ++
                (← newProperties c hop.1.properties)) := by
        intro all hall
        obtain ⟨k, hk, hall⟩ := bind_eq_ok.mp hall
        cases hall
        subst hsource htarget
        have hlink := edge_makes (l := ⟨previous, hop.1, hop.2.name⟩) hname hleft hright htype hr hk
        rw [append_assoc, ← append_nil (List.filter _ _)]
        exact (hf.append hlink).reorder hscope hsubset
      split
      · rename_i hincoming
        exact hmakes (if_pos hincoming) (if_pos hincoming)
      · rename_i houtgoing
        exact hmakes (if_neg houtgoing) (if_neg houtgoing)

theorem createHops_makes {hops : List (ResolvedRelationship × ResolvedNode)}
    (hprevious : s.kind? previous = some .node) (hnew : ∀ hop ∈ hops, hop.1.bound = false)
    (hkeys : ∀ hop ∈ hops, (hop.1.properties.map Prod.fst).Nodup ∧
      (hop.2.properties.map Prod.fst).Nodup)
    (h : s.Binds (hopBindings hops) s') :
    Gives (Makes c s s' ((hops.map Prod.snd).filter fun n => !n.bound)
      (linksFrom previous hops)) (createHops c previous hops) := by
  induction hops generalizing s previous with
  | nil =>
    cases h
    exact .ok (.nil c _)
  | cons hop hops ih =>
    obtain ⟨hnew, hnews⟩ := forall_mem_cons.mp hnew
    obtain ⟨⟨hr, hn⟩, hrest⟩ := forall_mem_cons.mp hkeys
    obtain ⟨m, hfirst, hlater⟩ : ∃ m, s.Binds [hop.1.binding, hop.2.binding] m ∧
      m.Binds (hopBindings hops) s' := h.of_append
    have hnext : m.kind? hop.2.name = some .node :=
      hfirst.kind?_of_mem (mem_cons_of_mem _ mem_cons_self)
    refine (createHop_makes hprevious hnew hr hn hfirst).bind fun f hf =>
      (ih hnext hnews hrest hlater).bind fun fs hfs => .ok ?_
    rw [map_cons, ← singleton_append, filter_append]
    exact hf.append hfs

theorem create_makes {env : Env} {id : ScopeId} {patterns : List ResolvedPattern}
    (hkeys : ∀ p ∈ patterns, p.DistinctKeys) (hnew : ∀ p ∈ patterns, Resolve.checkNew p = .ok ())
    (h : s.Binds (patterns.flatMap bindings) s') (current : Option String) :
    Gives (fun r => Makes (env.context (env.scopes.scope id) none "CREATE") s s'
        (patterns.flatMap newNodes) (patterns.flatMap links) r.1)
      (LowerClause.create env id patterns current) := by
  have hpatterns : Gives (fun fs => Makes (env.context (env.scopes.scope id) none "CREATE")
      s s' (patterns.flatMap newNodes) (patterns.flatMap links)
        fs.flatten) (patterns.mapM fun p => do
          let c := env.context (env.scopes.scope id) none "CREATE"
          return (← createNode c p.start) ++ (← createHops c p.start.name p.hops)) := by
    induction patterns generalizing s with
    | nil =>
      cases h
      exact .ok (.nil _ _)
    | cons p patterns ih =>
      obtain ⟨hp, hkeys⟩ := forall_mem_cons.mp hkeys
      obtain ⟨hunbound, hnew⟩ := forall_mem_cons.mp hnew
      obtain ⟨m, hfirst, hrest⟩ := h.of_append
      obtain ⟨k, hstart, hhops⟩ := hfirst.of_cons
      rw [mapM_cons]
      refine Gives.bind (Q := Makes _ s m p.newNodes p.links) ?_ fun f hf =>
        (ih hkeys hnew hrest).bind fun fs hfs => .ok (hf.append hfs)
      refine (createNode_makes hp.start hstart).bind fun f hf =>
        (createHops_makes (hstart.kind?_of_mem mem_cons_self)
          (Resolve.hops_unbound hunbound) hp.hops hhops).bind fun fs hfs => .ok ?_
      unfold newNodes nodes
      rw [← singleton_append, filter_append]
      exact hf.append hfs
  exact hpatterns.bind fun _ hfs => .ok hfs

end CypherTraversal
