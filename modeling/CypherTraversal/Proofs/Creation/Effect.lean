import CypherTraversal.Proofs.Creation.Patterns
import CypherTraversal.Proofs.Lowering.Single

/-! # The effect of CREATE

A query that ends in CREATE first reads: its other clauses lead to some rows and leave the graph as
it is. For each of these rows CREATE then adds what its patterns say, and the query returns nothing.
-/

namespace CypherTraversal

open Run LowerClause List ResolvedPattern Traversal

variable {patterns : List ResolvedPattern} {ps : Parameters} {r : ResolvedClause}
  {rq : ResolvedQuery} {rs : List ResolvedClause}

/-! ### Names -/

theorem freshBindings_append (bs cs : List ElementBinding) :
    freshBindings (bs ++ cs) = freshBindings bs ++ freshBindings cs := by
  unfold freshBindings
  rw [filter_append, map_append]

namespace Scope.Binds

variable {s s' : Scope} {bs : List ElementBinding}

theorem fresh_nodup (h : Binds s bs s') :
    ((freshBindings bs).map Binding.name).Nodup ∧ ∀ b ∈ freshBindings bs, b.name ∉ s.names := by
  induction h with
  | nil s => exact ⟨nodup_nil, forall_mem_nil _⟩
  | known _ _ ih => exact ih
  | @fresh s s' b bs hb _ ih =>
    obtain ⟨hnodup, hnew⟩ := ih
    have hnames : (s.bind b.name b.kind).names = s.names ++ [b.name] := by
      rw [Scope.names, Scope.bind_bindings hb, map_append]
      rfl
    rw [hnames] at hnew
    refine ⟨nodup_cons.mpr ⟨fun hmem => ?_, hnodup⟩, forall_mem_cons.mpr ⟨?_, ?_⟩⟩
    · obtain ⟨d, hd, heq⟩ := mem_map.mp hmem
      exact hnew d hd (heq ▸ mem_append_right _ mem_cons_self)
    · exact Scope.kind?_eq_none_iff.mp hb
    · exact fun d hd hmem => hnew d hd (mem_append_left _ hmem)

theorem mem_fresh (h : Binds s bs s') {x : String} {k : Kind} (hk : s'.kind? x = some k)
    (hx : x ∉ s.names) : ⟨x, k⟩ ∈ freshBindings bs := by
  have hmem := Scope.mem_of_kind? hk
  rw [h.bindings_eq, mem_append] at hmem
  exact hmem.resolve_left fun hs => hx (mem_map_of_mem hs)

end Scope.Binds

theorem newNodes_eq (patterns : List ResolvedPattern) :
    (patterns.flatMap newNodes).map ResolvedNode.name =
      ((freshBindings (patterns.flatMap bindings)).filter
        fun b => b.kind = .node).map Binding.name := by
  have hnode (n : ResolvedNode) : ([n].filter fun n => !n.bound).map ResolvedNode.name =
      ((freshBindings [n.binding]).filter fun b => b.kind = .node).map Binding.name := by
    cases hbound : n.bound <;> simp [freshBindings, ResolvedNode.binding, hbound]
  have hedge (r : ResolvedRelationship) :
      (freshBindings [r.binding]).filter (fun b => b.kind = .node) = [] := by
    cases hbound : r.bound <;> simp [freshBindings, ResolvedRelationship.binding, hbound]
  have hhops (hops : List (ResolvedRelationship × ResolvedNode)) :
      ((hops.map Prod.snd).filter fun n => !n.bound).map ResolvedNode.name =
        ((freshBindings (hopBindings hops)).filter fun b => b.kind = .node).map Binding.name := by
    induction hops with
    | nil => rfl
    | cons hop hops ih =>
      rw [map_cons, ← singleton_append, filter_append, map_append, ih, hnode,
        show hopBindings (hop :: hops) = [hop.1.binding] ++ [hop.2.binding] ++ hopBindings hops
          from rfl, freshBindings_append, freshBindings_append, filter_append,
        filter_append, hedge, nil_append, map_append]
  induction patterns with
  | nil => rfl
  | cons p patterns ih =>
    rw [flatMap_cons, flatMap_cons, map_append, ih, freshBindings_append, filter_append, map_append]
    refine congrArg (· ++ _) ?_
    rw [newNodes, nodes, ← singleton_append,
      filter_append, map_append, hnode, hhops, ← map_append, ← filter_append,
      ← freshBindings_append]
    rfl

theorem ResolvedPattern.binding_mem (w : ResolvedPattern) {n : ResolvedNode} (hn : n ∈ w.nodes) :
    n.binding ∈ w.bindings := by
  rcases mem_cons.mp hn with rfl | hn
  · exact mem_cons_self
  · obtain ⟨hop, hhop, rfl⟩ := mem_map.mp hn
    refine mem_cons_of_mem _ (mem_flatMap.mpr ⟨hop, hhop, ?_⟩)
    exact mem_cons_of_mem _ mem_cons_self

theorem mem_newNodes {s s' : Scope} (hbinds : s.Binds (patterns.flatMap bindings) s') {x : String} :
    x ∈ ((freshBindings (patterns.flatMap bindings)).filter
        fun b => b.kind = .node).map Binding.name ↔
      (∃ w ∈ patterns, x ∈ w.nodes.map ResolvedNode.name) ∧ x ∉ s.names := by
  constructor
  · intro hx
    obtain ⟨b, hb, rfl⟩ := mem_map.mp hx
    obtain ⟨hfresh, hkind⟩ := mem_filter.mp hb
    refine ⟨?_, hbinds.fresh_nodup.2 b hfresh⟩
    rw [← newNodes_eq] at hx
    obtain ⟨n, hn, hname⟩ := mem_map.mp hx
    obtain ⟨w, hw, hn⟩ := mem_flatMap.mp hn
    exact ⟨w, hw, mem_map.mpr ⟨n, (mem_filter.mp hn).1, hname⟩⟩
  · rintro ⟨⟨w, hw, hx⟩, hnew⟩
    obtain ⟨n, hn, rfl⟩ := mem_map.mp hx
    have hmem : n.binding ∈ patterns.flatMap bindings :=
      mem_flatMap.mpr ⟨w, hw, w.binding_mem hn⟩
    have hfresh := hbinds.mem_fresh (hbinds.kind?_of_mem hmem) hnew
    exact mem_map.mpr ⟨_, mem_filter.mpr ⟨hfresh, rfl⟩, rfl⟩

theorem length_links (patterns : List ResolvedPattern) :
    (patterns.flatMap links).length = (patterns.flatMap ResolvedPattern.hops).length := by
  have hlinks (previous : String) (hops : List (ResolvedRelationship × ResolvedNode)) :
      (linksFrom previous hops).length = hops.length := by
    induction hops generalizing previous with
    | nil => rfl
    | cons hop hops ih => rw [linksFrom, length_cons, ih, length_cons]
  induction patterns with
  | nil => rfl
  | cons p patterns ih =>
    rw [flatMap_cons, flatMap_cons, length_append, length_append, ih]
    exact congrArg (· + _) (hlinks _ _)

/-! ### Queries that end in CREATE -/

def PatternElement.entries {ε : Type} : PatternElement ε → List (String × ε)
  | .node _ _ properties => properties.getD []
  | .relationship _ _ _ properties _ => properties.getD []

/-- No element is given one property twice. -/
def Pattern.DistinctKeys {ε : Type} (w : Pattern ε) : Prop :=
  ∀ e ∈ w.elements, (e.entries.map Prod.fst).Nodup

instance {ε : Type} (w : Pattern ε) : Decidable w.DistinctKeys :=
  inferInstanceAs (Decidable (∀ e ∈ w.elements, _))

theorem ResolvedPattern.Reads.distinctKeys {p : ResolvedPattern} {w : Pattern Expr}
    (h : p.Reads w) (hw : w.DistinctKeys) : p.DistinctKeys := by
  have hnode {n : ResolvedNode} {e : PatternElement Expr} (hn : n.Reads e)
      (he : (e.entries.map Prod.fst).Nodup) : (n.properties.map Prod.fst).Nodup := by
    obtain ⟨var, properties, rfl, -, hproperties⟩ := hn
    exact hproperties ▸ he
  have hedge {r : ResolvedRelationship} {e : PatternElement Expr} (hr : r.Reads e)
      (he : (e.entries.map Prod.fst).Nodup) : (r.properties.map Prod.fst).Nodup := by
    obtain ⟨var, properties, rfl, -, hproperties⟩ := hr
    exact hproperties ▸ he
  obtain ⟨e, es, helements, hstart, hhops⟩ := h
  unfold Pattern.DistinctKeys at hw
  rw [helements] at hw
  obtain ⟨he, hes⟩ := forall_mem_cons.mp hw
  refine ⟨hnode hstart he, ?_⟩
  generalize p.hops = hops at hhops ⊢
  clear helements hw
  induction hhops with
  | nil => exact forall_mem_nil _
  | cons hr hn _ ih =>
    obtain ⟨hre, hrest⟩ := forall_mem_cons.mp hes
    obtain ⟨hne, hrest⟩ := forall_mem_cons.mp hrest
    exact forall_mem_cons.mpr ⟨⟨hedge hr hre, hnode hn hne⟩, ih hrest⟩

theorem Query.single_of_create {text : String} {q : Query} (hq : Query.parse text = .ok q)
    (hrq : q.resolve = .ok rq) {cs : List Clause} {ws : List (Pattern Expr)}
    (hlast : q.singles.getLast? = some (cs ++ [.create ws])) :
    q.singles = [cs ++ [.create ws]] ∧ ∃ rs r, rq.branches = [rs ++ [r]] ∧ rq.columns = [] ∧
      Resolve.BranchResolved rq.scopes (cs ++ [.create ws]) (rs ++ [r]) ∧
      Forall₂ (ClauseResolved rq.scopes) cs rs ∧ ClauseResolved rq.scopes (.create ws) r := by
  obtain ⟨init, hsingles⟩ := getLast?_eq_some_iff.mp hlast
  have hbranches := Query.resolve_branches hq hrq
  rw [hsingles] at hbranches
  obtain ⟨bs, b, hbs, hinit, hb⟩ := forall₂_concat hbranches
  obtain ⟨id, hid, hchained, hclauses, hreturn⟩ := id hb
  obtain ⟨rs, r, rfl, hrs, hr⟩ := forall₂_concat hclauses
  have hcolumns : Resolve.columnsOf (rs ++ [r]) = [] := by
    unfold Resolve.columnsOf
    rw [getLast?_concat, Option.map_some]
    cases hr with
    | create body => rw [body]
  obtain ⟨first, rest, hfirst, hcolumns', hrest⟩ := Query.resolve_columns hrq
  rw [hbs] at hfirst
  cases bs with
  | nil =>
    cases hinit
    obtain ⟨rfl, rfl⟩ := List.cons.inj hfirst
    exact ⟨hsingles, rs, r, hbs, hcolumns'.trans hcolumns, hb, hrs, hr⟩
  | cons a bs =>
    obtain ⟨-, rfl⟩ := List.cons.inj hfirst
    obtain ⟨hsame, hne⟩ := hrest (rs ++ [r]) (mem_append_right _ mem_cons_self)
    exact absurd (hsame.symm.trans hcolumns) hne

theorem ResolvedQuery.lower_of_create (hbranches : rq.branches = [rs ++ [r]])
    (hbody : r.body = .create patterns) {lq : LoweredQuery} (hlq : rq.lower ps = .ok lq) :
    ∃ f current k after, clausesTo ⟨rq.scopes, ps⟩ rs none = .ok (f, current) ∧
      LowerClause.create ⟨rq.scopes, ps⟩ r.scopeOut patterns current = .ok (k, after) ∧
      lq.columns = rq.columns ∧
      lq.traversal = rq.joinBranches [f] ++ (k ++ [.barrier, .limit (.literal 0)]) := by
  obtain ⟨-, -, hlq⟩ := bind_eq_ok.mp hlq
  obtain ⟨fs, hfs, hlq⟩ := bind_eq_ok.mp hlq
  cases hlq
  rw [hbranches] at hfs
  obtain ⟨F, _, hF, hnil, rfl⟩ := forall₂_cons_left_iff.mp (mapM_eq_ok.mp hfs)
  cases hnil
  obtain ⟨f, current, k, after, hf, hk, rfl⟩ := branch_concat hF
  rw [clause, hbody] at hk
  refine ⟨f, current, k, after, hf, hk, rfl, ?_⟩
  rw [← ResolvedQuery.joinBranches_append, ResolvedClause.isCreate, hbody]
  rfl

theorem clausesTo_readOnly {env : Env} (hrs : ∀ r ∈ rs, r.isCreate = false)
    (current : Option String) :
    Gives (fun x => ReadsOnly (fun _ => true) x.1) (clausesTo env rs current) := by
  induction rs generalizing current with
  | nil => exact .ok .nil
  | cons r rs ih =>
    obtain ⟨hr, hrest⟩ := forall_mem_cons.mp hrs
    have hclause : Gives (fun x => x.1.ReadsOnly fun _ => true) (clause env r current) :=
      clause_readsOnly (fun _ => rfl) (ResolvedClause.readsKeys_of_forall (fun _ => rfl) hr) current
    exact hclause.bind fun (_, after) hf => (ih hrest after).bind fun _ hh => .ok (hf.append hh)

theorem joinBranches_ne_nil {cs : List Clause} (hbranches : rq.branches = [rs ++ [r]])
    (hresolved : Resolve.BranchResolved rq.scopes cs (rs ++ [r])) (hcs : ∀ c ∈ cs, c.HasPatterns)
    (hr : r.isCreate) {env : Env} {f : Traversal} {current : Option String}
    (hf : clausesTo env rs none = .ok (f, current)) : rq.joinBranches [f] ≠ [] := by
  unfold ResolvedQuery.joinBranches
  rw [hbranches, head?_cons, Option.any_some]
  dsimp only
  split
  · rename_i hmatch
    cases rs with
    | nil =>
      -- CREATE alone does not begin with MATCH
      unfold startsWithMatch at hmatch
      unfold ResolvedClause.isCreate at hr
      split at hr
      · rename_i hbody
        simp [hbody] at hmatch
      · cases hr
    | cons r' rs =>
      obtain ⟨⟨k, after⟩, hk, hf⟩ := bind_eq_ok.mp hf
      obtain ⟨⟨k', after'⟩, -, hf⟩ := bind_eq_ok.mp hf
      cases hf
      obtain ⟨k'', hk''⟩ := hresolved.starts hcs hmatch env none _ hk
      rw [show k = _ from hk'']
      exact cons_ne_nil _ _
  · exact cons_ne_nil _ _

theorem rows_of_execute {front k : Traversal} {g g' : Graph} {values : List Value}
    (hfront : front.ReadsOnly fun _ => true) (hne : front ≠ []) (hk : k.Starts ps) (hrun :
      execute (front ++ (k ++ [.barrier, .limit (.literal 0)])) ps g = (.ok values, g')) :
    values = [] ∧ ∃ R us, (front.run ps front.input).outcome g = (.ok R, g) ∧
      (k.run ps R).outcome g = (.ok us, g') := by
  have hlast : Starts ps [.barrier, .limit (.literal 0)] := rfl
  obtain ⟨rows, h, hrows, hvalues⟩ := of_outcome_bind hrun
  rw [input_append hne, run_append (hk.append hlast)] at hrows
  obtain ⟨R, m, hR, hrest⟩ := of_outcome_bind hrows
  obtain ⟨rfl, -⟩ := (hfront.run_ensures ps g front.input).of_ok rfl hR
  rw [run_append hlast] at hrest
  obtain ⟨us, m', hus, hnone⟩ := of_outcome_bind hrest
  -- no row is left behind the window
  cases hnone
  cases hvalues
  exact ⟨rfl, R, us, hR, hus⟩

theorem execute_of_restricted {f t : Traversal} (ht : t = f ∨ f.restrict = .ok t) {g g' : Graph}
    {values : List Value} (hrun : t.execute ps g = (.ok values, g')) :
    f.execute ps g = (.ok values, g') := by
  rcases ht with rfl | hrestrict
  · exact hrun
  · have halike : EndsAlike (f.execute ps g) (t.execute ps g) :=
      results_alike hrestrict ps g
    rw [hrun] at halike
    cases hf : f.execute ps g with
    | mk answer h =>
      rw [hf] at halike
      cases halike
      rfl

/-- **CREATE has exactly the effect of its patterns.** The query returns nothing. Its other clauses
lead to rows `R` and leave the graph as it is; and if every node variable of these rows stands for a
vertex, then the graph is the old one with one vertex for each row and each new node variable
behind its vertices, and one edge for each row and each hop behind its edges. -/
theorem create_adds_patterns {flavor : Flavor} {text : String} {ps : Parameters} {p : Program}
    (hp : compile flavor text ps = .ok p) {t : Traversal} (ht : p.traversal? = some t) {q : Query}
    (hq : Query.parse text = .ok q) {cs : List Clause} {ws : List (Pattern Expr)}
    (hlast : q.singles.getLast? = some (cs ++ [.create ws]))
    (honly : ∀ c ∈ cs, c.isCreate = false) (hkeys : ∀ w ∈ ws, w.DistinctKeys) {g g' : Graph}
    (hg : g.Sound) (hspan : g'.InSpan) {values : List Value}
    (hrun : t.execute ps g = (.ok values, g')) :
    values = [] ∧ p.columns = [] ∧
    ∃ rq rs r patterns, q.resolve = .ok rq ∧ rq.branches = [rs ++ [r]] ∧
      r.body = .create patterns ∧ List.Forall₂ ResolvedPattern.Reads patterns ws ∧
      let env : Env := ⟨rq.scopes, ps⟩
      let s := rq.scopes.scope r.scopeIn
      let s' := rq.scopes.scope r.scopeOut
      let nodes := patterns.flatMap ResolvedPattern.newNodes
      (nodes.map ResolvedNode.name).Nodup ∧
      (∀ x, x ∈ nodes.map ResolvedNode.name ↔
        (∃ w ∈ patterns, x ∈ w.nodes.map ResolvedNode.name) ∧ x ∉ s.names) ∧
      ∃ f current R, clausesTo env rs none = .ok (f, current) ∧
        ((rq.joinBranches [f]).run ps (rq.joinBranches [f]).input).outcome g = (.ok R, g) ∧
        ((∀ t ∈ R, t.CarriesNodes s.bindings) → ∃ us,
          Creates (env.context s' none "CREATE") s.names s'.names nodes
            (patterns.flatMap ResolvedPattern.links) g g' R us ∧
          g'.vertices.length = g.vertices.length + R.length * nodes.length ∧
          g'.edges.length =
            g.edges.length + R.length * (patterns.flatMap ResolvedPattern.hops).length) := by
  obtain ⟨q', rq, lq, hq', hrq, hlq, -, hcolumns, -, htraversal⟩ := compile_eq_ok hp
  cases hq.symm.trans hq'
  obtain ⟨hsingles, rs, r, hbranches, hnone, hresolved, hrs, hr⟩ :=
    Query.single_of_create hq hrq hlast
  have hreads : ∀ r ∈ rs, r.isCreate = false := by
    intro r hr
    obtain ⟨c, hc, hcr⟩ := mem_of_forall₂ hrs hr
    rw [hcr.isCreate_eq]
    exact honly c hc
  have hcreate : r.isCreate := hr.isCreate_eq
  cases hr with
  | @create r ws patterns s s' body scopeIn scopeOut reads binds new =>
    obtain ⟨f, current, k, after, hf, hk, hlqcolumns, hlqtraversal⟩ :=
      ResolvedQuery.lower_of_create hbranches body hlq
    have hin : rq.scopes.scope r.scopeIn = s := Resolve.scope_of_getElem? scopeIn
    have hout : rq.scopes.scope r.scopeOut = s' := Resolve.scope_of_getElem? scopeOut
    have hdistinct : ∀ w ∈ patterns, w.DistinctKeys := by
      intro w hw
      obtain ⟨w', hw', hread⟩ := mem_of_forall₂ reads.flip hw
      exact Reads.distinctKeys hread (hkeys w' hw')
    have hmakes : Makes (Env.context ⟨rq.scopes, ps⟩ (rq.scopes.scope r.scopeOut) none "CREATE")
        { s with parent := some r.scopeIn } s' _ _ k :=
      create_makes hdistinct new binds current (k, after) hk
    have hfront : (rq.joinBranches [f]).ReadsOnly fun _ => true :=
      (LowersInto.reads _).joinBranches rq (List.forall_mem_singleton.mpr
        (clausesTo_readOnly hreads none _ hf))
    have hpatterns : ∀ c ∈ cs ++ [.create ws], c.HasPatterns := fun c hc =>
      (Query.clauses_alternate hq _ (hsingles ▸ List.mem_cons_self) c hc).hasPatterns
    have hne := joinBranches_ne_nil hbranches hresolved hpatterns hcreate hf
    have hexecute := execute_of_restricted (htraversal t ht) hrun
    rw [hlqtraversal] at hexecute
    obtain ⟨hvalues, R, us, hR, hus⟩ := rows_of_execute hfront hne hmakes.starts hexecute
    refine ⟨hvalues, ?_, rq, rs, r, patterns, hrq, hbranches, body, reads, ?_, ?_, f, current, R,
      hf, hR, fun hcarries => ?_⟩
    · rw [hcolumns, hlqcolumns, hnone]
    · rw [newNodes_eq]
      exact (List.Sublist.map _ List.filter_sublist).nodup binds.fresh_nodup.1
    · intro x
      rw [hin, newNodes_eq]
      exact mem_newNodes binds
    · rw [hin] at hcarries ⊢
      rw [hout]
      rw [hout] at hmakes
      obtain ⟨hcreates, -⟩ := hmakes.creates hg hspan hcarries hus
      have hlength := hcreates.rows.length_eq
      obtain ⟨vs, hvs, hnodes⟩ := hcreates.vertices
      obtain ⟨es, hes, hlinks⟩ := hcreates.edges
      refine ⟨us, hcreates, ?_, ?_⟩
      · rw [hvs, List.length_append, hnodes.length_eq hlength]
      · rw [hes, List.length_append, hlinks.length_eq hlength, length_links]

theorem notes_are_added :
    let text := "MATCH (a:person)
      CREATE (a)-[:wrote \x7bat: a.age\x7d]->(n:note \x7bby: a.name, in: a.lang\x7d)"
    ∃ p t g' c before after nodes links, ∃ R us : List Traverser,
      compile .native text [] = .ok p ∧ p.traversal? = some t ∧ Graph.modern.Sound ∧ g'.InSpan ∧
      t.execute [] .modern = (.ok [], g') ∧ p.columns = [] ∧ R.length = 4 ∧
      Creates c before after nodes links .modern g' R us ∧ g'.vertices.length = 10 ∧
      g'.edges.length = 10 := by
  intro text
  obtain ⟨q, hq, cs, hcs, c, hc, hcreate, honly, hkeys⟩ : ∃ q, Query.parse text = .ok q ∧
      ∃ cs, q.singles.getLast? = some cs ∧ ∃ c, cs.getLast? = some c ∧ c.isCreate ∧
      (∀ c ∈ cs.dropLast, c.isCreate = false) ∧ ∀ w ∈ c.patterns, w.DistinctKeys := by
    decide +kernel
  obtain ⟨_, hq', rq, hrq, ⟨rs, hbranch, x, hx, R, hR, hrows, hcarries⟩, lq, hlq, values, hvalues,
      hsizes⟩ : ∃ q, Query.parse text = .ok q ∧ ∃ rq, q.resolve = .ok rq ∧
      (∃ rs, rq.branches.head? = some rs ∧
        ∃ x, clausesTo ⟨rq.scopes, []⟩ rs.dropLast none = .ok x ∧
        ∃ R, (((rq.joinBranches [x.1]).run [] (rq.joinBranches [x.1]).input).outcome .modern).1 =
          .ok R ∧ R.length = 4 ∧
        ∀ r ∈ rs.getLast?, ∀ t ∈ R, t.CarriesNodes (rq.scopes.scope r.scopeIn).bindings) ∧
      ∃ lq, rq.lower [] = .ok lq ∧ let run := lq.traversal.execute [] .modern
        ∃ values, run.1 = .ok values ∧ (run.2.vertices.length, run.2.edges.length) = (10, 10) := by
    decide +kernel
  obtain ⟨hvertices, hedges⟩ := Prod.mk.inj hsizes
  cases hq.symm.trans hq'
  have hp : compile .native text [] = .ok ⟨.native lq.traversal, [], lq.columns⟩ :=
    bind_eq_ok.mpr ⟨q, hq, bind_eq_ok.mpr ⟨rq, hrq, bind_eq_ok.mpr ⟨lq, hlq, rfl⟩⟩⟩
  rw [← List.dropLast_append_getLast? c hc] at hcs
  cases c with
  | create ws =>
    have hspan : Graph.InSpan (lq.traversal.execute [] .modern).2 := by
      constructor
      · rw [hvertices]
        decide
      · rw [hedges]
        decide
    obtain ⟨hnone, hcolumns, rq', rs', r, patterns, hrq', hbranches, hbody, hreads, -, -, f,
      current, R', hf, hR', hcreates⟩ := create_adds_patterns hp rfl hq hcs honly hkeys
        Graph.modern_sound hspan (Prod.ext hvalues rfl)
    cases hrq.symm.trans hrq'
    rw [hbranches] at hbranch
    cases hbranch
    rw [List.dropLast_concat] at hx
    cases hx.symm.trans hf
    rw [hR'] at hR
    cases hR
    obtain ⟨us, hcreates, -, -⟩ := hcreates (hcarries r (by rw [List.getLast?_concat]; rfl))
    exact ⟨_, _, _, _, _, _, _, _, R, us, hp, rfl, Graph.modern_sound, hspan,
      Prod.ext (hvalues.trans (congrArg _ hnone)) rfl, hcolumns, hrows, hcreates, hvertices, hedges⟩
  | _ => cases hcreate

end CypherTraversal
