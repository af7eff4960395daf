import CypherTraversal.Proofs.Patterns.Elements
import CypherTraversal.Proofs.Resolved.Checked

/-! # MATCH enumerates the matches of its patterns

The steps of the elements of a pattern run one after another, and so do those of several patterns.
Every row that comes in is extended in all ways that match the patterns, each once, and a row has
the extensions in its place. -/

namespace CypherTraversal

open Run LowerClause List ResolvedPattern Traversal

variable {g : Graph} {hops : List (ResolvedRelationship × ResolvedNode)} {p q : Place}
  {ps : Parameters} {r : ResolvedRelationship} {w : ResolvedPattern} {ws : List ResolvedPattern}

/-- One label a node at most, and property values that are known beforehand. -/
structure ResolvedPattern.Plain (p : ResolvedPattern) (ps : Parameters) : Prop where
  labels : ∀ n ∈ p.nodes, n.labels.length ≤ 1
  nodes : ∀ n ∈ p.nodes, ∀ entry ∈ n.properties, (entry.2.known? ps).isSome
  relationships : ∀ h ∈ p.hops, ∀ entry ∈ h.1.properties, (entry.2.known? ps).isSome

instance (p : ResolvedPattern) (ps : Parameters) : Decidable (p.Plain ps) :=
  decidable_of_iff
    ((∀ n ∈ p.nodes, n.labels.length ≤ 1) ∧
      (∀ n ∈ p.nodes, ∀ entry ∈ n.properties, (entry.2.known? ps).isSome) ∧
      ∀ h ∈ p.hops, ∀ entry ∈ h.1.properties, (entry.2.known? ps).isSome)
    ⟨fun ⟨h₁, h₂, h₃⟩ => ⟨h₁, h₂, h₃⟩, fun ⟨h₁, h₂, h₃⟩ => ⟨h₁, h₂, h₃⟩⟩

theorem LowerClause.Follows.atVertex (hg : g.WellFormed) (h : Follows g ps r p q) :
    q.AtVertex g := by
  obtain ⟨a, e, b, -, ⟨⟨x, hx, -, hjoins⟩, -⟩, hq, -⟩ := h
  obtain ⟨hsource, htarget⟩ := hg.ends x (mem_of_find?_eq_some hx)
  refine ⟨b, hq, ?_⟩
  revert hjoins
  cases r.direction with
  | outgoing =>
    rintro ⟨-, rfl⟩
    exact htarget
  | incoming =>
    rintro ⟨-, rfl⟩
    exact hsource
  | both =>
    rintro (⟨-, rfl⟩ | ⟨-, rfl⟩)
    · exact htarget
    · exact hsource

theorem LowerClause.GoesTo.atVertex {n : ResolvedNode} (h : GoesTo g ps n p q) : q.AtVertex g := by
  obtain ⟨v, hfits, hq, -⟩ := h
  exact ⟨v, hq, hfits.isSome⟩

section

variable {env : Env} {scope s s' : Scope} {g : Graph}

/-! ### Hops -/

def FollowsHops (g : Graph) (ps : Parameters) (hops : List (ResolvedRelationship × ResolvedNode))
    (p q : Place) : Prop :=
  Grows (hopBindings hops) p.2 q.2 ∧
    ∃ a b, p.1 = .vertex a ∧ q.1 = .vertex b ∧ HopsLead g ps (fun x => q.2.lookup x) a hops b

theorem followsHops_cons_iff {n : ResolvedNode} (hs : s.Binds (hopBindings ((r, n) :: hops)) s') :
    (∃ m, (∃ l, Follows g ps r p l ∧ m.1 = l.1 ∧ GoesTo g ps n l m) ∧ FollowsHops g ps hops m q) ↔
      FollowsHops g ps ((r, n) :: hops) p q := by
  have hs' : s.Binds ([r.binding] ++ n.binding :: hopBindings hops) s' := hs
  obtain ⟨s₁, -, hrest⟩ := hs'.of_append
  constructor
  · rintro ⟨m, ⟨l, ⟨a, e, c, hp, hjoins, hl, hedge⟩, hml, v, hfits, hm, hvertex⟩, hgrows, v', b,
      hm', hq, hlead⟩
    cases hm.symm.trans (hml.trans hl)
    cases hm.symm.trans hm'
    obtain ⟨hgrows, hvertex⟩ := (labelled_grows_iff hrest).mp ⟨m.2, hvertex, hgrows⟩
    obtain ⟨hgrows, hedge⟩ := (labelled_grows_iff hs).mp ⟨l.2, hedge, hgrows⟩
    exact ⟨hgrows, a, b, hp, hq, e, c, hjoins, hedge, hfits, hvertex, hlead⟩
  · rintro ⟨hgrows, a, b, hp, hq, e, c, hjoins, hedge, hfits, hvertex, hlead⟩
    obtain ⟨l, hedge, hgrows⟩ := (labelled_grows_iff hs).mpr ⟨hgrows, hedge⟩
    obtain ⟨m, hvertex, hgrows⟩ := (labelled_grows_iff hrest).mpr ⟨hgrows, hvertex⟩
    exact ⟨(.vertex c, m), ⟨(.vertex c, l), ⟨a, e, c, hp, hjoins, rfl, hedge⟩, rfl, c, hfits, rfl,
      hvertex⟩, hgrows, c, b, rfl, hq, hlead⟩

theorem matchHops_enumerates (hg : g.WellFormed) (hlabels : ∀ h ∈ hops, h.2.labels.length ≤ 1)
    (hnodes : ∀ h ∈ hops, ∀ entry ∈ h.2.properties, (entry.2.known? env.parameters).isSome)
    (hrelationships : ∀ h ∈ hops, ∀ entry ∈ h.1.properties, (entry.2.known? env.parameters).isSome)
    (hscope : ∀ b ∈ hopBindings hops, scope.isElement b.1.name)
    (hs : s.Binds (hopBindings hops) s') :
    ∃ fs, hops.mapM (matchHop env scope) = .ok fs ∧
      Enumerates env.parameters g (Place.AtVertex g) fs.flatten
        (FollowsHops g env.parameters hops) := by
  induction hops generalizing s with
  | nil =>
    refine ⟨[], rfl, Enumerates.nil.congr fun p q hp => ?_⟩
    obtain ⟨v, hv, -⟩ := hp
    constructor
    · rintro rfl
      exact ⟨rfl, v, v, hv, hv, rfl⟩
    · rintro ⟨hgrows, a, b, hp, hq, rfl⟩
      exact Prod.ext (hq.trans hp.symm) hgrows
  | cons hop hops ih =>
    obtain ⟨r, n⟩ := hop
    obtain ⟨hlabel, hlabels⟩ := forall_mem_cons.mp hlabels
    obtain ⟨hnode, hnodes⟩ := forall_mem_cons.mp hnodes
    obtain ⟨hrelationship, hrelationships⟩ := forall_mem_cons.mp hrelationships
    obtain ⟨hscopeEdge, hscope⟩ := forall_mem_cons.mp hscope
    obtain ⟨hscopeNode, hscope⟩ := forall_mem_cons.mp hscope
    have hs' : s.Binds ([r.binding, n.binding] ++ hopBindings hops) s' := hs
    obtain ⟨s₁, -, hrest⟩ := hs'.of_append
    obtain ⟨f, hf, hedge⟩ := matchRelationship_enumerates hscopeEdge hrelationship hg
    obtain ⟨h, hh, hend⟩ := matchNode_end hscopeNode hnode hlabel (g := g)
    obtain ⟨fs, hfs, hhops⟩ := ih hlabels hnodes hrelationships hscope hrest
    refine ⟨(f ++ h) :: fs, ?_, ?_⟩
    · rw [mapM_cons, matchHop, hf, hh, hfs]
      rfl
    · have hone := hedge.append hend (fun p q _ h => h.atVertex hg)
        fun p q _ h => h.2.choose_spec.2.2.grows.exists_append
      have hall := hone.append hhops (fun p q _ ⟨l, _, _, h⟩ => h.atVertex)
        fun p q _ h => h.1.exists_append
      exact hall.congr fun p q _ => followsHops_cons_iff hs

/-! ### Patterns -/

def FollowsPattern (g : Graph) (ps : Parameters) (w : ResolvedPattern) (p q : Place) : Prop :=
  Grows w.bindings p.2 q.2 ∧ ∃ b, q.1 = .vertex b ∧ w.EndsAt g ps (fun x => q.2.lookup x) b

theorem followsPattern_iff (hs : s.Binds w.bindings s') :
    (∃ m, GoesTo g ps w.start p m ∧ FollowsHops g ps w.hops m q) ↔ FollowsPattern g ps w p q := by
  constructor
  · rintro ⟨m, ⟨v, hfits, hm, hvertex⟩, hgrows, a, b, hm', hq, hlead⟩
    cases hm.symm.trans hm'
    obtain ⟨hgrows, hvertex⟩ := (labelled_grows_iff hs).mp ⟨m.2, hvertex, hgrows⟩
    exact ⟨hgrows, b, hq, v, hfits, hvertex, hlead⟩
  · rintro ⟨hgrows, b, hq, v, hfits, hvertex, hlead⟩
    obtain ⟨m, hvertex, hgrows⟩ := (labelled_grows_iff hs).mpr ⟨hgrows, hvertex⟩
    exact ⟨(.vertex v, m), ⟨v, hfits, rfl, hvertex⟩, hgrows, v, b, rfl, hq, hlead⟩

theorem matchPattern_enumerates (hg : g.WellFormed) (hw : w.Plain env.parameters)
    (hscope : ∀ b ∈ w.bindings, scope.isElement b.1.name) (hs : s.Binds w.bindings s') :
    ∃ f, matchPattern env scope w = .ok f ∧
      f.Enumerates env.parameters g (Place.Carries g s) (FollowsPattern g env.parameters w) := by
  obtain ⟨hlabel, hlabels⟩ := forall_mem_cons.mp hw.labels
  obtain ⟨hnode, hnodes⟩ := forall_mem_cons.mp hw.nodes
  rw [forall_mem_map] at hlabels hnodes
  obtain ⟨hscopeNode, hscope⟩ := forall_mem_cons.mp hscope
  have hs' : s.Binds ([w.start.binding] ++ hopBindings w.hops) s' := hs
  obtain ⟨s₁, hstart, hrest⟩ := hs'.of_append
  obtain ⟨f, hf, hgoes⟩ := matchNode_start hscopeNode hnode hlabel hg hstart
  obtain ⟨fs, hfs, hhops⟩ :=
    matchHops_enumerates hg hlabels hnodes hw.relationships hscope hrest
  refine ⟨f ++ fs.flatten, ?_, ?_⟩
  · rw [matchPattern, hf]
    rw [hfs]
    rfl
  · have hall := hgoes.append hhops (fun p q _ h => h.atVertex) fun p q _ h => h.1.exists_append
    exact hall.congr fun p q _ => followsPattern_iff hs

theorem FollowsPattern.carries (h : FollowsPattern g ps w p q) (hs : s.Binds w.bindings s')
    (hp : p.Carries g s) : q.Carries g s' := by
  obtain ⟨hgrows, b, hq, hends⟩ := h
  have hselected (x : String) : q.selected x = q.2.lookup x := by rw [Place.selected, hq]
  intro x hx
  rw [hselected]
  rcases hs.kind?_cases hx with hx | ⟨c, hc, hcx⟩
  · obtain ⟨v, hv, hlookup, -⟩ := hp x hx
    rw [hgrows.lookup hs (Scope.mem_names_of_kind? hx)]
    exact ⟨v, hv, hlookup, hlookup⟩
  · obtain ⟨v, hlookup, hv⟩ := hends.nodes hc (congrArg Binding.kind hcx)
    rw [hcx] at hlookup
    exact ⟨v, hv, hlookup, hlookup⟩

/-! ### Several patterns -/

def PatternsEndAt (g : Graph) (ps : Parameters) (ρ : Assignment) :
    Object → List ResolvedPattern → Object → Prop
  | x, [], y => y = x
  | _, w :: ws, y => ∃ b, w.EndsAt g ps ρ b ∧ PatternsEndAt g ps ρ (.vertex b) ws y

theorem exists_patternsEndAt_iff {ρ : Assignment} {x : Object} :
    (∃ y, PatternsEndAt g ps ρ x ws y) ↔ ∀ w ∈ ws, w.Matches g ps ρ := by
  induction ws generalizing x with
  | nil => exact ⟨fun _ => forall_mem_nil _, fun _ => ⟨x, rfl⟩⟩
  | cons w ws ih =>
    rw [forall_mem_cons]
    constructor
    · rintro ⟨y, b, hb, h⟩
      exact ⟨⟨b, hb⟩, ih.mp ⟨y, h⟩⟩
    · rintro ⟨⟨b, hb⟩, h⟩
      obtain ⟨y, hy⟩ := ih.mpr h
      exact ⟨y, b, hb, hy⟩

def FollowsPatterns (g : Graph) (ps : Parameters) (ws : List ResolvedPattern) (p q : Place) :
    Prop :=
  Grows (ws.flatMap ResolvedPattern.bindings) p.2 q.2 ∧
    PatternsEndAt g ps (fun x => q.2.lookup x) p.1 ws q.1

theorem followsPatterns_cons_iff {m : Scope} (hs : s.Binds w.bindings m)
    (hs' : m.Binds (ws.flatMap bindings) s') :
    (∃ l, FollowsPattern g ps w p l ∧ FollowsPatterns g ps ws l q) ↔
      FollowsPatterns g ps (w :: ws) p q := by
  -- the other patterns do not change what the names of the first one stand for
  have hstable {l : Labels} (h : Grows (ws.flatMap bindings) l q.2) :
      ∀ c ∈ w.bindings, q.2.lookup c.1.name = l.lookup c.1.name :=
    fun c hc => h.lookup hs' (Scope.mem_names_of_kind? (hs.kind?_of_mem hc))
  constructor
  · rintro ⟨l, ⟨hgrows, b, hl, hends⟩, hgrows', hrest⟩
    rw [hl] at hrest
    exact ⟨grows_append_iff.mpr ⟨l.2, hgrows, hgrows'⟩, b,
      hends.congr fun c hc => (hstable hgrows' c hc).symm, hrest⟩
  · rintro ⟨hgrows, b, hends, hrest⟩
    obtain ⟨l, hgrows, hgrows'⟩ := grows_append_iff.mp hgrows
    exact ⟨(.vertex b, l), ⟨hgrows, b, rfl, hends.congr (hstable hgrows')⟩, hgrows', hrest⟩

theorem matchPatterns_enumerate (hg : g.WellFormed) (hws : ∀ w ∈ ws, w.Plain env.parameters)
    (hscope : ∀ b ∈ ws.flatMap bindings, scope.isElement b.1.name)
    (hs : s.Binds (ws.flatMap bindings) s') :
    ∃ fs, ws.mapM (matchPattern env scope) = .ok fs ∧
      Enumerates env.parameters g (Place.Carries g s) fs.flatten
        (FollowsPatterns g env.parameters ws) := by
  induction ws generalizing s with
  | nil =>
    refine ⟨[], rfl, Enumerates.nil.congr fun p q _ => ?_⟩
    constructor
    · rintro rfl
      exact ⟨rfl, rfl⟩
    · rintro ⟨hgrows, hend⟩
      exact Prod.ext hend hgrows
  | cons w ws ih =>
    obtain ⟨hw, hws⟩ := forall_mem_cons.mp hws
    obtain ⟨hscope, hscope'⟩ := forall_mem_append.mp hscope
    obtain ⟨m, hs, hs'⟩ := Scope.Binds.of_append hs
    obtain ⟨f, hf, hpattern⟩ := matchPattern_enumerates hg hw hscope hs
    obtain ⟨fs, hfs, hpatterns⟩ := ih hws hscope' hs'
    refine ⟨f :: fs, ?_, ?_⟩
    · rw [mapM_cons, hf, hfs]
      rfl
    · have hall := hpattern.append hpatterns (fun p q hp h => h.carries hs hp)
        fun p q _ h => h.1.exists_append
      exact hall.congr fun p q _ => followsPatterns_cons_iff hs hs'

end

/-! ### Clauses -/

theorem ResolvedPattern.binding_isElement {b : ElementBinding} (hb : b ∈ w.bindings) :
    b.1.kind.isElement := by
  rcases mem_cons.mp hb with rfl | hb
  · rfl
  · obtain ⟨hop, -, hb⟩ := mem_flatMap.mp hb
    rcases mem_pair.mp hb with rfl | rfl
    · rfl
    · rfl

theorem Scope.Binds.names_eq_iff {s s' : Scope} {bs : List ElementBinding} (h : s.Binds bs s')
    {names : List String} : s'.names = s.names ++ names.reverse ↔ names = newLabels bs := by
  rw [h.names_eq, append_cancel_left_eq, newLabels, ← reverse_eq_iff, eq_comm]

theorem exists_followsPatterns_iff {s s' : Scope}
    (hs : s.Binds (ws.flatMap bindings) s') {path : Labels} :
    (∃ y, FollowsPatterns g ps ws p (y, path)) ↔
      ∃ σ : Labels, path = σ ++ p.2 ∧ s'.names = s.names ++ (σ.map Prod.fst).reverse ∧
        ∀ w ∈ ws, w.Matches g ps fun x => path.lookup x := by
  unfold FollowsPatterns
  simp only [exists_and_left, exists_patternsEndAt_iff, grows_iff, hs.names_eq_iff]
  constructor
  · rintro ⟨⟨σ, hpath, hσ⟩, h⟩
    exact ⟨σ, hpath, hσ, h⟩
  · rintro ⟨σ, hpath, hσ, h⟩
    exact ⟨⟨σ, hpath, hσ⟩, h⟩

theorem LowerClause.read_eq_ok {env : Env} {id : ScopeId} {patterns : List ResolvedPattern}
    {filter : Option Expr} {current : Option String} {fs : List Traversal} {h : Traversal}
    (hfs : patterns.mapM (matchPattern env (env.scopes.scope id)) = .ok fs)
    (hh : filterOf (env.context (env.scopes.scope id) (lastOf current patterns) "WHERE") filter =
      .ok h) :
    read env id patterns filter current = .ok (fs.flatten ++ h, lastOf current patterns) :=
  bind_eq_ok.mpr ⟨fs, hfs, bind_eq_ok.mpr ⟨h, hh, rfl⟩⟩

theorem Query.resolve_clause {text : String} {q : Query} (hq : Query.parse text = .ok q)
    {rq : ResolvedQuery} (hrq : q.resolve = .ok rq) {i j : Nat} {r : ResolvedClause}
    (hr : (rq.branches[i]?.bind fun rs => rs[j]?) = some r) :
    ∃ c, (q.singles[i]?.bind fun cs => cs[j]?) = some c ∧ ClauseResolved rq.scopes c r := by
  obtain ⟨rs, hrs, hr⟩ := Option.bind_eq_some_iff.mp hr
  obtain ⟨cs, hcs, -, -, -, hresolved, -⟩ := getElem?_of_forall₂ (Query.resolve_branches hq hrq) hrs
  obtain ⟨c, hc, hcr⟩ := getElem?_of_forall₂ hresolved hr
  exact ⟨c, Option.bind_eq_some_iff.mpr ⟨cs, hcs, hc⟩, hcr⟩

theorem Place.selected_of_outcome {t : Traverser} {x : String} {y : Object}
    (h : (run ps [.select x] [t]).outcome g = (.ok [t.moveTo y], g)) :
    t.place.selected x = some y := by
  have hselect : Passes ps g [.select x] _ _ :=
    .moveIn (f := fun _ t => t.place.selected x) rfl
  rw [hselect.sends.one trivial] at h
  cases hx : t.place.selected x with
  | none =>
    rw [hx] at h
    cases h
  | some z =>
    rw [hx] at h
    have hmove : [t.moveTo z] = [t.moveTo y] := Except.ok.inj (Prod.ext_iff.mp h).1
    exact congrArg some (congrArg Traverser.object (singleton_inj.mp hmove))

/-- **MATCH enumerates exactly the matches of its patterns.** Let the rows that come in have the
nodes in scope labelled, and let selecting a node go to its vertex. Then the steps of the patterns
send the rows, one after another, to the extensions of their paths that have the new names as labels
and match all patterns. Every extension is found once, and the graph stays as it is. -/
theorem match_enumerates_matches {text : String} {q : Query} (hq : Query.parse text = .ok q)
    {rq : ResolvedQuery} (hrq : q.resolve = .ok rq) {i j : Nat} {r : ResolvedClause}
    (hr : (rq.branches[i]?.bind fun rs => rs[j]?) = some r) {patterns : List ResolvedPattern}
    {filter : Option Expr} (hbody : r.body = .read patterns filter) {ps : Parameters}
    (hplain : ∀ w ∈ patterns, w.Plain ps) {g : Graph} (hg : g.WellFormed) {ts : List Traverser}
    (hts : ∀ t ∈ ts, ∀ x, (rq.scopes.scope r.scopeIn).kind? x = some .node →
      ∃ v, (g.vertex? v).isSome ∧ t.labelled? x = some (.vertex v) ∧
        (Traversal.run ps [.select x] [t]).outcome g = (.ok [t.moveTo (.vertex v)], g))
    (current : Option String) :
    let env : Env := ⟨rq.scopes, ps⟩
    let scope := rq.scopes.scope r.scopeOut
    (∃ ws, (q.singles[i]?.bind fun cs => cs[j]?) = some (.read false ws filter) ∧
      List.Forall₂ ResolvedPattern.Reads patterns ws) ∧
    ∃ f, LowerClause.read env r.scopeOut patterns none current = .ok (f, lastOf current patterns) ∧
      (∀ h, filterOf (env.context scope (lastOf current patterns) "WHERE") filter = .ok h →
        LowerClause.clause env r current = .ok (f ++ h, lastOf current patterns)) ∧
      ∃ F : Traverser → List Traverser,
        (f.run ps ts).outcome g = (.ok (ts.flatMap F), g) ∧
        ∀ t ∈ ts, ((F t).map Traverser.path).Nodup ∧
          ∀ path, path ∈ (F t).map Traverser.path ↔
            ∃ σ : Labels, path = σ ++ t.path ∧
              scope.names = (rq.scopes.scope r.scopeIn).names ++ (σ.map Prod.fst).reverse ∧
              ∀ w ∈ patterns, w.Matches g ps fun x => path.lookup x := by
  intro env scope
  obtain ⟨c, hc, hresolved⟩ := Query.resolve_clause hq hrq hr
  cases hresolved with
  | create body => cases hbody.symm.trans body
  | unwind body => cases hbody.symm.trans body
  | project body => cases hbody.symm.trans body
  | @read r ws filter' patterns' s s' body scopeIn scopeOut reads binds =>
    cases hbody.symm.trans body
    have hin : rq.scopes.scope r.scopeIn = s := Resolve.scope_of_getElem? scopeIn
    have hout : scope = s' := Resolve.scope_of_getElem? scopeOut
    have hscope : ∀ b ∈ patterns.flatMap bindings, scope.isElement b.1.name := by
      intro b hb
      obtain ⟨w, -, hw⟩ := List.mem_flatMap.mp hb
      rw [hout, Scope.isElement, binds.kind?_of_mem hb]
      exact binding_isElement hw
    have hcarries (t : Traverser) (ht : t ∈ ts) : t.place.Carries g s := by
      intro x hx
      obtain ⟨v, hv, hlabelled, hselect⟩ := hts t ht x (hin ▸ hx)
      exact ⟨v, hv, hlabelled, Place.selected_of_outcome hselect⟩
    obtain ⟨fs, hfs, henumerates⟩ : ∃ fs, patterns.mapM (matchPattern env scope) = .ok fs ∧ _ :=
      matchPatterns_enumerate hg hplain hscope binds
    obtain ⟨F, hF, hplaces⟩ := henumerates.sends
    refine ⟨⟨ws, hc, reads⟩, fs.flatten, ?_, fun h hh => ?_, F, hF ts hcarries, fun t ht => ?_⟩
    · rw [read_eq_ok hfs rfl, List.append_nil]
    · rw [clause, body]
      exact read_eq_ok hfs hh
    · obtain ⟨hpaths, hplaces⟩ := hplaces t (hcarries t ht)
      refine ⟨hpaths, fun path => ?_⟩
      rw [hin, hout]
      constructor
      · intro h
        obtain ⟨u, hu, rfl⟩ := List.mem_map.mp h
        exact (exists_followsPatterns_iff binds).mp
          ⟨u.object, (hplaces u.place).mp (List.mem_map_of_mem hu)⟩
      · intro h
        obtain ⟨y, hy⟩ := (exists_followsPatterns_iff (p := t.place) binds).mpr h
        obtain ⟨u, hu, hplace⟩ := List.mem_map.mp ((hplaces (y, path)).mpr hy)
        exact List.mem_map.mpr ⟨u, hu, congrArg Prod.snd hplace⟩

theorem coauthors_are_enumerated :
    let text := "MATCH (a:person) MATCH (a)-[:created]->(b \x7blang: $l\x7d), (b)-[r]-(c) RETURN c"
    let ps : Parameters := [("l", .str "java")]
    let row (i : Nat) : Traverser := { object := .vertex ⟨i⟩, path := [("a", .vertex ⟨i⟩)] }
    ∃ q rq r patterns filter f, ∃ F : Traverser → List Traverser,
      Query.parse text = .ok q ∧ q.resolve = .ok rq ∧
      (rq.branches[0]?.bind fun rs => rs[1]?) = some r ∧ r.body = .read patterns filter ∧
      LowerClause.read ⟨rq.scopes, ps⟩ r.scopeOut patterns none (some "a") =
        .ok (f, lastOf (some "a") patterns) ∧
      (f.run ps [row 1, row 4]).outcome .modern = (.ok ([row 1, row 4].flatMap F), .modern) ∧
      ∀ t ∈ [row 1, row 4], ((F t).map Traverser.path).Nodup ∧
        ∀ path, path ∈ (F t).map Traverser.path ↔
          ∃ σ : Labels, path = σ ++ t.path ∧
            (rq.scopes.scope r.scopeOut).names =
              (rq.scopes.scope r.scopeIn).names ++ (σ.map Prod.fst).reverse ∧
            ∀ w ∈ patterns, w.Matches .modern ps fun x => path.lookup x := by
  intro text ps row
  obtain ⟨q, hq, rq, hrq, r, hr, hread, hplain, hbindings⟩ : ∃ q, Query.parse text = .ok q ∧
      ∃ rq, q.resolve = .ok rq ∧ ∃ r, (rq.branches[0]?.bind fun rs => rs[1]?) = some r ∧
      r.body.ctorIdx = 0 ∧ (∀ w ∈ r.patterns, w.Plain ps) ∧
      (rq.scopes.scope r.scopeIn).bindings = [⟨"a", .node⟩] := by decide +kernel
  unfold ResolvedClause.patterns at hplain
  cases hbody : r.body with
  | read patterns filter =>
    rw [hbody] at hplain
    have hrows : ∀ t ∈ [row 1, row 4], ∀ x, (rq.scopes.scope r.scopeIn).kind? x = some .node →
        ∃ v, (Graph.modern.vertex? v).isSome ∧ t.labelled? x = some (.vertex v) ∧
          (run ps [.select x] [t]).outcome .modern = (.ok [t.moveTo (.vertex v)], .modern) := by
      intro t ht x hx
      obtain rfl : x = "a" := by
        have hx := Scope.mem_names_of_kind? hx
        rw [Scope.names, hbindings] at hx
        exact List.mem_singleton.mp hx
      rcases List.mem_pair.mp ht with rfl | rfl
      · exact ⟨⟨1⟩, by decide, rfl, rfl⟩
      · exact ⟨⟨4⟩, by decide, rfl, rfl⟩
    have hmodern : Graph.modern.WellFormed := ⟨by decide, by decide, by decide⟩
    obtain ⟨-, f, hf, -, F, hrun, hF⟩ :=
      match_enumerates_matches hq hrq hr hbody hplain hmodern hrows (some "a")
    exact ⟨q, rq, r, patterns, filter, f, F, hq, hrq, hr, hbody, hf, hrun, hF⟩
  | _ =>
    rw [hbody] at hread
    cases hread

end CypherTraversal
