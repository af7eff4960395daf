import CypherTraversal.Proofs.Bindings.Rows
import CypherTraversal.Proofs.Patterns.Elements

/-! # Rows through patterns

MATCH and CREATE take the rows of a scope to the rows of the scope that their patterns bind: each
element that is new is labelled when the row is at it, and an element that was bound stays where its
label says. MATCH leaves a row at its last node, and CREATE at the element that it makes last. -/

namespace CypherTraversal

open Run Traverser LowerClause List Traversal

variable {f : Traversal} {previous : String} {S : Traverser → Prop} {entries : List (String × Expr)}
  {hop : ResolvedRelationship × ResolvedNode} {n : ResolvedNode} {p : ResolvedPattern}
  {patterns : List ResolvedPattern} {ok : String → Bool} {ps : Parameters} {k : Kind}
  {bs : List Binding} {s s' : Scope} {name : String}
-- What is asked of where a row is, given the variable whose object it is at.
variable {H : Option String → Traverser → Prop} {here : Option String} {filter : Option Expr}

/-! ### Where rows are -/

def Traverser.At (here : Option String) (t : Traverser) : Prop :=
  match here with
  | some x => t.labelled? x = some t.object
  | none => Process.identifier? t.object = none

def ResolvedPattern.created (here : Option String) (p : ResolvedPattern) : Option String :=
  match p.hops.getLast? with
  | some (r, _) => some r.name
  | none => if p.start.bound then here else some p.start.name

/-- A row that `H` holds of, given where it is. -/
abbrev Traverser.RowWhere (ok : String → Bool) (H : Option String → Traverser → Prop) (s : Scope)
    (here : Option String) (t : Traverser) : Prop :=
  t.Row ok s.bindings ∧ H here t

/-- A row at the object of a variable. -/
abbrev Traverser.RowOn (ok : String → Bool) (s : Scope) (k : Kind) (x : String) (t : Traverser) :
    Prop :=
  t.RowAt ok s.bindings k ∧ t.At (some x)

theorem foldl_last {α β : Type} (F : α → β) (b : β) (xs : List α) :
    xs.foldl (fun _ a => F a) b = (xs.getLast?.map F).getD b := by
  rcases eq_nil_or_concat' xs with rfl | ⟨init, a, rfl⟩
  · rfl
  · rw [foldl_append, getLast?_concat]
    rfl

theorem ResolvedPattern.lastName_eq (p : ResolvedPattern) :
    p.lastName = p.hops.foldl (fun _ h => h.2.name) p.start.name := by
  rw [foldl_last, lastName]
  cases p.hops.getLast? <;> rfl

theorem ResolvedPattern.created_eq (here : Option String) (p : ResolvedPattern) :
    p.created here = p.hops.foldl (fun _ h => some h.1.name)
      (if p.start.bound then here else some p.start.name) := by
  rw [foldl_last, created]
  cases p.hops.getLast? <;> rfl

theorem lastOf_eq (here : Option String) (patterns : List ResolvedPattern) :
    lastOf here patterns = patterns.foldl (fun _ p => some p.lastName) here := by
  rw [foldl_last, lastOf]
  cases patterns.getLast? <;> rfl

theorem Traverser.At.of_isMap {t : Traverser} (h : t.object.isMap) : t.At none := by
  unfold At
  unfold Object.isMap at h
  split at h
  · rename_i hmap
    rw [hmap]
    rfl
  · cases h

/-! ### Steps -/

theorem Traversal.Filters.takes (hf : f.Filters ok) (hps : ∀ p ∈ ps, p.2.allKeys ok)
    (hS : ∀ t, S t → t.AllKeys ok) : f.Takes ok ps S S :=
  hf.carries (fun _ hg => hg) hps hS

theorem filterOf_filters (c : LoweringContext) (hfilter : Expr.optionKeys ok filter) :
    Gives (Filters ok) (filterOf c filter) := by
  cases filter with
  | none => exact .ok .nil
  | some e => exact (Expr.lower_readsOnly c e hfilter).holds.bind fun _ hd => .ok hd

theorem vertices_takes : Takes ok ps (Row ok bs) (RowAt ok bs .node) [.vertices] :=
  .step rfl (.eachRow fun _ ht => Ensures.graph.bind fun _ _ => .pure
    (forall_mem_map.mpr fun _ _ => ht.goTo rfl rfl rfl))

theorem edges_takes (d : Direction) (types : List String) :
    Takes ok ps (Row ok bs) (RowAt ok bs .relationship) [.edges d types] := by
  refine .step rfl (.eachRow fun t ht => Ensures.graph.bind fun g _ => .pure ?_)
  unfold Graph.edgesFrom
  split
  · exact forall_mem_map.mpr fun _ _ => ht.goTo rfl rfl rfl
  · exact forall_mem_nil _

theorem endpoint_takes (e : Endpoint) :
    Takes ok ps (Row ok bs) (RowAt ok bs .node) [.endpoint e] := by
  refine .step rfl (.moveIn fun g _ t ht y hy => ?_)
  obtain ⟨v, -, rfl⟩ := Option.map_eq_some_iff.mp hy
  exact ht.goTo rfl rfl rfl

theorem mark_takes {e : ElementBinding} (hk : e.1.kind.isElement) (h : s.Binds [e] s') :
    Takes ok ps
      (fun t => t.RowAt ok s.bindings e.1.kind ∧ (e.2 → t.At (some e.1.name)))
      (RowOn ok s' e.1.kind e.1.name)
      (if e.2 then [] else [.mark e.1.name]) := by
  cases h with
  | known hkind rest =>
    cases rest
    exact Carries.nil.mono (fun _ ht => ht) fun _ ht => ⟨ht.1, ht.2 rfl⟩
  | fresh hkind rest =>
    cases rest
    unfold RowOn
    rw [Scope.bind_bindings hkind]
    exact .step rfl (.map fun _ ht =>
      ⟨ht.1.mark hk (Scope.kind?_eq_none_iff.mp hkind), lookup_cons_self⟩)

-- The rows are followed along the list with what `next` makes of a place, element by element.
theorem Traversal.takes_mapM {α σ : Type} {F : α → Except Error Traversal}
    {bindings : α → List ElementBinding} {S : Scope → σ → Traverser → Prop} {next : σ → α → σ}
    {xs : List α} (hF : ∀ a ∈ xs, ∀ s s' x, s.Binds (bindings a) s' →
      Gives (Takes ok ps (S s x) (S s' (next x a))) (F a))
    (h : s.Binds (xs.flatMap bindings) s') (x : σ) :
    Gives (fun fs => Takes ok ps (S s x) (S s' (xs.foldl next x)) fs.flatten) (xs.mapM F) := by
  induction xs generalizing s x with
  | nil =>
    cases h
    exact .ok .nil
  | cons a xs ih =>
    obtain ⟨ha, hxs⟩ := forall_mem_cons.mp hF
    obtain ⟨m, hfirst, hrest⟩ := h.of_append
    rw [mapM_cons]
    exact (ha s m x hfirst).bind fun f hf =>
      (ih hxs hrest _).bind fun fs hfs => .ok (hf.append hfs)

/-! ### MATCH -/

def ResolvedPattern.AllKeys (ok : String → Bool) (p : ResolvedPattern) : Prop :=
  Expr.entryKeys ok p.start.properties ∧
    ∀ h ∈ p.hops, Expr.entryKeys ok h.1.properties ∧ Expr.entryKeys ok h.2.properties

theorem entry_filters (env : Env) (scope : Scope) (element key : String) {e : Expr}
    (h : e.allKeys ok) :
    let c := env.context scope (some element) "MATCH"
    Gives (Condition.Filters ok)
      (Lowered.comparison c ((Expr.access (.var element) key).lower c) .eq (e.lower c)) := by
  intro c
  have hL := Expr.readsWithin ok c
  have hproperty := Expr.lower_within hL (.access (.var element) key) rfl
  exact (Expr.comparison_within hL hproperty .eq (Expr.lower_within hL e h)).gives.mono fun _ hd =>
    hd.filters

theorem constraints_filters (env : Env) (scope : Scope) (element : String)
    (h : Expr.entryKeys ok entries) :
    Gives (Filters ok) (constraints env scope element entries) := by
  refine (Gives.mapM fun p hp => ?_).bind fun fs (hfs : ∀ f ∈ fs, Filters ok f) => .ok ?_
  · exact (entry_filters env scope element p.1 (Expr.entryKeys_iff.mp h p hp).2).bind
      fun _ hd => .ok hd
  induction fs with
  | nil => exact .nil
  | cons f fs ih =>
    obtain ⟨hf, hfs⟩ := forall_mem_cons.mp hfs
    exact hf.append (ih hfs)

theorem labels_filter (labels : List String) :
    Filters ok (if labels.isEmpty then [] else [.hasLabel labels]) := by
  split
  · exact .nil
  · exact .single rfl (.leaf rfl rfl)

section Match

variable (hps : ∀ p ∈ ps, p.2.allKeys ok) (env : Env) (scope : Scope)

include hps

theorem matchNode_takes (hkeys : Expr.entryKeys ok n.properties) (h : s.Binds [n.binding] s')
    {arrive : Traversal} (harrive : arrive.Takes ok ps S
      fun t => t.RowAt ok s.bindings .node ∧ (n.bound → t.At (some n.name))) :
    Gives (Takes ok ps S (RowOn ok s' .node n.name)) (do
      return arrive ++ (if n.labels.isEmpty then [] else [.hasLabel n.labels]) ++
        (if n.bound then [] else [.mark n.name]) ++
        (← constraints env scope n.name n.properties)) := by
  refine (constraints_filters env scope n.name hkeys).bind fun f hf => .ok ?_
  exact ((harrive.append ((labels_filter n.labels).takes hps fun _ ht => ht.1.keys)).append
    (mark_takes rfl h)).append (hf.takes hps fun _ ht => ht.1.keys)

theorem matchNode_start_takes (hkeys : Expr.entryKeys ok n.properties)
    (h : s.Binds [n.binding] s') :
    Gives (Takes ok ps (Row ok s.bindings) (RowOn ok s' .node n.name))
      (matchNode env scope n true) := by
  refine matchNode_takes hps env scope hkeys h ?_
  cases hbound : n.bound with
  | false => exact vertices_takes.mono (fun _ ht => ht) fun _ ht => ⟨ht, nofun⟩
  | true =>
    unfold ResolvedNode.binding at h
    rw [hbound] at h
    cases h with
    | known hkind _ =>
      refine .step rfl (.moveIn fun g _ t ht y hy => ?_)
      obtain ⟨x, hlabel, hx, hdescribes⟩ := ht.selected (Scope.mem_of_kind? hkind)
      obtain rfl : x = y := Option.some.inj (hx.symm.trans hy)
      exact ⟨ht.goTo rfl rfl hdescribes, fun _ => hlabel⟩

theorem matchNode_end_takes (hkeys : Expr.entryKeys ok n.properties) (h : s.Binds [n.binding] s') :
    Gives (Takes ok ps (RowAt ok s.bindings .node) (RowOn ok s' .node n.name))
      (matchNode env scope n false) := by
  refine matchNode_takes hps env scope hkeys h ?_
  cases n.bound with
  | false => exact Carries.nil.mono (fun _ ht => ht) fun _ ht => ⟨ht, nofun⟩
  | true =>
    refine .step rfl (.keepIf fun t ht => .ofExcept (fun b hb hholds => ⟨ht, fun _ => ?_⟩) ?_)
    · cases hb
      obtain ⟨v, hv⟩ := Kind.describes_node ht.described
      refine (eq_holds_element ?_).mp hholds
      rw [hv]
      rfl
    · exact fun _ he => nomatch he

theorem matchRelationship_takes {r : ResolvedRelationship}
    (hkeys : Expr.entryKeys ok r.properties) (h : s.Binds [r.binding] s') :
    Gives (Takes ok ps (RowAt ok s.bindings .node) (RowAt ok s'.bindings .node))
      (matchRelationship env scope r) := by
  have hbind : Takes ok ps (RowAt ok s.bindings .relationship)
      (RowAt ok s'.bindings .relationship)
      [if r.bound then .wherePredicate (.compare .eq (.label r.name)) else .mark r.name] := by
    have hmark : Takes ok ps _ _ (if r.bound then [] else [.mark r.name]) :=
      mark_takes rfl h
    unfold ResolvedRelationship.binding at h hmark
    cases hbound : r.bound with
    | false =>
      rw [hbound] at hmark
      exact hmark.mono (fun _ ht => ⟨ht, nofun⟩) fun _ ht => ht.1
    | true =>
      rw [hbound] at h
      cases h with
      | known _ rest =>
        cases rest
        exact (Filters.single rfl (.leaf rfl rfl)).takes hps fun _ ht => ht.keys
  refine (constraints_filters env scope r.name hkeys).bind fun f hf => .ok ?_
  have hedges := ((edges_takes r.direction r.types).append hbind).append
    (hf.takes hps fun _ ht => ht.keys)
  exact (hedges.append ((endpoint_takes _).mono (fun _ ht => ht.toRow) fun _ ht => ht)).mono
    (fun _ ht => ht.toRow) fun _ ht => ht

theorem matchHop_takes (hr : Expr.entryKeys ok hop.1.properties)
    (hn : Expr.entryKeys ok hop.2.properties) (h : s.Binds [hop.1.binding, hop.2.binding] s') :
    Gives (Takes ok ps (RowAt ok s.bindings .node) (RowOn ok s' .node hop.2.name))
      (matchHop env scope hop) := by
  obtain ⟨m, hfirst, hsecond⟩ := h.of_cons
  refine (matchRelationship_takes hps env scope hr hfirst).bind fun f hf => ?_
  exact (matchNode_end_takes hps env scope hn hsecond).bind fun h hh => .ok (hf.append hh)

theorem matchPattern_takes (hkeys : p.AllKeys ok) (h : s.Binds p.bindings s') :
    Gives (Takes ok ps (Row ok s.bindings)
        fun t => t.Row ok s'.bindings ∧ t.At (some p.lastName))
      (matchPattern env scope p) := by
  obtain ⟨m, hstart, hhops⟩ := h.of_cons
  refine (matchNode_start_takes hps env scope hkeys.1 hstart).bind fun f hf => ?_
  have hhop (hop) (hmem : hop ∈ p.hops) (s s' : Scope) (x : String)
      (h : s.Binds [hop.1.binding, hop.2.binding] s') :
      Gives (Takes ok ps (RowOn ok s .node x) (RowOn ok s' .node hop.2.name))
        (matchHop env scope hop) :=
    fun f hf => (matchHop_takes hps env scope (hkeys.2 hop hmem).1 (hkeys.2 hop hmem).2 h f hf).mono
      (fun _ ht => ht.1) fun _ ht => ht
  rw [p.lastName_eq]
  exact (takes_mapM hhop hhops _).bind fun fs hfs =>
    .ok ((hf.append hfs).mono (fun _ ht => ht) fun _ ht => ⟨ht.1.toRow, ht.2⟩)

theorem read_takes (hH : ∀ here t, t.At here → H here t) {id : ScopeId}
    (hkeys : ∀ p ∈ patterns, p.AllKeys ok) (hfilter : Expr.optionKeys ok filter)
    (h : s.Binds (patterns.flatMap ResolvedPattern.bindings) s') (current : Option String) :
    Gives (fun r => Takes ok ps (RowWhere ok H s here)
        (RowWhere ok H s' (lastOf here patterns)) r.1)
      (LowerClause.read env id patterns filter current) := by
  have hpattern (p) (hp : p ∈ patterns) (s s' : Scope) (here : Option String)
      (hbinds : s.Binds p.bindings s') :
      Gives (Takes ok ps (RowWhere ok H s here) (RowWhere ok H s' (some p.lastName)))
        (matchPattern env (env.scopes.scope id) p) := fun f hf =>
    (matchPattern_takes hps env _ (hkeys p hp) hbinds f hf).mono (fun _ ht => ht.1)
      fun t ht => ⟨ht.1, hH _ t ht.2⟩
  rw [lastOf_eq]
  refine (takes_mapM hpattern h here).bind fun fs hfs => ?_
  exact (filterOf_filters _ hfilter).bind fun f hf =>
    .ok (hfs.append (hf.takes hps fun _ ht => ht.1.keys))

end Match

/-! ### CREATE -/

theorem addVertex_takes (label : Option String) :
    Takes ok ps (Row ok bs) (RowAt ok bs .node) [.addVertex label] := by
  refine .step rfl (.move fun t ht => Ensures.graph.bind fun g hg =>
    (Ensures.setGraph (hg.addVertex _)).bind fun _ _ => .pure fun y hy => ?_)
  cases hy
  exact ht.goTo rfl rfl rfl

theorem Traverser.Labels.endOf {t : Traverser} (ht : t.Labels bs) (hb : ⟨name, .node⟩ ∈ bs) :
    ∃ v, Process.endOf t (some name) = .ok v := by
  obtain ⟨x, hx, hdescribes⟩ := ht _ hb
  obtain ⟨v, rfl⟩ := Kind.describes_node hdescribes
  refine ⟨v, ?_⟩
  unfold Process.endOf
  rw [Option.bind_some, hx]
  rfl

theorem addEdge_takes (type : String) {source target : String} (hsource : ⟨source, .node⟩ ∈ bs)
    (htarget : ⟨target, .node⟩ ∈ bs) :
    Takes ok ps (Row ok bs) (RowAt ok bs .relationship)
      [.addEdge type, .fromLabel source, .toLabel target] := by
  refine .modulated rfl (.cons ⟨_, rfl⟩ (.cons ⟨_, rfl⟩ .nil)) (.move fun t ht => ?_)
  obtain ⟨v, hv⟩ := ht.labels.endOf hsource
  obtain ⟨w, hw⟩ := ht.labels.endOf htarget
  have hends {l : String} {u : VertexId} (hu : Process.endOf t (some l) = .ok u) :
      (Run.ofExcept (Process.endOf t (some l))).Ensures (Graph.AllKeys ok) (fun _ => True)
        Error.Benign :=
    .ofExcept (fun _ _ => trivial) fun e he => by rw [hu] at he; cases he
  refine (hends hv).bind fun a _ => (hends hw).bind fun b _ => Ensures.graph.bind fun g hg => ?_
  refine (Ensures.ofExcept (Q := fun r => r.2.AllKeys ok) (fun r hr => hg.addEdge hr)
    (g.addEdge_ofObject type a b).benign).bind fun r hr => ?_
  refine (Ensures.setGraph hr).bind fun _ _ => .pure fun y hy => ?_
  cases hy
  exact ht.goTo rfl rfl rfl

theorem Resolve.hops_unbound (h : Resolve.checkNew p = .ok ()) :
    ∀ hop ∈ p.hops, hop.1.bound = false := by
  obtain ⟨-, -, hchecked⟩ := bind_eq_ok.mp h
  intro hop hhop
  have hcheck := forM_eq_ok.mp hchecked hop hhop
  unfold Resolve.checkNewRelationship at hcheck
  split at hcheck
  · cases hcheck
  · rwa [Bool.not_eq_true] at *

section Create

variable (hps : ∀ p ∈ ps, p.2.allKeys ok) (hexport : ∀ key ∈ exportKeys, ok key)
  {c : LoweringContext}

include hps hexport

theorem property_takes (hk : k.isElement) {key : String} (hkey : ok key)
    (hf : f.ReadsOnly ok) (hS : ∀ t, S t → t.RowAt ok bs k) :
    Takes ok ps S S [.property key f] := by
  refine .step rfl (.eachRow fun t ht => ?_)
  have hset (v : Value) (hv : v.allKeys ok) : (Process.setElement key t v).Ensures
      (Graph.AllKeys ok) (fun us => ∀ u ∈ us, S u) Error.Benign := by
    refine Ensures.graph.bind fun g hg => ?_
    have hdone {r : Except Error Graph} (hr : Gives (Graph.AllKeys ok) r)
        (he : FailsWith Error.OfObject r) :=
      (Ensures.ofExcept hr he.benign).bind fun _ hg' => (Ensures.setGraph hg').bind fun _ _ =>
        Ensures.pure (Q := fun us => ∀ u ∈ us, S u) (forall_mem_singleton.mpr ht)
    have hdescribed := (hS t ht).described
    cases k with
    | node =>
      obtain ⟨i, hi⟩ := Kind.describes_node hdescribed
      rw [hi]
      exact hdone (fun _ => hg.setVertexProperty hkey hv) (g.setVertexProperty_ofObject i key v)
    | relationship =>
      obtain ⟨i, hi⟩ := Kind.describes_relationship hdescribed
      rw [hi]
      exact hdone (fun _ => hg.setEdgeProperty hkey hv) (g.setEdgeProperty_ofObject i key v)
    | _ => cases hk
  refine ((hf.reads (fun _ hg => hg) hps).on (hS t ht).keys).bind fun us hus => ?_
  cases us with
  | nil => exact hset .null rfl
  | cons u us =>
    refine Ensures.graph.bind fun g hg => Ensures.bind ?_ hset
    refine .ofExcept (fun v hv => ?_) (u.object.toValue_ofObject g).benign
    exact Object.allKeys_toValue hexport hg (hus u mem_cons_self).object v hv

theorem newProperties_takes (hk : k.isElement) (h : Expr.entryKeys ok entries)
    (hS : ∀ t, S t → t.RowAt ok bs k) :
    Gives (Takes ok ps S S) (newProperties c entries) := by
  refine fun f hf => .of_forall (Gives.mapM (fun p hp => ?_) f hf)
  obtain ⟨hkey, hvalue⟩ := Expr.entryKeys_iff.mp h p (mem_filter.mp hp).1
  exact (Expr.lower_readsOnly c p.2 hvalue).value.bind fun _ hf =>
    .ok (property_takes hps hexport hk hkey hf hS)

variable (hH : ∀ here t, t.At here → H here t) (here)

include hH

theorem createNode_takes (hkeys : Expr.entryKeys ok n.properties) (h : s.Binds [n.binding] s') :
    Gives (Takes ok ps (RowWhere ok H s here)
        (RowWhere ok H s' (if n.bound then here else some n.name)))
      (createNode c n) := by
  have hmark : Takes ok ps _ _ (if n.bound then [] else [.mark n.name]) :=
    mark_takes rfl h
  unfold ResolvedNode.binding at h hmark
  unfold createNode
  split
  · rename_i hbound
    rw [hbound] at h
    cases h with
    | known _ rest =>
      cases rest
      exact .ok .nil
  · rename_i hbound
    rw [Bool.not_eq_true] at hbound
    rw [hbound] at hmark
    have hproperties : Gives (Takes ok ps (RowOn ok s' .node n.name) _)
        (newProperties c n.properties) :=
      newProperties_takes hps hexport rfl hkeys fun _ ht => ht.1
    refine hproperties.bind fun f hf => .ok ?_
    have hvertex : Takes ok ps (RowWhere ok H s here)
        (fun t => t.RowAt ok s.bindings .node ∧ (false → t.At (some n.name)))
        [.addVertex n.labels.head?] :=
      (addVertex_takes _).mono (fun _ ht => ht.1) fun _ ht => ⟨ht, nofun⟩
    exact ((hvertex.append hmark).append hf).mono (fun _ ht => ht)
      fun t ht => ⟨ht.1.toRow, hH _ t ht.2⟩

theorem createHop_takes (hprevious : s.kind? previous = some .node)
    (hnew : hop.1.bound = false) (hr : Expr.entryKeys ok hop.1.properties)
    (hn : Expr.entryKeys ok hop.2.properties) (h : s.Binds [hop.1.binding, hop.2.binding] s') :
    Gives (Takes ok ps (RowWhere ok H s here) (RowWhere ok H s' (some hop.1.name)))
      (createHop c previous hop) := by
  unfold ResolvedRelationship.binding at h
  rw [hnew] at h
  obtain ⟨m, s'', hnode, hedge, hsubset⟩ := h.exchange (by simp [ResolvedNode.binding])
  refine (createNode_takes here hps hexport hH hn hnode).bind fun f hf => ?_
  have hsource : ⟨previous, .node⟩ ∈ m.bindings := Scope.mem_of_kind? (hnode.kind?_mono hprevious)
  have htarget : ⟨hop.2.name, .node⟩ ∈ m.bindings :=
    Scope.mem_of_kind? (hnode.kind?_of_mem mem_cons_self)
  have hmark : Takes ok ps _ _ [.mark hop.1.name] := mark_takes rfl hedge
  have hrest (source target : String) (type : String) (k : Traversal)
      (hs : ⟨source, .node⟩ ∈ m.bindings) (ht : ⟨target, .node⟩ ∈ m.bindings)
      (hk : k.Takes ok ps (RowOn ok s'' .relationship hop.1.name)
        (RowOn ok s'' .relationship hop.1.name)) :
      Takes ok ps (RowWhere ok H s here) (RowWhere ok H s' (some hop.1.name))
        (f ++ [.addEdge type, .fromLabel source, .toLabel target, .mark hop.1.name] ++ k) := by
    have hedge := (addEdge_takes type hs ht).append
      (hmark.mono (fun _ ht => ⟨ht, fun h => by cases h⟩) fun _ ht => ht)
    exact (((hf.mono (fun _ ht => ht) fun _ ht => ht.1).append hedge).append hk).mono
      (fun _ ht => ht) fun t ht => ⟨ht.1.toRow.subset hsubset, hH _ t ht.2⟩
  have hproperties : Gives (Takes ok ps (RowOn ok s'' .relationship hop.1.name) _)
      (newProperties c hop.1.properties) :=
    newProperties_takes hps hexport rfl hr fun _ ht => ht.1
  dsimp only
  split
  · exact .error _
  · split
    · exact hproperties.bind fun h hh => .ok (hrest _ _ _ h htarget hsource hh)
    · exact hproperties.bind fun h hh => .ok (hrest _ _ _ h hsource htarget hh)

theorem createHops_takes {hops : List (ResolvedRelationship × ResolvedNode)}
    (hprevious : s.kind? previous = some .node) (hnew : ∀ hop ∈ hops, hop.1.bound = false)
    (hkeys : ∀ hop ∈ hops, Expr.entryKeys ok hop.1.properties ∧ Expr.entryKeys ok hop.2.properties)
    (h : s.Binds (hopBindings hops) s') :
    Gives (Takes ok ps (RowWhere ok H s here)
        (RowWhere ok H s' (hops.foldl (fun _ h => some h.1.name) here)))
      (createHops c previous hops) := by
  induction hops generalizing s previous here with
  | nil =>
    cases h
    exact .ok .nil
  | cons hop hops ih =>
    obtain ⟨hnew, hnews⟩ := forall_mem_cons.mp hnew
    obtain ⟨⟨hr, hn⟩, hrest⟩ := forall_mem_cons.mp hkeys
    obtain ⟨m, hfirst, hlater⟩ : ∃ m, s.Binds [hop.1.binding, hop.2.binding] m ∧
      m.Binds (hopBindings hops) s' := h.of_append
    have hnext : m.kind? hop.2.name = some .node :=
      hfirst.kind?_of_mem (mem_cons_of_mem _ mem_cons_self)
    exact (createHop_takes here hps hexport hH hprevious hnew hr hn hfirst).bind fun f hf =>
      (ih _ hnext hnews hrest hlater).bind fun fs hfs => .ok (hf.append hfs)

theorem create_takes {env : Env} {id : ScopeId} (hkeys : ∀ p ∈ patterns, p.AllKeys ok)
    (hnew : ∀ p ∈ patterns, Resolve.checkNew p = .ok ())
    (h : s.Binds (patterns.flatMap ResolvedPattern.bindings) s') (current : Option String) :
    Gives (fun r => Takes ok ps (RowWhere ok H s here)
        (RowWhere ok H s' (patterns.foldl ResolvedPattern.created here)) r.1)
      (LowerClause.create env id patterns current) := by
  have hpattern (p) (hp : p ∈ patterns) (s s' : Scope) (here : Option String)
      (hbinds : s.Binds p.bindings s') :
      Gives (Takes ok ps (RowWhere ok H s here) (RowWhere ok H s' (p.created here))) (do
        let c := env.context (env.scopes.scope id) none "CREATE"
        return (← createNode c p.start) ++ (← createHops c p.start.name p.hops)) := by
    obtain ⟨m, hstart, hhops⟩ := hbinds.of_cons
    have hunbound := Resolve.hops_unbound (hnew p hp)
    rw [p.created_eq]
    exact (createNode_takes here hps hexport hH (hkeys p hp).1 hstart).bind fun f hf =>
      (createHops_takes _ hps hexport hH (hstart.kind?_of_mem mem_cons_self) hunbound
        (hkeys p hp).2 hhops).bind fun fs hfs => .ok (hf.append hfs)
  exact (takes_mapM hpattern h here).bind fun _ hfs => .ok hfs

end Create

end CypherTraversal
