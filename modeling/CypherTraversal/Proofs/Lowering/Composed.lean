import CypherTraversal.Proofs.Expressions.Composed
import CypherTraversal.Proofs.Lowering.Closed
import CypherTraversal.Proofs.Resolved.Checked

/-! # Clauses in classes of traversals

Take a class of traversals that is closed under what the steps of clauses do, and in which the
expressions of a kind have their traversals. Then a clause with expressions of that kind has its
traversal in the class too, as far as its own steps are spelled with what the class allows. -/

namespace CypherTraversal

open LowerClause List Traversal

variable {filter : Option Expr} {patterns : List ResolvedPattern} {id : ScopeId}
  {scopeIn scopeOut : ScopeId}

structure LowersInto (v : Vocabulary) (Q : Scope → Expr → Prop) (E : Error → Prop)
    (F P : Traversal → Prop) : Prop extends ClosedUnderLowering v P where
  within : ∀ c : LoweringContext, Expr.LowersWithin c (Q c.scope) E v.operand F P
  filters : ∀ {f : Traversal}, F f → P f

def Vocabulary.column (v : Vocabulary) (name : String) : Prop :=
  v.label name ∧ v.key name

variable {v : Vocabulary} {Q : Scope → Expr → Prop} {E : Error → Prop} {F P : Traversal → Prop}

/-! ### Expressions -/

section Tests

variable (hP : ClosedUnderLowering v P)

include hP

theorem ClosedUnderLowering.testsElement {s : Step} (hs : s.TestsElement v.operand) : P [s] := by
  cases s
  case has | hasNot => exact hP.alone rfl trivial
  case hasPredicate => exact hP.alone rfl hs
  all_goals cases hs

theorem ClosedUnderLowering.composesTests (hvalue : ∀ x, v.operand (.value x))
    (hscalar : ∀ s : Scalar, v.constant (.value (.scalar s))) (hcompare : v.label compareLabel) :
    ComposesTests v.operand P P where
  known := hvalue
  scalar s := hP.alone rfl (hscalar s)
  values _ := hP.alone rfl trivial
  notNull := hP.alone rfl (Predicate.over_of_operands rfl (hvalue .null))
  append := hP.append
  choose := hP.choose
  coalesces := hP.coalesce
  is hp := hP.alone rfl hp
  id := hP.alone rfl trivial
  label := hP.alone rfl trivial
  fold := hP.alone rfl trivial
  unfold := hP.alone rfl trivial
  union := hP.union
  mark := hP.alone rfl hcompare
  compares hp := hP.alone rfl ⟨compareLabel, hp, hcompare⟩
  element := hP.testsElement
  elsewhere hselect hs := hP.filter (hP.append hselect (hP.testsElement hs))
  filter := hP.filter
  not := hP.not
  or := hP.or
  both := hP.append

end Tests

variable {entries : List (String × Expr)} {fs : List Traversal} {p : ResolvedProjection}
  {r : ResolvedClause} {rs : List ResolvedClause} (hP : LowersInto v Q E F P)

namespace LowersInto

include hP

theorem lowered {c : LoweringContext} {e : Expr} (h : Q c.scope e) :
    (e.lower c).Within (Q c.scope) E v.operand F P :=
  Expr.lower_within (hP.within c) e h

theorem conditionOrEmpty {d : Condition} (hd : d.In F) : d.filter.InOrEmpty P := by
  cases d with
  | always => exact .nil
  | never => exact fun _ => hP.not (hP.alone rfl trivial)
  | test f => exact fun _ => hP.filters hd

theorem scalar (s : Scalar) : P (constantValue (.scalar s)) :=
  (hP.within ⟨default, [], none, ""⟩).scalar s

theorem notNull : P [.is notNullPredicate] :=
  (hP.within ⟨default, [], none, ""⟩).notNull

end LowersInto

namespace LowerClause

section Parts

include hP

theorem filterOf_ends {c : LoweringContext} (h : ∀ e, filter = some e → Q c.scope e) :
    Ends E (InOrEmpty P) (filterOf c filter) := by
  cases filter with
  | none => exact .nil
  | some e => exact (hP.lowered (h e rfl)).holds.bind fun _ hd => hP.conditionOrEmpty hd

/-! ### Patterns -/

section Patterns

variable {env : Env} {scope : Scope} {n : ResolvedNode} {N : Kind → String → Prop}
  (hN : ∀ k x, N k x → v.label x ∧ ∀ key, Q scope (.access (.var x) key))

include hN

theorem constraints_ends {k : Kind} {element : String}
    (h : ElementAll (N k) (Q scope) element entries) :
    Ends E (InOrEmpty P) (constraints env scope element entries) := by
  refine (Ends.mapM (R := InOrEmpty P) fun e he => ?_).bind fun _ hfs => hP.flattenOrEmpty hfs
  have hproperty : Q scope (.access (.var element) e.1) := (hN k element h.name).2 e.1
  exact (Expr.comparison_within (hP.within _) (hP.lowered hproperty) .eq
    (hP.lowered (h.properties e he))).bind fun _ hd => hP.conditionOrEmpty hd

theorem matchNode_ends (hn : n.All N (Q scope)) (start : Bool) :
    Ends E (InOrEmpty P) (matchNode env scope n start) := by
  have hlabel := (hN _ _ hn.name).1
  refine (constraints_ends hP hN hn).bind fun f hf =>
    hP.appendOrEmpty (hP.appendOrEmpty (hP.appendOrEmpty ?_ ?_) ?_) hf
  · cases start <;> cases n.bound
    · exact .nil
    · exact fun _ => hP.alone rfl ⟨n.name, rfl, hlabel⟩
    · exact fun _ => hP.alone rfl trivial
    · exact fun _ => hP.alone rfl hlabel
  · split
    · exact .nil
    · exact fun _ => hP.alone rfl trivial
  · split
    · exact .nil
    · exact fun _ => hP.alone rfl hlabel

theorem matchRelationship_ends {r : ResolvedRelationship} (hr : r.All N (Q scope)) :
    Ends E (InOrEmpty P) (matchRelationship env scope r) := by
  refine (constraints_ends hP hN hr).bind fun f hf =>
    hP.appendOrEmpty (hP.appendOrEmpty (fun _ => ?_) hf) fun _ => hP.alone rfl trivial
  refine hP.cons rfl trivial ?_
  split
  · exact hP.alone rfl ⟨r.name, rfl, (hN _ _ hr.name).1⟩
  · exact hP.alone rfl (hN _ _ hr.name).1

theorem matchPattern_ends {p : ResolvedPattern} (hp : p.All N (Q scope)) :
    Ends E (InOrEmpty P) (matchPattern env scope p) := by
  refine (matchNode_ends hP hN hp.start true).bind fun start hstart => ?_
  refine (Ends.mapM (R := InOrEmpty P) fun hop hhop => ?_).bind
    fun _ hfs => hP.appendOrEmpty hstart (hP.flattenOrEmpty hfs)
  obtain ⟨hr, hn⟩ := hp.hops hop hhop
  exact (matchRelationship_ends hP hN hr).bind fun _ hf => (matchNode_ends hP hN hn false).bind
    fun _ hh => hP.appendOrEmpty hf hh

end Patterns

/-! ### New elements -/

section Create

variable {c : LoweringContext} {n : ResolvedNode} {N : Kind → String → Prop}
  (hN : ∀ k x, N k x → v.label x) (hwrites : v.writes)

include hwrites

theorem newProperties_ends (hentries : ∀ e ∈ entries, Q c.scope e.2) :
    Ends E (InOrEmpty P) (newProperties c entries) := by
  refine (Ends.mapM (R := fun s : Step => P [s]) fun e he => ?_).mono (fun _ h => h)
    fun steps hsteps => ?_
  · exact (hP.lowered (hentries e (mem_filter.mp he).1)).value.bind
      fun _ hf => hP.property hwrites _ hf
  · have hflatten : InOrEmpty P (steps.map fun s => [s]).flatten :=
      hP.flattenOrEmpty (forall_mem_map.mpr fun s hs _ => hsteps s hs)
    rwa [← flatMap_def, flatMap_singleton'] at hflatten

include hN

theorem createNode_ends (hn : n.All N (Q c.scope)) : Ends E (InOrEmpty P) (createNode c n) := by
  unfold createNode
  split
  · exact InOrEmpty.nil
  · refine (newProperties_ends hP hwrites hn.properties).bind fun _ hf =>
      hP.appendOrEmpty (fun _ => ?_) hf
    exact hP.cons rfl hwrites (hP.alone rfl (hN _ _ hn.name))

theorem createHop_ends {hop : ResolvedRelationship × ResolvedNode} (htypes : hop.1.types ≠ [])
    (hr : hop.1.All N (Q c.scope)) (hn : hop.2.All N (Q c.scope)) (previous : String) :
    Ends E (InOrEmpty P) (createHop c previous hop) := by
  obtain ⟨r, n⟩ := hop
  refine (createNode_ends hP hN hwrites hn).bind fun node hnode => ?_
  cases htype : r.types with
  | nil => exact absurd htype htypes
  | cons type types =>
    refine (newProperties_ends hP hwrites hr.properties).bind fun _ hf =>
      hP.appendOrEmpty (hP.appendOrEmpty hnode fun _ => ?_) hf
    exact hP.append (hP.addEdge hwrites type _ _) (hP.alone rfl (hN _ _ hr.name))

theorem createHops_ends {hops : List (ResolvedRelationship × ResolvedNode)}
    (htypes : ∀ h ∈ hops, h.1.types ≠ [])
    (hhops : ∀ h ∈ hops, h.1.All N (Q c.scope) ∧ h.2.All N (Q c.scope)) (previous : String) :
    Ends E (InOrEmpty P) (createHops c previous hops) := by
  induction hops generalizing previous with
  | nil => exact InOrEmpty.nil
  | cons hop hops ih =>
    obtain ⟨htype, htypes⟩ := forall_mem_cons.mp htypes
    obtain ⟨⟨hr, hn⟩, hhops⟩ := forall_mem_cons.mp hhops
    exact (createHop_ends hP hN hwrites htype hr hn previous).bind fun _ hf =>
      (ih htypes hhops hop.2.name).bind fun _ hh => hP.appendOrEmpty hf hh

end Create

/-! ### Projections -/

section Projections

variable {c : LoweringContext}

theorem argumentValue_ends {x : ItemValue} (hx : x.All (Q c.scope)) :
    Ends E P (argumentValue c x) := by
  cases x with
  | expr e => exact (hP.lowered hx).value
  | aggregate a =>
    unfold argumentValue
    dsimp only
    cases harg : a.argument with
    | none => exact hP.scalar _
    | some e => exact (hP.lowered (hx e harg)).value

theorem aggregateSteps_in (a : Aggregate) : P (aggregateSteps a) := by
  have hreduced (r : Reduction) (empty : Scalar) : P (reduceOr r (.scalar empty)) := by
    refine hP.cons rfl trivial (hP.coalesce (forall_mem_cons.mpr ⟨?_, ?_⟩))
    · exact hP.cons rfl trivial (hP.alone rfl trivial)
    · exact forall_mem_singleton.mpr (hP.scalar empty)
  have harguments : P (.is notNullPredicate :: if a.distinct then [.dedup] else []) := by
    split
    · exact hP.append hP.notNull (hP.alone rfl trivial)
    · exact hP.notNull
  unfold aggregateSteps
  cases a.function with
  | count | collect => exact hP.append harguments (hP.alone rfl trivial)
  | sum | avg | min | max => exact hP.append harguments (hreduced _ _)

theorem groupValue_in (col : ResolvedItem × String) (hname : v.label col.1.name)
    (hcol : v.label col.2) : P (groupValue col) := by
  unfold groupValue
  split
  · exact hP.append (hP.cons rfl trivial (hP.cons rfl trivial (hP.alone rfl hcol)))
      (aggregateSteps_in hP _)
  · exact hP.cons rfl trivial (hP.alone rfl hname)

theorem totalValue_in {col : ResolvedItem × String} (hcol : v.label col.2) :
    (totalValue col).InOrEmpty P := by
  unfold totalValue
  split
  · exact fun _ => hP.append (hP.cons rfl trivial (hP.alone rfl hcol)) (aggregateSteps_in hP _)
  · exact .nil

theorem projectBy_in {keys : List String} (hkeys : ∀ k ∈ keys, v.key k)
    (hlength : fs.length = keys.length) (hfs : ∀ f ∈ fs, P f) :
    P (.project keys :: fs.map .by) := by
  refine hP.project hkeys ?_ (forall_mem_map.mpr fun f hf => ⟨f, rfl, hfs f hf⟩)
  rw [length_map, hlength]

section Rows

variable (hitems : ∀ i ∈ p.items, v.column i.name ∧ i.value.All (Q c.scope))

include hitems

theorem plainRows_ends : Ends E P (plainRows c p) :=
  (Ends.mapM_length fun i hi => argumentValue_ends hP (hitems i hi).2).bind fun _ hfs =>
    projectBy_in hP (forall_mem_map.mpr fun i hi => (hitems i hi).1.2)
      (hfs.2.trans (length_map _).symm) hfs.1

theorem aggregateRows_ends (hcolumns : ∀ n, v.column (argumentColumn n)) :
    Ends E P (aggregateRows c p) := by
  have hnames : ∀ k ∈ p.names, v.key k := forall_mem_map.mpr fun i hi => (hitems i hi).1.2
  have hcolumn : ∀ col ∈ withColumns 0 p.items, v.column col.2 := by
    intro col hcol
    obtain ⟨hi, ⟨-, hname⟩ | ⟨-, n, -, hname⟩⟩ := mem_withColumns hcol
    · exact hname ▸ (hitems col.1 hi).1
    · exact hname ▸ hcolumns n
  have harguments : Ends E P (argumentRows c (withColumns 0 p.items)) :=
    (Ends.mapM_length fun col hcol =>
      argumentValue_ends hP (hitems col.1 (mem_withColumns hcol).1).2).bind fun _ hfs =>
        projectBy_in hP (forall_mem_map.mpr fun col hcol => (hcolumn col hcol).2)
          (hfs.2.trans (length_map _).symm) hfs.1
  have hresult {value : ResolvedItem × String → Traversal}
      (hvalue : ∀ col ∈ withColumns 0 p.items, P (value col)) :
      P (.project p.names :: ((withColumns 0 p.items).map value).map .by) := by
    refine projectBy_in hP hnames ?_ (forall_mem_map.mpr hvalue)
    rw [names_eq_withColumns, length_map, length_map]
  refine harguments.bind fun rows hrows => ?_
  dsimp only
  split
  · -- without keys, every item of the result is an aggregate over all rows
    rename_i hkeys
    have haggregate : ∀ col ∈ withColumns 0 p.items, col.1.value.isAggregate := by
      intro col hcol
      simp only [List.isEmpty_iff, map_eq_nil_iff, filter_eq_nil_iff] at hkeys
      simpa using hkeys col.1 (mem_withColumns hcol).1
    rw [append_assoc, flatMap_totalItem haggregate]
    refine hP.append hrows (hP.cons rfl trivial (hresult fun col hcol => ?_))
    refine totalValue_in hP (hcolumn col hcol).1 ?_
    unfold totalValue
    have hcol := haggregate col hcol
    split
    · nofun
    · rename_i hvalue
      rw [hvalue] at hcol
      cases hcol
  · have hkey : ∀ k ∈ (p.items.filter fun i => !i.value.isAggregate).map ResolvedItem.name,
        v.column k :=
      forall_mem_map.mpr fun i hi => (hitems i (mem_of_mem_filter hi)).1
    have hfold : P [.fold] := hP.alone rfl trivial
    have hgroup := hP.group (hP.project (fun k hk => (hkey k hk).2)
      (length_map fun k => .by [.select k]) (forall_mem_map.mpr fun k hk =>
        ⟨[.select k], rfl, hP.alone rfl (hkey k hk).1⟩)) hfold
    have hgroups := hP.append hgroup (hP.cons (s := .unfold) rfl trivial (hresult fun col hcol =>
      groupValue_in hP col (hitems col.1 (mem_withColumns hcol).1).1.1 (hcolumn col hcol).1))
    rw [append_assoc, map_groupItem]
    exact hP.append hrows hgroups

theorem projectedRows_ends (hcolumns : ∀ n, v.column (argumentColumn n)) :
    Ends E P (projectedRows c p) := by
  unfold projectedRows
  split
  · exact aggregateRows_ends hP hitems hcolumns
  · exact plainRows_ends hP hitems

end Rows

theorem orderKey_ends {o : ResolvedOrder} (ho : o.column = none → Q c.scope o.expr)
    (hcolumn : ∀ col, o.column = some col → v.label col) :
    Ends E (fun m => ∃ f d, m = .byOrder f d ∧ P f) (orderKey c o) := by
  unfold orderKey
  cases hcol : o.column with
  | some col => exact ⟨_, _, rfl, hP.alone rfl (hcolumn col hcol)⟩
  | none => exact (hP.lowered (ho hcol)).value.bind fun f hf => ⟨f, _, rfl, hf⟩

theorem orderRows_ends {order : List ResolvedOrder}
    (horder : ∀ o ∈ order, (o.column = none → Q c.scope o.expr) ∧
      ∀ col, o.column = some col → v.label col) :
    Ends E (InOrEmpty P) (orderRows c order) := by
  unfold orderRows
  split
  · exact InOrEmpty.nil
  · rename_i hne
    refine (Ends.mapM_length fun o ho => orderKey_ends hP (horder o ho).1 (horder o ho).2).bind
      fun ms hms _ => hP.order ?_ hms.1
    rintro rfl
    exact hne (by simpa using hms.2.symm)

theorem labelRow_in (hrow : v.label rowLabel) {names : List String}
    (hnames : ∀ n ∈ names, v.label n) : P (labelRow names) := by
  have hlabels : InOrEmpty P
      (names.flatMap fun n => [.select rowLabel, .select n, .mark n]) := by
    refine hP.flattenOrEmpty (forall_mem_map.mpr fun n hn _ => ?_)
    exact hP.cons rfl hrow (hP.cons rfl (hnames n hn) (hP.alone rfl (hnames n hn)))
  have hmarked := hP.appendInOrEmpty (hP.alone (s := .mark rowLabel) rfl hrow) hlabels
  exact hP.append hmarked (hP.alone rfl hrow)

end Projections

end Parts

/-! ### Clauses -/

structure Written (v : Vocabulary) (Q : Scope → Expr → Prop) (E : Error → Prop) (env : Env)
    (scopeIn scopeOut : ScopeId) (p : ResolvedProjection) : Prop where
  row : v.label rowLabel
  columns : ∀ n, v.column (argumentColumn n)
  items : ∀ i ∈ p.items, v.column i.name ∧ i.value.All (Q (env.scopes.scope scopeIn))
  order : ∀ o ∈ p.order, (o.column = none → Q (env.scopes.scope p.orderScope) o.expr) ∧
    ∀ col, o.column = some col → v.label col
  skip : ∀ e, p.skip = some e → Ends E v.bound (bound env "SKIP" e)
  limit : ∀ e, p.limit = some e → Ends E v.bound (bound env "LIMIT" e)
  filter : ∀ e, p.filter = some e → Q (env.scopes.scope scopeOut) e

section Clauses

variable {env : Env} {current : Option String}

theorem window_ends {keyword : String} (step : Bound → Step) {e : Option Expr}
    (hstep : ∀ n, v.bound n → P [step n])
    (he : ∀ b, e = some b → Ends E v.bound (bound env keyword b)) :
    Ends E (InOrEmpty P) (window env keyword step e) := by
  cases e with
  | none => exact InOrEmpty.nil
  | some b => exact (he b rfl).bind fun n hn _ => hstep n hn

include hP

theorem read_ends {N : Kind → String → Prop}
    (hN : ∀ k x, N k x → v.label x ∧ ∀ key, Q (env.scopes.scope id) (.access (.var x) key))
    (hpatterns : ∀ p ∈ patterns, p.All N (Q (env.scopes.scope id)))
    (hfilter : ∀ e, filter = some e → Q (env.scopes.scope id) e) :
    Ends E (fun x => x.1.InOrEmpty P) (read env id patterns filter current) := by
  refine (Ends.mapM (R := InOrEmpty P) fun p hp =>
    matchPattern_ends hP hN (hpatterns p hp)).bind fun fs hfs => ?_
  exact (filterOf_ends hP hfilter).bind fun f hf => hP.appendOrEmpty (hP.flattenOrEmpty hfs) hf

theorem unwind_ends {id : ScopeId} {e : Expr} {var : String} (he : Q (env.scopes.scope id) e)
    (hvar : v.label var) : Ends E (fun x => P x.1) (unwind env id e var current) := by
  refine (hP.lowered (c := env.context _ current "UNWIND") he).value.bind fun f hf => ?_
  have hitems := hP.flatMap (hP.append hf (hP.alone (s := .unfold) rfl trivial))
  exact hP.append hitems (hP.cons (s := .mark var) rfl hvar (hP.scalar _))

theorem create_ends {patterns : List ResolvedPattern} {id : ScopeId} {N : Kind → String → Prop}
    (hN : ∀ k x, N k x → v.label x) (hwrites : v.writes)
    (hpatterns : ∀ p ∈ patterns, p.All N (Q (env.scopes.scope id)) ∧
      ∀ hop ∈ p.hops, hop.1.types ≠ []) :
    Ends E (fun x => x.1.InOrEmpty P) (create env id patterns current) := by
  refine (Ends.mapM (R := InOrEmpty P) fun p hp => ?_).bind fun fs hfs => hP.flattenOrEmpty hfs
  obtain ⟨hchecked, htypes⟩ := hpatterns p hp
  exact (createNode_ends hP hN hwrites hchecked.start).bind fun _ hf =>
    (createHops_ends hP hN hwrites htypes hchecked.hops _).bind fun _ hh => hP.appendOrEmpty hf hh

theorem keptRows_ends (hp : Written v Q E env scopeIn scopeOut p) :
    Ends E (InOrEmpty P) (keptRows env p) := by
  have hdistinct : InOrEmpty P (if p.distinct then [.dedup] else []) := by
    split
    · exact fun _ => hP.alone rfl trivial
    · exact .nil
  refine (orderRows_ends hP hp.order).bind fun order horder => ?_
  refine (window_ends .skip (fun n hn => hP.alone rfl hn) hp.skip).bind fun skip hskip => ?_
  refine (window_ends .limit (fun n hn => hP.alone rfl hn) hp.limit).bind fun limit hlimit => ?_
  exact hP.appendOrEmpty (hP.appendOrEmpty (hP.appendOrEmpty hdistinct horder) hskip) hlimit

theorem project_ends (hp : Written v Q E env scopeIn scopeOut p) :
    Ends E (fun r => P r.1) (project env scopeIn scopeOut p current) := by
  rw [project_eq]
  refine (projectedRows_ends hP hp.items hp.columns).bind fun rows hrows => ?_
  refine (keptRows_ends hP hp).bind fun kept hkept => ?_
  have hsteps := hP.appendInOrEmpty hrows hkept
  have hlabels := labelRow_in hP hp.row (forall_mem_map.mpr fun i hi => (hp.items i hi).1.1)
  cases p.final with
  | true => exact hsteps
  | false =>
    exact (filterOf_ends hP hp.filter).bind fun filter hfilter =>
      hP.appendInOrEmpty (hP.append hsteps hlabels) hfilter

theorem clauses_end (hrs : ∀ r ∈ rs, ∀ current, Ends E (fun x => x.1.InOrEmpty P ∧
      ∀ p, r.body = .project p → P x.1) (clause env r current)) :
    Ends E (fun f => f.InOrEmpty P ∧ ∀ first last p, rs = first ++ [last] →
      last.body = .project p → P f) (clauses env rs current) := by
  induction rs generalizing current with
  | nil => exact ⟨.nil, fun first _ _ h => by cases first <;> cases h⟩
  | cons r rs ih =>
    obtain ⟨hr, hrs⟩ := forall_mem_cons.mp hrs
    refine (hr current).bind fun (_, after) hf => (ih hrs).bind fun h hh =>
      ⟨hP.appendOrEmpty hf.1 hh.1, ?_⟩
    intro first last p hlast hp
    cases first with
    | nil =>
      obtain ⟨rfl, rfl⟩ := List.cons.inj hlast
      exact hP.appendInOrEmpty (hf.2 p hp) hh.1
    | cons _ first =>
      obtain ⟨rfl, hrest⟩ := List.cons.inj hlast
      exact hP.orEmptyAppend hf.1 (hh.2 first last p hrest hp)

theorem branch_ends (hrs : ∀ r ∈ rs, ∀ current, Ends E (fun x => x.1.InOrEmpty P ∧
      ∀ p, r.body = .project p → P x.1) (clause env r current)) (hzero : v.bound (.literal 0))
    (hends : P [] ∨ Resolve.Concludes rs) : Ends E P (branch env rs) := by
  refine (clauses_end hP hrs).bind fun f hf => ?_
  split
  · exact hP.orEmptyAppend hf.1 (hP.cons rfl trivial (hP.alone rfl hzero))
  · rename_i hcreate
    rcases hends with hnil | ⟨first, last, rfl, hlast⟩
    · exact hf.1.of_nil hnil
    · unfold ResolvedClause.concludes at hlast
      rw [getLast?_concat] at hcreate
      cases hbody : last.body with
      | project p => exact hf.2 first last p rfl hbody
      | create patterns => exact absurd (congrArg some hbody) (hcreate patterns)
      | read | unwind =>
        rw [hbody] at hlast
        cases hlast

end Clauses

end LowerClause

/-! ### Queries -/

theorem ClosedUnderLowering.joinBranches (hP : ClosedUnderLowering v P) (q : ResolvedQuery)
    (hfs : ∀ f ∈ fs, P f) : P (q.joinBranches fs) := by
  unfold ResolvedQuery.joinBranches
  split
  · have hf := forall_mem_singleton.mp hfs
    split
    · exact hf
    · exact hP.cons rfl rfl hf
  · refine hP.appendInOrEmpty (hP.cons rfl rfl (hP.union hfs)) ?_
    split
    · exact fun _ => hP.alone rfl trivial
    · exact .nil

end CypherTraversal
