import CypherTraversal.Proofs.Relabelled.Elements

/-! # Clauses with other names for elements

If the elements of a single query are renamed and the scopes with them, its traversal leads to the
renamed rows. Apart from patterns, the clauses are lowered to the very same steps: what they name is
written in the query. -/

namespace CypherTraversal

open Run LowerClause List CypherTraversal.Expr ResolvedClause

variable {col : ResolvedItem × String} {n : Nat} {order : List ResolvedOrder}
  {p : ResolvedProjection} {r : ResolvedClause} {rs : List ResolvedClause} {ρ : String → String}
  {ps : Parameters} {g : Graph} {ok : String → Bool}

/-! ### Renamed clauses -/

def ResolvedBody.rename (ρ : String → String) (k : Nat) : ResolvedBody → ResolvedBody
  | read patterns filter => read (patterns.map (ResolvedPattern.rename ρ)) filter
  | project p => project { p with orderScope := p.orderScope + k }
  | unwind e x => unwind e x
  | create patterns => create (patterns.map (ResolvedPattern.rename ρ))

def ResolvedClause.rename (ρ : String → String) (k : Nat) (r : ResolvedClause) : ResolvedClause :=
  { r with body := r.body.rename ρ k, scopeIn := r.scopeIn + k, scopeOut := r.scopeOut + k }

def ScopeTable.Renamed (ρ : String → String) (k : Nat) (scopes scopes' : ScopeTable) : Prop :=
  ∀ id, (scopes.scope id).Renamed ρ (scopes'.scope (id + k))

theorem ResolvedClause.NamesPass.readsKeys (h : r.NamesPass ok) : r.ReadsKeys ok := by
  unfold NamesPass at h
  unfold ReadsKeys
  cases hbody : r.body with
  | read patterns filter =>
    rw [hbody] at h
    refine ⟨fun p hp => ⟨entryKeys_of_propertiesPass (h.1 p hp).start, fun hop hhop => ?_⟩,
      optionKeys_of_namesPass h.2⟩
    exact ((h.1 p hp).hops hop hhop).imp entryKeys_of_propertiesPass entryKeys_of_propertiesPass
  | project p =>
    rw [hbody] at h
    refine ⟨all_eq_true.mpr (forall_mem_map.mpr fun i hi => (h.items i hi).1),
      fun i hi => ?_, fun o ho => (namesPass_iff.mp (h.order o ho).1).2,
      optionKeys_of_namesPass h.filter⟩
    have hi := (h.items i hi).2
    cases hvalue : i.value with
    | expr e =>
      rw [hvalue] at hi
      exact (namesPass_iff.mp hi).2
    | aggregate a =>
      rw [hvalue] at hi
      exact optionKeys_of_namesPass hi
  | unwind e x =>
    rw [hbody] at h
    exact (namesPass_iff.mp h.1).2
  | create patterns =>
    rw [hbody] at h
    exact h

/-! ### Projections in contexts that agree -/

theorem mapM_congr {ε α β : Type} {f k : α → Except ε β} {xs : List α} (h : ∀ x ∈ xs, f x = k x) :
    xs.mapM f = xs.mapM k := by
  induction xs with
  | nil => rfl
  | cons x xs ih =>
    obtain ⟨hx, hxs⟩ := forall_mem_cons.mp h
    rw [mapM_cons, mapM_cons, hx, ih hxs]

namespace LowerClause

section Agrees

variable {c c' : LoweringContext} (h : c.Agrees ok c')

include h

theorem argumentValue_agrees {v : ItemValue} (hv : v.namesPass ok) :
    argumentValue c v = argumentValue c' v := by
  cases v with
  | expr e => rw [argumentValue, argumentValue, lower_agrees h e (namesPass_iff.mp hv).1]
  | aggregate a =>
    obtain ⟨function, argument, distinct⟩ := a
    cases argument with
    | none => rfl
    | some e =>
      exact congrArg Lowered.value (lower_agrees h e (namesPass_iff.mp hv).1)

theorem projectedRows_agrees (hitems : ∀ i ∈ p.items, i.value.namesPass ok) :
    projectedRows c p = projectedRows c' p := by
  have hplain : plainRows c p = plainRows c' p := by
    unfold plainRows
    rw [mapM_congr fun i hi => argumentValue_agrees h (hitems i hi)]
  have harguments : argumentRows c (withColumns 0 p.items) =
      argumentRows c' (withColumns 0 p.items) := by
    refine congrArg (· >>= _) (mapM_congr fun col hcol => ?_)
    exact argumentValue_agrees h (hitems col.1 (mem_withColumns hcol).1)
  have haggregate : aggregateRows c p = aggregateRows c' p := by
    simp only [aggregateRows, harguments]
  rw [projectedRows, projectedRows, hplain, haggregate]

theorem orderRows_agrees (horder : ∀ o ∈ order, o.expr.namesPass ok) :
    orderRows c order = orderRows c' order := by
  unfold orderRows
  rw [mapM_congr (k := orderKey c') fun o ho => ?_]
  rw [orderKey, orderKey, lower_agrees h o.expr (namesPass_iff.mp (horder o ho)).1]

end Agrees

/-! ### The labels of projections -/

theorem project_labelsPass (hcompare : ok compareLabel) (hrow : ok rowLabel)
    (hcolumns : ∀ n, ok (argumentColumn n)) (hp : p.NamesPass ok) {env : Env}
    (scopeIn scopeOut : ScopeId) (current : Option String) :
    Gives (fun r => r.1.LabelsPass ok) (project env scopeIn scopeOut p current) := by
  have hbound (keyword : String) (e : Expr) :
      Ends (fun _ => True) (fun _ => True) (bound env keyword e) :=
    Gives.ends fun _ _ => trivial
  have hnames {e : Expr} (he : e.namesPass ok) : ∀ n ∈ e.names, ok n := (namesPass_iff.mp he).1
  have hoption {o : Option Expr} (ho : o.all (namesPass ok)) (e : Expr) (he : o = some e) :
      ∀ n ∈ e.names, ok n := by
    subst he
    exact hnames ho
  refine (project_ends (.labelled hcompare) ⟨hrow, fun n => ⟨hcolumns n, trivial⟩,
    fun i hi => ⟨⟨(hp.items i hi).1, trivial⟩, ?_⟩,
    fun o ho => ⟨fun _ => hnames (hp.order o ho).1, (hp.order o ho).2⟩, fun e _ => hbound _ e,
    fun e _ => hbound _ e, hoption hp.filter⟩).gives
  obtain ⟨name, value⟩ := i
  have hvalue := (hp.items _ hi).2
  cases value with
  | expr e => exact hnames hvalue
  | aggregate a => exact hoption hvalue

/-! ### Clauses -/

section Clauses

open Traversal (Relabelled)

def ResultRelabelled (ρ : String → String) (ps : Parameters) (g : Graph)
    (a b : Traversal × Option String) : Prop :=
  a.1.Relabelled ρ ps g b.1 ∧ b.2 = a.2.map ρ

variable {env env' : Env} {k : Nat} (hρ : RenamesElements ρ)
  (hps : ∀ p ∈ ps, p.2.allKeys isNoElement)
  (henv : env.parameters = env'.parameters) (hscopes : env.scopes.Renamed ρ k env'.scopes)

include hρ hps henv hscopes

theorem read_relabelled {patterns : List ResolvedPattern} {filter : Option Expr}
    (hpatterns : ∀ p ∈ patterns, p.PropertiesPass isNoElement)
    (hfilter : filter.all (namesPass isNoElement)) (id : ScopeId) (current : Option String) :
    Pairs (ResultRelabelled ρ ps g) (read env id patterns filter current)
      (read env' (id + k) (patterns.map (ResolvedPattern.rename ρ)) filter (current.map ρ)) := by
  simp only [read, lastOf_rename]
  refine Pairs.bind (.mapM (forall₂_map_right_iff.mpr (forall₂_same.mpr fun p hp =>
    matchPattern_relabelled (g := g) hρ hps henv (hscopes id) (hpatterns p hp))))
      fun _ _ hsteps => ?_
  rw [← filterOf_agrees ((hscopes id).agrees hρ henv _ "WHERE") hfilter]
  refine Pairs.bind (Pairs.same (filterOf_relabelled (g := g) hρ hps _ hfilter) fun _ hf => hf) ?_
  exact fun _ _ hf => .ok ⟨(Traversal.Relabelled.flatten hsteps).append hf, rfl⟩

theorem unwind_relabelled {e : Expr} (he : e.namesPass isNoElement) {x : String}
    (hx : isNoElement x) (id : ScopeId) (current : Option String) :
    Pairs (ResultRelabelled ρ ps g) (unwind env id e x current)
      (unwind env' (id + k) e x (current.map ρ)) := by
  obtain ⟨hnames, hkeys⟩ := namesPass_iff.mp he
  have hsame : unwind env' (id + k) e x (current.map ρ) = unwind env id e x current := by
    rw [unwind, unwind, lower_agrees ((hscopes id).agrees hρ henv current "UNWIND") e hnames]
  rw [hsame]
  refine Pairs.same (fun r hr => ?_) fun _ h => h
  have hreads := (unwind_ends (.reads isNoElement) hkeys trivial).gives r hr
  have hlabels := (unwind_ends (.labelled rfl) hnames hx).gives r hr
  obtain ⟨f, -, hr⟩ := bind_eq_ok.mp hr
  cases hr
  exact ⟨.of_labelsPass hρ hps rfl hreads hlabels, rfl⟩

omit hps in
theorem project_renamed (hp : p.NamesPass isNoElement) (scopeIn scopeOut : ScopeId)
    (current : Option String) :
    project env' (scopeIn + k) (scopeOut + k) { p with orderScope := p.orderScope + k }
      (current.map ρ) = project env scopeIn scopeOut p current := by
  have hwindow (keyword : String) (step : Bound → Step) (e : Option Expr) :
      window env' keyword step e = window env keyword step e := by
    unfold window bound
    rw [henv]
  have hrows : projectedRows (env'.context (env'.scopes.scope (scopeIn + k)) (current.map ρ)
        (projectionName p.final)) { p with orderScope := p.orderScope + k } =
      projectedRows (env.context (env.scopes.scope scopeIn) current (projectionName p.final)) p :=
    (projectedRows_agrees ((hscopes scopeIn).agrees hρ henv current _)
      fun i hi => (hp.items i hi).2).symm
  have horder : orderRows (env'.context (env'.scopes.scope (p.orderScope + k)) none
        (projectionName p.final)) p.order =
      orderRows (env.context (env.scopes.scope p.orderScope) none (projectionName p.final))
        p.order :=
    (orderRows_agrees ((hscopes p.orderScope).agrees hρ henv none _)
      fun o ho => (hp.order o ho).1).symm
  have hfilter : filterOf (env'.context (env'.scopes.scope (scopeOut + k)) none "WITH") p.filter =
      filterOf (env.context (env.scopes.scope scopeOut) none "WITH") p.filter :=
    (filterOf_agrees ((hscopes scopeOut).agrees hρ henv none "WITH") hp.filter).symm
  simp only [project_eq, keptRows, hrows, horder, hfilter, hwindow]
  rfl

omit henv hscopes in
theorem project_blind (hp : p.NamesPass isNoElement) (scopeIn scopeOut : ScopeId)
    (current : Option String) : Gives (fun r => r.1.Relabelled ρ ps g r.1 ∧ r.2 = none)
      (project env scopeIn scopeOut p current) := by
  have hkeys : ReadsKeys isNoElement ⟨.project p, scopeIn, scopeOut, []⟩ :=
    NamesPass.readsKeys hp
  obtain ⟨hnames, hitems, horder, hfilter⟩ := hkeys
  intro r hr
  have hreads := project_lowersToReads isNoElement_argumentColumn hnames hitems horder hfilter
    scopeIn scopeOut current r hr
  have hlabels := project_labelsPass rfl rfl isNoElement_argumentColumn hp scopeIn scopeOut current
    r hr
  obtain ⟨hstarts, hnext⟩ := project_starts scopeIn scopeOut current r hr
  exact ⟨.of_labelsPass hρ hps hstarts hreads hlabels, hnext⟩

theorem clause_relabelled (hr : r.NamesPass isNoElement) (current : Option String) :
    Pairs (ResultRelabelled ρ ps g) (clause env r current)
      (clause env' (r.rename ρ k) (current.map ρ)) := by
  obtain ⟨body, scopeIn, scopeOut, parameters⟩ := r
  cases body with
  | read patterns filter =>
    exact read_relabelled hρ hps henv hscopes hr.1 hr.2 scopeOut current
  | project p =>
    show Pairs _ (project env scopeIn scopeOut p current)
      (project env' (scopeIn + k) (scopeOut + k) { p with orderScope := p.orderScope + k }
        (current.map ρ))
    rw [project_renamed hρ henv hscopes hr]
    refine Pairs.same (project_blind (g := g) hρ hps hr scopeIn scopeOut current) fun r hr => ?_
    refine ⟨hr.1, ?_⟩
    rw [hr.2]
    rfl
  | unwind e x => exact unwind_relabelled hρ hps henv hscopes hr.1 hr.2 scopeIn current
  | create patterns => cases hr

theorem clauses_relabelled (hrs : ∀ r ∈ rs, r.NamesPass isNoElement) (current : Option String) :
    Pairs (Relabelled ρ ps g) (clauses env rs current)
      (clauses env' (rs.map (rename ρ k)) (current.map ρ)) := by
  induction rs generalizing current with
  | nil => exact .ok .nil
  | cons r rs ih =>
    obtain ⟨hr, hrest⟩ := forall_mem_cons.mp hrs
    refine (clause_relabelled (g := g) hρ hps henv hscopes hr current).bind fun a b hab => ?_
    obtain ⟨f, current⟩ := a
    obtain ⟨f', _⟩ := b
    obtain ⟨hf, rfl⟩ := hab
    exact (ih hrest current).bind fun _ _ hfs => .ok (hf.append hfs)

omit hρ hps henv hscopes in
theorem branch_eq_clauses (hrs : ∀ r ∈ rs, r.isCreate = false) :
    branch env rs = clauses env rs none := by
  unfold branch
  cases hlast : rs.getLast? with
  | none => exact bind_pure _
  | some r =>
    have hr := hrs r (mem_of_getLast? hlast)
    obtain ⟨body, scopeIn, scopeOut, parameters⟩ := r
    cases body with
    | create patterns => cases hr
    | _ => exact bind_pure _

theorem branch_relabelled (hrs : ∀ r ∈ rs, r.NamesPass isNoElement) :
    Pairs (Relabelled ρ ps g) (branch env rs) (branch env' (rs.map (rename ρ k))) := by
  have hcreate : ∀ r ∈ rs, r.isCreate = false ∧ (r.rename ρ k).isCreate = false := by
    intro r hr
    have hpass := hrs r hr
    obtain ⟨body, scopeIn, scopeOut, parameters⟩ := r
    cases body with
    | create patterns => cases hpass
    | _ => exact ⟨rfl, rfl⟩
  rw [branch_eq_clauses fun r hr => (hcreate r hr).1,
    branch_eq_clauses (forall_mem_map.mpr fun r hr => (hcreate r hr).2)]
  exact clauses_relabelled hρ hps henv hscopes hrs none

end Clauses

end LowerClause

end CypherTraversal
