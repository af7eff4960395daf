import CypherTraversal.Proofs.Bindings.Plain

/-! # Bindings hold over runs

Each clause takes rows with the names of its scope to rows with those of the next, and so do the
clauses of a plain query one after the other. -/

namespace CypherTraversal

open Run Traverser LowerClause List Traversal Resolve

/-! ### Clauses -/

variable {rs : List ResolvedClause} {before after : List ResolvedClause}

def ResolvedClause.Plain (scopes : ScopeTable) (r : ResolvedClause) : Prop :=
  ∃ c : Clause, c.isPlain ∧ ClauseResolved scopes c r

/-- The variable that rows really are at behind a clause. -/
def ResolvedClause.leaves (here : Option String) (r : ResolvedClause) : Option String :=
  match r.body with
  | .read patterns _ => lastOf here patterns
  | .create patterns => patterns.foldl ResolvedPattern.created here
  | .project _ | .unwind .. => none

def endScope (id : ScopeId) (rs : List ResolvedClause) : ScopeId :=
  rs.foldl (fun _ r => r.scopeOut) id

theorem endScope_concat (id : ScopeId) (rs : List ResolvedClause) (r : ResolvedClause) :
    endScope id (rs ++ [r]) = r.scopeOut := by
  rw [endScope, foldl_append]
  rfl

/-- Lowering of clauses one after the other, with the variable assumed at the end. -/
def LowerClause.clausesTo (env : Env) : List ResolvedClause → Option String → Result
  | [], current => .ok ([], current)
  | r :: rs, current => do
    let (steps, current) ← clause env r current
    let (rest, current) ← clausesTo env rs current
    return (steps ++ rest, current)

theorem LowerClause.clauses_append (env : Env) (first rest : List ResolvedClause)
    (current : Option String) :
    clauses env (first ++ rest) current =
      clausesTo env first current >>= fun x => (x.1 ++ ·) <$> clauses env rest x.2 := by
  induction first generalizing current with
  | nil => exact (id_map (clauses env rest current)).symm
  | cons r first ih =>
    rw [cons_append, clauses, clausesTo]
    simp only [ih, map_eq_pure_bind, bind_assoc, pure_bind, append_assoc]

theorem Chained.of_append {id : ScopeId} {first rest : List ResolvedClause}
    (h : Chained id (first ++ rest)) : Chained id first ∧ Chained (endScope id first) rest := by
  induction first generalizing id with
  | nil => exact ⟨.nil id, h⟩
  | cons r first ih =>
    cases h with
    | cons hrest => exact ⟨.cons (ih hrest).1, (ih hrest).2⟩

section Clauses

variable {env : Env} {ps : Parameters} {r : ResolvedClause} {H : Option String → Traverser → Prop}

theorem clause_returns {I : Graph → Prop} {S : Traverser → Prop} (hreturn : r.isReturn)
    (current : Option String) :
    Gives (fun x => Carries ps I Error.Benign S (fun _ => True) x.1)
      (LowerClause.clause env r current) := by
  unfold LowerClause.clause
  unfold ResolvedClause.isReturn at hreturn
  split at hreturn
  · rename_i p hbody
    rw [hbody]
    exact return_carries env r.scopeIn r.scopeOut current
  · cases hreturn

variable (hps : ∀ p ∈ ps, p.2.allKeys isKey)

include hps

theorem clause_takes (hH : ∀ here t, t.At here → H here t) (hr : r.Plain env.scopes)
    (hreturn : r.isReturn = false) (here current : Option String) :
    Gives (fun x => Takes isKey ps (RowWhere isKey H (env.scopes.scope r.scopeIn) here)
        (RowWhere isKey H (env.scopes.scope r.scopeOut) (r.leaves here)) x.1)
      (LowerClause.clause env r current) := by
  obtain ⟨c, hplain, hresolved⟩ := hr
  rw [hresolved.isReturn_eq] at hreturn
  unfold LowerClause.clause ResolvedClause.leaves RowWhere
  cases hresolved with
  | read body scopeIn scopeOut reads binds =>
    rw [body, scope_of_getElem? scopeIn, scope_of_getElem? scopeOut]
    obtain ⟨hpatterns, hfilter⟩ := Bool.and_eq_true_iff.mp hplain
    exact read_takes hps env hH (ResolvedPattern.allKeys_of_forall₂ reads hpatterns) hfilter binds
      current
  | create body scopeIn scopeOut reads binds new =>
    rw [body, scope_of_getElem? scopeIn, scope_of_getElem? scopeOut]
    exact create_takes here hps isKey_exportKeys hH
      (ResolvedPattern.allKeys_of_forall₂ reads hplain) new binds current
  | unwind body scopeIn scopeOut bindings new =>
    rw [body, scope_of_getElem? scopeIn, scope_of_getElem? scopeOut, bindings]
    obtain ⟨hkeys, hrow⟩ := Bool.and_eq_true_iff.mp hplain
    exact (unwind_takes hps env _ hkeys hrow new current).mono fun x hx =>
      hx.mono (fun _ ht => ht.1) fun t ht => ⟨ht.1, hH none t ht.2⟩
  | project body hfinal scopeIn scopeOut bindings distinct items order filter =>
    cases hreturn
    rw [body, scope_of_getElem? scopeIn, scope_of_getElem? scopeOut, bindings]
    obtain ⟨hitems, hfilter⟩ := Bool.and_eq_true_iff.mp hplain
    obtain ⟨hitems, horder⟩ := Bool.and_eq_true_iff.mp hitems
    refine (with_takes hps isKey_argumentColumn isKey_rowLabel
      (ResolvedProjection.named distinct items hitems) hfinal (fun o ho => ?_) (filter ▸ hfilter)
      (scope_of_getElem? scopeIn) r.scopeOut current).mono fun x hx =>
        hx.mono (fun _ ht => ht.1) fun t ht => ⟨ht.1, hH none t (.of_isMap ht.2)⟩
    obtain ⟨o', ho', hexpr⟩ := order o ho
    rw [hexpr]
    exact all_eq_true.mp horder o' ho'

/-! ### Runs of clauses -/

theorem clausesTo_takes (hH : ∀ here t, t.At here → H here t)
    (hplain : ∀ r ∈ rs, r.Plain env.scopes) (hreturn : ∀ r ∈ rs, r.isReturn = false) {id : ScopeId}
    (hchained : Chained id rs) (here current : Option String) :
    Gives (fun x => Takes isKey ps (RowWhere isKey H (env.scopes.scope id) here)
        (RowWhere isKey H (env.scopes.scope (endScope id rs))
          (rs.foldl ResolvedClause.leaves here)) x.1)
      (LowerClause.clausesTo env rs current) := by
  induction hchained generalizing current here with
  | nil id => exact .ok .nil
  | @cons r rs hrest ih =>
    obtain ⟨hr, hrs⟩ := forall_mem_cons.mp hplain
    obtain ⟨hlast, hlater⟩ := forall_mem_cons.mp hreturn
    exact (clause_takes hps hH hr hlast here current).bind fun x hx =>
      (ih hrs hlater _ x.2).bind fun y hy => .ok (hx.append hy)

theorem clauses_carry (hplain : ∀ r ∈ rs, r.Plain env.scopes)
    (hreturn : ∀ r ∈ rs.dropLast, r.isReturn = false) {id : ScopeId} (hchained : Chained id rs)
    (current : Option String) :
    Gives (Takes isKey ps (Row isKey (env.scopes.scope id).bindings) fun _ => True)
      (LowerClause.clauses env rs current) := by
  induction hchained generalizing current with
  | nil id => exact .ok (Carries.nil.mono (fun _ ht => ht) fun _ _ => trivial)
  | @cons r rs hrest ih =>
    obtain ⟨hr, hrs⟩ := forall_mem_cons.mp hplain
    cases hlast : r.isReturn with
    | false =>
      have hreturns : ∀ r ∈ rs.dropLast, r.isReturn = false := by
        cases rs with
        | nil => exact forall_mem_nil _
        | cons r' rs => exact (forall_mem_cons.mp hreturn).2
      refine (clause_takes hps (H := fun _ _ => True) (fun _ _ _ => trivial) hr hlast none
        current).bind fun x hx => (ih hrs hreturns x.2).bind fun f hf => .ok ?_
      exact (hx.mono (fun _ ht => ⟨ht, trivial⟩) fun _ ht => ht.1).append hf
    | true =>
      cases rs with
      | nil => exact (clause_returns hlast current).bind fun x hx => .ok (hx.append .nil)
      | cons r' rs => cases hlast.symm.trans (hreturn r mem_cons_self)

theorem branch_split {first rest : List ResolvedClause}
    (hplain : ∀ r ∈ first ++ rest, r.Plain env.scopes)
    (hreturn : ∀ r ∈ (first ++ rest).dropLast, r.isReturn = false)
    (hfirst : ∀ r ∈ first, r.isReturn = false) {id : ScopeId}
    (hchained : Chained id (first ++ rest)) :
    Gives (fun f => ∃ f₁ f₂ : Traversal, f = f₁ ++ f₂ ∧
        LowerClause.clauses env first none = .ok f₁ ∧
        f₁.Takes isKey ps (Row isKey (env.scopes.scope id).bindings)
          (Row isKey (env.scopes.scope (endScope id first)).bindings) ∧
        f₂.Takes isKey ps (Row isKey (env.scopes.scope (endScope id first)).bindings) fun _ => True)
      (LowerClause.branch env (first ++ rest)) := by
  refine Gives.bind (fun _ hf => hf) fun f hf => ?_
  rw [LowerClause.clauses_append] at hf
  obtain ⟨⟨f₁, next⟩, hf₁, hf⟩ := bind_eq_ok.mp hf
  obtain ⟨f₂, hf₂, rfl⟩ := map_eq_ok.mp hf
  obtain ⟨hplain₁, hplain₂⟩ := forall_mem_append.mp hplain
  obtain ⟨hchained₁, hchained₂⟩ := hchained.of_append
  have htakes := clausesTo_takes hps (H := fun _ _ => True) (fun _ _ _ => trivial) hplain₁ hfirst
    hchained₁ none none _ hf₁
  have hreturns : ∀ r ∈ rest.dropLast, r.isReturn = false := by
    cases rest with
    | nil => exact forall_mem_nil _
    | cons r rest =>
      rw [dropLast_append_of_ne_nil (cons_ne_nil r rest)] at hreturn
      exact (forall_mem_append.mp hreturn).2
  have htakes' := clauses_carry hps hplain₂ hreturns hchained₂ next f₂ hf₂
  have htakes := htakes.mono (fun _ ht => ⟨ht, trivial⟩) fun _ ht => ht.1
  have happend := LowerClause.clauses_append env first [] none
  rw [append_nil, hf₁] at happend
  have hf₁ := happend.trans (congrArg Except.ok (append_nil f₁))
  have hnone : Takes isKey ps (fun _ => True) (fun _ => True)
      [.barrier, .limit (.literal 0)] :=
    Carries.append (f := [.barrier]) (.step rfl .same)
      (.step rfl (Process.Reads.limit ps (.literal 0)))
  split
  · exact .ok ⟨f₁, f₂ ++ [.barrier, .limit (.literal 0)], append_assoc _ _ _, hf₁, htakes,
      htakes'.append hnone⟩
  · exact .ok ⟨f₁, f₂, rfl, hf₁, htakes, htakes'⟩

end Clauses

/-! ### Whole queries -/

structure PlainBranch (scopes : ScopeTable) (rs : List ResolvedClause) : Prop where
  clauses : ∀ r ∈ rs, r.Plain scopes
  returns : ∀ r ∈ rs.dropLast, r.isReturn = false
  chained : ∃ id, scopes.scope id = {} ∧ Chained id rs

theorem PlainBranch.isReturn_before {scopes : ScopeTable} {r : ResolvedClause}
    (h : PlainBranch scopes (before ++ r :: after)) :
    ∀ r' ∈ before, r'.isReturn = false := by
  intro r' hr'
  refine h.returns r' ?_
  rw [dropLast_append_of_ne_nil (cons_ne_nil r after)]
  exact mem_append_left _ hr'

theorem Query.plainBranches {text : String} {q : Query} (hq : Query.parse text = .ok q)
    {rq : ResolvedQuery} (hrq : q.resolve = .ok rq)
    (hplain : ∀ cs ∈ q.singles, ∀ c ∈ cs, c.isPlain) :
    ∀ rs ∈ rq.branches, PlainBranch rq.scopes rs := by
  intro rs hrs
  obtain ⟨cs, hcs, id, hid, hchained, hresolved, hreturns⟩ :=
    mem_of_forall₂ (Query.resolve_branches hq hrq) hrs
  refine ⟨fun r hr => ?_, hreturns, id, scope_of_getElem? hid, hchained⟩
  obtain ⟨c, hc, hcr⟩ := mem_of_forall₂ hresolved hr
  exact ⟨c, hplain cs hcs c hc, hcr⟩

section Queries

variable {ps : Parameters} (hps : ∀ p ∈ ps, p.2.allKeys isKey)

include hps

theorem PlainBranch.takes {env : Env} (h : PlainBranch env.scopes rs) :
    Gives (Takes isKey ps (AllKeys isKey) fun _ => True) (LowerClause.branch env rs) := by
  obtain ⟨id, hid, hchained⟩ := h.chained
  intro f hf
  obtain ⟨f₁, f₂, rfl, hf₁, -, htakes⟩ :=
    @branch_split env ps hps [] rs h.clauses h.returns (forall_mem_nil _) id hchained f hf
  cases hf₁
  rw [show endScope id [] = id from rfl, hid] at htakes
  exact htakes.mono (fun t ht => .empty ht) fun _ ht => ht

theorem PlainBranch.cut {env : Env} {r : ResolvedClause}
    (h : PlainBranch env.scopes (before ++ r :: after)) (hreturn : r.isReturn = false) :
    Gives (fun f => ∃ f₁ f₂ : Traversal, f = f₁ ++ f₂ ∧
        LowerClause.clauses env (before ++ [r]) none = .ok f₁ ∧ f₂.Starts ps ∧
        f₁.Takes isKey ps (AllKeys isKey) (Row isKey (env.scopes.scope r.scopeOut).bindings))
      (LowerClause.branch env (before ++ r :: after)) := by
  have hfirst : ∀ r' ∈ before ++ [r], r'.isReturn = false :=
    forall_mem_append.mpr ⟨h.isReturn_before, forall_mem_singleton.mpr hreturn⟩
  obtain ⟨hplain, hreturns, id, hid, hchained⟩ := h
  rw [append_cons before r after] at hplain hreturns hchained ⊢
  intro f hf
  obtain ⟨f₁, f₂, hsteps, hf₁, htakes, htakes'⟩ :=
    branch_split hps hplain hreturns hfirst hchained f hf
  rw [hid, endScope_concat] at htakes
  exact ⟨f₁, f₂, hsteps, hf₁, htakes'.starts, htakes.mono (fun _ ht => .empty ht) fun _ ht => ht⟩

omit hps in
theorem joinBranches_takes (q : ResolvedQuery) {fs : List Traversal}
    (hfs : ∀ f ∈ fs, f.Takes isKey ps (AllKeys isKey) fun _ => True) :
    Takes isKey ps (AllKeys isKey) (fun _ => True) (q.joinBranches fs) := by
  have hstart : Takes isKey ps (AllKeys isKey) (AllKeys isKey)
      [.inject [.str startMark]] :=
    .step rfl fun ts hts => .pure (forall_mem_append.mpr
      ⟨hts, forall_mem_singleton.mpr (.fresh rfl)⟩)
  have hunion : Takes isKey ps (AllKeys isKey) (fun _ => True) [.union fs] :=
    .union fun f hf => (hfs f hf).carries
  have hdistinct : Takes isKey ps (fun _ => True) (fun _ => True)
      (if q.distinctUnion then [.dedup] else []) := by
    split
    · exact .step rfl (.pick fun _ _ => Process.Reads.mem_dedup)
    · exact .nil
  unfold ResolvedQuery.joinBranches
  split
  · split
    · exact hfs _ mem_cons_self
    · exact hstart.append (hfs _ mem_cons_self)
  · exact (hstart.append hunion).append hdistinct

omit hps in
theorem results_ensure {f : Traversal} (hf : f.Takes isKey ps (AllKeys isKey) fun _ => True) :
    (f.results ps).Ensures (Graph.AllKeys isKey) (fun _ => True) Error.Benign := by
  have hinput : ∀ t ∈ f.input, t.AllKeys isKey := by
    unfold input
    split
    · exact forall_mem_nil _
    · exact forall_mem_singleton.mpr (.fresh rfl)
  exact (hf.carries f.input hinput).bind fun ts _ => Ensures.graph.bind fun g _ =>
    .ofExcept (fun _ _ => trivial) (Object.toValues_ofObject g _).benign

end Queries

/-- **Bindings are sound over whole runs.** Run the steps of a query up to and with a clause before
RETURN, from rows and on a graph without keys like the label of a projected row. Then every row
that comes out has each variable in scope labelled with an object of its kind, and selecting the
variable goes to that object. So no run of the query fails because an end of an edge is no vertex,
or because a property is set on what is no element. -/
theorem bindings_hold_over_runs {text : String} {q : Query} (hq : Query.parse text = .ok q)
    {rq : ResolvedQuery} (hrq : q.resolve = .ok rq) {ps : Parameters} {lq : LoweredQuery}
    (hlq : rq.lower ps = .ok lq) (hplain : ∀ cs ∈ q.singles, ∀ c ∈ cs, c.isPlain)
    (hps : ∀ p ∈ ps, p.2.allKeys isKey) :
    let env : Env := ⟨rq.scopes, ps⟩
    (∀ rs ∈ rq.branches, ∀ before r after, rs = before ++ r :: after → r.isReturn = false →
      ∃ f h : Traversal, LowerClause.clauses env (before ++ [r]) none = .ok f ∧
        LowerClause.branch env rs = .ok (f ++ h) ∧
        Traversal.run ps (f ++ h) = (f.run ps).andThen (h.run ps) ∧
        ∀ g : Graph, g.AllKeys isKey → ∀ ts : List Traverser, (∀ t ∈ ts, t.AllKeys isKey) →
          ∀ us g', (f.run ps ts).outcome g = (.ok us, g') → g'.AllKeys isKey ∧
            ∀ u ∈ us, ∀ b ∈ (rq.scopes.scope r.scopeOut).bindings,
              ∃ x, u.labelled? b.name = some x ∧ b.kind.describes x ∧
                (Traversal.run ps [.select b.name] [u]).outcome g' = (.ok [u.moveTo x], g')) ∧
    ∀ g : Graph, g.AllKeys isKey → ∀ e, (lq.traversal.execute ps g).1 = .error e →
      (∀ x, e ≠ .execution (.notVertex x)) ∧ ∀ key, e ≠ .execution (.notElement key) := by
  intro env
  have hbranches := Query.plainBranches hq hrq hplain
  obtain ⟨⟨⟩, -, hlq⟩ := bind_eq_ok.mp hlq
  obtain ⟨fs, hfs, hlq⟩ := bind_eq_ok.mp hlq
  cases hlq
  have hlowered := mapM_eq_ok.mp hfs
  constructor
  · rintro rs hrs before r after rfl hreturn
    obtain ⟨_, -, hbranch⟩ := mem_of_forall₂ hlowered.flip hrs
    have hplain : PlainBranch env.scopes (before ++ r :: after) := hbranches _ hrs
    obtain ⟨f, h, rfl, hf, hstarts, htakes⟩ := hplain.cut hps hreturn _ hbranch
    refine ⟨f, h, hf, hbranch, run_append hstarts, fun g hg ts hts us g' hrun => ?_⟩
    obtain ⟨hg', hus⟩ := (htakes.carries ts hts).of_ok hg hrun
    exact ⟨hg', fun u hu b hb => (hus u hu).select hb g'⟩
  · intro g hg e he
    have hall : ∀ f ∈ fs, f.Takes isKey ps (AllKeys isKey) fun _ => True := by
      intro f hf
      obtain ⟨rs, hrs, hbranch⟩ := mem_of_forall₂ hlowered hf
      have hplain : PlainBranch env.scopes rs := hbranches rs hrs
      exact hplain.takes hps f hbranch
    exact ((results_ensure (joinBranches_takes rq hall)).of_error hg (Prod.ext he rfl)).2

theorem copies_keep_bindings :
    let text := "MATCH (a:person)-[:created]->(b) WITH a, collect(b) AS bs, \x7bk: a.name\x7d AS m
      UNWIND bs AS x CREATE (a)-[:likes \x7bw: $w\x7d]->(c:copy \x7bname: m.k\x7d) RETURN c, x"
    let ps : Parameters := [("w", .int 1)]
    ∃ q rq lq before r after f us g', Query.parse text = .ok q ∧ q.resolve = .ok rq ∧
      rq.lower ps = .ok lq ∧ (∀ cs ∈ q.singles, ∀ c ∈ cs, c.isPlain) ∧
      before ++ r :: after ∈ rq.branches ∧
      (rq.scopes.scope r.scopeOut).bindings = [⟨"a", .node⟩, ⟨"bs", .aggregate⟩, ⟨"m", .map⟩,
        ⟨"x", .value⟩, ⟨"  UNNAMED1", .relationship⟩, ⟨"c", .node⟩] ∧
      LowerClause.clauses ⟨rq.scopes, ps⟩ (before ++ [r]) none = .ok f ∧
      (f.run ps [{ object := .null }]).outcome .modern = (.ok us, g') ∧ us.length = 4 ∧
      (∀ u ∈ us, ∀ b ∈ (rq.scopes.scope r.scopeOut).bindings,
        ∃ x, u.labelled? b.name = some x ∧ b.kind.describes x ∧
          (Traversal.run ps [.select b.name] [u]).outcome g' = (.ok [u.moveTo x], g')) ∧
      ∀ e, (lq.traversal.execute ps .modern).1 = .error e →
        (∀ x, e ≠ .execution (.notVertex x)) ∧ ∀ key, e ≠ .execution (.notElement key) := by
  intro text ps
  obtain ⟨q, hq, rq, hrq, lq, hlq, hplain, rs, hbranch, r, hr, hreturn, hbindings, f, hf, us, hrun,
      hus⟩ : ∃ q, Query.parse text = .ok q ∧ ∃ rq, q.resolve = .ok rq ∧
      ∃ lq, rq.lower ps = .ok lq ∧ (∀ cs ∈ q.singles, ∀ c ∈ cs, c.isPlain) ∧
      ∃ rs, rq.branches[0]? = some rs ∧ ∃ r, rs[3]? = some r ∧ r.isReturn = false ∧
      (rq.scopes.scope r.scopeOut).bindings = [⟨"a", .node⟩, ⟨"bs", .aggregate⟩, ⟨"m", .map⟩,
        ⟨"x", .value⟩, ⟨"  UNNAMED1", .relationship⟩, ⟨"c", .node⟩] ∧
      ∃ f, LowerClause.clauses ⟨rq.scopes, ps⟩ (rs.take 3 ++ [r]) none = .ok f ∧
      ∃ us, ((f.run ps [{ object := .null }]).outcome .modern).1 = .ok us ∧ us.length = 4 := by
    decide +kernel
  have hrs := (take_cons_drop hr).symm ▸ List.mem_of_getElem? hbranch
  have hps : ∀ p ∈ ps, p.2.allKeys isKey := List.forall_mem_singleton.mpr rfl
  obtain ⟨hrows, herrors⟩ := bindings_hold_over_runs hq hrq hlq hplain hps
  obtain ⟨f', h, hf', -, -, hrows⟩ := hrows _ hrs _ r _ rfl hreturn
  obtain rfl : f' = f := Except.ok.inj (hf'.symm.trans hf)
  have hstart : ∀ t ∈ [{ object := .null }], AllKeys isKey t :=
    List.forall_mem_singleton.mpr (.fresh rfl)
  have hout : (f'.run ps [{ object := .null }]).outcome .modern = (.ok us, _) := Prod.ext hrun rfl
  exact ⟨q, rq, lq, _, r, _, f', us, _, hq, hrq, hlq, hplain, hrs, hbindings, hf, hout, hus,
    (hrows .modern (by decide) _ hstart us _ hout).2, herrors .modern (by decide)⟩

end CypherTraversal
