import CypherTraversal.Proofs.Bindings.Sound

/-! # The current variable

Lowering assumes that rows are at the last node of the clause before. Rows are there if that
clause arrives at a node; behind a created relationship they are at its edge. -/

namespace CypherTraversal

open Run Traverser LowerClause List ResolvedClause

variable {id : ScopeId} {patterns : List ResolvedPattern} {rs : List ResolvedClause}
  {ok : String → Bool} {ps : Parameters} {s s' : Scope} {here : Option String}

/-! ### Where rows are -/

theorem lastOf_concat (current : Option String) (patterns : List ResolvedPattern)
    (p : ResolvedPattern) : lastOf current (patterns ++ [p]) = some p.lastName := by
  unfold lastOf
  rw [getLast?_concat]

/-! ### Clauses -/

section Clauses

variable {env : Env} {r : ResolvedClause} {scopes : ScopeTable} {current : Option String}

def ResolvedClause.assumes (current : Option String) (r : ResolvedClause) : Option String :=
  match r.body with
  | .read patterns _ | .create patterns => lastOf current patterns
  | .project _ | .unwind .. => none

theorem ResolvedClause.assumes_of_isReturn (h : r.isReturn) : r.assumes current = none := by
  unfold isReturn at h
  unfold assumes
  cases hbody : r.body with
  | project p | unwind e var => rfl
  | _ =>
    rw [hbody] at h
    cases h

theorem clause_assumes (env : Env) (r : ResolvedClause) (current : Option String) :
    Gives (fun x => x.2 = r.assumes current) (LowerClause.clause env r current) := by
  unfold LowerClause.clause assumes
  cases r.body with
  | read patterns filter => exact Gives.skip fun _ => Gives.skip fun _ => .ok rfl
  | create patterns | unwind e var => exact Gives.skip fun _ => .ok rfl
  | project p =>
    intro x hx
    have hproject : x.1.Starts [] ∧ x.2 = none := project_starts r.scopeIn r.scopeOut current x hx
    exact hproject.2

/-- Rows are behind the clause where its lowering takes them to be. -/
def ResolvedClause.arrives (r : ResolvedClause) : Bool :=
  match r.body with
  | .read patterns _ => !patterns.isEmpty
  | .create patterns => patterns.getLast?.any fun p => p.hops.isEmpty && !p.start.bound
  | .project _ | .unwind .. => true

/-- The last thing that the clause makes is a relationship. -/
def ResolvedClause.endsInEdge (r : ResolvedClause) : Bool :=
  match r.body with
  | .create patterns => patterns.getLast?.any fun p => !p.hops.isEmpty
  | _ => false

theorem ResolvedClause.leaves_eq_assumes (h : r.arrives) : r.leaves here = r.assumes current := by
  unfold arrives at h
  unfold leaves assumes
  cases hbody : r.body with
  | read patterns filter =>
    rw [hbody] at h
    rcases eq_nil_or_concat' patterns with rfl | ⟨init, p, rfl⟩
    · cases h
    · exact (lastOf_concat here init p).trans (lastOf_concat current init p).symm
  | create patterns =>
    rw [hbody] at h
    dsimp only at h ⊢
    rcases eq_nil_or_concat' patterns with rfl | ⟨init, p, rfl⟩
    · cases h
    · rw [getLast?_concat, Option.any_some, Bool.and_eq_true, List.isEmpty_iff,
        Bool.not_eq_true'] at h
      rw [lastOf_concat, foldl_append, foldl_cons, foldl_nil]
      unfold ResolvedPattern.created ResolvedPattern.lastName
      rw [h.1, h.2]
      rfl
  | project p | unwind e var => rfl

theorem ClauseResolved.leaves_edge {c : Clause} (hr : ClauseResolved scopes c r)
    (h : r.endsInEdge) :
    ∃ y, r.leaves here = some y ∧ (scopes.scope r.scopeOut).kind? y = some .relationship := by
  unfold endsInEdge at h
  unfold leaves
  cases hr with
  | @create r ws patterns s s' body scopeIn scopeOut reads binds new =>
    rw [body] at h ⊢
    rw [Resolve.scope_of_getElem? scopeOut]
    dsimp only at h ⊢
    rcases eq_nil_or_concat' patterns with rfl | ⟨init, p, rfl⟩
    · cases h
    · rw [getLast?_concat, Option.any_some] at h
      rw [foldl_append, foldl_cons, foldl_nil]
      unfold ResolvedPattern.created
      cases hlast : p.hops.getLast? with
      | none =>
        rw [getLast?_eq_none_iff.mp hlast] at h
        cases h
      | some hop =>
        refine ⟨hop.1.name, rfl, ?_⟩
        have hmem : hop.1.binding ∈ p.bindings :=
          mem_cons_of_mem _ (mem_flatMap.mpr ⟨hop, mem_of_getLast? hlast, mem_cons_self⟩)
        exact binds.kind?_of_mem (mem_flatMap.mpr ⟨p, mem_append_right _ mem_cons_self, hmem⟩)
  | read body _ _ _ _ | unwind body _ _ _ _
  | project body _ _ _ _ _ _ _ _ => rw [body] at h; cases h

theorem ResolvedPattern.lastName_mem (p : ResolvedPattern) :
    ∃ b ∈ p.bindings, b.1 = ⟨p.lastName, .node⟩ := by
  unfold lastName
  cases hlast : p.hops.getLast? with
  | none => exact ⟨p.start.binding, mem_cons_self, rfl⟩
  | some hop =>
    exact ⟨hop.2.binding, mem_cons_of_mem _ (mem_flatMap.mpr
      ⟨hop, mem_of_getLast? hlast, mem_cons_of_mem _ mem_cons_self⟩), rfl⟩

theorem Scope.Binds.lastOf_node (h : s.Binds (patterns.flatMap ResolvedPattern.bindings) s')
    (hcurrent : ∀ x ∈ current, s.kind? x = some .node) :
    ∀ x ∈ lastOf current patterns, s'.kind? x = some .node := by
  intro x hx
  rcases eq_nil_or_concat' patterns with rfl | ⟨init, p, rfl⟩
  · exact h.kind?_mono (hcurrent x hx)
  · rw [lastOf_concat] at hx
    cases hx
    obtain ⟨b, hb, hname⟩ := p.lastName_mem
    have hkind := h.kind?_of_mem (mem_flatMap.mpr ⟨p, mem_append_right _ mem_cons_self, hb⟩)
    rw [hname] at hkind
    exact hkind

theorem ClauseResolved.assumes_node {c : Clause} (hr : ClauseResolved scopes c r)
    (hcurrent : ∀ x ∈ current, (scopes.scope r.scopeIn).kind? x = some .node) :
    ∀ x ∈ r.assumes current, (scopes.scope r.scopeOut).kind? x = some .node := by
  unfold ResolvedClause.assumes
  cases hr with
  | read body scopeIn scopeOut _ binds | create body scopeIn scopeOut _ binds _ =>
    rw [Resolve.scope_of_getElem? scopeIn] at hcurrent
    rw [body, Resolve.scope_of_getElem? scopeOut]
    exact binds.lastOf_node hcurrent
  | unwind body _ _ _ _ | project body _ _ _ _ _ _ _ _ => rw [body]; exact nofun

/-! ### Runs of clauses -/

theorem clausesTo_assumes (env : Env) (rs : List ResolvedClause) (current : Option String) :
    Gives (fun x => x.2 = rs.foldl assumes current) (LowerClause.clausesTo env rs current) := by
  induction rs generalizing current with
  | nil => exact .ok rfl
  | cons r rs ih =>
    refine (clause_assumes env r current).bind fun x hx => (ih x.2).bind fun y hy => .ok ?_
    rw [foldl_cons, ← hx]
    exact hy

theorem Chained.assumes_node (hchained : Chained id rs) (hplain : ∀ r ∈ rs, r.Plain scopes)
    (current : Option String) (hcurrent : ∀ x ∈ current, (scopes.scope id).kind? x = some .node) :
    ∀ x ∈ rs.foldl assumes current, (scopes.scope (endScope id rs)).kind? x = some .node := by
  induction hchained generalizing current with
  | nil id => exact hcurrent
  | @cons r rs hrest ih =>
    obtain ⟨⟨c, -, hr⟩, hrs⟩ := forall_mem_cons.mp hplain
    exact ih hrs _ (hr.assumes_node hcurrent)

end Clauses

/-! ### Whole queries -/

theorem Traverser.Row.at_node_iff {u : Traverser} (hrow : u.Row ok s.bindings) (hat : u.At here)
    {x : String} (hx : s.kind? x = some .node) :
    u.labelled? x = some u.object ↔ ∃ y, here = some y ∧ u.labelled? y = u.labelled? x := by
  cases here with
  | some y =>
    have hy : u.labelled? y = some u.object := hat
    constructor
    · intro h
      exact ⟨y, rfl, hy.trans h.symm⟩
    · rintro ⟨z, hz, hlabel⟩
      cases hz
      exact hlabel.symm.trans hy
  | none =>
    constructor
    · intro h
      obtain ⟨_, hlabel, hdescribes⟩ := hrow.labels _ (Scope.mem_of_kind? hx)
      obtain rfl := Option.some.inj (h.symm.trans hlabel)
      obtain ⟨v, hv⟩ := Kind.describes_node hdescribes
      have hnone : Process.identifier? u.object = none := hat
      rw [hv] at hnone
      cases hnone
    · rintro ⟨y, hy, -⟩
      cases hy

theorem Traverser.Row.node_ne_relationship {u : Traverser} (hrow : u.Row ok s.bindings)
    {x y : String} (hx : s.kind? x = some .node) (hy : s.kind? y = some .relationship) :
    u.labelled? y ≠ u.labelled? x := by
  obtain ⟨v, hv, hvertex⟩ := hrow.labels _ (Scope.mem_of_kind? hx)
  obtain ⟨e, he, hedge⟩ := hrow.labels _ (Scope.mem_of_kind? hy)
  obtain ⟨i, rfl⟩ := Kind.describes_node hvertex
  obtain ⟨j, rfl⟩ := Kind.describes_relationship hedge
  intro h
  cases he.symm.trans (h.trans hv)

/-- **Where rows are, and where they are taken to be.** Run the steps of a query up to and with a
clause, from rows that are at no element. If some variable is then taken to be current, a row is at
its object exactly where it is labelled like the variable that was visited last. So it is after
MATCH, and after CREATE if that ends with a new node on its own; and it is not after CREATE if that
ends with a relationship. -/
theorem rows_are_at_current_iff {text : String} {q : Query} (hq : Query.parse text = .ok q)
    {rq : ResolvedQuery} (hrq : q.resolve = .ok rq) {ps : Parameters} {lq : LoweredQuery}
    (hlq : rq.lower ps = .ok lq) (hplain : ∀ cs ∈ q.singles, ∀ c ∈ cs, c.isPlain)
    (hps : ∀ p ∈ ps, p.2.allKeys isKey) :
    let env : Env := ⟨rq.scopes, ps⟩
    ∀ rs ∈ rq.branches, ∀ before r after, rs = before ++ r :: after →
      ∃ f current, LowerClause.clausesTo env (before ++ [r]) none = .ok (f, current) ∧
        LowerClause.clauses env rs none = (f ++ ·) <$> LowerClause.clauses env after current ∧
        ∀ g : Graph, g.AllKeys isKey → ∀ ts : List Traverser,
          (∀ t ∈ ts, t.AllKeys isKey ∧ Process.identifier? t.object = none) →
          ∀ us g', (f.run ps ts).outcome g = (.ok us, g') → ∀ u ∈ us, ∀ x, current = some x →
            (u.labelled? x = some u.object ↔
              ∃ y, (before ++ [r]).foldl ResolvedClause.leaves none = some y ∧
                u.labelled? y = u.labelled? x) ∧
            (r.arrives → u.labelled? x = some u.object) ∧
            (r.endsInEdge → u.labelled? x ≠ some u.object) := by
  rintro env rs hrs before r after rfl
  obtain ⟨⟨⟩, -, hlq⟩ := bind_eq_ok.mp hlq
  obtain ⟨fs, hfs, -⟩ := bind_eq_ok.mp hlq
  obtain ⟨_, -, hbranch⟩ := mem_of_forall₂ (mapM_eq_ok.mp hfs).flip hrs
  obtain ⟨steps, hsteps, -⟩ := bind_eq_ok.mp hbranch
  rw [List.append_cons before r after] at hsteps
  have happend := LowerClause.clauses_append env (before ++ [r]) after none
  obtain ⟨⟨f, current⟩, hf, hrest⟩ := bind_eq_ok.mp (happend.symm.trans hsteps)
  rw [hf, ← List.append_cons before r after] at happend
  refine ⟨f, current, hf, happend, fun g hg ts hts us g' hrun u hu x hx => ?_⟩
  have hassumes : current = r.assumes (before.foldl assumes none) := by
    have h := clausesTo_assumes env _ _ _ hf
    rw [List.foldl_append] at h
    exact h
  have hbranch : PlainBranch env.scopes (before ++ r :: after) :=
    Query.plainBranches hq hrq hplain _ hrs
  cases hreturn : r.isReturn with
  | true =>
    rw [assumes_of_isReturn hreturn] at hassumes
    cases hassumes.symm.trans hx
  | false =>
    have hfirst : ∀ r' ∈ before ++ [r], r'.isReturn = false :=
      List.forall_mem_append.mpr ⟨hbranch.isReturn_before, List.forall_mem_singleton.mpr hreturn⟩
    obtain ⟨hclauses, -, id, hid, hchained⟩ := hbranch
    rw [List.append_cons before r after] at hclauses hchained
    have hplain := (List.forall_mem_append.mp hclauses).1
    have hchained : Chained id (before ++ [r]) := hchained.of_append.1
    have htakes := clausesTo_takes hps (fun _ _ hat => hat) hplain hfirst hchained none none
      (f, current) hf
    have hstart : ∀ t ∈ ts, t.Row isKey (env.scopes.scope id).bindings ∧ t.At none := by
      intro t ht
      rw [hid]
      exact ⟨.empty (hts t ht).1, (hts t ht).2⟩
    obtain ⟨hrow, hat⟩ := ((htakes.carries ts hstart).of_ok hg hrun).2 u hu
    have hnode : (env.scopes.scope (endScope id (before ++ [r]))).kind? x = some .node := by
      refine hchained.assumes_node hplain none nofun x ?_
      rw [List.foldl_append]
      exact hassumes.symm.trans hx
    have hiff := hrow.at_node_iff hat hnode
    refine ⟨hiff, fun harrives => ?_, fun hedge => ?_⟩
    · refine hiff.mpr ⟨x, ?_, rfl⟩
      rw [List.foldl_append]
      exact (leaves_eq_assumes harrives).trans (hassumes.symm.trans hx)
    · rw [ne_eq, hiff]
      rintro ⟨y, hy, hlabel⟩
      obtain ⟨c, -, hresolved⟩ := hplain r (List.mem_append_right _ List.mem_cons_self)
      obtain ⟨z, hz, hkind⟩ := hresolved.leaves_edge hedge
      rw [List.foldl_append] at hy
      obtain rfl := Option.some.inj (hz.symm.trans hy)
      rw [← endScope_concat id before r] at hkind
      exact hrow.node_ne_relationship hnode hkind hlabel

theorem copies_are_current :
    let text := "MATCH (a:person)-[:created]->(b) CREATE (a), (c:copy \x7bname: a.name\x7d)
      RETURN c.name IS NULL AS missing"
    ∃ q rq lq before r after f us g', Query.parse text = .ok q ∧ q.resolve = .ok rq ∧
      rq.lower [] = .ok lq ∧ (∀ cs ∈ q.singles, ∀ c ∈ cs, c.isPlain) ∧
      before ++ r :: after ∈ rq.branches ∧ r.arrives ∧
      LowerClause.clausesTo ⟨rq.scopes, []⟩ (before ++ [r]) none = .ok (f, some "c") ∧
      (f.run [] [{ object := .null }]).outcome .modern = (.ok us, g') ∧ us.length = 4 ∧
      ∀ u ∈ us, u.labelled? "c" = some u.object := by
  intro text
  obtain ⟨q, hq, rq, hrq, lq, hlq, hplain, rs, hbranch, r, hr, harrives, ⟨f, current⟩, hf, rfl, us,
      hrun, hus⟩ : ∃ q, Query.parse text = .ok q ∧ ∃ rq, q.resolve = .ok rq ∧
      ∃ lq, rq.lower [] = .ok lq ∧ (∀ cs ∈ q.singles, ∀ c ∈ cs, c.isPlain) ∧
      ∃ rs, rq.branches[0]? = some rs ∧ ∃ r, rs[1]? = some r ∧ r.arrives ∧
      ∃ x, LowerClause.clausesTo ⟨rq.scopes, []⟩ (rs.take 1 ++ [r]) none = .ok x ∧
      x.2 = some "c" ∧
      ∃ us, ((x.1.run [] [{ object := .null }]).outcome .modern).1 = .ok us ∧ us.length = 4 := by
    decide +kernel
  have hrs := (take_cons_drop hr).symm ▸ List.mem_of_getElem? hbranch
  obtain ⟨f', current, hf', -, hrows⟩ := rows_are_at_current_iff hq hrq hlq hplain
    (List.forall_mem_nil _) _ hrs _ r _ rfl
  cases hf'.symm.trans hf
  have hstart : ∀ t ∈ [{ object := .null }],
      AllKeys isKey t ∧ Process.identifier? t.object = none :=
    List.forall_mem_singleton.mpr ⟨.fresh rfl, rfl⟩
  have hout : (f.run [] [{ object := .null }]).outcome .modern = (.ok us, _) := Prod.ext hrun rfl
  exact ⟨q, rq, lq, _, r, _, f, us, _, hq, hrq, hlq, hplain, hrs, harrives, hf, hout, hus,
    fun u hu => (hrows .modern (by decide) _ hstart us _ hout u hu "c" rfl).2.1 harrives⟩

/-- Behind a relationship that is created, rows are at the relationship, and its last node is taken
to be current. -/
theorem created_edge_is_current :
    let text := "CREATE (a:x)-[:t]->(b:y \x7bk: 1\x7d) RETURN b.k IS NULL AS missing"
    ∃ q rq r after f u g', Query.parse text = .ok q ∧ q.resolve = .ok rq ∧
      rq.branches = [[r, after]] ∧
      LowerClause.clausesTo ⟨rq.scopes, []⟩ [r] none = .ok (f, some "b") ∧
      (f.run [] [{ object := .null }]).outcome (.empty "g") = (.ok [u], g') ∧
      u.labelled? "b" ≠ some u.object := by
  intro text
  obtain ⟨q, hq, rq, hrq, hlengths, r, hr, ⟨f, _⟩, hf, rfl, us, hrun, hone, hlabel⟩ :
      ∃ q, Query.parse text = .ok q ∧ ∃ rq, q.resolve = .ok rq ∧ rq.branches.map length = [2] ∧
      ∃ r, rq.branches.flatten[0]? = some r ∧
      ∃ x, LowerClause.clausesTo ⟨rq.scopes, []⟩ [r] none = .ok x ∧ x.2 = some "b" ∧
      let run := (x.1.run [] [{ object := .null }]).outcome (.empty "g")
      ∃ us, run.1 = .ok us ∧ us.length = 1 ∧ ∀ u ∈ us,
        (u.labelled? "b").bind run.2.label? ≠ run.2.label? u.object := by decide +kernel
  obtain ⟨u, rfl⟩ := length_eq_one_iff.mp hone
  match hbranches : rq.branches, hlengths with
  | [[_, after]], _ =>
    rw [hbranches] at hr
    cases hr
    exact ⟨q, rq, r, after, f, u, _, hq, hrq, hbranches, hf, Prod.ext hrun rfl,
      fun h => hlabel u mem_cons_self (h ▸ rfl)⟩

end CypherTraversal
