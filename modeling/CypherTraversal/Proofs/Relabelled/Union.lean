import CypherTraversal.Proofs.Aggregates.Reductions
import CypherTraversal.Proofs.Lowering.Single
import CypherTraversal.Proofs.Relabelled.Scopes

/-! # Unions

UNION ALL gives the rows of its single queries one after another, and UNION drops the repeated ones.
A single query of a union differs from the query on its own in the numbers of its generated names,
in its place in the table of scopes and in the row that it starts from. None of this shows in its
rows, as long as no name and no key of a map is like a generated one. -/

namespace CypherTraversal

open Run LowerClause List Traversal Query Resolve

variable {st₁ st₂ : State} {f : Traversal} {g' : Graph} {xs ys : List Object} {vs : List Value}
  {text : String} {answers : List (List Object × List Value)} {cs : List Clause} {k : Traversal}
  {ks : List Traversal} {q : Query} {r : ResolvedQuery} {rs : List ResolvedClause}
  {us : List Traverser}

/-! ### Longer tables -/

namespace LowerClause

variable {scopes : ScopeTable} (more : ScopeTable) {ps : Parameters}

theorem clause_more {names : List String} {r : ResolvedClause} (hr : r.Checked scopes names)
    (current : Option String) :
    clause ⟨scopes ++ more, ps⟩ r current = clause ⟨scopes, ps⟩ r current := by
  have hsame {id : ScopeId} {s : Scope} (hs : scopes[id]? = some s) :
      ScopeTable.scope (scopes ++ more) id = scopes.scope id := by
    rw [scope_of_getElem? hs, scope_of_getElem? (getElem?_mono hs more)]
  obtain ⟨body, scopeIn, scopeOut, parameters⟩ := r
  cases body with
  | read patterns filter =>
    obtain ⟨s, hs, -⟩ := hr
    show read _ scopeOut patterns filter current = read _ scopeOut patterns filter current
    unfold read
    rw [hsame hs]
    rfl
  | create patterns =>
    obtain ⟨s, hs, -⟩ := hr
    show create _ scopeOut patterns current = create _ scopeOut patterns current
    unfold create
    rw [hsame hs]
    rfl
  | unwind e x =>
    obtain ⟨s, hs, -⟩ := hr
    show unwind _ scopeIn e x current = unwind _ scopeIn e x current
    unfold unwind
    rw [hsame hs]
    rfl
  | project p =>
    obtain ⟨input, sorted, output, hinput, hsorted, houtput, -⟩ := hr
    show project _ scopeIn scopeOut p current = project _ scopeIn scopeOut p current
    unfold project
    rw [hsame hinput, hsame hsorted, hsame houtput]
    rfl

theorem clauses_more (hrs : ∀ r ∈ rs, ∃ names, r.Checked scopes names) (current : Option String) :
    clauses ⟨scopes ++ more, ps⟩ rs current = clauses ⟨scopes, ps⟩ rs current := by
  induction rs generalizing current with
  | nil => rfl
  | cons r rs ih =>
    obtain ⟨⟨names, hr⟩, hrest⟩ := forall_mem_cons.mp hrs
    unfold clauses
    rw [clause_more more hr]
    simp only [ih hrest]

theorem branch_more (hrs : BranchChecked scopes rs) :
    branch ⟨scopes ++ more, ps⟩ rs = branch ⟨scopes, ps⟩ rs := by
  unfold branch
  rw [clauses_more more fun r hr => ⟨_, hrs.clauses r hr⟩]

end LowerClause

/-! ### Single queries on their own -/

namespace Resolve

theorem State.shifted_initial (st : State) :
    State.Shifted (shiftElements st.unnamed) st.scopes.length st.unnamed {} st where
  unnamed := (Nat.zero_add _).symm
  length := (Nat.zero_add _).symm
  scopes id := by
    have hempty : st.scopes.scope (id + st.scopes.length) = {} := by
      unfold ScopeTable.scope
      rw [getD_eq_getElem?_getD, getElem?_eq_none (Nat.le_add_left _ _)]
      rfl
    rw [hempty]
    rfl

end Resolve

theorem Query.resolve_single (h : resolve ⟨cs, []⟩ = .ok r) :
    ∃ rs st, Resolve.branch cs {} = .ok (rs, st) ∧ r.branches = [rs] ∧ r.scopes = st.scopes := by
  obtain ⟨first, st, rest, st', hbranch, hrest, hbranches, hscopes, -⟩ := resolve_eq_ok h
  cases hrest
  exact ⟨first, st, hbranch, hbranches, hscopes⟩

section Rows

variable {ps : Parameters} {g : Graph}

theorem LowerClause.branch_relabelled_own (hps : ∀ p ∈ ps, p.2.allKeys isNoElement)
    (hcs : ∀ c ∈ cs, c.namesPass isNoElement) (hcreate : ∀ c ∈ cs, c.isCreate = false)
    (hrs : Resolve.branch cs st₁ = .ok (rs, st₂)) (hmore : st₂.scopes <+: scopes)
    {own : List ResolvedClause} {st : State} (hown : Resolve.branch cs {} = .ok (own, st)) :
    ∃ ρ, Pairs (Relabelled ρ ps g) (branch ⟨st.scopes, ps⟩ own) (branch ⟨scopes, ps⟩ rs) := by
  have hρ := renames_shiftElements st₁.unnamed
  obtain ⟨hclauses, hshifted⟩ := branch_follows hρ (shiftElements_elementName _) hcs hcreate
    {} st₁ st₁.shifted_initial _ _ hown hrs
  obtain ⟨more, rfl⟩ := hmore
  have hrename : own.map (ResolvedClause.rename _ _) = rs :=
    (map_eq_of_forall₂ hclauses fun _ _ h => h.1.symm).trans (map_id rs)
  have hnames : ∀ r ∈ own, r.NamesPass isNoElement :=
    ((forall₂_and_left _ _).mp (hclauses.imp fun _ _ h => h.symm)).1
  have henv : Env.parameters ⟨st.scopes, ps⟩ = Env.parameters ⟨st₂.scopes, ps⟩ := rfl
  refine ⟨shiftElements st₁.unnamed, ?_⟩
  rw [branch_more more (branch_checked hrs).2, ← hrename]
  exact branch_relabelled hρ hps henv hshifted.scopes hnames

/-! ### The start -/

def startRow : Traverser := { object := .str startMark }

theorem Traversal.Relabelled.objects {ρ : String → String} (h : f.Relabelled ρ ps g k)
    (hg : g.AllKeys isNoElement) (hus : (f.run ps [startRow]).outcome g = (.ok us, g')) :
    ∃ ws, (k.run ps [startRow]).outcome g = (.ok ws, g) ∧ g' = g ∧
      ws.map Traverser.object = us.map Traverser.object := by
  obtain ⟨_, -, ⟨rfl, -⟩, ⟨_, ws, hf, hk, hrows⟩ | ⟨e, _, hf, -⟩⟩ :=
    h.rows g ⟨rfl, hg⟩ [startRow] [startRow] (.cons ⟨.fresh rfl, rfl⟩ .nil)
  · cases hf.symm.trans hus
    exact ⟨ws, hk, rfl, ((Bond.relabelled ρ g').objects_eq (g := g') hrows).symm⟩
  · cases hf.symm.trans hus

theorem Traversal.run_vertices (f : Traversal) (x y : Object) :
    run ps (.vertices :: f) [{ object := x }] = run ps (.vertices :: f) [{ object := y }] :=
  rfl

theorem Resolve.BranchResolved.starts_branch (h : BranchResolved scopes cs rs)
    (hcs : ∀ c ∈ cs, c.HasPatterns) (hmatch : startsWithMatch rs) (env : Env) :
    Gives (fun f => ∃ k, f = .vertices :: k) (LowerClause.branch env rs) := by
  have hclauses : Gives (fun f => ∃ k, f = .vertices :: k) (LowerClause.clauses env rs none) := by
    cases rs with
    | nil => cases hmatch
    | cons r rs =>
      refine (h.starts hcs hmatch env none).bind fun x hx => ?_
      obtain ⟨k, hk⟩ := hx
      refine Gives.skip fun rest => .ok ?_
      rw [hk]
      exact ⟨k ++ rest, rfl⟩
  refine hclauses.bind fun f hf => ?_
  obtain ⟨k, rfl⟩ := hf
  split
  · exact .ok ⟨k ++ _, rfl⟩
  · exact .ok ⟨k, rfl⟩

theorem Query.run_single (hcs : ∀ c ∈ cs, Parser.ClauseAlternates c)
    (hr : resolve ⟨cs, []⟩ = .ok r) (hbranches : r.branches = [rs])
    (hf : LowerClause.branch ⟨r.scopes, ps⟩ rs = .ok f) (hstarts : f.Starts ps) :
    run ps (r.joinBranches [f]) (r.joinBranches [f]).input = f.run ps [startRow] := by
  obtain ⟨_, st, hbranch, hrs, -⟩ := resolve_single hr
  cases hbranches.symm.trans hrs
  have hresolved := branch_eq_ok (fun c hc => (hcs c hc).alternates) hbranch
  unfold ResolvedQuery.joinBranches
  rw [hbranches]
  dsimp only
  split
  · rename_i hmatch
    obtain ⟨k, rfl⟩ := hresolved.starts_branch (fun c hc => (hcs c hc).hasPatterns) hmatch _ f hf
    exact run_vertices k _ _
  · show run ps ([.inject [.str startMark]] ++ f) [] = _
    rfl

/-! ### Answers -/

theorem Object.exists_toValues (h : ∀ y ∈ ys, y ∈ xs)
    (hvs : toValues g xs = .ok vs) : ∃ ws, toValues g ys = .ok ws := by
  rw [toValues_eq_mapM] at hvs ⊢
  refine exists_mapM_eq_ok fun y hy => ?_
  obtain ⟨v, -, hv⟩ := mem_of_forall₂ (mapM_eq_ok.mp hvs).flip (h y hy)
  exact ⟨v, hv⟩

theorem Traversal.execute_of_rows {t : Traversal}
    (h : (t.run ps t.input).outcome g = (.ok us, g')) :
    t.execute ps g = (Object.toValues g' (us.map Traverser.object), g') := by
  show (t.results ps).outcome g = _
  unfold results
  rw [outcome_bind_ok h]
  rfl

/-- The rows of a query, as objects and as values. -/
def Query.rows (q : Query) (ps : Parameters) (g : Graph) :
    Except Error (List Object × List Value) := do
  let p ← q.compile .native ps
  match p.traversal? with
  | none => throw (.execution .scriptText)
  | some t =>
    let us ← ((t.run ps t.input).outcome g).1
    return (us.map Traverser.object, ← (t.execute ps g).1)

theorem Query.rows_eq_ok {objects : List Object} {values : List Value} :
    q.rows ps g = .ok (objects, values) ↔ ∃ p t us g', q.compile .native ps = .ok p ∧
      p.traversal? = some t ∧ (t.run ps t.input).outcome g = (.ok us, g') ∧
      us.map Traverser.object = objects ∧ Object.toValues g' objects = .ok values := by
  constructor
  · intro h
    obtain ⟨p, hp, h⟩ := bind_eq_ok.mp h
    split at h
    · cases h
    · rename_i t ht
      obtain ⟨us, hus, h⟩ := bind_eq_ok.mp h
      obtain ⟨vs, hvs, h⟩ := bind_eq_ok.mp h
      cases h
      have hrun : (t.run ps t.input).outcome g = (.ok us, _) := Prod.ext hus rfl
      rw [execute_of_rows hrun] at hvs
      exact ⟨p, t, us, _, hp, ht, hrun, rfl, hvs⟩
  · rintro ⟨p, t, us, g', hp, ht, hrun, rfl, hvalues⟩
    refine bind_eq_ok.mpr ⟨p, hp, ?_⟩
    rw [ht]
    refine bind_eq_ok.mpr ⟨us, congrArg Prod.fst hrun, bind_eq_ok.mpr ⟨values, ?_, rfl⟩⟩
    rw [execute_of_rows hrun, hvalues]

theorem Query.compile_native {p : Program} (h : q.compile .native ps = .ok p) :
    ∃ r fs, q.resolve = .ok r ∧ r.branches.mapM (branch ⟨r.scopes, ps⟩) = .ok fs ∧
      p.traversal? = some (r.joinBranches fs) := by
  obtain ⟨r, hr, h⟩ := bind_eq_ok.mp h
  obtain ⟨l, hl, h⟩ := bind_eq_ok.mp h
  cases h
  obtain ⟨⟨⟩, -, hl⟩ := bind_eq_ok.mp hl
  obtain ⟨fs, hfs, hl⟩ := bind_eq_ok.mp hl
  cases hl
  exact ⟨r, fs, hr, hfs, rfl⟩

structure Traversal.Contributes (ps : Parameters) (g : Graph) (k : Traversal)
    (answer : List Object × List Value) : Prop where
  rows : ∃ us, (k.run ps [startRow]).outcome g = (.ok us, g) ∧ us.map Traverser.object = answer.1
  values : Object.toValues g answer.1 = .ok answer.2

theorem Query.contributes_of_rows (hps : ∀ p ∈ ps, p.2.allKeys isNoElement)
    (hg : g.AllKeys isNoElement)
    (hcs : ∀ c ∈ cs, Parser.ClauseAlternates c ∧ c.namesPass isNoElement ∧ c.isCreate = false)
    {answer : List Object × List Value} (h : rows ⟨cs, []⟩ ps g = .ok answer)
    (hrs : Resolve.branch cs st₁ = .ok (rs, st₂))
    (hmore : st₂.scopes <+: scopes) (hk : branch ⟨scopes, ps⟩ rs = .ok k) :
    k.Contributes ps g answer := by
  obtain ⟨p, t, us, g', hp, ht, hrun, hobjects, hvalues⟩ := rows_eq_ok.mp h
  obtain ⟨r, fs, hr, hfs, hjoin⟩ := compile_native hp
  cases ht.symm.trans hjoin
  obtain ⟨own, st, hown, hbranches, hscopes⟩ := resolve_single hr
  rw [hbranches] at hfs
  obtain ⟨f, _, hf, hnil, rfl⟩ := forall₂_cons_left_iff.mp (mapM_eq_ok.mp hfs)
  cases hnil
  obtain ⟨ρ, hpairs⟩ := branch_relabelled_own hps (fun c hc => (hcs c hc).2.1)
    (fun c hc => (hcs c hc).2.2) hrs hmore hown
  have hrelabelled : f.Relabelled ρ ps g k := hpairs f k (hscopes ▸ hf) hk
  rw [run_single (fun c hc => (hcs c hc).1) hr hbranches hf hrelabelled.starts.1] at hrun
  obtain ⟨ws, hws, rfl, hsame⟩ := hrelabelled.objects hg hrun
  exact ⟨⟨ws, hws, hsame.trans hobjects⟩, hvalues⟩

theorem Object.toValues_append {ws : List Value}
    (hvs : toValues g xs = .ok vs) (hws : toValues g ys = .ok ws) :
    toValues g (xs ++ ys) = .ok (vs ++ ws) := by
  rw [toValues_eq_mapM, mapM_eq_ok] at *
  exact rel_append hvs hws

theorem Process.union_contributes (h : Forall₂ (Contributes ps g) ks answers) :
    ∃ us, (Process.union startRow (Step.runEach ps ks)).outcome g = (.ok us, g) ∧
      us.map Traverser.object = answers.flatMap Prod.fst ∧
      Object.toValues g (answers.flatMap Prod.fst) = .ok (answers.flatMap Prod.snd) := by
  induction h with
  | nil => exact ⟨[], rfl, rfl, rfl⟩
  | @cons k answer ks answers hk _ ih =>
    obtain ⟨⟨us, hus, hobjects⟩, hvalues⟩ := hk
    obtain ⟨rest, hrest, hobjects', hvalues'⟩ := ih
    refine ⟨us ++ rest, ?_, ?_, Object.toValues_append hvalues hvalues'⟩
    · unfold Step.runEach Process.union
      have hfirst : ((Stage.run (Step.stages ps k)).on startRow).outcome g = (.ok us, g) := hus
      rw [outcome_bind_ok hfirst, outcome_bind_ok hrest]
      rfl
    · rw [map_append, hobjects, hobjects', flatMap_cons]

theorem ResolvedQuery.joinBranches_rows (q : ResolvedQuery) {k' : Traversal}
    (hus : (Process.union startRow (Step.runEach ps (k :: k' :: ks))).outcome g = (.ok us, g)) :
    (run ps (q.joinBranches (k :: k' :: ks))
      (q.joinBranches (k :: k' :: ks)).input).outcome g =
        (.ok (if q.distinctUnion then Process.dedup us else us), g) := by
  have hunion : (run ps [.inject [.str startMark], .union (k :: k' :: ks)] []).outcome g =
      (.ok us, g) := by
    have hstart : (run ps [.inject [.str startMark]] []).outcome g = (.ok [startRow], g) := rfl
    have hstage : Step.stage ps (.union (k :: k' :: ks)) =
        .process (.eachRow fun u => Process.union u (Step.runEach ps (k :: k' :: ks))) := rfl
    refine (outcome_append (.of_process hstage) hstart).trans ?_
    rw [run_step hstage, Process.eachRow, outcome_bind_ok hus]
    show (Except.ok (us ++ []), g) = _
    rw [append_nil]
  have hdedup : Starts ps [.dedup] := rfl
  show (run ps ([.inject [.str startMark], .union (k :: k' :: ks)] ++
    if q.distinctUnion then [.dedup] else []) []).outcome g = _
  cases q.distinctUnion with
  | false => exact hunion
  | true => exact outcome_append hdedup hunion

theorem Query.branches_contribute (hq : parse text = .ok q)
    (hcreates : q.creates = false) (hnames : q.namesPass isNoElement)
    (hps : ∀ p ∈ ps, p.2.allKeys isNoElement) (hg : g.AllKeys isNoElement) (hr : q.resolve = .ok r)
    {fs : List Traversal} (hfs : r.branches.mapM (branch ⟨r.scopes, ps⟩) = .ok fs)
    (hsingles : q.singles.mapM (fun cs => rows ⟨cs, []⟩ ps g) = .ok answers) :
    Forall₂ (Contributes ps g) fs answers := by
  have hlowered : Forall₂ (fun f cs => ∃ st₁ st₂ rs, Resolve.branch cs st₁ = .ok (rs, st₂) ∧
      st₂.scopes <+: r.scopes ∧ branch ⟨r.scopes, ps⟩ rs = .ok f) fs q.singles := by
    refine forall₂_trans (fun f rs cs hf hrs => ?_) (mapM_eq_ok.mp hfs).flip (resolve_from hr).flip
    obtain ⟨st₁, st₂, hrs, hmore⟩ := hrs
    exact ⟨st₁, st₂, rs, hrs, hmore, hf⟩
  have hown : ∀ cs ∈ q.singles, ∀ c ∈ cs,
      Parser.ClauseAlternates c ∧ c.namesPass isNoElement ∧ c.isCreate = false := by
    intro cs hcs c hc
    have hreads : cs.any Clause.isCreate = false :=
      Bool.eq_false_iff.mpr (any_eq_false.mp hcreates cs hcs)
    exact ⟨clauses_alternate hq cs hcs c hc,
      all_eq_true.mp (all_eq_true.mp hnames cs hcs) c hc,
      Bool.eq_false_iff.mpr (any_eq_false.mp hreads c hc)⟩
  refine forall₂_trans (fun f cs a hf hcs => ?_) hlowered
    ((forall₂_and_left _ _).mpr ⟨hown, mapM_eq_ok.mp hsingles⟩)
  obtain ⟨st₁, st₂, rs, hrs, hmore, hf⟩ := hf
  exact contributes_of_rows hps hg hcs.1 hcs.2 hrs hmore hf

end Rows

/-! ### Unions -/

/-- **UNION ALL is concatenation, and UNION its duplicate removal.** Take a query without CREATE
where no name, and no key of a map in the parameters or in the graph, is like the generated name of
an element; names that do not start with two blanks are not. If it translates and each of its single
queries has rows on its own, then UNION ALL has the rows of the single queries in their order, and
UNION has these but for each object that is there already. -/
theorem union_joins_rows {text : String} {q : Query} (hq : Query.parse text = .ok q)
    (hcreates : q.creates = false) (hnames : q.namesPass isNoElement) {ps : Parameters}
    (hps : ∀ p ∈ ps, p.2.allKeys isNoElement) {g : Graph} (hg : g.AllKeys isNoElement)
    {p : Program} (hp : q.compile .native ps = .ok p)
    {answers : List (List Object × List Value)}
    (hsingles : q.singles.mapM (fun cs => Query.rows ⟨cs, []⟩ ps g) = .ok answers) :
    ((∀ part ∈ q.union, part.all) →
      q.rows ps g = .ok (answers.flatMap Prod.fst, answers.flatMap Prod.snd)) ∧
    (q.union ≠ [] → (∀ part ∈ q.union, part.all = false) →
      ∃ values, Object.toValues g (answers.flatMap Prod.fst).eraseDups = .ok values ∧
        q.rows ps g = .ok ((answers.flatMap Prod.fst).eraseDups, values)) := by
  obtain ⟨cs, union⟩ := q
  cases union with
  | nil =>
    obtain ⟨answer, _, hanswer, hnil, rfl⟩ :=
      List.forall₂_cons_left_iff.mp (mapM_eq_ok.mp hsingles)
    cases hnil
    refine ⟨fun _ => ?_, fun h => absurd rfl h⟩
    rwa [List.flatMap_singleton, List.flatMap_singleton]
  | cons part parts =>
    obtain ⟨r, fs, hr, hfs, hjoin⟩ := compile_native hp
    have hadd := branches_contribute hq hcreates hnames hps hg hr hfs hsingles
    obtain ⟨us, hus, hobjects, hvalues⟩ := Process.union_contributes hadd
    -- there are two single queries at least, so the traversal is a union
    obtain ⟨a, _, -, hothers, rfl⟩ := List.forall₂_cons_left_iff.mp (mapM_eq_ok.mp hsingles)
    obtain ⟨a', answers, -, -, rfl⟩ := List.forall₂_cons_left_iff.mp hothers
    obtain ⟨k, _, -, htail, rfl⟩ := List.forall₂_cons_right_iff.mp hadd
    obtain ⟨k', ks, -, -, rfl⟩ := List.forall₂_cons_right_iff.mp htail
    have hrows := r.joinBranches_rows hus
    obtain ⟨-, -, -, -, -, -, -, -, -, hdistinct⟩ := resolve_eq_ok hr
    have hdistinct : part.all = !r.distinctUnion := hdistinct part List.mem_cons_self
    refine ⟨fun hall => ?_, fun _ hnone => ?_⟩
    · rw [hall part List.mem_cons_self, eq_comm, Bool.not_eq_true'] at hdistinct
      rw [hdistinct] at hrows
      exact rows_eq_ok.mpr ⟨p, _, us, g, hp, hjoin, hrows, hobjects, hvalues⟩
    · rw [hnone part List.mem_cons_self, eq_comm, Bool.not_eq_false'] at hdistinct
      rw [hdistinct] at hrows
      rw [← hobjects] at hvalues ⊢
      rw [← Process.dedup_objects]
      have hamong : ∀ x ∈ (Process.dedup us).map Traverser.object, x ∈ us.map Traverser.object :=
        List.map_subset _ fun _ => Process.Reads.mem_dedup
      obtain ⟨values, hvalues⟩ := Object.exists_toValues hamong hvalues
      exact ⟨values, hvalues, rows_eq_ok.mpr ⟨p, _, _, g, hp, hjoin, hrows, rfl, hvalues⟩⟩

/-- The age of whoever knows someone, and an age that someone has: two rows and one, all alike. -/
theorem ages_are_joined :
    let first := "MATCH (a)-[:knows]->() RETURN a.age AS n"
    let second := "WITH $n AS n MATCH (\x7bage: n\x7d) RETURN n"
    let ps : Parameters := [("n", .int 29)]
    (∀ p ∈ ps, p.2.allKeys isNoElement) ∧ Graph.modern.AllKeys isNoElement ∧
    (∃ q p answers, Query.parse (first ++ " UNION ALL " ++ second) = .ok q ∧
      q.creates = false ∧ q.namesPass isNoElement ∧ q.compile .native ps = .ok p ∧
      q.singles.mapM (fun cs => Query.rows ⟨cs, []⟩ ps .modern) = .ok answers ∧
      answers.map (fun a => a.2.length) = [2, 1] ∧ q.union.map UnionPart.all = [true] ∧
      q.rows ps .modern = .ok (answers.flatMap Prod.fst, answers.flatMap Prod.snd)) ∧
    ∃ q p answers values, Query.parse (first ++ " UNION " ++ second) = .ok q ∧
      q.creates = false ∧ q.namesPass isNoElement ∧ q.compile .native ps = .ok p ∧
      q.singles.mapM (fun cs => Query.rows ⟨cs, []⟩ ps .modern) = .ok answers ∧
      answers.map (fun a => a.2.length) = [2, 1] ∧ q.union.map UnionPart.all = [false] ∧
      q.rows ps .modern = .ok ((answers.flatMap Prod.fst).eraseDups, values) ∧
      values.length = 1 := by
  intro first second ps
  have hps : ∀ p ∈ ps, p.2.allKeys isNoElement := List.forall_mem_singleton.mpr rfl
  have hg : Graph.modern.AllKeys isNoElement := by decide +kernel
  have hevery {q : Query} {all : Bool} (h : q.union.map UnionPart.all = [all]) :
      ∀ part ∈ q.union, part.all = all := by
    intro part hpart
    have hmem := List.mem_map_of_mem (f := UnionPart.all) hpart
    rw [h] at hmem
    exact List.mem_singleton.mp hmem
  refine ⟨hps, hg, ?_, ?_⟩
  · obtain ⟨q, hq, hcreates, hnames, hall, p, hp, answers, hanswers, hcounts⟩ :
        ∃ q, Query.parse (first ++ " UNION ALL " ++ second) = .ok q ∧ q.creates = false ∧
          q.namesPass isNoElement ∧ q.union.map UnionPart.all = [true] ∧
          ∃ p, q.compile .native ps = .ok p ∧
          ∃ answers, q.singles.mapM (fun cs => Query.rows ⟨cs, []⟩ ps .modern) = .ok answers ∧
          answers.map (fun a => a.2.length) = [2, 1] := by
      decide +kernel
    exact ⟨q, p, answers, hq, hcreates, hnames, hp, hanswers, hcounts, hall,
      (union_joins_rows hq hcreates hnames hps hg hp hanswers).1 (hevery hall)⟩
  · obtain ⟨q, hq, hcreates, hnames, hall, p, hp, answers, hanswers, hcounts, whole, hwhole,
        hcount⟩ :
        ∃ q, Query.parse (first ++ " UNION " ++ second) = .ok q ∧ q.creates = false ∧
          q.namesPass isNoElement ∧ q.union.map UnionPart.all = [false] ∧
          ∃ p, q.compile .native ps = .ok p ∧
          ∃ answers, q.singles.mapM (fun cs => Query.rows ⟨cs, []⟩ ps .modern) = .ok answers ∧
          answers.map (fun a => a.2.length) = [2, 1] ∧
          ∃ whole, q.rows ps .modern = .ok whole ∧ whole.2.length = 1 := by
      decide +kernel
    have hsome : q.union ≠ [] := fun hnil => by simp [hnil] at hall
    obtain ⟨values, -, hrows⟩ :=
      (union_joins_rows hq hcreates hnames hps hg hp hanswers).2 hsome (hevery hall)
    cases hwhole.symm.trans hrows
    exact ⟨q, p, answers, values, hq, hcreates, hnames, hp, hanswers, hcounts, hall, hrows, hcount⟩

/-- A key like a generated name gets in the way. In the second single query the node is the second
element of the whole query, and the map that its property is compared with answers for its name; on
its own the node is the first element. So the row of the second single query is missing. -/
theorem later_element_is_shadowed :
    let text := "MATCH () RETURN 1 AS n UNION ALL WITH $p AS m MATCH (\x7bk: m\x7d) RETURN 2 AS n"
    let m : Value := .map [("  UNNAMED1", .int 1)]
    let g : Graph := ((Graph.empty "g").addVertex "vertex" [("k", m)]).2
    ∃ q, Query.parse text = .ok q ∧ q.creates = false ∧ q.namesPass (fun n => !isGenerated n) ∧
      q.union.map UnionPart.all = [true] ∧ ∃ p, q.compile .native [("p", m)] = .ok p ∧
      ∃ answers, q.singles.mapM (fun cs => Query.rows ⟨cs, []⟩ [("p", m)] g) = .ok answers ∧
      answers.map (fun a => a.2.length) = [1, 1] ∧
      ∃ whole, q.rows [("p", m)] g = .ok whole ∧ whole.2.length = 1 ∧
      isNoElement "  UNNAMED1" = false := by
  decide +kernel

end CypherTraversal
