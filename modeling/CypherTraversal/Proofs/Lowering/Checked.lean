import CypherTraversal.Proofs.Lowering.Composed

/-! # Checked queries lower

A query that was resolved lowers, or it is refused for a reason that can be listed. -/

namespace CypherTraversal

open LowerClause List Resolve

variable {e : Expr} {n : ResolvedNode} {keyword : String} {q : ResolvedQuery}

def Error.IsMismatch (e : Error) : Prop :=
  ∃ expected found, e = .typeMismatch expected found

/-! ### Parts of checked expressions -/

namespace Expr.Checked

variable {s : Scope} {names : List String}

theorem fits (h : e.Checked s names) : e.Fits s := by
  obtain ⟨⟨clause, h⟩, -⟩ := h
  have h := (check_eq_ok.mp h).1
  cases e with
  | var x =>
    rw [checkSelf] at h
    split at h
    · assumption
    · cases h
  | binary l op r =>
    cases op with
    | arith a =>
      rw [Expr.Fits]
      rw [checkSelf] at h
      split at h
      · cases h
      · rename_i hv
        rw [hv]
        rfl
    | _ => trivial
  | unary op e =>
    cases op with
    | negate =>
      rw [Expr.Fits]
      rw [checkSelf] at h
      split at h
      · cases h
      · rename_i hv
        rw [hv]
        rfl
    | _ => trivial
  | call name args distinct => exact checkCall_eq_ok h
  | pattern | comprehension | star => cases h
  | _ => trivial

theorem part (h : e.Checked s names) : ∀ x ∈ e.parts, x.Checked s names := by
  intro x hx
  obtain ⟨⟨clause, h⟩, hnames⟩ := h
  exact ⟨⟨clause, (check_eq_ok.mp h).2 x hx⟩, Subset.trans (parameters_part hx) hnames⟩

end Expr.Checked

def Error.InClause (e : Error) : Prop :=
  (∃ keyword got, (keyword = "SKIP" ∨ keyword = "LIMIT") ∧ e = .range keyword got) ∨ e.IsMismatch

section Clauses

variable {names : List String} {P : Traversal → Prop} {ps : Parameters}

theorem LowersInto.checked (hP : ClosedUnderLowering (.known ps names) P) :
    LowersInto (.known ps names) (Expr.Checked · names) Error.InClause P P where
  toClosedUnderLowering := hP
  filters := id
  within _ := {
    toComposesTests := hP.composesTests (fun _ => trivial) (fun _ => trivial) trivial
    mismatch := fun expected found => .inr ⟨expected, found, rfl⟩
    fits := fun h => .inl h.fits
    constant := fun _ _ => hP.alone rfl trivial
    var := fun _ => hP.alone rfl trivial
    param := fun h =>
      have hname := h.parameters (mem_singleton_self _)
      ⟨hname, hP.alone rfl hname⟩
    key := fun _ => hP.alone rfl trivial
    part := Expr.Checked.part
    project := fun _ _ hlength hms => hP.project (fun _ _ => trivial)
      (hlength.trans (length_map _).symm) hms }

namespace LowerClause

theorem bound_ends (env : Env) (hkeyword : keyword = "SKIP" ∨ keyword = "LIMIT")
    (he : e.IsBound ∧ e.parameters ⊆ names) :
    Ends Error.InClause (Bound.Known env.parameters names) (bound env keyword e) := by
  obtain ⟨⟨x, rfl⟩ | ⟨name, rfl⟩, hnames⟩ := he
  · obtain ⟨n, hn⟩ | ⟨got, hgot⟩ := bound_constant env keyword (e := .literal x) rfl
    · rw [hn]
      exact ⟨Int.natCast_nonneg n, nil_subset _⟩
    · rw [hgot]
      exact .inl ⟨keyword, got, hkeyword, rfl⟩
  · obtain ⟨hn, hcounts⟩ | ⟨got, hgot⟩ := bound_param env keyword name
    · rw [hn]
      exact ⟨hcounts, hnames⟩
    · rw [hgot]
      exact .inl ⟨keyword, got, hkeyword, rfl⟩

theorem clause_ends {env : Env} (hP : ClosedUnderLowering (.known env.parameters names) P)
    {r : ResolvedClause} (hr : r.Checked env.scopes names) (current : Option String) :
    Ends Error.InClause
      (fun x => x.1.InOrEmpty P ∧ ∀ p, r.body = .project p → P x.1) (clause env r current) := by
  have hP := LowersInto.checked hP
  have hproperty {s : Scope} (k : Kind) (x : String) (h : s.gives k x) :
      True ∧ ∀ key, Expr.Checked s names (.access (.var x) key) := by
    have hx : s.has x := Scope.has_iff.mpr ⟨k, h⟩
    exact ⟨trivial, fun key => ⟨⟨"MATCH", by rw [Expr.check, Expr.check, if_pos hx]⟩, nil_subset _⟩⟩
  unfold ResolvedClause.Checked at hr
  unfold clause
  cases hbody : r.body with
  | read patterns filter =>
    rw [hbody] at hr
    obtain ⟨s, hs, hpatterns, hfilter⟩ := hr
    obtain rfl := scope_of_getElem? hs
    exact (read_ends hP hproperty hpatterns hfilter).mono (fun _ h => h) fun _ h =>
      ⟨h, fun _ h => by cases h⟩
  | project p =>
    rw [hbody] at hr
    obtain ⟨input, sorted, output, hinput, hsorted, houtput, hp⟩ := hr
    obtain rfl := scope_of_getElem? hinput
    obtain rfl := scope_of_getElem? hsorted
    obtain rfl := scope_of_getElem? houtput
    refine (project_ends hP ⟨trivial, fun _ => ⟨trivial, trivial⟩,
      fun i hi => ⟨⟨trivial, trivial⟩, hp.items i hi⟩,
      fun o ho => ⟨hp.order o ho, fun _ _ => trivial⟩,
      fun b hb => bound_ends env (.inl rfl) (hp.skip b hb),
      fun b hb => bound_ends env (.inr rfl) (hp.limit b hb), hp.filter⟩).mono (fun _ h => h)
      fun _ h => ⟨fun _ => h, fun _ _ => h⟩
  | unwind e var =>
    rw [hbody] at hr
    obtain ⟨s, hs, he⟩ := hr
    obtain rfl := scope_of_getElem? hs
    exact (unwind_ends hP he trivial).mono (fun _ h => h) fun _ h =>
      ⟨fun _ => h, fun _ h => by cases h⟩
  | create patterns =>
    rw [hbody] at hr
    obtain ⟨s, hs, hpatterns⟩ := hr
    obtain rfl := scope_of_getElem? hs
    exact (create_ends hP (fun _ _ _ => trivial) trivial hpatterns).mono (fun _ h => h)
      fun _ h => ⟨h, fun _ h => by cases h⟩

end LowerClause

end Clauses

/-! ### Queries -/

def ResolvedQuery.Refuses (q : ResolvedQuery) (e : Error) : Prop :=
  (∃ name ∈ q.parameters, Text.isPlainName name = false ∧ e = .parameterName name) ∨ e.InClause

theorem checkParameterNames_ends (names : List String) :
    Ends (fun e => ∃ name ∈ names, Text.isPlainName name = false ∧ e = .parameterName name)
      (fun _ => True) (checkParameterNames names) := by
  unfold checkParameterNames
  induction names with
  | nil => trivial
  | cons name names ih =>
    refine Ends.bind (Q := fun _ => True) ?_ fun _ _ => ih.mono ?_ fun _ h => h
    · unfold checkParameterName
      split
      · trivial
      · rename_i hname
        exact ⟨name, mem_cons_self, by simpa using hname, rfl⟩
    · rintro e ⟨other, hother, h⟩
      exact ⟨other, mem_cons_of_mem name hother, h⟩

theorem ResolvedQuery.lower_in {ps : Parameters} {P : Traversal → Prop}
    (hP : ClosedUnderLowering (.known ps q.parameters) P)
    (hq : ∀ rs ∈ q.branches, ∀ c ∈ rs, c.Checked q.scopes q.parameters)
    (hends : ∀ rs ∈ q.branches, P [] ∨ Concludes rs) :
    Ends q.Refuses (fun l => P l.traversal) (q.lower ps) := by
  refine ((checkParameterNames_ends q.parameters).mono (fun _ h => .inl h) fun _ h => h).bind
    fun _ _ => ?_
  have hbranch (rs : List ResolvedClause) (hrs : rs ∈ q.branches) :
      Ends Error.InClause P (branch ⟨q.scopes, ps⟩ rs) :=
    branch_ends (.checked hP) (fun r hr => clause_ends hP (hq rs hrs r hr))
      ⟨Int.le_refl 0, nil_subset _⟩ (hends rs hrs)
  refine (Ends.mapM fun rs hrs => ?_).bind fun fs hfs => hP.joinBranches q hfs
  exact (hbranch rs hrs).mono (fun _ h => .inr h) fun _ h => h

/-! ### Windows of whole traversals -/

def Step.CountsRows (ps : Parameters) : Step → Prop
  | .skip n | .limit n => n.Counts ps
  | .range low high => low.Counts ps ∧ high.Counts ps
  | _ => True

theorem Step.Known.countsRows {ps : Parameters} {names : List String} {s : Step}
    (h : s.Known ps names) : s.CountsRows ps := by
  cases s
  case skip | limit => exact h.counts
  case range => exact ⟨h.1.counts, h.2.counts⟩
  all_goals trivial

abbrev Traversal.CountsRows (ps : Parameters) (f : Traversal) : Prop :=
  f.Every (Step.CountsRows ps)

theorem ResolvedQuery.lower_ends (hq : ∀ rs ∈ q.branches, ∀ c ∈ rs, c.Checked q.scopes q.parameters)
    (ps : Parameters) :
    Ends q.Refuses (fun l => l.traversal.CountsRows ps) (q.lower ps) :=
  ResolvedQuery.lower_in (.every fun _ => Step.Known.countsRows) hq fun _ _ => .inl .nil

/-- **What is resolved can be lowered.** Whatever the parameters are, the query has a traversal,
or it is refused for one of three reasons: it uses a parameter that is not a plain name, SKIP or
LIMIT has a value that does not count rows, or a part of it is of the wrong type. -/
theorem resolved_query_lowers {q : Query} {r : ResolvedQuery} (h : q.resolve = .ok r)
    (ps : Parameters) :
    (∃ l, r.lower ps = .ok l) ∨
      (∃ name ∈ r.parameters, Text.isPlainName name = false ∧
        r.lower ps = .error (.parameterName name)) ∨
      (∃ keyword got, (keyword = "SKIP" ∨ keyword = "LIMIT") ∧
        r.lower ps = .error (.range keyword got)) ∨
      ∃ expected found, r.lower ps = .error (.typeMismatch expected found) := by
  have hends := ResolvedQuery.lower_ends (Query.resolve_checked h) ps
  cases hlower : r.lower ps with
  | ok l => exact .inl ⟨l, rfl⟩
  | error e =>
    rw [hlower] at hends
    obtain ⟨name, hname, hplain, rfl⟩ | ⟨keyword, got, hkeyword, rfl⟩ | ⟨expected, found, rfl⟩ :=
      hends
    · exact .inr (.inl ⟨name, hname, hplain, rfl⟩)
    · exact .inr (.inr (.inl ⟨keyword, got, hkeyword, rfl⟩))
    · exact .inr (.inr (.inr ⟨expected, found, rfl⟩))

theorem grouped_query_lowers : ∃ (q : Query) (r : ResolvedQuery),
    Query.parse "MATCH (a)-[:KNOWS]->(b) RETURN a.name, count(b) SKIP $k" = .ok q ∧
    q.resolve = .ok r ∧
    ((∃ l, r.lower [("k", .int (-1))] = .ok l) ∨
      (∃ name ∈ r.parameters, Text.isPlainName name = false ∧
        r.lower [("k", .int (-1))] = .error (.parameterName name)) ∨
      (∃ keyword got, (keyword = "SKIP" ∨ keyword = "LIMIT") ∧
        r.lower [("k", .int (-1))] = .error (.range keyword got)) ∨
      ∃ expected found, r.lower [("k", .int (-1))] = .error (.typeMismatch expected found)) := by
  obtain ⟨q, hq, r, hr, -⟩ : ∃ q,
    Query.parse "MATCH (a)-[:KNOWS]->(b) RETURN a.name, count(b) SKIP $k" = .ok q ∧
    ∃ r, q.resolve = .ok r ∧ True := by decide +kernel
  exact ⟨q, r, hq, hr, resolved_query_lowers hr _⟩

end CypherTraversal
