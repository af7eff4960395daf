import CypherTraversal.Proofs.Bindings.Plain
import CypherTraversal.Proofs.Graph.Calls
import CypherTraversal.Proofs.Refused

/-! # Queries without CREATE only read

Three kinds of steps change a graph, and CREATE is the one clause that is lowered to any of them, at
whatever depth. A traversal without such steps leaves every graph as it is, whether its run succeeds
or fails; so does a session that is given a query without CREATE. -/

namespace CypherTraversal

open Run LowerClause List

variable {f : Traversal} {r : ResolvedClause} {rs : List ResolvedClause}

/-! ### Clauses -/

/-- The clause only reads, and all keys of its maps pass. -/
def ResolvedClause.ReadsKeys (ok : String → Bool) (r : ResolvedClause) : Prop :=
  match r.body with
  | .read patterns filter => (∀ p ∈ patterns, p.AllKeys ok) ∧ Expr.optionKeys ok filter
  | .project p => p.names.all ok ∧ (∀ i ∈ p.items, i.value.allKeys ok) ∧
      (∀ o ∈ p.order, o.expr.allKeys ok) ∧ Expr.optionKeys ok p.filter
  | .unwind e _ => e.allKeys ok
  | .create _ => False

theorem ResolvedPattern.AllKeys.all {ok : String → Bool} {p : ResolvedPattern} (h : p.AllKeys ok) :
    p.All (fun _ _ => True) fun e => e.allKeys ok := by
  have hvalues {es : List (String × Expr)} (hes : Expr.entryKeys ok es) :
      ∀ e ∈ es, e.2.allKeys ok := fun e he => (Expr.entryKeys_iff.mp hes e he).2
  refine ⟨⟨trivial, hvalues h.1⟩, fun hop hhop => ?_⟩
  obtain ⟨hr, hn⟩ := h.2 hop hhop
  exact ⟨⟨trivial, hvalues hr⟩, trivial, hvalues hn⟩

section Lowered

variable {ok : String → Bool} {env : Env} (hcolumns : ∀ n, ok (argumentColumn n))

include hcolumns

theorem clause_readsOnly (hr : r.ReadsKeys ok) (current : Option String) :
    Gives (fun x => x.1.ReadsOnly ok) (clause env r current) := by
  unfold ResolvedClause.ReadsKeys at hr
  unfold clause
  cases hbody : r.body with
  | read patterns filter =>
    rw [hbody] at hr
    refine (read_ends (.reads ok) (N := fun _ _ => True) (fun _ _ _ => ⟨trivial, fun _ => rfl⟩)
      (fun p hp => (hr.1 p hp).all) (Expr.optionKeys_iff.mp hr.2)).gives.mono fun _ hf => ?_
    exact hf.of_nil .nil
  | project p =>
    rw [hbody] at hr
    obtain ⟨hnames, hitems, horder, hfilter⟩ := hr
    exact project_lowersToReads hcolumns hnames hitems horder hfilter _ _ current
  | unwind e var =>
    rw [hbody] at hr
    exact (unwind_ends (.reads ok) hr trivial).gives
  | create patterns =>
    rw [hbody] at hr
    exact hr.elim

theorem ResolvedQuery.lower_readsOnly {q : ResolvedQuery}
    (hq : ∀ rs ∈ q.branches, ∀ r ∈ rs, r.ReadsKeys ok) (ps : Parameters) :
    Gives (fun l => l.traversal.ReadsOnly ok) (q.lower ps) := by
  refine Gives.skip fun _ => ?_
  refine (Gives.mapM (R := Traversal.ReadsOnly ok) fun rs hrs => ?_).bind
    fun _ hfs => .ok ((LowersInto.reads ok).joinBranches q hfs)
  refine (branch_ends (.reads ok) (fun r hr current => ?_) trivial (.inl .nil)).gives
  exact (clause_readsOnly hcolumns (hq rs hrs r hr) current).ends.mono (fun _ h => h)
    fun _ h => ⟨fun _ => h, fun _ _ => h⟩

end Lowered

/-! ### Without CREATE -/

def Clause.isCreate : Clause → Bool
  | .create _ => true
  | _ => false

def Query.creates (q : Query) : Bool :=
  q.singles.any fun cs => cs.any Clause.isCreate

def ResolvedClause.isCreate (r : ResolvedClause) : Bool :=
  match r.body with
  | .create _ => true
  | _ => false

theorem ClauseResolved.isCreate_eq {scopes : ScopeTable} {c : Clause}
    (h : ClauseResolved scopes c r) : r.isCreate = c.isCreate := by
  unfold ResolvedClause.isCreate
  cases h with
  | read hbody | create hbody | unwind hbody | project hbody => rw [hbody]; rfl

theorem ResolvedClause.readsKeys_of_forall {ok : String → Bool} (hok : ∀ k, ok k)
    (h : r.isCreate = false) : r.ReadsKeys ok := by
  unfold ResolvedClause.isCreate at h
  unfold ReadsKeys
  cases hbody : r.body with
  | read patterns filter =>
    have hentries := Expr.entryKeys_of_forall hok
    exact ⟨fun p _ => ⟨hentries _, fun hop _ => ⟨hentries _, hentries _⟩⟩,
      Expr.optionKeys_of_forall hok filter⟩
  | project p =>
    exact ⟨all_eq_true.mpr fun k _ => hok k, fun i _ => i.value.allKeys_of_forall hok,
      fun o _ => o.expr.allKeys_of_forall hok, Expr.optionKeys_of_forall hok p.filter⟩
  | unwind e var => exact e.allKeys_of_forall hok
  | create patterns =>
    rw [hbody] at h
    cases h

theorem Query.isCreate_of_branches {text : String} {q : Query} (hq : Query.parse text = .ok q)
    {r : ResolvedQuery} (hr : q.resolve = .ok r) (h : q.creates = false) :
    ∀ rs ∈ r.branches, ∀ c ∈ rs, c.isCreate = false := by
  intro rs hrs c hc
  obtain ⟨cs, hcs, -, -, -, hresolved, -⟩ := mem_of_forall₂ (Query.resolve_branches hq hr) hrs
  obtain ⟨w, hw, hwc⟩ := mem_of_forall₂ hresolved hc
  rw [hwc.isCreate_eq]
  have hcs := any_eq_false.mp h cs hcs
  simpa using any_eq_false.mp (Bool.eq_false_iff.mpr hcs) w hw

/-! ### Steps that change the graph -/

def Step.changesGraph : Step → Bool
  | addVertex _ | addEdge _ | property .. => true
  | _ => false

theorem Step.readsOnly_true_iff (s : Step) :
    s.readsOnly (fun _ => true) ↔ s.changesGraph = false := by
  have hvalues (vs : List Value) : vs.all (Value.allKeys fun _ => true) :=
    all_eq_true.mpr fun v _ => Value.allKeys_of_forall (fun _ => rfl) v
  cases s
  case inject vs => exact ⟨fun _ => rfl, fun _ => hvalues vs⟩
  case project keys => exact ⟨fun _ => rfl, fun _ => all_eq_true.mpr fun _ _ => rfl⟩
  case constant o =>
    refine ⟨fun _ => rfl, fun _ => ?_⟩
    cases o with
    | value v => exact Value.allKeys_of_forall (fun _ => rfl) v
    | parameter | label => rfl
  all_goals simp [readsOnly, changesGraph]

theorem Traversal.readsOnly_true_iff :
    f.ReadsOnly (fun _ => true) ↔ f.Every fun s => s.changesGraph = false :=
  ⟨fun h s hs => s.readsOnly_true_iff.mp (h s hs), fun h s hs => s.readsOnly_true_iff.mpr (h s hs)⟩

theorem Traversal.ReadsOnly.run_ensures (hf : f.ReadsOnly fun _ => true) (ps : Parameters)
    (g : Graph) (ts : List Traverser) :
    (f.run ps ts).Ensures (· = g) (fun _ => True) Error.Benign := by
  have hok (k : String) : (fun _ => true) k = true := rfl
  have hreads : (f.run ps).Reads (· = g) fun _ => true :=
    hf.reads (fun h _ => .of_forall hok h) fun p _ => Value.allKeys_of_forall hok p.2
  exact (hreads ts fun t _ => .of_forall hok t).imp fun _ _ => trivial

theorem Traversal.ReadsOnly.execute_graph (hf : f.ReadsOnly fun _ => true) (ps : Parameters)
    (g : Graph) : (f.execute ps g).2 = g := by
  have hresults : (f.results ps).Ensures (· = g) (fun _ => True) Error.Benign :=
    (hf.run_ensures ps g f.input).bind fun ts _ => Ensures.graph.bind fun h _ =>
      .ofExcept (fun _ _ => trivial) (Object.toValues_ofObject h _).benign
  exact hresults.kept rfl

theorem Traversal.ReadsOnly.execute_restricted {t : Traversal} (hf : f.ReadsOnly fun _ => true)
    (ht : t = f ∨ f.restrict = .ok t) (ps : Parameters) (g : Graph) : (t.execute ps g).2 = g := by
  rcases ht with rfl | hrestrict
  · exact hf.execute_graph ps g
  · have hgraph : ((f.results ps).outcome g).2 = g := hf.execute_graph ps g
    have halike := Traversal.results_alike hrestrict ps g
    show ((t.results ps).outcome g).2 = g
    generalize (f.results ps).outcome g = x at hgraph halike
    generalize (t.results ps).outcome g = y at halike
    cases halike <;> exact hgraph

/-- **Queries without CREATE are read-only.** A session that is given such a query goes on as it
was, whether it answers with rows or with an error. The reason is in two parts: every clause but
CREATE is lowered to steps that do not change the graph, at any depth; and a traversal of such steps
leaves every graph as it is, also where it fails. -/
theorem reading_query_leaves_session :
    (∀ (s : Session) (text : String) (ps : Parameters),
      (∀ q, Query.parse text = .ok q → q.creates = false) → (s.submit text ps).2 = s) ∧
    (∀ (env : Env) (r : ResolvedClause) (current : Option String) (f : Traversal)
      (after : Option String), r.isCreate = false → clause env r current = .ok (f, after) →
      ∀ s ∈ Step.visitAll f, s.changesGraph = false) ∧
    ∀ t : Traversal, (∀ s ∈ Step.visitAll t, s.changesGraph = false) →
      ∀ (ps : Parameters) (g : Graph), (t.execute ps g).2 = g := by
  have hcolumns (n : Nat) : (fun _ => true) (argumentColumn n) = true := rfl
  have hreads {r : ResolvedClause} (h : r.isCreate = false) : r.ReadsKeys fun _ => true :=
    r.readsKeys_of_forall (fun _ => rfl) h
  refine ⟨fun s text ps hquery => ?_, fun env r current f after hr hf => ?_, fun t ht ps g => ?_⟩
  · cases hprepare : s.prepare text ps with
    | error e => simp only [Session.submit, hprepare]
    | ok p =>
      cases ht : p.traversal? with
      | none => simp only [Session.submit, hprepare, ht]
      | some t =>
        obtain ⟨q, r, l, hq, hr, hl, -, -, -, hruns⟩ :=
          compile_eq_ok (Session.compile_of_prepare hprepare)
        have hclauses := Query.isCreate_of_branches hq hr (hquery q hq)
        have hlowered : l.traversal.ReadsOnly fun _ => true :=
          ResolvedQuery.lower_readsOnly hcolumns
            (fun rs hrs c hc => hreads (hclauses rs hrs c hc)) ps l hl
        rw [Session.submit_eq_of_prepare hprepare ht]
        exact congrArg (fun graph => { s with graph })
          (hlowered.execute_restricted (hruns t ht) p.parameters s.graph)
  · exact Traversal.readsOnly_true_iff.mp (clause_readsOnly hcolumns (hreads hr) current _ hf)
  · exact (Traversal.readsOnly_true_iff.mpr ht).execute_graph ps g

/-- A query that groups what it matches and fails where it adds up vertices, its clauses, and a
traversal that fails in the same way. -/
theorem sum_of_vertices_leaves_session :
    (∃ (s : Session) (e : Error), s.graph = .modern ∧
      (∀ q, Query.parse "MATCH (n) WITH n.lang AS l, sum(n) AS s RETURN l" = .ok q →
        q.creates = false) ∧
      (s.submit "MATCH (n) WITH n.lang AS l, sum(n) AS s RETURN l" []).1 = .error e ∧
      (s.submit "MATCH (n) WITH n.lang AS l, sum(n) AS s RETURN l" []).2 = s) ∧
    (∃ f after, clause ⟨[], []⟩ ⟨.unwind (.list [.param "x"]) "y", 0, 0, []⟩ none =
        .ok (f, after) ∧
      ∀ s ∈ Step.visitAll f, s.changesGraph = false) ∧
    (∀ s ∈ Step.visitAll [.vertices, .reduce .sum], s.changesGraph = false) ∧
    (Traversal.execute [.vertices, .reduce .sum] [] .modern).1.isOk = false ∧
    (Traversal.execute [.vertices, .reduce .sum] [] .modern).2 = .modern := by
  have hsum : ∀ s ∈ Step.visitAll [.vertices, .reduce .sum], s.changesGraph = false := by decide
  let text := "MATCH (n) WITH n.lang AS l, sum(n) AS s RETURN l"
  obtain ⟨q, hq, hcreates⟩ : ∃ q, Query.parse text = .ok q ∧ q.creates = false := by decide +kernel
  have hquery : ∀ q, Query.parse text = .ok q → q.creates = false := by
    intro _ hq'
    cases hq.symm.trans hq'
    exact hcreates
  obtain ⟨hsession, hclause, hrun⟩ := reading_query_leaves_session
  refine ⟨?_, ?_, hsum, by decide +kernel, hrun _ hsum [] .modern⟩
  · obtain ⟨e, he, -⟩ : ∃ e, (Session.submit ⟨.native, true, .modern⟩ text []).1 = .error e ∧
      True := by decide +kernel
    exact ⟨_, e, rfl, hquery, he, hsession _ _ [] hquery⟩
  · obtain ⟨⟨f, after⟩, hf⟩ := exists_ok_of_isOk (show (clause ⟨[], []⟩
      ⟨.unwind (.list [.param "x"]) "y", 0, 0, []⟩ none).isOk by decide +kernel)
    exact ⟨f, after, hf, hclause _ _ none f after rfl hf⟩

end CypherTraversal
