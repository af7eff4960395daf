import CypherTraversal.Proofs.Lowering.Checked
import CypherTraversal.Proofs.Restricted

/-! # A query that is refused leaves the graph alone

Bounds are checked twice: when a query is lowered, and when its windows run, after earlier steps
may have changed the graph. What was lowered has no window left that could fail, so the second
check finds nothing. A run then fails with errors of runs only, and an error of another kind
means that nothing has run. -/

namespace CypherTraversal

open Run

variable {e : Error} {flavor : Flavor} {p : Program} {ps : Parameters} {t : Traversal}
  {text : String}

/-- The error is found before anything is run. -/
def Error.refusesQuery : Error → Bool
  | parse _ => true
  | e => e.isCompilation

theorem Error.refusesQuery_of_arisesInRun (h : e.arisesInRun) : e.refusesQuery = false := by
  cases e
  case execution | notFound | strayModulator => rfl
  all_goals cases h

theorem Error.arisesInRun_eq (e : Error) : e.arisesInRun =
    (e.ctorIdx == (execution .scriptText).ctorIdx || e.ctorIdx == (notFound "").ctorIdx ||
      e.ctorIdx == (strayModulator "").ctorIdx) := by
  cases e <;> rfl

theorem Error.SameVariant.arisesInRun {d : Error} (h : d.SameVariant e) (hd : d.arisesInRun) :
    e.arisesInRun := by
  rw [arisesInRun_eq] at hd ⊢
  rwa [← h]

theorem Step.CountsRows.windowsFail {s : Step} (h : s.CountsRows ps) :
    s.WindowsFail ps fun e => e.arisesInRun := by
  have hcount {n : Bound} (hn : n.Counts ps) (clause : String) :
      FailsWith (fun e => e.arisesInRun) (n.count ps clause) :=
    (hn.count_ofPart clause).mono fun _ he => he.arisesInRun
  cases s
  case skip n => exact hcount h _
  case limit n => exact hcount h _
  case range low high => exact ⟨hcount h.1 _, hcount h.2 _⟩
  all_goals trivial

theorem Traversal.CountsRows.arisesInRun (ht : t.CountsRows ps) {g : Graph}
    (h : (t.execute ps g).1 = .error e) : e.arisesInRun := by
  have hresults : (t.results ps).Ensures (fun _ => True) (fun _ => True) fun e => e.arisesInRun :=
    results_keep Graph.kept_always (fun _ he => he) fun r hr => (ht r hr).windowsFail
  exact (hresults.of_error (h := (t.execute ps g).2) trivial (Prod.ext h rfl)).2

theorem compile_eq_ok (hp : compile flavor text ps = .ok p) :
    ∃ (q : Query) (r : ResolvedQuery) (l : LoweredQuery), Query.parse text = .ok q ∧
      q.resolve = .ok r ∧ r.lower ps = .ok l ∧ p.parameters = ps ∧ p.columns = l.columns ∧
      (flavor ≠ .native → l.checkNames flavor ps = .ok ()) ∧
      ∀ t, p.traversal? = some t → t = l.traversal ∨ l.traversal.restrict = .ok t := by
  obtain ⟨q, hq, hp⟩ := bind_eq_ok.mp hp
  obtain ⟨r, hr, hp⟩ := bind_eq_ok.mp hp
  obtain ⟨l, hl, hp⟩ := bind_eq_ok.mp hp
  refine ⟨q, r, l, hq, hr, hl, ?_⟩
  cases flavor with
  | native =>
    cases hp
    refine ⟨rfl, rfl, fun h => absurd rfl h, fun t ht => .inl ?_⟩
    exact (Option.some.inj ht).symm
  | gremlin =>
    obtain ⟨⟨⟩, hnames, hp⟩ := bind_eq_ok.mp hp
    cases hp
    refine ⟨rfl, rfl, fun _ => hnames, fun t ht => ?_⟩
    cases ht
  | cosmosdb =>
    obtain ⟨⟨⟩, hnames, hp⟩ := bind_eq_ok.mp hp
    obtain ⟨t', ht', hp⟩ := bind_eq_ok.mp hp
    cases hp
    refine ⟨rfl, rfl, fun _ => hnames, fun t ht => .inr ?_⟩
    exact Option.some.inj ht ▸ ht'

theorem compile_countsRows (hp : compile flavor text ps = .ok p) (ht : p.traversal? = some t) :
    p.parameters = ps ∧ ∃ f : Traversal, f.CountsRows ps ∧ (t = f ∨ f.restrict = .ok t) := by
  obtain ⟨q, r, l, -, hr, hl, hps, -, -, hruns⟩ := compile_eq_ok hp
  have hends := ResolvedQuery.lower_ends (Query.resolve_checked hr) ps
  rw [hl] at hends
  exact ⟨hps, l.traversal, hends, hruns t ht⟩

theorem arisesInRun_of_compile (hp : compile flavor text ps = .ok p) (ht : p.traversal? = some t)
    {g : Graph} (h : (t.execute p.parameters g).1 = .error e) : e.arisesInRun := by
  obtain ⟨hps, f, hf, rfl | hrestrict⟩ := compile_countsRows hp ht
  · rw [hps] at h
    exact hf.arisesInRun h
  · -- the restricted form fails where the traversal does, with an error of the same variant
    have halike := Traversal.results_alike hrestrict ps g
    have ht : (t.results ps).outcome g = (.error e, (t.execute ps g).2) := by
      rw [hps] at h
      exact Prod.ext h rfl
    rw [ht] at halike
    generalize hf' : (f.results ps).outcome g = r at halike
    cases halike with
    | error hvariant => exact hvariant.arisesInRun (hf.arisesInRun (congrArg Prod.fst hf'))

theorem Session.compile_of_prepare {s : Session} (h : s.prepare text ps = .ok p) :
    compile s.flavor text ps = .ok p := by
  rcases s.prepare_cases text ps with ⟨e, he⟩ | hcompile
  · cases (he s.flavor).symm.trans h
  · exact (hcompile s.flavor).symm.trans h

/-- **A query that is refused leaves the graph alone.** If a session answers with an error in
reading a query or in giving it its meaning, then it goes on as it was; and a compiled query never
ends so, whatever it has changed before it fails. -/
theorem refused_query_leaves_session :
    (∀ (s : Session) (text : String) (ps : Parameters) (e : Error),
      (s.submit text ps).1 = .error e → e.refusesQuery → (s.submit text ps).2 = s) ∧
    ∀ (flavor : Flavor) (text : String) (ps : Parameters) (p : Program) (t : Traversal),
      compile flavor text ps = .ok p → p.traversal? = some t →
      p.parameters = ps ∧
        ∀ (g : Graph) (e : Error), (t.execute ps g).1 = .error e → e.refusesQuery = false := by
  have hrun {flavor : Flavor} {text : String} {ps : Parameters} {p : Program} {t : Traversal}
      (hp : compile flavor text ps = .ok p) (ht : p.traversal? = some t) {g : Graph} {e : Error}
      (h : (t.execute p.parameters g).1 = .error e) : e.refusesQuery = false :=
    Error.refusesQuery_of_arisesInRun (arisesInRun_of_compile hp ht h)
  constructor
  · intro s text ps e herror hrefuses
    cases hprepare : s.prepare text ps with
    | error d => simp only [Session.submit, hprepare]
    | ok p =>
      cases ht : p.traversal? with
      | none => simp only [Session.submit, hprepare, ht]
      | some t =>
        -- a session that ran the query cannot have answered so
        rw [Session.submit_eq_of_prepare hprepare ht] at herror
        cases hvalues : (t.execute p.parameters s.graph).1 with
        | ok values =>
          rw [hvalues] at herror
          cases herror
        | error d =>
          rw [hvalues] at herror
          cases herror
          rw [hrun (Session.compile_of_prepare hprepare) ht hvalues] at hrefuses
          cases hrefuses
  · intro flavor text ps p t hp ht
    have hps := (compile_countsRows hp ht).1
    exact ⟨hps, fun g e h => hrun hp ht (hps ▸ h)⟩

/-- A bound that counts no rows, behind a step that creates; and a sum that fails when the vertex
is already there. -/
theorem created_vertex_is_refused_or_stays :
    ((Session.submit ⟨.cosmosdb, true, .modern⟩ "CREATE (n) WITH n SKIP $k RETURN n"
        [("k", .int (-1))]).1 = .error (.range "SKIP" "-1") ∧
      (Error.range "SKIP" "-1").refusesQuery ∧
      (Session.submit ⟨.cosmosdb, true, .modern⟩ "CREATE (n) WITH n SKIP $k RETURN n"
        [("k", .int (-1))]).2 = ⟨.cosmosdb, true, .modern⟩) ∧
    ∃ (p : Program) (t : Traversal) (e : Error),
      compile .native "CREATE (n) RETURN sum(n)" [] = .ok p ∧ p.traversal? = some t ∧
      (t.execute [] .modern).1 = .error e ∧ (t.execute [] .modern).2.vertices.length = 7 ∧
      e.refusesQuery = false := by
  constructor
  · obtain ⟨_, herror, rfl⟩ : ∃ e, (Session.submit ⟨.cosmosdb, true, .modern⟩
      "CREATE (n) WITH n SKIP $k RETURN n" [("k", .int (-1))]).1 = .error e ∧
      e = .range "SKIP" "-1" := by decide +kernel
    exact ⟨herror, rfl, refused_query_leaves_session.1 _ _ _ _ herror rfl⟩
  · obtain ⟨p, hp, t, ht, e, he, hlength⟩ : ∃ p, compile .native "CREATE (n) RETURN sum(n)" [] =
      .ok p ∧ ∃ t, p.traversal? = some t ∧ ∃ e, (t.execute [] .modern).1 = .error e ∧
      (t.execute [] .modern).2.vertices.length = 7 := by decide +kernel
    exact ⟨p, t, e, hp, ht, he, hlength,
      (refused_query_leaves_session.2 _ _ _ p t hp ht).2 .modern e he⟩

end CypherTraversal
