import CypherTraversal.Proofs.Lowering.Checked
import CypherTraversal.Proofs.Restricted

/-! # Modulators of lowered queries

A lowered query has each modulator behind a step that takes it, so no run of it fails over one. -/

namespace CypherTraversal

open Run

theorem Query.lower_wellBuilt {q : Query} {r : ResolvedQuery} (h : q.resolve = .ok r)
    {ps : Parameters} {l : LoweredQuery} (hl : r.lower ps = .ok l) :
    l.traversal.WellBuilt ps r.parameters := by
  have hclosed : ClosedUnderLowering (.known ps r.parameters) _ := Traversal.WellBuilt.closed
  have hin := ResolvedQuery.lower_in hclosed (q.resolve_checked h)
    fun rs hrs => .inr (q.resolve_branchChecked h rs hrs).concludes
  rwa [hl] at hin

/-! ### The error of a modulator out of place -/

def Error.isStray : Error → Bool
  | strayModulator _ => true
  | _ => false

theorem Error.isStray_eq (e : Error) : e.isStray = (e.ctorIdx == (strayModulator "").ctorIdx) := by
  cases e <;> rfl

theorem Error.SameVariant.isStray_eq {d e : Error} (h : d.SameVariant e) :
    d.isStray = e.isStray := by
  rw [Error.isStray_eq, Error.isStray_eq, h]

theorem Bound.count_not_stray (n : Bound) (ps : Parameters) (clause : String) :
    FailsWith (fun e => e.isStray = false) (n.count ps clause) :=
  count_fails (fun name _ => ps.value_fails (fun _ => rfl) name) fun _ => rfl

theorem Traversal.Modulated.not_stray {t : Traversal} (ht : t.Modulated)
    (hinside : t.Every fun s => ∀ f ∈ s.inside, f.Modulated) {ps : Parameters} {g : Graph}
    {e : Error} (h : (t.execute ps g).1 = .error e) : e.isStray = false := by
  have hstep (e : Error) (he : e.arisesInStep) : e.isStray = false := by
    cases e
    case strayModulator => cases he
    all_goals rfl
  have hwindows (s : Step) : s.WindowsFail ps fun e => e.isStray = false := by
    cases s
    case skip n => exact n.count_not_stray ps _
    case limit n => exact n.count_not_stray ps _
    case range low high => exact ⟨low.count_not_stray ps _, high.count_not_stray ps _⟩
    all_goals trivial
  have hresults := ht.results_keep Graph.kept_always hstep fun s hs => ⟨hwindows s, hinside s hs⟩
  exact (hresults.of_error (h := (t.execute ps g).2) trivial (Prod.ext h rfl)).2

/-! ### Queries -/

/-- **All modulators of a lowered query are in place.** This is so in its traversal and in every
traversal inside it: a modulator is behind a projection, a group, an order or a new edge, with
modulators in between only, and each of these has behind it what it takes. No run of the traversal
or of its restricted form, on whatever graph and with whatever parameters, ends with the error of a
modulator that no step takes. -/
theorem lowered_modulators_in_place {q : Query} {r : ResolvedQuery} (hr : q.resolve = .ok r)
    {ps : Parameters} {l : LoweredQuery} (hl : r.lower ps = .ok l) :
    (l.traversal.InPlace ∧ ∀ s ∈ Step.visitAll l.traversal, ∀ f ∈ s.inside, Traversal.InPlace f) ∧
    ∀ t : Traversal, t = l.traversal ∨ l.traversal.restrict = .ok t →
      ∀ (given : Parameters) (g : Graph) (text : String),
        (t.execute given g).1 ≠ .error (.strayModulator text) := by
  have hbuilt := q.lower_wellBuilt hr hl
  have hinside : l.traversal.Every fun s => ∀ f ∈ s.inside, f.Modulated :=
    fun s hs f hf => ((hbuilt.every s hs).2 f hf).2
  refine ⟨⟨hbuilt.modulated.inPlace, fun s hs f hf => (hinside s hs f hf).inPlace⟩, ?_⟩
  rintro t (rfl | hrestrict) given g text herror
  · cases hbuilt.modulated.not_stray hinside herror
  · -- the traversal itself would fail with an error of the same variant
    have halike := Traversal.results_alike hrestrict given g
    have ht : (t.results given).outcome g =
        (.error (.strayModulator text), (t.execute given g).2) :=
      Prod.ext herror rfl
    rw [ht] at halike
    generalize hl' : (l.traversal.results given).outcome g = outcome at halike
    cases halike with
    | error hvariant =>
      have hnot := hbuilt.modulated.not_stray hinside (congrArg Prod.fst hl')
      rw [hvariant.isStray_eq] at hnot
      cases hnot

theorem grouped_copies_modulators_in_place :
    ∃ (q : Query) (r : ResolvedQuery) (l : LoweredQuery) (restricted : Traversal),
      Query.parse ("MATCH (a)-->(b) WITH a.name AS x, count(b) AS n ORDER BY x " ++
        "CREATE (:name)-[:has]->(:count)") = .ok q ∧
      q.resolve = .ok r ∧ r.lower [] = .ok l ∧ l.traversal.restrict = .ok restricted ∧
      l.traversal.InPlace ∧
      (∀ s ∈ Step.visitAll l.traversal, ∀ f ∈ s.inside, Traversal.InPlace f) ∧
      (∀ text, (l.traversal.execute [] .modern).1 ≠ .error (.strayModulator text)) ∧
      ∀ text, (restricted.execute [] .modern).1 ≠ .error (.strayModulator text) := by
  obtain ⟨q, hq, r, hr, l, hl, restricted, hrestrict, -⟩ : ∃ q, Query.parse
      "MATCH (a)-->(b) WITH a.name AS x, count(b) AS n ORDER BY x CREATE (:name)-[:has]->(:count)" =
        .ok q ∧ ∃ r, q.resolve = .ok r ∧ ∃ l, r.lower [] = .ok l ∧
      ∃ f, l.traversal.restrict = .ok f ∧ True := by decide +kernel
  obtain ⟨⟨hplace, hinside⟩, hrun⟩ := lowered_modulators_in_place hr hl
  exact ⟨q, r, l, restricted, hq, hr, hl, hrestrict, hplace, hinside,
    hrun _ (.inl rfl) [] .modern, hrun _ (.inr hrestrict) [] .modern⟩

end CypherTraversal
