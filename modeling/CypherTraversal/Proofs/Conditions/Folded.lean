import CypherTraversal.Proofs.Conditions.Values

/-! # Comparisons that are decided early

A comparison of two constants is decided before the query runs. With a parameter in place of either
constant it is left to the run, which decides it for every row as it was decided early: constants
are compared as values, and rows as objects made of the same values. -/

namespace CypherTraversal

open Run List Lowered

variable {c : LoweringContext} {l r : Expr} {a b : Value} {yes : Bool}

theorem Expr.against_of_known (hl : l.known? c.parameters = some a) (ha : a.isNull = false)
    {p : Predicate} (hp : ∀ w, p.test c.parameters w (.ofValue a) = .ok yes) :
    ∃ f, against c (l.lower c) p = .ok f ∧ ∀ g t, f.Decides c.parameters g t yes := by
  obtain ⟨o, ho, hresolve⟩ := operand_of_known hl
  have hproperty : c.elementProperty? l = none := by
    unfold LoweringContext.elementProperty?
    split
    · cases hl
    · rfl
  rw [against, lower_expr, hproperty, value_of_operand ho c]
  refine ⟨_, rfl, fun g t => .after (f := [.constant o]) (.constant fun u _ => hresolve u) ?_⟩
  refine .append (f := [_]) (a := true) (.is ?_) (.is (hp _))
  exact notNullPredicate_test.trans (congrArg (fun n => Except.ok !n) ha)

theorem Expr.comparison_of_constants (hl : l.constant? = some a) (hr : r.constant? = some b)
    (cmp : Comparison) : comparison c (l.lower c) cmp (r.lower c) =
      .ok (if cmp.eval? a b == some true then .always else .never) := by
  rw [comparison, lower_expr, lower_expr, isNull_of_known (known_of_constant hl _),
    isNull_of_known (known_of_constant hr _), hl, hr]
  split
  · rename_i hnull
    rw [((Bool.or_eq_true _ _).mp hnull).elim cmp.eval?_null_left cmp.eval?_null_right]
    rfl
  · rfl

theorem Expr.comparison_of_known (hl : l.known? c.parameters = some a)
    (hr : r.known? c.parameters = some b) (cmp : Comparison) :
    ∃ d, comparison c (l.lower c) cmp (r.lower c) = .ok d ∧
      ∀ g t, d.Decides c.parameters g t (cmp.eval? a b == some true) := by
  cases hnull : a.isNull || b.isNull with
  | true =>
    rw [comparison, lower_expr, lower_expr, isNull_of_known hl, isNull_of_known hr, hnull,
      ((Bool.or_eq_true _ _).mp hnull).elim cmp.eval?_null_left cmp.eval?_null_right]
    exact ⟨_, rfl, fun _ _ => Condition.never_decides⟩
  | false =>
    obtain ⟨ha, hb⟩ := Bool.or_eq_false_iff.mp hnull
    obtain ⟨o, ho, -⟩ := operand_of_known hl
    obtain ⟨o', ho', hresolve⟩ := operand_of_known hr
    obtain ⟨f, hf, hdecides⟩ := against_of_known hl ha fun w => compare_test cmp (hresolve w) hb
    have htest : (Condition.test <$> against c (l.lower c) (.compare cmp o')) =
        .ok (.test f) := map_eq_ok.mpr ⟨f, hf, rfl⟩
    rw [comparison, lower_expr, lower_expr, isNull_of_known hl, isNull_of_known hr, hnull, ho, ho']
    cases hconstant : l.constant? with
    | none => exact ⟨.test f, htest, hdecides⟩
    | some a' =>
      cases hconstant' : r.constant? with
      | none => exact ⟨.test f, htest, hdecides⟩
      | some b' =>
        cases hl.symm.trans (known_of_constant hconstant _)
        cases hr.symm.trans (known_of_constant hconstant' _)
        exact ⟨_, rfl, fun _ _ => Condition.decided_decides _⟩

theorem Condition.eq_iff_of_decides {d : Condition} {ps : Parameters}
    (h : ∀ g t, d.Decides ps g t yes) (b : Bool) :
    yes = b ↔ ∀ g t, (d.filter.run ps [t]).outcome g = (.ok (if b then [t] else []), g) := by
  constructor
  · rintro rfl
    exact fun g t => (h g t).one
  · intro hall
    have hone := (h (.empty "g") { object := .null }).one.symm.trans (hall _ _)
    cases yes <;> cases b <;> first | rfl | cases hone

/-- **Folding a comparison agrees with running it.** Take two constants and parameters with the same
values. The condition of their comparison, and that of its negation, is folded to `always` or to
`never`. It is `always` just where the condition with a parameter in place of a constant lets every
row pass, and `never` just where that lets no row pass. -/
theorem folded_comparison_agrees {c : LoweringContext} {l r : Expr} {a b : Value} {p q : String}
    (ha : l.constant? = some a) (hb : r.constant? = some b)
    (hp : c.parameters.find? p = some a) (hq : c.parameters.find? q = some b) (cmp : Comparison) :
    (Object.ofValue a).eq? (.ofValue b) = a.eq? b ∧
    (Object.ofValue a).compare? (.ofValue b) = a.compare? b ∧
    ∀ reading ∈ [Lowered.holds, Lowered.fails],
      ∃ folded, reading ((Expr.binary l (.compare cmp) r).lower c) = .ok folded ∧
        (folded = .always ∨ folded = .never) ∧
        ∀ e ∈ [(.param p, .param q), (.param p, r), (l, .param q)],
          ∃ d, reading ((Expr.binary e.1 (.compare cmp) e.2).lower c) = .ok d ∧
            (folded = .always ↔ ∀ g t, (d.filter.run c.parameters [t]).outcome g = (.ok [t], g)) ∧
            (folded = .never ↔ ∀ g t, (d.filter.run c.parameters [t]).outcome g = (.ok [], g)) := by
  refine ⟨Object.eq?_ofValue a b, Object.compare?_ofValue a b, fun reading hreading => ?_⟩
  -- the negation is the comparison the other way, so one comparison is read in either case
  obtain ⟨op, hop⟩ : ∃ op : Comparison, ∀ l r : Expr,
      reading ((Expr.binary l (.compare cmp) r).lower c) =
        comparison c (l.lower c) op (r.lower c) := by
    rcases mem_pair.mp hreading with rfl | rfl
    · exact ⟨cmp, fun _ _ => rfl⟩
    · exact ⟨cmp.negate, fun _ _ => rfl⟩
  refine ⟨_, (hop l r).trans (Expr.comparison_of_constants ha hb op), ?_, fun e he => ?_⟩
  · exact ite_eq_or_eq ..
  · have hl := Expr.known_of_constant ha c.parameters
    have hr := Expr.known_of_constant hb c.parameters
    have hknown : e.1.known? c.parameters = some a ∧ e.2.known? c.parameters = some b := by
      simp only [mem_cons, not_mem_nil, or_false] at he
      rcases he with rfl | rfl | rfl
      · exact ⟨hp, hq⟩
      · exact ⟨hp, hr⟩
      · exact ⟨hl, hq⟩
    obtain ⟨d, hd, hdecides⟩ := Expr.comparison_of_known hknown.1 hknown.2 op
    refine ⟨d, (hop e.1 e.2).trans hd, Iff.trans ?_ (Condition.eq_iff_of_decides hdecides true),
      Iff.trans ?_ (Condition.eq_iff_of_decides hdecides false)⟩
    all_goals cases op.eval? a b == some true <;> simp

theorem unknown_item_is_never_equal :
    let v : Value := .list [.int 1, .null]
    let w : Value := .list [.int 1, .int 2]
    let c : LoweringContext := ⟨{}, [("p", v), ("q", w)], none, "RETURN"⟩
    let l : Expr := .list [.literal (.int 1), .literal .null]
    let r : Expr := .list [.literal (.int 1), .literal (.int 2)]
    ∃ d, ((Expr.binary l (.compare .eq) r).lower c).fails = .ok .never ∧
      ((Expr.binary (.param "p") (.compare .eq) (.param "q")).lower c).fails = .ok d ∧
      ∀ g t, (d.filter.run c.parameters [t]).outcome g = (.ok [], g) := by
  intro v w c l r
  obtain ⟨-, -, hreadings⟩ := folded_comparison_agrees (c := c) (l := l) (r := r) (a := v) (b := w)
    (p := "p") (q := "q") rfl rfl rfl rfl .eq
  obtain ⟨folded, hfolded, -, hrun⟩ := hreadings Lowered.fails (mem_cons_of_mem _ mem_cons_self)
  cases hfolded
  obtain ⟨d, hd, -, hnever⟩ := hrun _ mem_cons_self
  exact ⟨d, rfl, hd, hnever.mp rfl⟩

end CypherTraversal
