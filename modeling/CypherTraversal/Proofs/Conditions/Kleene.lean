import CypherTraversal.Graph.Sample
import CypherTraversal.Proofs.Conditions.Deciding
import CypherTraversal.Proofs.Conditions.Meaning
import CypherTraversal.Proofs.Expressions.Reading

/-! # Conditions are three-valued

Main statement: what a condition is lowered to passes where its answer is true, and what its
negation is lowered to passes where the answer is false. -/

namespace CypherTraversal

open Run Condition Lowered CypherTraversal.Expr

variable {cmp op : Comparison} {half : HalfRange} {d : Expr} {a b : Option Bool} {cond : Condition}
  {e l u : Expr} {f : Traversal} {x : String} {value : Except Error Traversal}

/-! ### Predicates -/

section Predicates
variable {ps : Parameters} {u : Traverser} {v w : Value} {o : Operand}

theorem nullPredicate_test : nullPredicate.test ps u (.ofValue v) = .ok v.isNull :=
  congrArg Except.ok (Object.isNull_ofValue v)

theorem notNullPredicate_test : notNullPredicate.test ps u (.ofValue v) = .ok !v.isNull :=
  congrArg (fun b => Except.ok !b) (Object.isNull_ofValue v)

theorem truthPredicate_test (b : Bool) :
    (truthPredicate b).test ps u (.ofValue v) = .ok (v.toBool? == some b) := by
  refine (congrArg Except.ok (Comparison.eq.holds_ofValue v rfl)).trans ?_
  rcases v with (_ | a | _ | _ | _) | _ | _
  case scalar.bool => cases a <;> cases b <;> rfl
  all_goals rfl

theorem compare_test (cmp : Comparison) (ho : o.resolve ps u = .ok (.ofValue w))
    (hw : w.isNull = false) :
    (Predicate.compare cmp o).test ps u (.ofValue v) = .ok (cmp.eval? v w == some true) := by
  rw [Predicate.test, ho, ← cmp.holds_ofValue v hw]
  rfl

theorem text_test (m : TextMatch) (ho : o.resolve ps u = .ok (.ofValue w)) :
    (Predicate.text m o).test ps u (.ofValue v) = .ok (m.eval? v w == some true) := by
  rw [Predicate.test, ho]
  refine congrArg Except.ok ?_
  rcases v with (_ | _ | _ | _ | s) | _ | _ <;> rcases w with (_ | _ | _ | _ | p) | _ | _
  case scalar.str.scalar.str =>
    show m.holds s p = (some (m.holds s p) == some true)
    cases m.holds s p <;> rfl
  all_goals rfl

theorem between_test {o' : Operand} {w' : Value} (ho : o.resolve ps u = .ok (.ofValue w))
    (hw : w.isNull = false) (ho' : o'.resolve ps u = .ok (.ofValue w')) (hw' : w'.isNull = false) :
    (Predicate.between o o').test ps u (.ofValue v) =
      .ok (Comparison.ge.eval? v w == some true && Comparison.lt.eval? v w' == some true) := by
  rw [← Comparison.holds_ofValue _ v hw, ← Comparison.holds_ofValue _ v hw', Predicate.test, ho]
  cases hge : Comparison.ge.holds (.ofValue v) (.ofValue w) with
  | false => simp [hge, bind, Except.bind, pure, Except.pure]
  | true => simp [hge, ho', bind, Except.bind, pure, Except.pure]

end Predicates

/-! ### Tests on the row -/

theorem Scope.has_of_isElement {s : Scope} (h : s.isElement x) : s.has x := by
  unfold isElement kind? at h
  unfold has
  cases hx : s.find? x with
  | none =>
    rw [hx] at h
    cases h
  | some b => rfl

/-- The condition that is made decides the row. -/
abbrev Decided (c : LoweringContext) (g : Graph) (t : Traverser) (b : Bool)
    (cond : Except Error Condition) : Prop :=
  Gives (fun cond => cond.Decides c.parameters g t b) cond

section Rows
variable {c : LoweringContext} {g : Graph} {row : String → Object} {t : Traverser}

/-- The value that is made leads from the row to the object. -/
abbrev LeadsTo (c : LoweringContext) (g : Graph) (t : Traverser) (v : Value)
    (value : Except Error Traversal) : Prop :=
  Gives (fun f => Process.Sends g (· = t) (f.run c.parameters) fun u => [u.moveTo (.ofValue v)])
    value

theorem parameter_leads {name : String} (hname : Entries.find? name c.parameters = some v) :
    LeadsTo c g t v ((Expr.param name).lower c).value :=
  .ok (.constant fun u _ => parameter_resolve hname u)

theorem isNull_decides (hvalue : LeadsTo c g t v value) (wantNull : Bool) :
    Decided c g t (v.isNull == wantNull) (do
      return .test [.filter ((← value) ++
        [.is (if wantNull then nullPredicate else notNullPredicate)])]) := by
  refine hvalue.bind fun f hf => .ok (.after hf (.is ?_))
  cases wantNull
  · refine notNullPredicate_test.trans ?_
    cases v.isNull <;> rfl
  · refine nullPredicate_test.trans ?_
    cases v.isNull <;> rfl

theorem valueIs_decides (b : Bool) (hvalue : LeadsTo c g t v value) :
    Decided c g t (v.toBool? == some b) (valueIs b value) :=
  hvalue.bind fun _ hf => .ok (.after hf (.is (truthPredicate_test b)))

namespace LoweringContext.Shows

variable (h : c.Shows g row t)

include h

theorem selects (hx : c.scope.has x) (ps : Parameters) :
    Process.Sends g (· = t) (Traversal.run ps [.select x]) fun u => [u.moveTo (row x)] := by
  refine .step rfl (Process.Sends.congr (.moveIn _) ?_)
  rintro u rfl
  have hone := h.select x hx
  rw [Process.select, (Process.Sends.moveIn (S := fun _ => True) _).one trivial] at hone
  exact Except.ok.inj (Prod.mk.inj hone).1

theorem onElement_decides (hx : c.scope.has x) {ps : Parameters} {steps : Traversal} {b : Bool}
    (hb : steps.Decides ps g (t.moveTo (row x)) b) : (c.onElement x steps).Decides ps g t b := by
  unfold LoweringContext.onElement
  by_cases hcurrent : c.current = some x
  · rw [if_pos hcurrent]
    rwa [← h.current x hcurrent] at hb
  · rw [if_neg hcurrent]
    exact .after (f := [.select x]) (h.selects hx ps) hb

theorem property_isNull (key : String) (x : Object) :
    ((g.property? key x).getD .null).isNull = (g.property? key x).isNone := by
  cases hx : g.property? key x with
  | none => rfl
  | some v => exact h.noNulls.property? hx

theorem value_leads (hx : c.scope.has x) (hv : row x = .ofValue v) :
    LeadsTo c g t v ((Expr.var x).lower c).value := by
  rw [lower, ofVariable, ofValue, if_pos hx]
  exact .ok (hv ▸ h.selects hx c.parameters)

variable (hu : u.OfRow c g row v)

include hu

theorem nullTest_decides (wantNull : Bool) :
    Decided c g t (v.isNull == wantNull) (nullTest c (u.lower c) wantNull) := by
  rw [nullTest, lower_expr]
  cases hu with
  | @property x hx key =>
    rw [elementProperty?, if_pos hx, h.property_isNull]
    refine .ok (h.onElement_decides (Scope.has_of_isElement hx) ?_)
    cases wantNull
    · refine .keepIn rfl ?_
      show (g.property? key (row x)).isSome = _
      cases g.property? key (row x) <;> rfl
    · refine .keepIn rfl ?_
      show (g.property? key (row x)).isNone = _
      cases g.property? key (row x) <;> rfl
  | plain hx hv => exact isNull_decides (h.value_leads hx hv) wantNull

theorem against_decides {p : Predicate} {b : Bool}
    (hp : ∀ w, p.test c.parameters w (.ofValue v) = .ok b) (hnull : v.isNull → b = false) :
    Gives (fun f => f.Decides c.parameters g t b) (against c (u.lower c) p) := by
  rw [against, lower_expr]
  cases hu with
  | @property x hx key =>
    rw [elementProperty?, if_pos hx]
    refine .ok (h.onElement_decides (Scope.has_of_isElement hx) (.step rfl ?_))
    refine (outcome_bind_ok rfl).trans ?_
    rw [show (t.moveTo (row x)).object = row x from rfl]
    cases hx : g.property? key (row x) with
    | none =>
      rw [hx] at hnull
      rw [hnull rfl]
      rfl
    | some w =>
      rw [hx] at hp
      exact congrArg (fun r => (r, g)) (hp _)
  | plain hx hv =>
    have hb : (!v.isNull && b) = b := by
      cases hv : v.isNull with
      | false => rfl
      | true => exact (hnull hv).symm
    rw [← hb]
    exact (h.value_leads hx hv).bind fun f hf =>
      .ok (.after hf (.append (f := [_]) (.is notNullPredicate_test) (.is (hp _))))

variable (hl : l.known? c.parameters = some w)

include hl

theorem comparison_decides (cmp : Comparison) :
    Decided c g t (cmp.eval? v w == some true) (comparison c (u.lower c) cmp (l.lower c)) := by
  rw [comparison, lower_expr, lower_expr, hu.isNull, isNull_of_known hl, Bool.false_or]
  cases hw : w.isNull with
  | true =>
    rw [cmp.eval?_null_right hw]
    exact .ok never_decides
  | false =>
    obtain ⟨o, ho, hresolve⟩ := operand_of_known hl
    rw [if_neg Bool.false_ne_true, hu.constant, hu.operand, ho]
    intro _ hcond
    obtain ⟨f, hf, rfl⟩ := map_eq_ok.mp hcond
    refine h.against_decides hu (fun u => compare_test cmp (hresolve u) hw) (fun hv => ?_) f hf
    rw [cmp.eval?_null_left hv]
    rfl

theorem comparison_left_decides (cmp : Comparison) :
    Decided c g t (cmp.eval? w v == some true) (comparison c (l.lower c) cmp (u.lower c)) := by
  have hdecides := h.comparison_decides hu hl cmp.flip
  obtain ⟨o, ho, -⟩ := operand_of_known hl
  rw [cmp.eval?_flip, comparison, lower_expr, lower_expr, Bool.or_comm,
    hu.constant, hu.operand, ho] at hdecides
  rw [comparison, lower_expr, lower_expr, hu.constant, hu.operand, ho]
  cases hconstant : l.constant? <;> rw [hconstant] at hdecides <;> exact hdecides

omit h hu in
theorem known_nullTest_decides (wantNull : Bool) :
    Decided c g t (w.isNull == wantNull) (nullTest c (l.lower c) wantNull) := by
  rw [nullTest, lower_expr]
  rcases known_cases hl with ⟨name, rfl, hname⟩ | hconstant
  case inr =>
    have hproperty : c.elementProperty? l = none := by
      unfold elementProperty?
      split
      · cases hconstant
      · rfl
    rw [hproperty, hconstant]
    exact .ok (decided_decides _)
  case inl => exact isNull_decides (parameter_leads hname) wantNull

theorem textMatch_decides (m : TextMatch) (negated : Bool) :
    Decided c g t (m.eval? v w == some !negated)
      (textMatch c (u.lower c) m (l.lower c) negated) := by
  rw [textMatch, lower_expr, lower_expr, hu.isNull, isNull_of_known hl, Bool.false_or]
  cases hw : w.isNull with
  | true =>
    rw [m.eval?_null_right hw]
    exact .ok never_decides
  | false =>
    obtain ⟨o, ho, hresolve⟩ := operand_of_known hl
    rw [if_neg Bool.false_ne_true, hu.operand, ho]
    have hagainst := h.against_decides hu (b := m.eval? v w == some true)
      (fun u => text_test m (hresolve u)) fun hv => by rw [m.eval?_null_left hv]; rfl
    refine .skip fun _ => .skip fun _ => hagainst.bind fun f hf => ?_
    cases negated with
    | false => exact .ok hf
    | true =>
      refine (h.nullTest_decides hu false).bind fun left hleft =>
        (known_nullTest_decides (g := g) (t := t) hl false).bind fun right hright => .ok ?_
      have hall := all_decides (.cons hleft (.cons hright (.cons (test_decides hf.not) .nil)))
      cases hv : v.isNull with
      | true =>
        rw [hv] at hall
        rw [m.eval?_null_left hv]
        exact hall
      | false =>
        obtain ⟨r, hr⟩ := m.eval?_known hv hw
        rw [hv, hw, hr] at hall
        rw [hr]
        cases r <;> exact hall

end LoweringContext.Shows

/-! ### Ranges -/

structure HalfRange.Limits (c : LoweringContext) (g : Graph) (row : String → Object)
    (cmp : Comparison) (a : Option Bool) (half : HalfRange) (v w : Value) : Prop where
  subject : half.subject.OfRow c g row v
  limit : half.limit.known? c.parameters = some w
  against : half.against = Lowered.against c (half.subject.lower c)
  answer : a = cmp.eval? v w

theorem halfRange_limits (hu : u.OfRow c g row v) (hl : l.known? c.parameters = some w)
    (hhalf : halfRange c cmp (u.lower c) op (l.lower c) = some half) :
    half.Limits c g row cmp.flip (op.eval? v w) v w := by
  obtain ⟨o, ho, -⟩ := operand_of_known hl
  simp only [halfRange, lower_expr, hu.operand, ho, Option.isSome_none,
    Option.isSome_some, Bool.and_false, Bool.false_and, Bool.not_false, Bool.and_true,
    Bool.false_eq_true, if_false, decide_eq_true_eq] at hhalf
  split at hhalf
  · subst op
    cases hhalf
    exact ⟨hu, hl, rfl, rfl⟩
  · cases hhalf

theorem halfRange_left_limits (hu : u.OfRow c g row v) (hl : l.known? c.parameters = some w)
    (hhalf : halfRange c cmp (l.lower c) op (u.lower c) = some half) :
    half.Limits c g row cmp.flip (op.eval? w v) v w := by
  rw [← op.eval?_flip]
  refine halfRange_limits hu hl ?_
  obtain ⟨o, ho, -⟩ := operand_of_known hl
  have hflip : op.flip = cmp.flip ↔ op = cmp := by cases op <;> cases cmp <;> decide
  rw [← hhalf]
  simp [halfRange, lower_expr, hu.operand, ho, hflip]

theorem Expr.Answers.limits (he : e.Answers c g row a) :
    (∀ half, (e.lower c).lower? = some half → ∃ v w, half.Limits c g row .ge a v w) ∧
      ∀ half, (e.lower c).upper? = some half → ∃ v w, half.Limits c g row .lt a v w := by
  cases he
  case compare hu hl cmp =>
    exact ⟨fun _ h => ⟨_, _, halfRange_limits hu hl h⟩, fun _ h => ⟨_, _, halfRange_limits hu hl h⟩⟩
  case compareLeft hu hl cmp =>
    exact ⟨fun _ h => ⟨_, _, halfRange_left_limits hu hl h⟩,
      fun _ h => ⟨_, _, halfRange_left_limits hu hl h⟩⟩
  case existence hname _ _ _ =>
    rw [lower, ofCall, hname]
    constructor <;> (intro _ h; cases h)
  all_goals constructor <;> (intro _ h; cases h)

theorem range_decides (h : c.Shows g row t) (he : e.Answers c g row a) (hd : d.Answers c g row b)
    (hcond : range? c (e.lower c) (d.lower c) = .ok (some cond)) :
    cond.Decides c.parameters g t (a == some true && b == some true) := by
  rw [range?] at hcond
  split at hcond
  case h_2 => cases hcond
  rename_i low high hlow hhigh
  obtain ⟨v, w, hl⟩ := he.limits.1 low hlow
  obtain ⟨v', w', hr⟩ := hd.limits.2 high hhigh
  have hanswer : (a == some true && b == some true) =
      (Comparison.ge.eval? v w == some true && Comparison.lt.eval? v' w' == some true) := by
    rw [hl.answer, hr.answer]
  rw [hanswer]
  split at hcond
  · cases hcond
  · rename_i hsame
    have hsubject := hl.subject.eq_of_same hr.subject (by simpa [bne] using hsame)
    obtain rfl := hl.subject.unique (hsubject ▸ hr.subject)
    rw [isNull_of_known hl.limit, isNull_of_known hr.limit] at hcond
    split at hcond
    · rename_i hnull
      cases hcond
      rcases Bool.or_eq_true_iff.mp hnull with hw | hw'
      · rw [Comparison.ge.eval?_null_right hw]
        exact never_decides
      · rw [Comparison.lt.eval?_null_right hw', show (none == some true) = false from rfl,
          Bool.and_false]
        exact never_decides
    · rename_i hnull
      obtain ⟨hw, hw'⟩ : w.isNull = false ∧ w'.isNull = false := by simpa using hnull
      obtain ⟨o, ho, hresolve⟩ := operand_of_known hl.limit
      obtain ⟨o', ho', hresolve'⟩ := operand_of_known hr.limit
      rw [ho, ho'] at hcond
      obtain ⟨f, hf, hcond⟩ := bind_eq_ok.mp hcond
      cases hcond
      rw [hl.against] at hf
      refine h.against_decides hl.subject
        (fun u => between_test (hresolve u) hw (hresolve' u) hw') (fun hv => ?_) f hf
      rw [Comparison.ge.eval?_null_left hv]
      rfl

/-! ### Conditions -/

theorem conjunction_decides (h : c.Shows g row t) (he : e.Answers c g row a)
    (hd : d.Answers c g row b) (ihe : Decided c g t (a == some true) (e.lower c).holds)
    (ihd : Decided c g t (b == some true) (d.lower c).holds) :
    Decided c g t (a == some true && b == some true) (conjunction c (e.lower c) (d.lower c)) := by
  refine Gives.bind (fun _ hrange => hrange) fun range hrange => ?_
  cases range with
  | some f => exact .ok (range_decides h he hd hrange)
  | none =>
    exact ihe.bind fun _ hleft => ihd.bind fun _ hright =>
      .ok (both_decide hleft hright)

/-- What is lowered decides the row by an answer. -/
abbrev Lowered.Decides (c : LoweringContext) (g : Graph) (t : Traverser) (a : Option Bool)
    (l : Lowered) : Prop :=
  Decided c g t (a == some true) l.holds ∧ Decided c g t (a == some false) l.fails

theorem exclusive_decides {l r : Lowered} (hl : l.Decides c g t a) (hr : r.Decides c g t b)
    (same : Bool) :
    Decided c g t (Truth.exclusive a b == some !same) (exclusive l r same) := by
  refine hl.1.bind fun _ hyes => hl.2.bind fun _ hno => hr.1.bind fun _ hyes' =>
    hr.2.bind fun _ hno' => ?_
  cases same
  · rw [Bool.not_false, Truth.exclusive_is_true]
    exact .ok (either_decides (both_decide hyes hno') (both_decide hno hyes'))
  · rw [Bool.not_true, Truth.exclusive_is_false]
    exact .ok (either_decides (both_decide hyes hyes') (both_decide hno hno'))

theorem parameter_decides {name : String} (hname : Entries.find? name c.parameters = some v)
    (b : Bool) : Decided c g t (v.toBool? == some b) (if c.isNull (.param name) then .ok .never
      else valueIs b (.ok [.constant (.parameter name)])) := by
  have hknown : (Expr.param name).known? c.parameters = some v := hname
  rw [isNull_of_known hknown]
  split
  · rename_i hv
    rw [Value.eq_null_of_isNull hv]
    exact .ok never_decides
  · exact valueIs_decides b (parameter_leads hname)

theorem Expr.Answers.decides (h : c.Shows g row t) (he : e.Answers c g row a) :
    (e.lower c).Decides c g t a := by
  induction he with
  | truth b =>
    cases b <;> exact ⟨.ok (decided_decides _), .ok (decided_decides _)⟩
  | null => exact ⟨.ok never_decides, .ok never_decides⟩
  | parameter hname => exact ⟨parameter_decides hname true, parameter_decides hname false⟩
  | plain hx hv =>
    exact ⟨valueIs_decides true (h.value_leads hx hv), valueIs_decides false (h.value_leads hx hv)⟩
  | isNull hu =>
    unfold Lowered.Decides
    exact ⟨h.nullTest_decides hu true, h.nullTest_decides hu false⟩
  | @isNotNull u v hu =>
    have hnot (b : Bool) : (some (!v.isNull) == some b) = (v.isNull == !b) := by
      cases v.isNull <;> cases b <;> rfl
    unfold Lowered.Decides
    rw [hnot, hnot]
    exact ⟨h.nullTest_decides hu false, h.nullTest_decides hu true⟩
  | @existence x _ hname hx key distinct =>
    have hu : OfRow c g row (.access (.var x) key) _ := .property hx key
    have hanswer (b : Bool) : (some (g.property? key (row x)).isSome == some b) =
        (((g.property? key (row x)).getD .null).isNull == !b) := by
      rw [h.property_isNull]
      cases g.property? key (row x) <;> cases b <;> rfl
    unfold Lowered.Decides
    rw [hanswer, hanswer, lower, ofCall, hname]
    exact ⟨h.nullTest_decides hu false, h.nullTest_decides hu true⟩
  | compare hu hl cmp =>
    have hnegated := h.comparison_decides hu hl cmp.negate
    rw [cmp.eval?_negate, Truth.not_is] at hnegated
    exact ⟨h.comparison_decides hu hl cmp, hnegated⟩
  | compareLeft hu hl cmp =>
    have hnegated := h.comparison_left_decides hu hl cmp.negate
    rw [cmp.eval?_negate, Truth.not_is] at hnegated
    exact ⟨h.comparison_left_decides hu hl cmp, hnegated⟩
  | text hu hl m => exact ⟨h.textMatch_decides hu hl m false, h.textMatch_decides hu hl m true⟩
  | not he ih =>
    unfold Lowered.Decides
    rw [Truth.not_is, Truth.not_is]
    exact ⟨ih.2, ih.1⟩
  | and he hd ihe ihd =>
    unfold Lowered.Decides
    rw [Truth.both_is_true, Truth.both_is_false]
    exact ⟨conjunction_decides h he hd ihe.1 ihd.1, ihe.2.bind fun _ hleft =>
      ihd.2.bind fun _ hright => .ok (either_decides hleft hright)⟩
  | or he hd ihe ihd =>
    unfold Lowered.Decides
    rw [Truth.either_is_true, Truth.either_is_false]
    exact ⟨ihe.1.bind fun _ hleft => ihd.1.bind fun _ hright =>
      .ok (either_decides hleft hright), ihe.2.bind fun _ hleft =>
        ihd.2.bind fun _ hright => .ok (both_decide hleft hright)⟩
  | xor he hd ihe ihd => exact ⟨exclusive_decides ihe ihd false, exclusive_decides ihe ihd true⟩

/-- **Conditions are three-valued.** On a row that shows its variables, the steps of a condition let
the row pass as it is where the answer is true, and the steps of its negation where the answer is
false; otherwise they let nothing pass. Neither changes the graph. -/
theorem condition_passes_where_true (h : c.Shows g row t) {e : Expr} {a : Option Bool}
    (he : e.Answers c g row a) :
    (∀ cond, (e.lower c).holds = .ok cond →
      (cond.filter.run c.parameters [t]).outcome g = (.ok (if a = some true then [t] else []), g)) ∧
    ∀ cond, (e.lower c).fails = .ok cond →
      (cond.filter.run c.parameters [t]).outcome g =
        (.ok (if a = some false then [t] else []), g) := by
  obtain ⟨hholds, hfails⟩ := he.decides h
  constructor
  · intro cond hcond
    rw [(hholds cond hcond).one]
    simp only [beq_iff_eq]
  · intro cond hcond
    rw [(hfails cond hcond).one]
    simp only [beq_iff_eq]

end Rows

/-- A range, a text match with a parameter, a missing property and a comparison with null: the
answer is true of marko, who is 29. -/
theorem marko_passes :
    let c : LoweringContext :=
      { scope := { bindings := [⟨"n", .node⟩] }, parameters := [("p", .str "ma")], current := none,
        clause := "MATCH" }
    let t : Traverser := { object := .null, path := [("n", .vertex ⟨1⟩)] }
    let age : Expr := .access (.var "n") "age"
    let young : Expr := .binary (.binary age (.compare .ge) (.literal (.int 18))) .and
      (.binary (.literal (.int 30)) (.compare .gt) age)
    let named : Expr := .binary (.access (.var "n") "name") (.text .startsWith) (.param "p")
    let missing : Expr := .unary .isNull (.access (.var "n") "lang")
    let unknown : Expr := .binary age (.compare .ne) (.literal .null)
    let e : Expr := .binary (.binary young .and (.binary named .and missing)) .or unknown
    (∃ cond, (e.lower c).holds = .ok cond ∧
      (cond.filter.run c.parameters [t]).outcome .modern = (.ok [t], .modern)) ∧
    ∃ cond, (e.lower c).fails = .ok cond ∧
      (cond.filter.run c.parameters [t]).outcome .modern = (.ok [], .modern) := by
  intro c t age young named missing unknown e
  have hshows : c.Shows .modern (fun _ => .vertex ⟨1⟩) t := by
    refine ⟨fun x hx => ?_, fun x hx => ?_, ?_⟩
    · obtain rfl : "n" = x := by simpa [c, Scope.has, Scope.find?] using hx
      rfl
    · cases hx
    · decide +kernel
  have hproperty (key : String) : OfRow c .modern (fun _ => .vertex ⟨1⟩)
      (.access (.var "n") key) _ := .property rfl key
  have he : e.Answers c .modern (fun _ => .vertex ⟨1⟩) _ :=
    .or (.and (.and (.compare (hproperty "age") rfl .ge)
        (.compareLeft (hproperty "age") rfl .gt))
      (.and (.text (hproperty "name") rfl .startsWith) (.isNull (hproperty "lang"))))
      (.compare (hproperty "age") rfl .ne)
  obtain ⟨hholds, hfails⟩ := condition_passes_where_true hshows he
  exact ⟨⟨_, rfl, hholds _ rfl⟩, _, rfl, hfails _ rfl⟩

end CypherTraversal
