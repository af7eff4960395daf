import CypherTraversal.Proofs.Aggregates.Reductions
import CypherTraversal.Proofs.Bindings.Paths
import CypherTraversal.Proofs.Conditions.Values

/-! # Membership of lists

An item is looked for in a list that is known beforehand, or in the rows that the list of a row
unfolds into. -/

namespace CypherTraversal

open Run Traverser List Object Lowered CypherTraversal.Expr

variable {P Q : Prop} {items : List Object} {c : LoweringContext} {ps : Parameters} {g : Graph}
  {t u w : Traverser} {x l e : Expr} {X L : Object} {f : Traversal}

/-! ### Known lists -/

namespace Object

theorem isMember_ofValue (v : Value) (vs : List Value) :
    (ofValue v).isMember (.ofValue (.list vs)) = vs.any fun w => v.eq? w == some true := by
  rw [ofValue, isMember, ofItems_eq_map, any_map]
  simp only [Function.comp_def, eq?_ofValue]

theorem isMember_notNull (X : Object) (vs : List Value) :
    X.isMember (.ofValue (.list (vs.filter fun v => !v.isNull))) =
      X.isMember (.ofValue (.list vs)) := by
  rw [ofValue, ofValue, isMember, isMember, ofItems_eq_map, ofItems_eq_map, any_map,
    any_map, any_filter]
  refine any_congr rfl fun v => ?_
  cases hv : v.isNull with
  | false => rfl
  | true =>
    rw [Value.eq_null_of_isNull hv, Function.comp, ofValue, eq?_null]
    rfl

end Object

theorem Lowered.memberPredicate_test (hX : X.isNull = false) {o : Operand}
    (ho : o.resolve ps u = .ok L) (negated : Bool) :
    (memberPredicate negated o).test ps u X = .ok (X.isMember L != negated) := by
  cases negated with
  | false =>
    rw [memberPredicate, if_neg nofun, Predicate.test, ho, Bool.bne_false]
    rfl
  | true =>
    rw [memberPredicate, if_pos rfl, Predicate.test, ho, hX, Bool.bne_true]
    rfl

namespace Expr.ReadsAs

section Members

variable (h : x.ReadsAs c g t X) (hX : X.isNull = false) (hc : c.Locates t)

include h hX hc

theorem constantMember {vs : List Value} (hl : l.constant? = some (.list vs)) (negated : Bool) :
    ∃ d, member c (x.lower c) (l.lower c) negated = .ok d ∧ d.Decides c.parameters g t
      ((X.isMember (.ofValue (.list vs)) != negated) && !(negated && vs.any Value.isNull)) := by
  have hlist : c.isNull l = false := isNull_of_known (known_of_constant hl c.parameters)
  rw [member, lower_expr, lower_expr, h.isNull hX, hlist, if_neg nofun, hl]
  dsimp only
  rw [Lowered.constantMember]
  cases hnulls : negated && vs.any Value.isNull with
  | true =>
    rw [if_pos rfl, Bool.not_true, Bool.and_false]
    exact ⟨_, rfl, Condition.never_decides⟩
  | false =>
    rw [if_neg nofun, Bool.not_false, Bool.and_true, lower_expr]
    cases hconstant : x.constant? with
    | some v =>
      obtain rfl := h.constant hconstant
      rw [← isMember_notNull, isMember_ofValue]
      exact ⟨_, rfl, Condition.decided_decides _⟩
    | none =>
      let known : Value := .list (vs.filter fun v => !v.isNull)
      obtain ⟨f, hf, hdecides⟩ := h.against hX hc fun w =>
        memberPredicate_test (o := .value known) hX rfl negated
      rw [isMember_notNull] at hdecides
      dsimp only
      rw [hf]
      exact ⟨.test f, rfl, hdecides⟩

theorem parameterMember {name : String} {v : Value} (hl : Entries.find? name c.parameters = some v)
    (hv : v.isNull = false) (negated : Bool) :
    ∃ d, member c (x.lower c) ((Expr.param name).lower c) negated = .ok d ∧
      d.Decides c.parameters g t (X.isMember (.ofValue v) != negated) := by
  have hknown : (Expr.param name).known? c.parameters = some v := hl
  have hlist : c.isNull (.param name) = false := (isNull_of_known hknown).trans hv
  rw [member, lower_expr, lower_expr, h.isNull hX, hlist, if_neg nofun]
  obtain ⟨f, hf, hdecides⟩ := h.against hX hc fun w =>
    memberPredicate_test hX (parameter_resolve hl w) negated
  exact ⟨.test f, congrArg (Condition.test <$> ·) hf, hdecides⟩

end Members

end Expr.ReadsAs

/-! ### Lists of the row -/

def Traverser.finds (w : Traverser) : Bool :=
  (Process.parts w.object).any fun y =>
    Comparison.eq.holds y ((w.labelled? compareLabel).getD .null)

theorem lookup_decides {left right : Traversal} (hleft : (left.run ps [t]).outcome g = (.ok [u], g))
    (hu : u.object.isNull = false) (hstarts : right.Starts ps)
    (hright : (right.run ps [u.mark compareLabel]).outcome g = (.ok [w], g)) :
    Traversal.Decides ps g t
      [.filter (left ++ [.is notNullPredicate, .mark compareLabel] ++ right ++
        [.unfold, .wherePredicate (.compare .eq (.label compareLabel))])] w.finds := by
  have hlabelled := labelled_outcome hleft
  rw [hu, if_neg nofun] at hlabelled
  have hlist := (Traversal.outcome_append hstarts hlabelled).trans hright
  -- the items keep the path of their list, so each of them still finds the label, or none does
  let equals : Step := .wherePredicate (.compare .eq (.label compareLabel))
  have hitems : (Traversal.run ps [.unfold] [w]).outcome g =
      (.ok ((Process.parts w.object).map w.moveTo), g) :=
    Process.unfold_outcome w
  have hequals : Traversal.Passes ps g [equals]
      (fun v => Comparison.eq.holds v.object ((v.labelled? compareLabel).getD .null)) fun v => v :=
    .keep rfl fun _ => rfl
  have hunfold : Traversal.Starts ps [.unfold] := rfl
  have hfound := (Traversal.outcome_append hunfold hlist).trans hitems
  have hdecides := Traversal.Decides.filterAny hfound hequals
  rw [any_map, append_assoc] at hdecides
  exact hdecides

/-- Reading the list does not get in the way of the item, nor the item of the list. -/
structure Expr.Leaves (c : LoweringContext) (t : Traverser) (X : Object) (x l : Expr) : Prop where
  rowwise : x.rowwise
  notMap : X.isMap = false
  untested : l.tests c.current = false
  names : ∀ n ∈ l.names, n ≠ compareLabel ∧ t.place.selected n = t.labelled? n

theorem Expr.Leaves.undisturbed (h : x.Leaves c t X l) : l.Undisturbed c t X :=
  ⟨h.untested, fun n hn => ⟨(h.names n hn).1,
    (Place.selected_of_isMap (p := (X, t.path)) h.notMap n).trans (h.names n hn).2.symm⟩⟩

theorem Expr.rowwise_path (he : e.rowwise) (hf : (e.lower c).value = .ok f)
    (hrun : (f.run ps [t]).outcome g = (.ok [u], g)) : u.path = t.path :=
  path_of_value (P := (· = t.path)) rfl (.inr (e.keepsPath_of_rowwise he)) hf hrun u mem_cons_self

theorem Lowered.member_of_unknown (hx : c.isNull x = false) (hl : l.isKnown = false)
    (negated : Bool) : member c (x.lower c) (l.lower c) negated =
      rowMember c (x.lower c) (l.lower c) negated := by
  obtain ⟨hconstant, hparam, hnull⟩ := of_unknown (c := c) hl
  rw [member, lower_expr, lower_expr, hx, hnull, if_neg nofun, hconstant]
  split
  · rename_i h
    cases h
  · exact absurd rfl (hparam _)
  · rfl

theorem Expr.ReadsAs.rowMember (hx : x.ReadsAs c g t X) (hX : X.isNull = false) (hc : c.Locates t)
    (hl : l.ReadsAs c g t L) (hunknown : l.isKnown = false) (hleaves : x.Leaves c t X l) :
    ∃ (f : Traversal) (u w : Traverser), (l.lower c).value = .ok f ∧ u.object = X ∧ w.object = L ∧
      (f.run c.parameters [u.mark compareLabel]).outcome g = (.ok [w], g) ∧
      ∀ negated, ∃ d, member c (x.lower c) (l.lower c) negated = .ok d ∧
        d.Decides c.parameters g t (w.finds != negated) := by
  obtain ⟨left, u, hleft, hu, rfl⟩ := hx.row
  obtain ⟨right, w, hright, hstarts, hw, rfl⟩ := hl.beside hleaves.untested
    (hleaves.undisturbed.beside (rowwise_path hleaves.rowwise hleft hu))
  refine ⟨right, u, w, hright, rfl, rfl, hw, fun negated => ?_⟩
  have hpositive := lookup_decides hu hX hstarts hw
  rw [member_of_unknown (hx.isNull hX) hunknown, rowMember, hleft, hright]
  cases negated with
  | false =>
    rw [Bool.bne_false]
    exact ⟨_, rfl, hpositive⟩
  | true =>
    obtain ⟨d, hd, hpresent⟩ := hx.nullTest hX hc
    rw [hd, Bool.bne_true, ← Bool.true_and (!w.finds)]
    exact ⟨_, rfl, Condition.both_decide hpresent (Condition.test_decides hpositive.not)⟩

theorem Expr.isKnown_of_folds (h : l.folds) : l.isKnown = false := by
  cases l with
  | list items =>
    rw [folds, Option.isNone_iff_eq_none] at h
    rw [isKnown, LoweringContext.operand?, h]
    · rfl
    · intro name hname
      cases hname
  | call name args distinct => rfl
  | _ => cases h

namespace Traverser

theorem finds_of_label (hX : X.isNull = false) (h : w.labelled? compareLabel = some X) :
    w.finds = (Process.parts w.object).any fun y => X.eq? y == some true := by
  refine any_congr rfl fun y => ?_
  rw [h, Option.getD_some, Comparison.holds, hX, if_neg Bool.false_ne_true, eq?_comm]

theorem finds_of_path (h : w.path = []) : w.finds = (Process.parts w.object).any isNull := by
  refine any_congr rfl fun y => ?_
  rw [labelled?, h]
  rfl

end Traverser

/-! ### Both conditions -/

/-- The condition lets the row pass exactly if `P`, and its negation exactly if `Q`. -/
def Expr.Splits (c : LoweringContext) (g : Graph) (t : Traverser) (e : Expr) (P Q : Prop)
    [Decidable P] [Decidable Q] : Prop :=
  ∃ yes no, (e.lower c).holds = .ok yes ∧ (e.lower c).fails = .ok no ∧
    yes.Decides c.parameters g t (decide P) ∧ no.Decides c.parameters g t (decide Q)

theorem Expr.splits_of_member [Decidable P] [Decidable Q] {answer : Bool → Bool}
    (h : ∀ negated, ∃ d, member c (x.lower c) (l.lower c) negated = .ok d ∧
      d.Decides c.parameters g t (answer negated))
    (hP : answer false = true ↔ P) (hQ : answer true = true ↔ Q) :
    (Expr.binary x .member l).Splits c g t P Q := by
  obtain ⟨yes, hyes, hholds⟩ := h false
  obtain ⟨no, hno, hfails⟩ := h true
  refine ⟨yes, no, hyes, hno, ?_, ?_⟩
  · rwa [Bool.eq_iff_iff.mpr (hP.trans decide_eq_true_iff.symm)] at hholds
  · rwa [Bool.eq_iff_iff.mpr (hQ.trans decide_eq_true_iff.symm)] at hfails

theorem Object.isMember_list :
    X.isMember (.list items) = true ↔ ∃ y ∈ items, X.eq? y = some true := by
  rw [isMember, any_eq_true]
  simp only [beq_iff_eq]

theorem Object.not_isMember_list :
    (!X.isMember (.list items)) = true ↔ ∀ y ∈ items, X.eq? y ≠ some true := by
  rw [Bool.not_eq_true', Bool.eq_false_iff, Ne, isMember_list]
  push Not
  rfl

theorem known_null_splits (x : Expr) (hl : l.ReadsAs c g t .null) (hknown : l.isKnown) :
    (Expr.binary x .member l).Splits c g t False False := by
  obtain ⟨v, hv, hnull⟩ := hl.known hknown
  have hlist : c.isNull l = true := by
    rw [isNull_of_known hv, ← isNull_ofValue, ← hnull]
    rfl
  have hmember (negated : Bool) : ∃ d, member c (x.lower c) (l.lower c) negated = .ok d ∧
      d.Decides c.parameters g t false := by
    rw [member, lower_expr, lower_expr, hlist, Bool.or_true, if_pos rfl]
    exact ⟨_, rfl, Condition.never_decides⟩
  exact splits_of_member hmember (iff_of_false nofun id) (iff_of_false nofun id)

theorem Expr.Splits.congr {P' Q' : Prop} [Decidable P] [Decidable Q] [Decidable P']
    [Decidable Q'] (h : e.Splits c g t P Q) (hP : P ↔ P') (hQ : Q ↔ Q') :
    e.Splits c g t P' Q' := by
  unfold Splits at h ⊢
  rwa [decide_eq_decide.mpr hP, decide_eq_decide.mpr hQ] at h

section Splits

variable (hx : x.ReadsAs c g t X) (hX : X.isNull = false) (hc : c.Locates t)

include hx hX hc

theorem known_list_splits (hl : l.ReadsAs c g t (.list items)) (hknown : l.isKnown) :
    (Expr.binary x .member l).Splits c g t (∃ y ∈ items, X.eq? y = some true)
      (∀ y ∈ items, X.eq? y ≠ some true ∧ (l.constant?.isSome → y.isNull = false)) := by
  obtain ⟨v, hv, hitems⟩ := hl.known hknown
  obtain ⟨vs, rfl, rfl⟩ : ∃ vs, v = .list vs ∧ items = ofItems vs := by
    cases v with
    | list vs => exact ⟨vs, rfl, Object.list.inj hitems⟩
    | _ => cases hitems
  rcases known_cases hv with ⟨name, rfl, hfind⟩ | hconstant
  · refine splits_of_member (hx.parameterMember hX hc hfind rfl) ?_ ?_
    · rw [Bool.bne_false]
      exact isMember_list
    · rw [Bool.bne_true]
      refine not_isMember_list.trans (forall₂_congr fun y _ => ?_)
      exact ⟨fun hy => ⟨hy, nofun⟩, And.left⟩
  · refine splits_of_member (hx.constantMember hX hc hconstant) ?_ ?_
    · rw [Bool.bne_false, Bool.false_and, Bool.not_false, Bool.and_true]
      exact isMember_list
    · have hnulls : (!vs.any Value.isNull) = true ↔ ∀ y ∈ ofItems vs, y.isNull = false := by
        rw [ofItems_eq_map]
        simp
      rw [Bool.bne_true, Bool.true_and, Bool.and_eq_true, hnulls, Object.ofValue,
        not_isMember_list, hconstant]
      simp only [Option.isSome_some, forall_const, forall_and]

variable (hl : l.ReadsAs c g t L) (hleaves : x.Leaves c t X l)

include hl hleaves

theorem row_splits (hunknown : l.isKnown = false) (hrow : l.rowwise) :
    (Expr.binary x .member l).Splits c g t (∃ y ∈ Process.parts L, X.eq? y = some true)
      (∀ y ∈ Process.parts L, X.eq? y ≠ some true) := by
  obtain ⟨f, u, w, hf, rfl, rfl, hw, hmember⟩ := hx.rowMember hX hc hl hunknown hleaves
  have hlabel : w.labelled? compareLabel = some u.object := by
    rw [labelled?, rowwise_path hrow hf hw]
    exact lookup_cons_self
  refine splits_of_member hmember ?_ ?_
  · rw [Bool.bne_false, finds_of_label hX hlabel]
    exact isMember_list
  · rw [Bool.bne_true, finds_of_label hX hlabel]
    exact not_isMember_list

theorem folded_splits (hfolds : l.folds) :
    (Expr.binary x .member l).Splits c g t (∃ y ∈ Process.parts L, y.isNull = true)
      (∀ y ∈ Process.parts L, y.isNull = false) := by
  obtain ⟨f, u, w, hf, rfl, rfl, hw, hmember⟩ :=
    hx.rowMember hX hc hl (isKnown_of_folds hfolds) hleaves
  obtain ⟨k, rfl⟩ := value_of_folds hfolds hf
  obtain ⟨items, hrow⟩ := rows_of_fold hw
  have hfinds := finds_of_path (congrArg path (singleton_inj.mp hrow))
  refine splits_of_member hmember ?_ ?_
  · rw [Bool.bne_false, hfinds]
    exact any_eq_true
  · rw [Bool.bne_true, hfinds]
    simp

end Splits

/-- **Membership of lists.** Let a row be at the object of the current variable, if there is one,
and let the item not be null there. `x IN l` lets the row pass if some item of the list is equal,
for a list that is known beforehand and for one of the row that stays on its path. `NOT x IN l` lets
it pass if no item is equal: unknown counts as different, but for nulls in a list that is written
down. In place of a list, null lets neither pass if it is known beforehand, and the negation if it
is of the row. A list that is made from the row, or of the labels of an element, loses the item, and
nulls are looked for instead. -/
theorem membership_splits_rows {c : LoweringContext} {g : Graph} {t : Traverser} {x l : Expr}
    {X L : Object} (hx : x.ReadsAs c g t X) (hl : l.ReadsAs c g t L) (hX : X.isNull = false)
    (hc : c.Locates t) :
    let e : Expr := .binary x .member l
    (l.isKnown →
      (∀ items, L = .list items → e.Splits c g t (∃ y ∈ items, X.eq? y = some true)
        (∀ y ∈ items, X.eq? y ≠ some true ∧ (l.constant?.isSome → y.isNull = false))) ∧
      (L = .null → e.Splits c g t False False)) ∧
    (x.Leaves c t X l →
      (l.isKnown = false → l.rowwise →
        (∀ items, L = .list items → e.Splits c g t (∃ y ∈ items, X.eq? y = some true)
          (∀ y ∈ items, X.eq? y ≠ some true)) ∧
        (L = .null → e.Splits c g t False True)) ∧
      (l.folds → ∀ items, L = .list items →
        e.Splits c g t (∃ y ∈ items, y.isNull = true) (∀ y ∈ items, y.isNull = false))) := by
  refine ⟨fun hknown => ⟨?_, ?_⟩, fun hleaves => ⟨fun hunknown hrow => ⟨?_, ?_⟩, ?_⟩⟩
  · rintro items rfl
    exact known_list_splits hx hX hc hl hknown
  · rintro rfl
    exact known_null_splits x hl hknown
  · rintro items rfl
    exact row_splits hx hX hc hl hleaves hunknown hrow
  · rintro rfl
    refine (row_splits hx hX hc hl hleaves hunknown hrow).congr ?_ ?_
    · exact iff_false_intro fun ⟨_, hy, _⟩ => List.not_mem_nil hy
    · exact iff_true_intro (List.forall_mem_nil _)
  · rintro hfolds items rfl
    exact folded_splits hx hX hc hl hleaves hfolds

/-- marko is 29. That is one of the ages on the row, though another is null; it passes for none of
the ages of a parameter, and is unknown to be none of the same ages if they are written down. -/
theorem age_is_a_member :
    let c : LoweringContext :=
      { scope := { bindings := [⟨"n", .node⟩, ⟨"ages", .value⟩] },
        parameters := [("p", .list [.int 30, .null])], current := some "n", clause := "WITH" }
    let ages : Object := .list [.int 29, .null]
    let t : Traverser := { object := .vertex ⟨1⟩, path := [("n", .vertex ⟨1⟩), ("ages", ages)] }
    let age : Expr := .access (.var "n") "age"
    let written : Expr := .list [.literal (.int 30), .literal .null]
    age.ReadsAs c .modern t (.int 29) ∧ (Expr.var "ages").ReadsAs c .modern t ages ∧
      age.Leaves c t (.int 29) (.var "ages") ∧
      ∃ yes no unknown, ((Expr.binary age .member (.var "ages")).lower c).holds = .ok yes ∧
        ((Expr.binary age .member (.param "p")).lower c).fails = .ok no ∧
        ((Expr.binary age .member written).lower c).fails = .ok unknown ∧
        (yes.filter.run c.parameters [t]).outcome .modern = (.ok [t], .modern) ∧
        (no.filter.run c.parameters [t]).outcome .modern = (.ok [t], .modern) ∧
        (unknown.filter.run c.parameters [t]).outcome .modern = (.ok [], .modern) := by
  intro c ages t age written
  have hage : age.ReadsAs c .modern t (.int 29) := ⟨_, rfl, rfl⟩
  have hages : (Expr.var "ages").ReadsAs c .modern t ages := ⟨_, rfl, rfl⟩
  have hleaves : age.Leaves c t (.int 29) (.var "ages") :=
    ⟨rfl, rfl, rfl, List.forall_mem_singleton.mpr ⟨by decide, rfl⟩⟩
  have hc (y : String) (hy : c.current = some y) : t.place.selected y = some t.object := by
    cases hy
    rfl
  have hparam : (Expr.param "p").ReadsAs c .modern t (.list [.int 30, .null]) := ⟨_, rfl, rfl⟩
  have hwritten : written.ReadsAs c .modern t (.list [.int 30, .null]) := ⟨_, rfl, rfl⟩
  obtain ⟨yes, -, hyes, -, hpasses, -⟩ :=
    ((membership_splits_rows hage hages rfl hc).2 hleaves).1 rfl rfl |>.1 _ rfl
  obtain ⟨-, no, -, hno, -, hnone⟩ :=
    ((membership_splits_rows hage hparam rfl hc).1 rfl).1 _ rfl
  obtain ⟨-, unknown, -, hunknown, -, hdropped⟩ :=
    ((membership_splits_rows hage hwritten rfl hc).1 rfl).1 _ rfl
  exact ⟨hage, hages, hleaves, yes, no, unknown, hyes, hno, hunknown, hpasses.one, hnone.one,
    hdropped.one⟩

/-- The age of marko is not found in the list of that age alone. That it is none of the ages of a
parameter is taken for known though one of them is null, and so it is where there is no list. -/
theorem own_age_is_no_member :
    let c : LoweringContext :=
      { scope := { bindings := [⟨"n", .node⟩, ⟨"ages", .value⟩] },
        parameters := [("p", .list [.int 30, .null])], current := some "n", clause := "WITH" }
    let t : Traverser := { object := .vertex ⟨1⟩, path := [("n", .vertex ⟨1⟩), ("ages", .null)] }
    let age : Expr := .access (.var "n") "age"
    age.ReadsAs c .modern t (.int 29) ∧ (Expr.list [age]).ReadsAs c .modern t (.list [.int 29]) ∧
      (Object.int 29).eq? (.int 29) = some true ∧
      ∃ own other missing, ((Expr.binary age .member (.list [age])).lower c).holds = .ok own ∧
        (own.filter.run c.parameters [t]).outcome .modern = (.ok [], .modern) ∧
        (Object.int 29).eq? .null = none ∧
        ((Expr.binary age .member (.param "p")).lower c).fails = .ok other ∧
        (other.filter.run c.parameters [t]).outcome .modern = (.ok [t], .modern) ∧
        (Expr.var "ages").ReadsAs c .modern t .null ∧
        ((Expr.binary age .member (.var "ages")).lower c).fails = .ok missing ∧
        (missing.filter.run c.parameters [t]).outcome .modern = (.ok [t], .modern) :=
  ⟨⟨_, rfl, rfl⟩, ⟨_, rfl, rfl⟩, rfl, _, _, _, rfl, rfl, rfl, rfl, rfl, ⟨_, rfl, rfl⟩, rfl, rfl⟩

end CypherTraversal
