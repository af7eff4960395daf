import CypherTraversal.Proofs.Bindings.Paths
import CypherTraversal.Proofs.Conditions.Values
import CypherTraversal.Proofs.Value.Sameness

/-! # Comparisons of two sides of a row

The right side is read first and the left side where that leads, so what a comparison answers
depends on how much of the row the right side has left. -/

namespace CypherTraversal

open Run Traverser List CypherTraversal.Expr Lowered Traversal

variable {ws : List Traverser} {x : String} {c : LoweringContext} {ps : Parameters} {g : Graph}
  {t u w : Traverser} {l r e : Expr} {L R : Object} {f : Traversal} {cmp : Comparison}

/-! ### Answers of comparisons -/

namespace Comparison

/-- The three-valued answer of a comparison; unknown is none. -/
def answer? (c : Comparison) (a b : Object) : Option Bool :=
  match c with
  | eq => a.eq? b
  | ne => (a.eq? b).map not
  | c => (a.compare? b).map c.accepts

theorem holds_eq_answer (c : Comparison) (a : Object) {b : Object} (hb : b.isNull = false) :
    c.holds a b = (c.answer? a b == some true) := by
  cases c
  case eq =>
    rw [holds, hb, if_neg Bool.false_ne_true]
    rfl
  case ne =>
    rw [holds, hb, if_neg Bool.false_ne_true, answer?]
    rcases a.eq? b with _ | _ | _ <;> rfl
  all_goals
    rw [holds]
    change _ = ((a.compare? b).map _ == some true)
    rcases a.compare? b with _ | _ | _ | _ <;> rfl

theorem holds_null (c : Comparison) {a : Object} (ha : a.isNull = false) :
    c.holds a .null = decide (c = ne) := by
  have hcompare : a.compare? .null = none := by
    rcases a with (_ | _ | _ | _ | _) | _ | _ | _ | _ | _ | _ <;> rfl
  cases c
  case eq => exact ha
  case ne => exact congrArg not ha
  all_goals
    rw [holds, hcompare]
    rfl

end Comparison

/-! ### The left side at the right one -/

def Traverser.compares (cmp : Comparison) (w : Traverser) : Bool :=
  !w.object.isNull && cmp.holds w.object ((w.labelled? compareLabel).getD .null)

namespace Traverser

theorem compares_of_label (h : w.labelled? compareLabel = some R) (hR : R.isNull = false) :
    w.compares cmp = decide (w.object.isNull = false ∧ cmp.answer? w.object R = some true) := by
  rw [compares, h, Option.getD_some, cmp.holds_eq_answer w.object hR, Bool.eq_iff_iff]
  simp

theorem compares_of_path (h : w.path = []) :
    w.compares cmp = decide (w.object.isNull = false ∧ cmp = .ne) := by
  rw [compares, labelled?, h]
  cases hw : w.object.isNull with
  | true => rfl
  | false =>
    refine (cmp.holds_null hw).trans ?_
    simp

end Traverser

theorem againstRow_decides {left right : Traversal}
    (hright : (right.run ps [t]).outcome g = (.ok [u], g)) (hstarts : left.Starts ps)
    (hleft : (left.run ps (if u.object.isNull then [] else [u.mark compareLabel])).outcome g =
      (.ok ws, g)) :
    Traversal.Decides ps g t
      [.filter (right ++ [.is notNullPredicate, .mark compareLabel] ++ left ++
        [.is notNullPredicate, .wherePredicate (.compare cmp (.label compareLabel))])]
      (ws.any (compares cmp)) := by
  have hnotNull : Passes ps g [.is notNullPredicate] (fun w => !w.object.isNull)
      fun w => w := .keep rfl fun _ => rfl
  have hcompares : Passes ps g [.wherePredicate (.compare cmp (.label compareLabel))]
      (fun w => cmp.holds w.object ((w.labelled? compareLabel).getD .null)) fun w => w :=
    .keep rfl fun _ => rfl
  exact .filterAny ((outcome_append hstarts (labelled_outcome hright)).trans hleft)
    (hnotNull.append hcompares)

theorem Lowered.comparison_of_unknown (hl : l.isKnown = false) (hr : r.isKnown = false) :
    comparison c (l.lower c) cmp (r.lower c) =
      Condition.test <$> againstRow (l.lower c) (r.lower c) (.compare cmp) := by
  have hoperand {e : Expr} (he : e.isKnown = false) : LoweringContext.operand? e = none :=
    Option.not_isSome_iff_eq_none.mp (Bool.eq_false_iff.mp he)
  obtain ⟨hconstant, -, hnull⟩ := of_unknown (c := c) hl
  obtain ⟨-, -, hnull'⟩ := of_unknown (c := c) hr
  rw [comparison, lower_expr, lower_expr, hnull, hnull', Bool.or_false,
    if_neg Bool.false_ne_true, hconstant, hoperand hl, hoperand hr]

/-- As a condition, the expression lets the row pass exactly if `P`. -/
def Expr.PassesIf (c : LoweringContext) (g : Graph) (t : Traverser) (e : Expr) (P : Prop)
    [Decidable P] : Prop :=
  ∃ d, (e.lower c).holds = .ok d ∧ d.Decides c.parameters g t (decide P)

theorem Expr.PassesIf.congr {P Q : Prop} [Decidable P] [Decidable Q] (h : e.PassesIf c g t P)
    (hPQ : P ↔ Q) : e.PassesIf c g t Q := by
  unfold PassesIf at h ⊢
  rwa [decide_eq_decide.mpr hPQ] at h

theorem comparison_passes {right : Traversal} (hl : l.isKnown = false)
    (hr : r.isKnown = false) (hf : (l.lower c).value = .ok f)
    (hright : (r.lower c).value = .ok right)
    (hu : (right.run c.parameters [t]).outcome g = (.ok [u], g))
    (hws : (f.run c.parameters (if u.object.isNull then [] else [u.mark compareLabel])).outcome g =
      (.ok ws, g)) (cmp : Comparison) :
    (Expr.binary l (.compare cmp) r).PassesIf c g t (ws.any (compares cmp)) := by
  have hholds : ((Expr.binary l (.compare cmp) r).lower c).holds = .ok (.test [.filter (right ++
      [.is notNullPredicate, .mark compareLabel] ++ f ++
        [.is notNullPredicate, .wherePredicate (.compare cmp (.label compareLabel))])]) := by
    change comparison c (l.lower c) cmp (r.lower c) = _
    rw [comparison_of_unknown hl hr, againstRow, hf, hright]
    rfl
  refine ⟨_, hholds, ?_⟩
  rw [Bool.decide_eq_true]
  exact againstRow_decides hu (value_starts hf) hws

/-! ### Sides that read the same -/

theorem Expr.Undisturbed.of_isMap (htests : l.tests c.current = false)
    (hnames : compareLabel ∉ l.names) (hR : R.isMap = false) (ht : t.object.isMap = false) :
    l.Undisturbed c t R := by
  refine ⟨htests, fun n hn => ⟨fun h => hnames (h ▸ hn), ?_⟩⟩
  rw [Place.selected_of_isMap (p := (R, t.path)) hR, Place.selected_of_isMap (p := t.place) ht]
  rfl

theorem Expr.Undisturbed.reads (h : l.Undisturbed c t u.object) (hpath : u.path = t.path)
    (hL : l.ReadsAs c g t L) : l.ReadsAs c g (u.mark compareLabel) L := by
  obtain ⟨f, w, hf, -, hw, rfl⟩ := hL.beside h.untested (h.beside hpath)
  refine ⟨f, hf, ?_⟩
  rw [objects, hw]
  rfl

/-! ### Sides that read nothing -/

/-- The variable that a chain of properties starts from. -/
def Expr.root? : Expr → Option String
  | var name => some name
  | access base _ => root? base
  | _ => none

theorem Expr.keepsPath_of_root : ∀ e : Expr, e.root? = some x → e.keepsPath
  | var _, _ => rfl
  | access base _, h => keepsPath_of_root base h

theorem Lowered.access_eq_ok {base : Lowered} {key : String}
    (hf : Lowered.access c base key = .ok f) :
    ∃ k lookup, base.value = .ok k ∧ f = k ++ [.coalesce lookup] := by
  obtain ⟨kind, -, hf⟩ := bind_eq_ok.mp hf
  cases kind with
  | node | relationship | map | value =>
    obtain ⟨lookup, -, hf⟩ := bind_eq_ok.mp hf
    obtain ⟨k, hk, hf⟩ := bind_eq_ok.mp hf
    cases hf
    exact ⟨k, lookup, hk, rfl⟩
  | scalar | list | aggregate => cases hf

theorem Expr.root_outcome (hx : t.place.selected x = none) : ∀ (e : Expr)
    (f : Traversal), e.root? = some x → (e.lower c).value = .ok f →
      (f.run ps [t]).outcome g = (.ok [], g)
  | var _, f, hroot, hf => by
    cases hroot
    rw [lower, ofVariable, ofValue] at hf
    split at hf
    · cases hf
      exact select_nothing hx g
    · cases hf
  | access base key, f, hroot, hf => by
    obtain ⟨k, lookup, hk, rfl⟩ := access_eq_ok hf
    have hlookup : Starts ps [.coalesce lookup] := rfl
    exact outcome_append hlookup (root_outcome hx base k hroot hk)

/-! ### Sides that are collected -/

/-- The value is a list that is collected from a row that stays on its path. -/
def Expr.collects : Expr → Bool
  | list items => (constant? (list items)).isNone
  | call name args _ => ScalarFunction.ofName? name == some .labels && keepsPathAll args
  | _ => false

theorem Expr.folds_of_collects (h : e.collects) : e.folds := by
  cases e with
  | list items => exact h
  | call name args distinct => exact (Bool.and_eq_true_iff.mp h).1
  | _ => cases h

theorem Expr.collects_nothing (h : e.collects) (hf : (e.lower c).value = .ok f) :
    ∃ ws, (f.run ps []).outcome g = (.ok ws, g) := by
  cases e with
  | list items =>
    rw [collects, Option.isNone_iff_eq_none] at h
    change orConstant (list items) _ = _ at hf
    rw [orConstant, h] at hf
    obtain ⟨fs, -, hf⟩ := bind_eq_ok.mp hf
    cases hf
    exact ⟨_, rfl⟩
  | call name args distinct =>
    obtain ⟨hname, hargs⟩ := Bool.and_eq_true_iff.mp h
    rw [lower, ofCall, beq_iff_eq.mp hname] at hf
    obtain ⟨a, ha, hf⟩ := bind_eq_ok.mp hf
    obtain ⟨k, hk, hf⟩ := bind_eq_ok.mp hf
    cases hf
    cases args with
    | nil => cases ha
    | cons e args =>
      cases ha
      have hidle : k.Idle ps := value_idle (Bool.and_eq_true_iff.mp hargs).1 hk
      have hlabels : Starts ps [.label, .fold] := rfl
      exact ⟨_, outcome_append hlabels (hidle.idle g)⟩
  | _ => cases h

/-! ### Comparisons by where their sides are read -/

section Comparisons

variable (hl : l.isKnown = false) (hr : r.isKnown = false) {right : Traversal}
  (hright : (r.lower c).value = .ok right)
  (hu : (right.run c.parameters [t]).outcome g = (.ok [u], g))

include hl hr hright hu

theorem comparison_at (hL : l.ReadsAs c g (u.mark compareLabel) L) (hnull : u.object.isNull = false)
    (cmp : Comparison) :
    let e : Expr := .binary l (.compare cmp) r
    let kept := L.isNull = false ∧ cmp.answer? L u.object = some true
    let lost := L.isNull = false ∧ cmp = .ne
    (l.keepsPath → e.PassesIf c g t kept) ∧ (l.losesPath → e.PassesIf c g t lost) ∧
      (e.PassesIf c g t kept ∨ e.PassesIf c g t lost) := by
  intro e kept lost
  obtain ⟨f, w, hf, hw, rfl⟩ := hL.row
  have hpasses : e.PassesIf c g t ([w].any (compares cmp)) := by
    refine comparison_passes hl hr hf hright hu ?_ cmp
    rw [hnull]
    exact hw
  rw [any_cons, any_nil, Bool.or_false] at hpasses
  have hkept (hpath : w.path = (u.mark compareLabel).path) : e.PassesIf c g t kept := by
    have hlabel : w.labelled? compareLabel = some u.object := by
      rw [labelled?, hpath]
      exact lookup_cons_self
    refine hpasses.congr ?_
    rw [compares_of_label hlabel hnull, decide_eq_true_iff]
  have hlost (hpath : w.path = []) : e.PassesIf c g t lost := by
    refine hpasses.congr ?_
    rw [compares_of_path hpath, decide_eq_true_iff]
  refine ⟨fun hkeeps => hkept ?_, fun hloses => ?_, ?_⟩
  · exact path_of_value (P := (· = (u.mark compareLabel).path)) rfl (.inr hkeeps) hf hw w
      mem_cons_self
  · obtain hobject | ⟨hpath, -⟩ := lost_of_value hloses hf hw w mem_cons_self
    · -- null passes in no comparison
      refine hpasses.congr ?_
      simp [lost, compares, hobject, Object.isNull, Scalar.isNull]
    · exact hlost hpath
  · have hpath := path_of_value (P := fun p => p = (u.mark compareLabel).path ∨ p = [])
      (.inl rfl) (.inl (.inr rfl)) hf hw w mem_cons_self
    exact hpath.imp hkept hlost

variable (hf : (l.lower c).value = .ok f)

include hf

theorem comparison_null (hkeeps : l.keepsPath) (hnull : u.object.isNull = true)
    (cmp : Comparison) : (Expr.binary l (.compare cmp) r).PassesIf c g t False := by
  have hws : (f.run c.parameters (if u.object.isNull then [] else [u.mark compareLabel])).outcome
      g = (.ok [], g) := by
    rw [hnull]
    exact (value_idle hkeeps hf).idle g
  exact (comparison_passes hl hr hf hright hu hws cmp).congr (iff_of_false nofun id)

theorem comparison_collected (hcollects : l.collects)
    (hreads : u.object.isNull = false → l.ReadsAs c g (u.mark compareLabel) L) (cmp : Comparison) :
    (Expr.binary l (.compare cmp) r).PassesIf c g t (cmp = .ne) := by
  obtain ⟨ws, hws⟩ : ∃ ws, (f.run c.parameters
      (if u.object.isNull then [] else [u.mark compareLabel])).outcome g = (.ok ws, g) := by
    cases hnull : u.object.isNull with
    | true => exact collects_nothing hcollects hf
    | false =>
      obtain ⟨f', w, hf', hw, -⟩ := (hreads hnull).row
      cases hf.symm.trans hf'
      exact ⟨[w], hw⟩
  have hpasses := comparison_passes hl hr hf hright hu hws cmp
  obtain ⟨k, rfl⟩ := value_of_folds (folds_of_collects hcollects) hf
  obtain ⟨items, rfl⟩ := rows_of_fold hws
  refine hpasses.congr ?_
  rw [any_cons, any_nil, Bool.or_false, compares_of_path rfl, decide_eq_true_iff]
  exact and_iff_right rfl

theorem comparison_root (hloses : r.losesPath) (hroot : l.root? = some x)
    (hx : x ≠ compareLabel) (cmp : Comparison) :
    (Expr.binary l (.compare cmp) r).PassesIf c g t False := by
  cases hnull : u.object.isNull with
  | true => exact comparison_null hl hr hright hu hf (l.keepsPath_of_root hroot) hnull cmp
  | false =>
    obtain hobject | ⟨hpath, items, hobject⟩ :=
      lost_of_value hloses hright hu u mem_cons_self
    · rw [hobject] at hnull
      cases hnull
    · have hselected : (u.mark compareLabel).place.selected x = none := by
        rw [Place.selected_of_isMap (p := (u.mark compareLabel).place)]
        · change List.lookup x ((compareLabel, u.object) :: u.path) = none
          rw [lookup_cons, beq_false_of_ne hx, hpath]
          rfl
        · exact congrArg Object.isMap hobject
      have hws : (f.run c.parameters
          (if u.object.isNull then [] else [u.mark compareLabel])).outcome g = (.ok [], g) := by
        rw [hnull]
        exact l.root_outcome hselected f hroot hf
      exact (comparison_passes hl hr hf hright hu hws cmp).congr (iff_of_false nofun id)

end Comparisons

/-- **Comparisons of two values of the row.** Let neither side be known beforehand, and let the
sides lead to `L` and `R`. If both stay on the path of the row and the left one reads the same at
`R`, the row passes where `L` and `R` are not null and compare so. A left side that is collected is
different from everything, even from null, and compares in no other way. From a right side that is
collected, nothing of a variable is found. In every case the left side counts as it is read at the
right one, and it is compared with `R` or, if the label is lost, with null. -/
theorem comparison_reads_left_at_right {c : LoweringContext} {g : Graph} {t : Traverser}
    {l r : Expr} {L R : Object} (hL : l.ReadsAs c g t L) (hR : r.ReadsAs c g t R)
    (hl : l.isKnown = false) (hr : r.isKnown = false) (cmp : Comparison) :
    let e : Expr := .binary l (.compare cmp) r
    (r.keepsPath → l.Undisturbed c t R →
      (l.keepsPath → e.PassesIf c g t
        (L.isNull = false ∧ R.isNull = false ∧ cmp.answer? L R = some true)) ∧
      (l.collects → e.PassesIf c g t (cmp = .ne))) ∧
    (r.losesPath → ∀ x, l.root? = some x → x ≠ compareLabel → e.PassesIf c g t False) ∧
    ∃ u : Traverser, u.object = R ∧ (u.path = t.path ∨ u.path = []) ∧
      (r.keepsPath → u.path = t.path) ∧ (r.losesPath → u.Lost) ∧
      (R.isNull → (l.keepsPath → e.PassesIf c g t False) ∧
        (l.collects → e.PassesIf c g t (cmp = .ne))) ∧
      (R.isNull = false → ∀ L', l.ReadsAs c g (u.mark compareLabel) L' →
        let kept := L'.isNull = false ∧ cmp.answer? L' R = some true
        let lost := L'.isNull = false ∧ cmp = .ne
        (l.keepsPath → e.PassesIf c g t kept) ∧ (l.losesPath → e.PassesIf c g t lost) ∧
          (e.PassesIf c g t kept ∨ e.PassesIf c g t lost)) := by
  intro e
  obtain ⟨f, hf, -⟩ := id hL
  obtain ⟨right, u, hright, hu, rfl⟩ := hR.row
  have hpath (hkeeps : r.keepsPath) : u.path = t.path :=
    path_of_value (P := (· = t.path)) rfl (.inr hkeeps) hright hu u List.mem_cons_self
  have hcollected := comparison_collected (L := L) hl hr hright hu hf
  have hnull (hR : u.object.isNull) : (l.keepsPath → e.PassesIf c g t False) ∧
      (l.collects → e.PassesIf c g t (cmp = .ne)) := by
    refine ⟨fun hkeeps => comparison_null hl hr hright hu hf hkeeps hR cmp, fun hcollects => ?_⟩
    refine hcollected hcollects (fun hnull => ?_) cmp
    rw [hR] at hnull
    cases hnull
  refine ⟨fun hkeeps hundisturbed => ?_, fun hloses x hroot hx => ?_, u, rfl, ?_, hpath, ?_, hnull,
    ?_⟩
  · have hreads := hundisturbed.reads (hpath hkeeps) hL
    refine ⟨fun hstays => ?_, fun hcollects => hcollected hcollects (fun _ => hreads) cmp⟩
    cases hR : u.object.isNull with
    | true => exact ((hnull hR).1 hstays).congr (iff_of_false id nofun)
    | false =>
      refine ((comparison_at hl hr hright hu hreads hR cmp).1 hstays).congr ?_
      rw [eq_self, true_and]
  · exact comparison_root hl hr hright hu hf hloses hroot hx cmp
  · exact path_of_value (P := fun p => p = t.path ∨ p = []) (.inl rfl) (.inl (.inr rfl)) hright
      hu u List.mem_cons_self
  · exact fun hloses => lost_of_value hloses hright hu u List.mem_cons_self
  · exact fun hR L' hL' => comparison_at hl hr hright hu hL' hR cmp

/-- marko comes behind josh. A list that is made from the row is different from what is missing, and
a name is not among the labels that it is compared with. -/
theorem names_are_in_order :
    let c : LoweringContext :=
      { scope := { bindings := [⟨"m", .node⟩, ⟨"n", .node⟩] }, parameters := [],
        current := some "m", clause := "WHERE" }
    let t : Traverser :=
      { object := .vertex ⟨4⟩, path := [("m", .vertex ⟨4⟩), ("n", .vertex ⟨1⟩)] }
    let name : Expr :=
      .call "coalesce" [.access (.var "n") "nick", .access (.var "n") "name"] false
    let ages : Expr := .list [.access (.var "n") "age"]
    let labels : Expr := .call "labels" [.var "m"] false
    ∃ behind other nothing, ((Expr.binary name (.compare .gt)
          (.access (.var "m") "name")).lower c).holds = .ok behind ∧
      ((Expr.binary ages (.compare .ne) (.access (.var "m") "nick")).lower c).holds = .ok other ∧
      ((Expr.binary (.access (.var "n") "name") (.compare .ne) labels).lower c).holds =
        .ok nothing ∧
      (behind.filter.run [] [t]).outcome .modern = (.ok [t], .modern) ∧
      (other.filter.run [] [t]).outcome .modern = (.ok [t], .modern) ∧
      (nothing.filter.run [] [t]).outcome .modern = (.ok [], .modern) := by
  intro c t name ages labels
  have hname : name.ReadsAs c .modern t (.str "marko") := ⟨_, rfl, rfl⟩
  have hjosh : (Expr.access (.var "m") "name").ReadsAs c .modern t (.str "josh") := ⟨_, rfl, rfl⟩
  have hages : ages.ReadsAs c .modern t (.list [.int 29]) := ⟨_, rfl, rfl⟩
  have hnick : (Expr.access (.var "m") "nick").ReadsAs c .modern t .null := ⟨_, rfl, rfl⟩
  have hmarko : (Expr.access (.var "n") "name").ReadsAs c .modern t (.str "marko") := ⟨_, rfl, rfl⟩
  have hlabels : labels.ReadsAs c .modern t (.list [.str "person"]) := ⟨_, rfl, rfl⟩
  obtain ⟨behind, hbehind, hpasses⟩ := ((comparison_reads_left_at_right hname hjosh rfl rfl .gt).1
    rfl (.of_isMap rfl (by decide) rfl rfl)).1 rfl
  obtain ⟨other, hother, hdiffers⟩ := ((comparison_reads_left_at_right hages hnick rfl rfl .ne).1
    rfl (.of_isMap rfl (by decide) rfl rfl)).2 rfl
  obtain ⟨nothing, hnothing, hdropped⟩ :=
    (comparison_reads_left_at_right hmarko hlabels rfl rfl .ne).2.1 rfl "n" rfl (by decide)
  exact ⟨behind, other, nothing, hbehind, hother, hnothing, hpasses.one, hdiffers.one, hdropped.one⟩

/-- A list of an age differs from the list of that age, and from what is missing. A number does not
differ from a map that has an entry under its name. -/
theorem same_ages_differ :
    let c : LoweringContext :=
      { scope := { bindings := [⟨"n", .node⟩, ⟨"a", .value⟩, ⟨"m", .value⟩] }, parameters := [],
        current := none, clause := "WHERE" }
    let m : Object := .map [("a", .null)]
    let t : Traverser :=
      { object := .vertex ⟨1⟩, path := [("n", .vertex ⟨1⟩), ("a", .int 1), ("m", m)] }
    let ages : Expr := .list [.access (.var "n") "age"]
    let missing : Expr := .access (.var "n") "missing"
    ages.ReadsAs c .modern t (.list [.int 29]) ∧ missing.ReadsAs c .modern t .null ∧
      (Expr.var "a").ReadsAs c .modern t (.int 1) ∧ (Expr.var "m").ReadsAs c .modern t m ∧
      ∃ same other shadowed, ((Expr.binary ages (.compare .ne) ages).lower c).holds = .ok same ∧
        Comparison.ne.answer? (.list [.int 29]) (.list [.int 29]) = some false ∧
        (same.filter.run [] [t]).outcome .modern = (.ok [t], .modern) ∧
        ((Expr.binary ages (.compare .ne) missing).lower c).holds = .ok other ∧
        (other.filter.run [] [t]).outcome .modern = (.ok [t], .modern) ∧
        ((Expr.binary (.var "a") (.compare .ne) (.var "m")).lower c).holds = .ok shadowed ∧
        Comparison.ne.answer? (.int 1) m = some true ∧
        (shadowed.filter.run [] [t]).outcome .modern = (.ok [], .modern) :=
  ⟨⟨_, rfl, rfl⟩, ⟨_, rfl, rfl⟩, ⟨_, rfl, rfl⟩, ⟨_, rfl, rfl⟩, _, _, _, rfl, rfl, rfl, rfl, rfl,
    rfl, rfl, rfl⟩

end CypherTraversal
