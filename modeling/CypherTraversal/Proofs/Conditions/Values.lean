import CypherTraversal.Proofs.Conditions.Kleene
import CypherTraversal.Proofs.Expressions.Matched

/-! # Tests of values

On a row where the value of an expression leads to one object (`Expr.ReadsAs`), tests of the
expression are tests of that object, in whichever way the lowering makes them: at the element whose
property the expression is, before the query runs, or where the value leads. -/

namespace CypherTraversal

open Run Traverser List LoweringContext Traversal

variable {r : Except Error (List Traverser)} {o : Operand} {key name : String}
  {S : Traverser → Traverser → Prop} {c : LoweringContext} {ps : Parameters} {g : Graph}
  {t u : Traverser} {x e : Expr} {X : Object} {v : Value} {f : Traversal} {b : Bool}

/-! ### Tests at the current object -/

/-- The objects that a traversal leads to from a row. -/
def Traversal.objects (ps : Parameters) (f : Traversal) (t : Traverser) (g : Graph) :
    Except Error (List Object) :=
  ((f.run ps [t]).outcome g).1.map (List.map Traverser.object)

theorem Traverser.Beside.self {x : String} (hlabel : t.labelled? x = some t.object)
    (hmap : t.object.isMap = false) : t.Beside (some x) (fun _ => true) t := by
  refine ⟨fun _ _ => rfl, fun _ _ => rfl, fun y hy => ?_⟩
  cases hy
  rw [Place.selected_of_isMap (p := t.place) hmap]
  exact hlabel

theorem Traversal.Matches.objects {ok : String → Bool}
    {k : Traversal} (h : f.Matches ps S (Like ok) k) (ht : S t t) (g : Graph) :
    f.objects ps t g = k.objects ps t g := by
  have hrows := (h.rows.agree ht g).1
  unfold Traversal.objects
  generalize ((f.run ps [t]).outcome g).1 = a at hrows
  generalize ((k.run ps [t]).outcome g).1 = b at hrows
  cases hrows with
  | error e => rfl
  | ok hus =>
    exact congrArg Except.ok (map_eq_of_forall₂ hus fun _ _ huv => huv.object)

theorem Traversal.Filters.copies (hf : f.Filters fun _ => true) {g g' : Graph}
    {us : List Traverser} (h : (f.run ps [t]).outcome g = (.ok us, g')) :
    us = List.replicate us.length t := by
  obtain rfl | rfl := sublist_singleton.mp ((Filters.rows hf.isFilter).2 h) <;> rfl

theorem Condition.Matches.outcome_eq {d d' : Condition} (h : d.Matches ps S d')
    (hd : d.Filters fun _ => true) (hd' : d'.Filters fun _ => true) (ht : S t t) (g : Graph) :
    (d.filter.run ps [t]).outcome g = (d'.filter.run ps [t]).outcome g := by
  have hends := h.filter.rows.agree ht g
  rcases hf : (d.filter.run ps [t]).outcome g with ⟨a, g₁⟩
  rcases hk : (d'.filter.run ps [t]).outcome g with ⟨b, g₂⟩
  rw [hf, hk] at hends
  obtain ⟨hrows, rfl⟩ : Agree (Forall₂ S) a b ∧ g₁ = g₂ := hends
  cases hrows with
  | error e => rfl
  | @ok us vs hus =>
    have heq : us = vs := calc
      us = List.replicate us.length t := hd.copies hf
      _ = List.replicate vs.length t := by rw [hus.length_eq]
      _ = vs := (hd'.copies hk).symm
    rw [heq]

/-- **Tests at the current object agree with the general way.** On a row that is at the object of
its variable, an expression with no test of that variable in what it reads elsewhere is lowered
alike with the variable and without: with the same error, or to values that lead to the same
objects, to conditions that let the row pass alike, and to negations that do. -/
theorem direct_tests_agree (c : LoweringContext) {x : String} {e : Expr}
    (he : e.sheltered (some x)) {t : Traverser} (hlabel : t.labelled? x = some t.object)
    (hmap : t.object.isMap = false) (ps : Parameters) :
    let direct := e.lower { c with current := some x }
    let general := e.lower { c with current := none }
    Agree (fun f k => ∀ g, Traversal.objects ps f t g = Traversal.objects ps k t g) direct.value
        general.value ∧
      Agree (fun d d' => ∀ g, ((Condition.filter d).run ps [t]).outcome g =
        ((Condition.filter d').run ps [t]).outcome g) direct.holds general.holds ∧
      Agree (fun d d' => ∀ g, ((Condition.filter d).run ps [t]).outcome g =
        ((Condition.filter d').run ps [t]).outcome g) direct.fails general.fails := by
  intro direct general
  have hmatches : direct.Matches ps (some x) (fun _ => true) general :=
    e.lower_matches c ps (some x) (fun _ => true) he fun _ _ => rfl
  have ht : t.Beside (some x) (fun _ => true) t := .self hlabel hmap
  have hkeys : e.allKeys fun _ => true := e.allKeys_of_forall fun _ => rfl
  have hdirect : direct.ReadsOnly fun _ => true := e.lower_readsOnly _ hkeys
  have hgeneral : general.ReadsOnly fun _ => true := e.lower_readsOnly _ hkeys
  refine ⟨hmatches.value.mono fun f k h g => h.objects ht g, ?_, ?_⟩
  · exact (hmatches.holds.gives hdirect.holds hgeneral.holds).mono fun d d' h g =>
      h.1.outcome_eq h.2.1 h.2.2 ht g
  · exact (hmatches.fails.gives hdirect.fails hgeneral.fails).mono fun d d' h g =>
      h.1.outcome_eq h.2.1 h.2.2 ht g

theorem marko_is_tested_directly :
    let c : LoweringContext :=
      { scope := { bindings := [⟨"n", .node⟩] }, parameters := [], current := none,
        clause := "MATCH" }
    let t : Traverser := { object := .vertex ⟨1⟩, path := [("n", .vertex ⟨1⟩)] }
    let missing : Expr := .unary .isNull (.access (.var "n") "lang")
    let young : Expr := .binary (.access (.var "n") "age") (.compare .lt) (.literal (.int 30))
    let e : Expr := .binary (.binary missing (.compare .eq) (.literal (.bool true))) .and
      (.caseOf none [(young, missing)] none)
    e.sheltered (some "n") ∧ t.labelled? "n" = some t.object ∧
      ∃ d d', (e.lower { c with current := some "n" }).holds = .ok d ∧
        (e.lower { c with current := none }).holds = .ok d' ∧
        (d.filter.run [] [t]).outcome .modern = (d'.filter.run [] [t]).outcome .modern ∧
        ((d.filter.run [] [t]).outcome .modern).1.map List.length = .ok 1 := by
  intro c t missing young e
  have he : e.sheltered (some "n") := by decide
  have hholds := (direct_tests_agree c he (t := t) rfl rfl []).2.1
  exact ⟨he, rfl, _, _, rfl, rfl, hholds.of_ok rfl rfl .modern, by decide +kernel⟩

/-- A test inside the first side of a comparison is made where the second side is: marko has an age
and no language, so that both sides are false, and yet marko does not pass. -/
theorem nested_test_differs :
    let c : LoweringContext :=
      { scope := { bindings := [⟨"n", .node⟩] }, parameters := [], current := none,
        clause := "MATCH" }
    let t : Traverser := { object := .vertex ⟨1⟩, path := [("n", .vertex ⟨1⟩)] }
    let e : Expr := .binary (.unary .isNull (.access (.var "n") "age")) (.compare .eq)
      (.unary .isNotNull (.access (.var "n") "lang"))
    e.sheltered (some "n") = false ∧
      ∃ d d', (e.lower { c with current := some "n" }).holds = .ok d ∧
        (e.lower { c with current := none }).holds = .ok d' ∧
        ((d.filter.run [] [t]).outcome .modern).1.map List.length = .ok 0 ∧
        ((d'.filter.run [] [t]).outcome .modern).1.map List.length = .ok 1 :=
  ⟨by decide, _, _, rfl, rfl, by decide +kernel, by decide +kernel⟩

/-! ### Values on a row -/

/-- The value of the expression on the row is the object `X`. -/
def Expr.ReadsAs (c : LoweringContext) (g : Graph) (t : Traverser) (e : Expr) (X : Object) :
    Prop :=
  ∃ f, (e.lower c).value = .ok f ∧ f.objects c.parameters t g = .ok [X]

theorem Traversal.ReadsOnly.graph (hf : f.ReadsOnly fun _ => true) {ts : List Traverser}
    {h : Graph} (hrun : (f.run ps ts).outcome g = (r, h)) :
    h = g := by
  have hreads : (f.run ps).Reads (· = g) fun _ => true :=
    hf.reads (fun h _ => .of_forall (fun _ => rfl) h) fun p _ => p.2.allKeys_of_forall fun _ => rfl
  obtain ⟨m, rfl, ⟨us, hok, -⟩ | ⟨e, herror, -⟩⟩ :=
    hreads ts (fun s _ => .of_forall (fun _ => rfl) s) g rfl
  · cases hrun.symm.trans hok
    rfl
  · cases hrun.symm.trans herror
    rfl

theorem Expr.graph_of_value (hf : (e.lower c).value = .ok f)
    {h : Graph} (hrun : (f.run ps [t]).outcome g = (r, h)) : h = g :=
  ((e.lower_readsOnly c (e.allKeys_of_forall fun _ => rfl)).value f hf).graph hrun

theorem Expr.ReadsAs.row (h : e.ReadsAs c g t X) :
    ∃ f u, (e.lower c).value = .ok f ∧ (f.run c.parameters [t]).outcome g = (.ok [u], g) ∧
      u.object = X := by
  obtain ⟨f, hf, hobjects⟩ := h
  obtain ⟨us, hus, hobjects⟩ := map_eq_ok.mp hobjects
  obtain ⟨u, rfl, hu⟩ := map_eq_singleton_iff.mp hobjects
  exact ⟨f, u, hf, Prod.ext hus (graph_of_value hf rfl), hu⟩

theorem Expr.ReadsAs.beside (h : e.ReadsAs c g t X) (htests : e.tests c.current = false)
    (hu : u.Beside none e.names.contains t) :
    ∃ f w, (e.lower c).value = .ok f ∧ f.Starts c.parameters ∧
      (f.run c.parameters [u]).outcome g = (.ok [w], g) ∧ w.object = X := by
  obtain ⟨f, v, hf, hrun, rfl⟩ := h.row
  -- without a test of the current object, the value may be read where the row is not
  have hlower : e.lower c = e.lower (c.on none) := e.lower_on c htests
  have hmatches := e.lower_matches c c.parameters none e.names.contains e.sheltered_none
    fun n hn => contains_iff_mem.mpr hn
  rw [← hlower] at hmatches
  have hvalue := hmatches.value.of_ok hf hf
  have hends := hvalue.rows.agree hu g
  rcases hrun' : (f.run c.parameters [u]).outcome g with ⟨r, g'⟩
  rw [hrun, hrun'] at hends
  obtain ⟨hrows, rfl⟩ : Agree (Forall₂ (Like e.names.contains)) r (.ok [v]) ∧ g' = g := hends
  cases hrows with
  | ok hus =>
    obtain ⟨w, us, hw, hnil, rfl⟩ := forall₂_cons_right_iff.mp hus
    cases hnil
    exact ⟨f, w, hf, hvalue.starts.1, hrun', hw.object⟩

/-! ### Known values -/

theorem Expr.value_of_constant (h : e.constant? = some v) (c : LoweringContext) :
    (e.lower c).value = .ok (constantValue v) := by
  have horConstant (value : Except Error Traversal) :
      Lowered.orConstant e value = .ok (constantValue v) := by
    rw [Lowered.orConstant, h]
  cases e with
  | literal s => cases h; rfl
  | list items | map entries => exact horConstant _
  | unary op e =>
    cases op with
    | negate =>
      rw [lower, Lowered.ofUnary, lower_expr]
      exact horConstant _
    | _ => cases h
  | binary l op r =>
    cases op with
    | arith a =>
      rw [lower, Lowered.ofBinary, lower_expr, lower_expr]
      exact horConstant _
    | _ => cases h
  | _ => cases h

theorem Expr.value_of_operand (h : operand? e = some o)
    (c : LoweringContext) : (e.lower c).value = .ok [.constant o] := by
  unfold operand? at h
  split at h
  · cases h
    rfl
  · obtain ⟨v, hv, rfl⟩ := Option.map_eq_some_iff.mp h
    exact value_of_constant hv c

theorem Expr.known_of_constant (h : e.constant? = some v) (ps : Parameters) :
    e.known? ps = some v := by
  unfold known?
  split
  · cases h
  · exact h

theorem Expr.known_of_resolve (ho : operand? e = some o)
    (h : o.resolve ps t = .ok X) : ∃ v, e.known? ps = some v ∧ X = .ofValue v := by
  unfold operand? at ho
  split at ho
  · cases ho
    rw [Operand.resolve, Parameters.value] at h
    split at h
    · rename_i v hv
      cases h
      exact ⟨v, hv, rfl⟩
    · cases h
  · obtain ⟨v, hv, rfl⟩ := Option.map_eq_some_iff.mp ho
    cases h
    exact ⟨v, known_of_constant hv ps, rfl⟩

theorem constant_outcome :
    (run ps [.constant o] [t]).outcome g = ((o.resolve ps t).map fun y => [t.moveTo y], g) := by
  rw [run_step (p := .move fun t => return some (← Run.ofExcept (o.resolve ps t))) rfl,
    Process.move, Process.eachRow]
  cases h : o.resolve ps t <;> rfl

theorem Expr.of_unknown (h : e.isKnown = false) :
    e.constant? = none ∧ (∀ name, e ≠ .param name) ∧ c.isNull e = false := by
  unfold isKnown operand? at h
  split at h
  · cases h
  · rename_i hparam
    have hnone : e.constant? = none := by
      rw [Option.isSome_map] at h
      exact Option.not_isSome_iff_eq_none.mp (Bool.eq_false_iff.mp h)
    refine ⟨hnone, hparam, ?_⟩
    unfold isNull
    split
    · exact absurd rfl (hparam _)
    · rw [hnone]
      rfl

namespace Expr.ReadsAs

theorem known (h : e.ReadsAs c g t X) (hknown : e.isKnown) :
    ∃ v, e.known? c.parameters = some v ∧ X = .ofValue v := by
  obtain ⟨o, ho⟩ := Option.isSome_iff_exists.mp hknown
  obtain ⟨f, u, hf, hrun, rfl⟩ := h.row
  rw [value_of_operand ho c] at hf
  cases hf
  cases hresolve : o.resolve c.parameters t with
  | error e =>
    rw [constant_outcome, hresolve] at hrun
    cases hrun
  | ok y =>
    rw [constant_outcome, hresolve] at hrun
    cases hrun
    exact known_of_resolve ho hresolve

theorem constant (h : e.ReadsAs c g t X) (hv : e.constant? = some v) : X = .ofValue v := by
  obtain ⟨f, u, hf, hrun, rfl⟩ := h.row
  rw [value_of_constant hv c] at hf
  cases hf
  cases hrun
  rfl

theorem isNull (h : e.ReadsAs c g t X) (hX : X.isNull = false) : c.isNull e = false := by
  cases hknown : e.isKnown with
  | true =>
    obtain ⟨v, hv, rfl⟩ := h.known hknown
    rw [isNull_of_known hv, ← Object.isNull_ofValue]
    exact hX
  | false => exact (of_unknown hknown).2.2

end Expr.ReadsAs

/-! ### Properties -/

theorem Expr.value_of_access (hname : c.scope.isElement name) :
    ((Expr.access (.var name) key).lower c).value =
      .ok ([.select name] ++ [.coalesce [[.values key], constantValue .null]]) := by
  have hhas := Scope.has_of_isElement hname
  unfold Scope.isElement at hname
  change Lowered.access c ((Expr.var name).lower c) key = _
  rw [Lowered.access, lower_expr, Lowered.baseKind, lower, Lowered.ofVariable, Lowered.ofValue,
    if_pos hhas]
  cases hkind : c.scope.kind? name with
  | none => rw [hkind] at hname; cases hname
  | some k =>
    rw [hkind] at hname
    cases k with
    | node | relationship => rfl
    | _ => cases hname

theorem propertyOrNull_passes (ps : Parameters) (g : Graph) (key : String) :
    Passes ps g [.coalesce [[.values key], constantValue .null]] (fun _ => true)
      fun t => t.moveTo (((g.property? key t.object).map Object.ofValue).getD .null) := by
  refine ⟨rfl, .step rfl (.eachRow fun t _ => ?_)⟩
  let property (g : Graph) (t : Traverser) := (g.property? key t.object).map Object.ofValue
  have hvalues : Process.Sends g (fun _ => True) (run ps [.values key])
      fun t => ((property g t).map t.moveTo).toList := .step rfl (.moveIn property)
  refine (outcome_bind_ok (hvalues.one trivial)).trans ?_
  change _ = (Except.ok [t.moveTo ((property g t).getD .null)], g)
  cases property g t <;> rfl

theorem Expr.ReadsAs.property (h : x.ReadsAs c g t X)
    (hproperty : c.elementProperty? x = some (name, key)) (hX : X.isNull = false) :
    ∃ y v, t.place.selected name = some y ∧ g.property? key y = some v ∧ X = .ofValue v := by
  obtain ⟨rfl, hname⟩ := elementProperty?_eq_some hproperty
  obtain ⟨f, u, hf, hrun, rfl⟩ := h.row
  rw [value_of_access hname] at hf
  cases hf
  have hselect : Passes c.parameters g [.select name] _ _ :=
    .moveIn (f := fun _ t => t.place.selected name) rfl
  rw [(hselect.append (propertyOrNull_passes c.parameters g key)).sends.one trivial] at hrun
  cases hy : t.place.selected name with
  | none =>
    rw [hy] at hrun
    cases hrun
  | some y =>
    rw [hy] at hrun
    cases hrun
    change (((g.property? key y).map Object.ofValue).getD .null).isNull = false at hX
    cases hv : g.property? key y with
    | none =>
      rw [hv] at hX
      cases hX
    | some v =>
      refine ⟨y, v, rfl, hv, ?_⟩
      change ((g.property? key y).map Object.ofValue).getD .null = _
      rw [hv]
      rfl

/-! ### Tests -/

/-- The row is at the current variable, if there is one. -/
def LoweringContext.Locates (c : LoweringContext) (t : Traverser) : Prop :=
  ∀ y, c.current = some y → t.place.selected y = some t.object

theorem LoweringContext.Locates.onElement_decides (h : c.Locates t) {y : Object}
    {steps : Traversal} (hy : t.place.selected name = some y)
    (hb : steps.Decides ps g (t.moveTo y) b) : (c.onElement name steps).Decides ps g t b := by
  unfold onElement
  by_cases hname : c.current = some name
  · rw [if_pos hname]
    obtain rfl : t.object = y := Option.some.inj ((h name hname).symm.trans hy)
    exact hb
  · rw [if_neg hname]
    exact .filterAt (f := [.select name]) (select_outcome hy g) hb

theorem notNull_test (hu : u.object.isNull = false) :
    notNullPredicate.test ps u u.object = .ok true :=
  congrArg (fun b => Except.ok !b) hu

theorem labelled_outcome (hf : (f.run ps [t]).outcome g = (.ok [u], g)) :
    (run ps (f ++ [.is notNullPredicate, .mark compareLabel]) [t]).outcome g =
      (.ok (if u.object.isNull then [] else [u.mark compareLabel]), g) := by
  have hnotNull : Passes ps g [.is notNullPredicate] (fun w => !w.object.isNull)
      fun w => w := .keep rfl fun _ => rfl
  have hmark : Passes ps g [.mark compareLabel] _ _ := .mark compareLabel
  have hlabel := hnotNull.append hmark
  refine (outcome_append hlabel.starts hf).trans ((hlabel.sends.one trivial).trans ?_)
  cases u.object.isNull <;> rfl

namespace Expr.ReadsAs

variable (h : x.ReadsAs c g t X) (hX : X.isNull = false) (hc : c.Locates t)

include h hX hc

theorem against {p : Predicate} (hp : ∀ w, p.test c.parameters w X = .ok b) :
    ∃ f, Lowered.against c (x.lower c) p = .ok f ∧ f.Decides c.parameters g t b := by
  rw [Lowered.against, lower_expr]
  cases hproperty : c.elementProperty? x with
  | some r =>
    obtain ⟨name, key⟩ := r
    obtain ⟨y, v, hy, hv, rfl⟩ := h.property hproperty hX
    refine ⟨_, rfl, hc.onElement_decides hy (.step rfl ?_)⟩
    refine (outcome_bind_ok rfl).trans ?_
    rw [show (t.moveTo y).object = y from rfl, hv]
    exact congrArg (fun r => (r, g)) (hp _)
  | none =>
    obtain ⟨f, u, hf, hrun, rfl⟩ := h.row
    rw [hf]
    exact ⟨_, rfl, .filterAt hrun (.append (f := [_]) (.is (notNull_test hX)) (.is (hp u)))⟩

theorem nullTest :
    ∃ d, Lowered.nullTest c (x.lower c) false = .ok d ∧ d.Decides c.parameters g t true := by
  rw [Lowered.nullTest, lower_expr]
  cases hproperty : c.elementProperty? x with
  | some r =>
    obtain ⟨name, key⟩ := r
    obtain ⟨y, v, hy, hv, rfl⟩ := h.property hproperty hX
    refine ⟨_, rfl, hc.onElement_decides hy (.keepIn rfl ?_)⟩
    exact Option.isSome_iff_exists.mpr ⟨v, hv⟩
  | none =>
    cases hconstant : x.constant? with
    | some v =>
      obtain rfl := h.constant hconstant
      rw [Object.isNull_ofValue] at hX
      refine ⟨_, rfl, ?_⟩
      rw [hX]
      exact Condition.decided_decides true
    | none =>
      obtain ⟨f, u, hf, hrun, rfl⟩ := h.row
      rw [hf]
      exact ⟨_, rfl, .filterAt hrun (.is (notNull_test hX))⟩

end Expr.ReadsAs

/-! ### Rows beside a label -/

/-- The expression reads the same names after the row has moved to `R`. -/
structure Expr.Undisturbed (c : LoweringContext) (t : Traverser) (R : Object) (l : Expr) : Prop
    where
  untested : l.tests c.current = false
  names : ∀ n ∈ l.names, n ≠ compareLabel ∧ Place.selected (R, t.path) n = t.place.selected n

theorem Expr.Undisturbed.beside {l : Expr} (h : l.Undisturbed c t u.object)
    (hpath : u.path = t.path) :
    (u.mark compareLabel).Beside none l.names.contains t := by
  have hlabels (n : String) (hn : n ∈ l.names) :
      (u.mark compareLabel).path.lookup n = t.path.lookup n := by
    rw [mark, lookup_cons, beq_false_of_ne (h.names n hn).1, hpath]
  refine ⟨fun n hn => hlabels n (contains_iff_mem.mp hn), fun n hn => ?_, nofun⟩
  replace hn := contains_iff_mem.mp hn
  refine Eq.trans ?_ (h.names n hn).2
  unfold Place.selected
  rw [place, hlabels n hn]
  rfl

end CypherTraversal
