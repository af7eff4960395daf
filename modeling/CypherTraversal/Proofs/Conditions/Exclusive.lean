import CypherTraversal.Client.Session
import CypherTraversal.Proofs.Conditions.Values
import CypherTraversal.Proofs.Expressions.Narrow

/-! # Conditions and their negations

The condition of an expression and its negation are lowered in different ways: a conjunction of two
limits is one predicate, and its negation is a disjunction; a text match is a predicate, and its
negation the absence of a match. All the same no row passes both, as long as the two limits that are
taken for limits of one subject are. -/

namespace CypherTraversal

open Run List Lowered Condition LoweringContext

variable {a b : Bool} {y : Object} {ps : Parameters} {g g' : Graph} {t u : Traverser}
  {us : List Traverser} {c : LoweringContext} {e l r x : Expr} {f h k : Traversal} {s s' : Step}
  {p p' : Predicate} {d d' : Condition} {cs : List Condition}

/-! ### Rows that pass -/

def Traversal.Keeps (ps : Parameters) (g : Graph) (t : Traverser) (f : Traversal) : Prop :=
  (f.run ps [t]).outcome g = (.ok [t], g)

/-- The condition lets the row pass. -/
def Condition.Keeps (ps : Parameters) (g : Graph) (t : Traverser) (d : Condition) : Prop :=
  d.filter.Keeps ps g t

theorem Process.of_keep {test : Traverser → Run Bool}
    (hrun : (Process.keep test [u]).outcome g = (.ok us, g')) (hus : us ≠ []) :
    (test u).outcome g = (.ok true, g') := by
  obtain ⟨first, m, hfirst, hrun⟩ := of_outcome_bind hrun
  cases hrun
  obtain ⟨b, m', hb, hfirst⟩ := of_outcome_bind hfirst
  cases hfirst
  cases b with
  | false => exact absurd rfl hus
  | true => exact hb

namespace Traversal.Filters

theorem of_append (hf : Filters (fun _ => true) (f ++ h)) :
    f.Filters (fun _ => true) ∧ h.Filters fun _ => true := by
  obtain ⟨hfront, hback⟩ := forall_mem_append.mp hf.isFilter
  have hreads := hf.readsOnly
  unfold ReadsOnly Every at hreads
  rw [Step.visitAll_append, forall_mem_append] at hreads
  exact ⟨⟨hfront, hreads.1⟩, hback, hreads.2⟩

variable (hf : f.Filters fun _ => true)

include hf

theorem outcome_one (hrun : (f.run ps [t]).outcome g = (.ok us, g')) :
    g' = g ∧ (us = [] ∨ us = [t]) :=
  ⟨hf.readsOnly.graph hrun, sublist_singleton.mp ((rows hf.isFilter).2 hrun)⟩

theorem outcome_nil (hrun : (f.run ps []).outcome g = (.ok us, g')) : us = [] :=
  sublist_nil.mp ((rows hf.isFilter).2 hrun)

theorem keeps_of_leads (hleads : ((f.run ps).leads t).outcome g = (.ok true, g')) :
    f.Keeps ps g t := by
  obtain ⟨us, m, hrun, hleads⟩ := of_outcome_bind hleads
  obtain ⟨rfl, rfl | rfl⟩ := hf.outcome_one hrun
  · cases hleads
  · exact hrun

end Traversal.Filters

theorem Traversal.Keeps.leads (hf : f.Keeps ps g t) :
    ((f.run ps).leads t).outcome g = (.ok true, g) :=
  outcome_bind_ok (x := f.run ps [t]) hf

theorem Traversal.Keeps.of_step {test : Traverser → Run Bool}
    (hs : Step.stage ps s = .process (.keep test)) (hkeeps : Keeps ps g t [s]) :
    (test t).outcome g = (.ok true, g) := by
  unfold Keeps at hkeeps
  rw [run_step hs] at hkeeps
  exact Process.of_keep hkeeps (cons_ne_nil _ _)

theorem Traversal.Keeps.of_append (hf : Filters (fun _ => true) (f ++ h))
    (hkeeps : Keeps ps g t (f ++ h)) : f.Keeps ps g t ∧ h.Keeps ps g t := by
  obtain ⟨hfront, hback⟩ := hf.of_append
  unfold Keeps at hkeeps
  rw [run_append (Filters.rows hback.isFilter).1] at hkeeps
  obtain ⟨us, m, hfirst, hrest⟩ := of_outcome_bind hkeeps
  obtain ⟨rfl, rfl | rfl⟩ := hfront.outcome_one hfirst
  · cases hback.outcome_nil hrest
  · exact ⟨hfirst, hrest⟩

namespace Condition

theorem not_keeps_never : ¬never.Keeps ps g t :=
  fun h => by cases h

theorem keeps_of_allSteps (hf : f.Filters fun _ => true) (hsteps : allSteps cs = some f)
    (hkeeps : f.Keeps ps g t) : ∀ d ∈ cs, d.Keeps ps g t := by
  induction cs generalizing f with
  | nil => exact forall_mem_nil _
  | cons d cs ih =>
    cases d with
    | never => cases hsteps
    | always => exact forall_mem_cons.mpr ⟨rfl, ih hf hsteps hkeeps⟩
    | test k =>
      obtain ⟨rest, hrest, rfl⟩ := Option.map_eq_some_iff.mp hsteps
      obtain ⟨hkeeps, hrests⟩ := hkeeps.of_append hf
      exact forall_mem_cons.mpr ⟨hkeeps, ih hf.of_append.2 hrest hrests⟩

theorem keeps_of_all (hall : (all cs).Filters fun _ => true) (hkeeps : (all cs).Keeps ps g t) :
    ∀ d ∈ cs, d.Keeps ps g t := by
  unfold all at hall hkeeps
  cases hsteps : allSteps cs with
  | none =>
    rw [hsteps] at hkeeps
    exact absurd hkeeps not_keeps_never
  | some f =>
    rw [hsteps] at hall hkeeps
    cases f with
    | nil => exact keeps_of_allSteps .nil hsteps rfl
    | cons s f => exact keeps_of_allSteps hall hsteps hkeeps

theorem anyTests_cases (cs : List Condition) :
    (anyTests cs = none ∧ always ∈ cs) ∨ ∃ fs, anyTests cs = some fs ∧ ∀ f ∈ fs, test f ∈ cs := by
  induction cs with
  | nil => exact .inr ⟨[], rfl, forall_mem_nil _⟩
  | cons d cs ih =>
    have hlater {fs : List Traversal} (h : ∀ f ∈ fs, test f ∈ cs) : ∀ f ∈ fs, test f ∈ d :: cs :=
      fun f hf => mem_cons_of_mem d (h f hf)
    cases d with
    | always => exact .inl ⟨rfl, mem_cons_self⟩
    | never => exact ih.imp (fun h => ⟨h.1, mem_cons_of_mem _ h.2⟩) fun ⟨fs, hfs, h⟩ =>
        ⟨fs, hfs, hlater h⟩
    | test f =>
      refine ih.imp (fun h => ⟨by rw [anyTests, h.1]; rfl, mem_cons_of_mem _ h.2⟩) ?_
      rintro ⟨fs, hfs, h⟩
      exact ⟨f :: fs, by rw [anyTests, hfs]; rfl, forall_mem_cons.mpr ⟨mem_cons_self, hlater h⟩⟩

theorem of_someLeads {fs : List Traversal} (hfs : ∀ f ∈ fs, f.ReadsOnly fun _ => true)
    (hleads : (Process.someLeads t (Step.runEach ps fs)).outcome g = (.ok true, g')) :
    ∃ f ∈ fs, ((f.run ps).leads t).outcome g = (.ok true, g) := by
  induction fs with
  | nil => cases hleads
  | cons f fs ih =>
    obtain ⟨hf, hfs⟩ := forall_mem_cons.mp hfs
    obtain ⟨b, m, hb, hleads⟩ := of_outcome_bind hleads
    obtain ⟨us, m', hus, hb'⟩ := of_outcome_bind hb
    obtain rfl := hf.graph hus
    obtain ⟨-, rfl⟩ := Prod.mk.inj hb'
    cases b with
    | true => exact ⟨f, mem_cons_self, hb⟩
    | false =>
      obtain ⟨k, hk, hleads⟩ := ih hfs hleads
      exact ⟨k, mem_cons_of_mem f hk, hleads⟩

theorem keeps_of_any (hcs : ∀ d ∈ cs, d.Filters fun _ => true) (hkeeps : (any cs).Keeps ps g t) :
    ∃ d ∈ cs, d.Keeps ps g t := by
  unfold any at hkeeps
  obtain ⟨htests, halways⟩ | ⟨fs, htests, hfs⟩ := anyTests_cases cs
  · exact ⟨always, halways, rfl⟩
  · rw [htests] at hkeeps
    cases fs with
    | nil => exact absurd hkeeps not_keeps_never
    | cons f fs =>
      cases fs with
      | nil => exact ⟨test f, hfs f mem_cons_self, hkeeps⟩
      | cons f' fs =>
        have hfilters : ∀ k ∈ f :: f' :: fs, k.Filters fun _ => true :=
          fun k hk => hcs (test k) (hfs k hk)
        have hkeeps : Traversal.Keeps ps g t [.or (f :: f' :: fs)] := hkeeps
        obtain ⟨k, hk, hleads⟩ := of_someLeads (fun k hk => (hfilters k hk).readsOnly)
          (hkeeps.of_step rfl)
        exact ⟨test k, hfs k hk, (hfilters k hk).keeps_of_leads hleads⟩

theorem keeps_of_both (hboth : (all [d, d']).Filters fun _ => true)
    (hkeeps : (all [d, d']).Keeps ps g t) : d.Keeps ps g t ∧ d'.Keeps ps g t :=
  have hall := keeps_of_all hboth hkeeps
  ⟨hall d mem_cons_self, hall d' (mem_cons_of_mem d mem_cons_self)⟩

theorem keeps_of_either (hd : d.Filters fun _ => true) (hd' : d'.Filters fun _ => true)
    (hkeeps : (any [d, d']).Keeps ps g t) : d.Keeps ps g t ∨ d'.Keeps ps g t := by
  simpa using keeps_of_any (forall_mem_cons.mpr ⟨hd, forall_mem_singleton.mpr hd'⟩) hkeeps

end Condition

/-! ### Tests behind one row -/

structure Traversal.Single (ps : Parameters) (f : Traversal) : Prop where
  narrows : f.Narrows ps (fun _ => True) fun _ => True
  reads : f.ReadsOnly fun _ => true

namespace Traversal.Single

theorem append (hf : f.Single ps) (hh : h.Single ps) : Single ps (f ++ h) :=
  ⟨hf.narrows.append hh.narrows, hf.reads.append hh.reads⟩

theorem value (hf : (e.lower c).value = .ok f) : f.Single ps :=
  ⟨Expr.value_few hf, (e.lower_readsOnly c (e.allKeys_of_forall fun _ => rfl)).value f hf⟩

theorem is (p : Predicate) : Single ps [.is p] :=
  ⟨.is p, .single (.leaf rfl rfl)⟩

theorem select (name : String) : Single ps [.select name] :=
  ⟨.step rfl (.moveIn fun _ _ _ _ _ => trivial), .single (.leaf rfl rfl)⟩

theorem mark (label : String) : Single ps [.mark label] := by
  refine ⟨.step rfl ?_, .single (.leaf rfl rfl)⟩
  rintro ts (rfl | ⟨t, rfl, -⟩)
  · exact .pure .nil
  · exact .pure (.one trivial)

theorem of_keeps (hk : k.Single ps) {test : Traverser → Run Bool}
    (hs : Step.stage ps s = .process (.keep test)) (hkeeps : Keeps ps g t [.filter (k ++ [s])]) :
    ∃ u m, (k.run ps [t]).outcome g = (.ok [u], g) ∧ (test u).outcome g = (.ok true, m) := by
  have hleads : (Process.leads (Traversal.run ps (k ++ [s])) t).outcome g = _ := hkeeps.of_step rfl
  obtain ⟨us, m, hrun, hleads⟩ := of_outcome_bind hleads
  have hus : us ≠ [] := by
    rintro rfl
    cases hleads
  rw [Process.on, run_append (.of_process hs), run_step hs] at hrun
  obtain ⟨ws, m', hws, hrun⟩ := of_outcome_bind hrun
  obtain rfl := hk.reads.graph hws
  obtain rfl | ⟨u, rfl, -⟩ := ((hk.narrows.narrows [t] (.one trivial)).of_ok trivial hws).2
  · cases hrun
    exact absurd rfl hus
  · exact ⟨u, m, hws, Process.of_keep hrun hus⟩

end Traversal.Single

/-! ### Exclusion -/

def Traversal.Excludes (ps : Parameters) (g : Graph) (t : Traverser) (f k : Traversal) : Prop :=
  f.Keeps ps g t → ¬k.Keeps ps g t

def Condition.Excludes (ps : Parameters) (g : Graph) (t : Traverser) (d d' : Condition) : Prop :=
  d.Keeps ps g t → ¬d'.Keeps ps g t

def Step.Excludes (ps : Parameters) (s s' : Step) : Prop :=
  ∃ test test', stage ps s = .process (.keep test) ∧ stage ps s' = .process (.keep test') ∧
    ∀ g u m m', (test u).outcome g = (.ok true, m) → (test' u).outcome g ≠ (.ok true, m')

def Predicate.Excludes (p p' : Predicate) : Prop :=
  ∀ ps u y, p.test ps u y = .ok true → p'.test ps u y ≠ .ok true

theorem Condition.Excludes.symm (h : d.Excludes ps g t d') : d'.Excludes ps g t d :=
  fun hd' hd => h hd hd'

theorem Condition.never_excludes (d : Condition) : never.Excludes ps g t d :=
  fun h => absurd h not_keeps_never

theorem Condition.decided_excludes (h : a → b = false) :
    Excludes ps g t (if a then always else never) (if b then always else never) := by
  cases a with
  | false => exact never_excludes _
  | true =>
    rw [h rfl]
    exact fun _ => not_keeps_never

namespace Step.Excludes

variable (hs : s.Excludes ps s')

include hs

theorem single : Traversal.Excludes ps g t [s] [s'] := by
  obtain ⟨test, test', htest, htest', hnot⟩ := hs
  exact fun hkeeps hkeeps' => hnot g t g g (hkeeps.of_step htest) (hkeeps'.of_step htest')

theorem behind (hk : k.Single ps) :
    Traversal.Excludes ps g t [.filter (k ++ [s])] [.filter (k ++ [s'])] := by
  obtain ⟨test, test', htest, htest', hnot⟩ := hs
  intro hkeeps hkeeps'
  obtain ⟨u, m, hu, hpasses⟩ := hk.of_keeps htest hkeeps
  obtain ⟨u', m', hu', hpasses'⟩ := hk.of_keeps htest' hkeeps'
  cases hu.symm.trans hu'
  exact hnot g u m m' hpasses hpasses'

theorem onElement (c : LoweringContext) (name : String) :
    Traversal.Excludes ps g t (c.onElement name [s]) (c.onElement name [s']) := by
  unfold LoweringContext.onElement
  split
  · exact hs.single
  · exact hs.behind (k := [.select name]) (.select name)

end Step.Excludes

theorem Step.has_excludes (key : String) : Step.Excludes ps (.hasNot key) (.has key) := by
  refine ⟨_, _, rfl, rfl, fun g u m m' hnone hsome => ?_⟩
  have hnone : (g.property? key u.object).isNone = true := Except.ok.inj (Prod.mk.inj hnone).1
  have hsome : (g.property? key u.object).isSome = true := Except.ok.inj (Prod.mk.inj hsome).1
  rw [Option.isNone_iff_eq_none.mp hnone] at hsome
  cases hsome

namespace Predicate.Excludes

variable (hp : p.Excludes p')

include hp

theorem is : Step.Excludes ps (.is p) (.is p') := by
  refine ⟨_, _, rfl, rfl, fun g u m m' hpasses hpasses' => ?_⟩
  exact hp ps u u.object (Prod.mk.inj hpasses).1 (Prod.mk.inj hpasses').1

theorem wherePredicate : Step.Excludes ps (.wherePredicate p) (.wherePredicate p') :=
  hp.is

theorem hasPredicate (key : String) :
    Step.Excludes ps (.hasPredicate key p) (.hasPredicate key p') := by
  refine ⟨_, _, rfl, rfl, fun g u m m' hpasses hpasses' => ?_⟩
  obtain ⟨h, m₁, hgraph, hpasses⟩ := of_outcome_bind hpasses
  obtain ⟨h', m₂, hgraph', hpasses'⟩ := of_outcome_bind hpasses'
  cases hgraph
  cases hgraph'
  cases hv : g.property? key u.object with
  | none =>
    rw [hv] at hpasses
    cases hpasses
  | some v =>
    rw [hv] at hpasses hpasses'
    exact hp ps u _ (Prod.mk.inj hpasses).1 (Prod.mk.inj hpasses').1

end Predicate.Excludes

/-! ### Predicates -/

theorem Comparison.not_holds_negate {cmp : Comparison} {a b : Object} (h : cmp.holds a b) :
    ¬cmp.negate.holds a b := by
  cases cmp <;> grind [holds, negate]

theorem Object.eq_of_holds_bool
    (h : Comparison.eq.holds y (.ofValue (.bool b))) : y = .ofValue (.bool b) := by
  cases y with
  | scalar s =>
    cases s with
    | bool a => cases a <;> cases b <;> first | rfl | cases h
    | _ => cases h
  | _ => cases h

section Predicates

variable {cmp : Comparison} {o o' : Operand}

theorem Predicate.of_compare (h : (Predicate.compare cmp o).test ps u y = .ok true) :
    ∃ w, o.resolve ps u = .ok w ∧ cmp.holds y w := by
  obtain ⟨w, hw, h⟩ := bind_eq_ok.mp h
  exact ⟨w, hw, Except.ok.inj h⟩

theorem Predicate.compare_excludes (cmp : Comparison) (o : Operand) :
    (Predicate.compare cmp o).Excludes (.compare cmp.negate o) := by
  intro ps u y h h'
  obtain ⟨w, hw, hholds⟩ := of_compare h
  obtain ⟨w', hw', hholds'⟩ := of_compare h'
  cases hw.symm.trans hw'
  exact Comparison.not_holds_negate hholds hholds'

theorem truthPredicate_excludes : (truthPredicate true).Excludes (truthPredicate false) := by
  intro ps u y h h'
  obtain ⟨w, hw, hholds⟩ := Predicate.of_compare h
  obtain ⟨w', hw', hholds'⟩ := Predicate.of_compare h'
  cases hw
  cases hw'
  cases (Object.eq_of_holds_bool hholds).symm.trans (Object.eq_of_holds_bool hholds')

theorem Predicate.between_excludes (o o' : Operand) :
    (Predicate.between o o').Excludes (.compare .lt o) ∧
      (Predicate.between o o').Excludes (.compare .ge o') := by
  have hbetween {ps : Parameters} {u : Traverser} {y : Object}
      (h : (Predicate.between o o').test ps u y = .ok true) :
      ∃ w w', o.resolve ps u = .ok w ∧ o'.resolve ps u = .ok w' ∧ Comparison.ge.holds y w ∧
        Comparison.lt.holds y w' := by
    obtain ⟨w, hw, h⟩ := bind_eq_ok.mp h
    split at h
    · rename_i hge
      obtain ⟨w', hw', h⟩ := bind_eq_ok.mp h
      exact ⟨w, w', hw, hw', hge, Except.ok.inj h⟩
    · cases h
  constructor
  · intro ps u y h h'
    obtain ⟨w, w', hw, -, hge, -⟩ := hbetween h
    obtain ⟨v, hv, hlt⟩ := of_compare h'
    cases hw.symm.trans hv
    exact Comparison.not_holds_negate hge hlt
  · intro ps u y h h'
    obtain ⟨w, w', -, hw', -, hlt⟩ := hbetween h
    obtain ⟨v, hv, hge⟩ := of_compare h'
    cases hw'.symm.trans hv
    exact Comparison.not_holds_negate hlt hge

theorem Predicate.member_excludes (o : Operand) : (Predicate.within o).Excludes (.without o) := by
  intro ps u y h h'
  obtain ⟨w, hw, h⟩ := bind_eq_ok.mp h
  rw [Predicate.test] at h'
  split at h'
  · cases h'
  · obtain ⟨w', hw', h'⟩ := bind_eq_ok.mp h'
    cases hw.symm.trans hw'
    have hin : y.isMember w = true := Except.ok.inj h
    have hout : (!y.isMember w) = true := Except.ok.inj h'
    rw [hin] at hout
    cases hout

end Predicates

/-! ### Tests of expressions -/

theorem against_excludes (hp : p.Excludes p') (hf : against c (x.lower c) p = .ok f)
    (hk : against c (x.lower c) p' = .ok k) : Traversal.Excludes ps g t f k := by
  unfold against at hf hk
  cases hproperty : c.elementProperty? (x.lower c).expr with
  | some r =>
    obtain ⟨name, key⟩ := r
    rw [hproperty] at hf hk
    cases hf
    cases hk
    exact (hp.hasPredicate key).onElement c name
  | none =>
    rw [hproperty] at hf hk
    obtain ⟨v, hv, hf, hk⟩ := bind_both hf hk
    cases hf
    cases hk
    simpa only [append_assoc, cons_append, nil_append] using
      hp.is.behind ((Traversal.Single.value hv).append (.is notNullPredicate))

theorem againstRow_excludes {q q' : Operand → Predicate} (hq : ∀ o, (q o).Excludes (q' o))
    (hf : againstRow (l.lower c) (r.lower c) q = .ok f)
    (hk : againstRow (l.lower c) (r.lower c) q' = .ok k) :
    Traversal.Excludes ps g t f k := by
  obtain ⟨right, hright, hf, hk⟩ := bind_both hf hk
  obtain ⟨left, hleft, hf, hk⟩ := bind_both hf hk
  cases hf
  cases hk
  have hvalue : right.Single ps := .value hright
  have hsingle := ((hvalue.append
    ((Traversal.Single.is notNullPredicate).append (.mark compareLabel))).append
      (.value hleft)).append (.is notNullPredicate)
  simpa only [append_assoc, cons_append, nil_append] using
    (hq (.label compareLabel)).wherePredicate.behind hsingle

theorem nullTest_excludes (hd : nullTest c (x.lower c) true = .ok d)
    (hd' : nullTest c (x.lower c) false = .ok d') : d.Excludes ps g t d' := by
  unfold nullTest at hd hd'
  cases hproperty : c.elementProperty? (x.lower c).expr with
  | some r =>
    obtain ⟨name, key⟩ := r
    rw [hproperty] at hd hd'
    cases hd
    cases hd'
    exact (Step.has_excludes key).onElement c name
  | none =>
    rw [hproperty] at hd hd'
    cases hconstant : (x.lower c).expr.constant? with
    | some v =>
      rw [hconstant] at hd hd'
      cases hd
      cases hd'
      refine decided_excludes fun h => ?_
      rw [beq_iff_eq.mp h]
      rfl
    | none =>
      rw [hconstant] at hd hd'
      obtain ⟨v, hv, hd, hd'⟩ := bind_both hd hd'
      cases hd
      cases hd'
      exact (Predicate.compare_excludes .eq (.value .null)).is.behind (.value hv)

theorem valueIs_excludes {value : Except Error Traversal}
    (hvalue : Gives (Traversal.Single ps) value) (hd : valueIs true value = .ok d)
    (hd' : valueIs false value = .ok d') :
    d.Excludes ps g t d' := by
  obtain ⟨v, hv, hd, hd'⟩ := bind_both hd hd'
  cases hd
  cases hd'
  exact truthPredicate_excludes.is.behind (hvalue v hv)

theorem Comparison.flip_negate (cmp : Comparison) : cmp.negate.flip = cmp.flip.negate := by
  cases cmp <;> rfl

theorem test_excludes {x y : Except Error Traversal}
    (h : ∀ {f k}, x = .ok f → y = .ok k → Traversal.Excludes ps g t f k)
    (hd : .test <$> x = .ok d) (hd' : .test <$> y = .ok d') : d.Excludes ps g t d' := by
  obtain ⟨f, hf, rfl⟩ := map_eq_ok.mp hd
  obtain ⟨k, hk, rfl⟩ := map_eq_ok.mp hd'
  exact h hf hk

theorem comparison_excludes {cmp : Comparison}
    (hd : comparison c (l.lower c) cmp (r.lower c) = .ok d)
    (hd' : comparison c (l.lower c) cmp.negate (r.lower c) = .ok d') :
    d.Excludes ps g t d' := by
  unfold comparison at hd hd'
  rw [Expr.lower_expr, Expr.lower_expr] at hd hd'
  split at hd
  · cases hd
    exact never_excludes _
  · rename_i hnull
    rw [if_neg hnull] at hd'
    split at hd
    · rename_i a b ha hb
      rw [ha, hb] at hd'
      cases hd
      cases hd'
      refine decided_excludes fun h => ?_
      rw [cmp.eval?_negate, beq_iff_eq.mp h]
      rfl
    · rename_i hunknown
      split at hd'
      · exact absurd ‹_› (hunknown _ _ ‹_›)
      · cases hl : operand? l <;> cases hr : operand? r <;>
          rw [hl, hr] at hd hd'
        case none.none =>
          exact test_excludes (againstRow_excludes (Predicate.compare_excludes cmp)) hd hd'
        case some.none o =>
          rw [cmp.flip_negate] at hd'
          exact test_excludes (against_excludes (Predicate.compare_excludes cmp.flip o)) hd hd'
        case none.some o | some.some o =>
          exact test_excludes (against_excludes (Predicate.compare_excludes cmp o)) hd hd'

theorem not_excludes (f : Traversal) : Traversal.Excludes ps g t f [.not f] := by
  intro hkeeps hnot
  obtain ⟨b, m, hb, hnot⟩ := of_outcome_bind (hnot.of_step rfl)
  cases hkeeps.leads.symm.trans hb
  cases hnot

def Lowered.textTest (c : LoweringContext) (l : Lowered) (m : TextMatch) (r : Lowered) :
    Except Error Traversal :=
  match LoweringContext.operand? l.expr, LoweringContext.operand? r.expr with
  | none, some o => against c l (.text m o)
  | _, _ => againstRow l r (.text m)

theorem Lowered.textMatch_eq (l r : Lowered) (m : TextMatch) (negated : Bool) :
    textMatch c l m r negated =
      if c.isNull l.expr || c.isNull r.expr then .ok .never
      else do
        checkText l
        checkText r
        let positive ← textTest c l m r
        if negated then
          return .all [← nullTest c l false, ← nullTest c r false, .test [.not positive]]
        else return .test positive := by
  unfold textMatch textTest
  cases operand? l.expr <;> cases operand? r.expr <;> rfl

theorem textMatch_excludes {m : TextMatch} (hfilters : d'.Filters fun _ => true)
    (hd : textMatch c (l.lower c) m (r.lower c) false = .ok d)
    (hd' : textMatch c (l.lower c) m (r.lower c) true = .ok d') :
    d.Excludes ps g t d' := by
  rw [textMatch_eq] at hd hd'
  split at hd
  · cases hd
    exact never_excludes _
  · rename_i hnull
    rw [if_neg hnull] at hd'
    obtain ⟨-, -, hd, hd'⟩ := bind_both hd hd'
    obtain ⟨-, -, hd, hd'⟩ := bind_both hd hd'
    obtain ⟨f, -, hd, hd'⟩ := bind_both hd hd'
    obtain ⟨left, -, hd'⟩ := bind_eq_ok.mp hd'
    obtain ⟨right, -, hd'⟩ := bind_eq_ok.mp hd'
    cases hd
    cases hd'
    exact fun hkeeps hkeeps' => not_excludes f hkeeps
      (keeps_of_all hfilters hkeeps' (.test [.not f]) (by simp))

theorem rowMember_excludes (hfilters : d'.Filters fun _ => true)
    (hd : rowMember c (l.lower c) (r.lower c) false = .ok d)
    (hd' : rowMember c (l.lower c) (r.lower c) true = .ok d') :
    d.Excludes ps g t d' := by
  obtain ⟨left, -, hd, hd'⟩ := bind_both hd hd'
  obtain ⟨right, -, hd, hd'⟩ := bind_both hd hd'
  obtain ⟨item, -, hd'⟩ := bind_eq_ok.mp hd'
  cases hd
  cases hd'
  exact fun hkeeps hkeeps' => not_excludes _ hkeeps
    (keeps_of_all hfilters hkeeps' _ (mem_cons_of_mem _ mem_cons_self))

theorem constantMember_excludes {list : Value}
    (hd : constantMember c (l.lower c) (r.lower c) list false = .ok d)
    (hd' : constantMember c (l.lower c) (r.lower c) list true = .ok d') :
    d.Excludes ps g t d' := by
  cases list with
  | list items =>
    unfold constantMember at hd hd'
    dsimp only at hd hd'
    split at hd'
    · cases hd'
      exact fun _ => not_keeps_never
    · cases hconstant : (l.lower c).expr.constant? with
      | some v =>
        rw [hconstant] at hd hd'
        cases hd
        cases hd'
        refine decided_excludes fun h => ?_
        simpa using h
      | none =>
        rw [hconstant] at hd hd'
        obtain ⟨f, hf, hd⟩ := bind_eq_ok.mp hd
        obtain ⟨k, hk, hd'⟩ := bind_eq_ok.mp hd'
        cases hd
        cases hd'
        exact against_excludes (Predicate.member_excludes _) hf hk
  | _ => cases hd

theorem member_excludes (hfilters : d'.Filters fun _ => true)
    (hd : member c (l.lower c) (r.lower c) false = .ok d)
    (hd' : member c (l.lower c) (r.lower c) true = .ok d') :
    d.Excludes ps g t d' := by
  unfold member at hd hd'
  split at hd
  · cases hd
    exact never_excludes _
  · rename_i hnull
    rw [if_neg hnull] at hd'
    split at hd
    · rename_i list hlist
      rw [hlist] at hd'
      exact constantMember_excludes hd hd'
    · rename_i name hnone hparam
      rw [hnone, hparam] at hd'
      exact test_excludes (against_excludes (Predicate.member_excludes _)) hd hd'
    · rename_i hnone hparam
      split at hd'
      · rename_i list hlist
        rw [hnone] at hlist
        cases hlist
      · exact absurd ‹_› (hparam _)
      · exact rowMember_excludes hfilters hd hd'

/-! ### Ranges -/

structure HalfRange.Fails (c : LoweringContext) (fails : Except Error Condition) (cmp : Comparison)
    (half : HalfRange) : Prop where
  against : half.against = Lowered.against c (half.subject.lower c)
  fails : ∃ o, LoweringContext.operand? half.limit = some o ∧
    fails = if c.isNull half.limit then .ok .never else .test <$> half.against (.compare cmp o)

theorem Lowered.halfRange_fails {cmp op : Comparison} {half : HalfRange}
    (hhalf : halfRange c cmp (l.lower c) op (r.lower c) = some half) :
    half.Fails c (comparison c (l.lower c) op.negate (r.lower c)) cmp.negate.flip := by
  have hunknown {e : Expr} (he : (operand? e).isSome = false) :
      e.constant? = none ∧ operand? e = none ∧ c.isNull e = false := by
    obtain ⟨hconstant, -, hnull⟩ := Expr.of_unknown (c := c) he
    exact ⟨hconstant, Option.not_isSome_iff_eq_none.mp (Bool.eq_false_iff.mp he), hnull⟩
  unfold halfRange at hhalf
  simp only [Expr.lower_expr, Bool.and_eq_true, Bool.not_eq_true', decide_eq_true_eq] at hhalf
  split at hhalf
  · rename_i hsides
    obtain ⟨⟨rfl, hl⟩, hr⟩ := hsides
    obtain ⟨hconstant, hnone, hnull⟩ := hunknown hr
    obtain ⟨o, ho⟩ := Option.isSome_iff_exists.mp hl
    cases hhalf
    refine ⟨rfl, o, ho, ?_⟩
    rw [comparison, Expr.lower_expr, Expr.lower_expr, hnull, Bool.or_false, hconstant, ho, hnone]
    cases l.constant? <;> rfl
  · split at hhalf
    · rename_i hsides
      obtain ⟨⟨rfl, hl⟩, hr⟩ := hsides
      obtain ⟨hconstant, hnone, hnull⟩ := hunknown hl
      obtain ⟨o, ho⟩ := Option.isSome_iff_exists.mp hr
      cases hhalf
      refine ⟨rfl, o, ho, ?_⟩
      rw [comparison, Expr.lower_expr, Expr.lower_expr, hnull, Bool.false_or, hconstant, ho, hnone,
        cmp.flip_negate]
    · cases hhalf

theorem Expr.limits_fail (c : LoweringContext) (e : Expr) :
    (∀ half, (e.lower c).lower? = some half → half.Fails c (e.lower c).fails .lt) ∧
      ∀ half, (e.lower c).upper? = some half → half.Fails c (e.lower c).fails .ge := by
  have hnone {P : HalfRange → Prop} : ∀ half, none = some half → P half := fun _ h => by cases h
  cases e with
  | binary l op r =>
    cases op with
    | compare cmp => exact ⟨fun _ => halfRange_fails, fun _ => halfRange_fails⟩
    | _ => exact ⟨hnone, hnone⟩
  | unary op x => cases op <;> exact ⟨hnone, hnone⟩
  | call name args distinct =>
    rw [lower, ofCall]
    split <;> exact ⟨hnone, hnone⟩
  | _ => exact ⟨hnone, hnone⟩

def Expr.LimitsAgree (c : LoweringContext) (l r : Expr) : Prop :=
  ∀ low high, (l.lower c).lower? = some low → (r.lower c).upper? = some high →
    (low.subject == high.subject) = true → low.subject = high.subject

theorem range_excludes (hagree : l.LimitsAgree c r)
    (hd : range? c (l.lower c) (r.lower c) = .ok (some d)) :
    Gives (d.Excludes ps g t) (l.lower c).fails ∧ Gives (d.Excludes ps g t) (r.lower c).fails := by
  unfold range? at hd
  split at hd
  case h_2 => cases hd
  rename_i low high hlow hhigh
  split at hd
  · cases hd
  rename_i hsame
  have hsubject := hagree low high hlow hhigh (by simpa [bne] using hsame)
  obtain ⟨hagainst, o, ho, hfails⟩ := (l.limits_fail c).1 low hlow
  obtain ⟨hagainst', o', ho', hfails'⟩ := (r.limits_fail c).2 high hhigh
  split at hd
  · cases hd
    exact ⟨fun _ _ => never_excludes _, fun _ _ => never_excludes _⟩
  · rename_i hnull
    rw [Bool.or_eq_true, not_or] at hnull
    rw [ho, ho'] at hd
    obtain ⟨f, hf, hd⟩ := bind_eq_ok.mp hd
    cases hd
    rw [hagainst] at hf
    rw [hfails, hfails', if_neg hnull.1, if_neg hnull.2, hagainst, hagainst', ← hsubject]
    obtain ⟨hlow, hhigh⟩ := Predicate.between_excludes o o'
    exact ⟨fun _ => test_excludes (against_excludes hlow) (map_eq_ok.mpr ⟨f, hf, rfl⟩),
      fun _ => test_excludes (against_excludes hhigh) (map_eq_ok.mpr ⟨f, hf, rfl⟩)⟩

/-! ### Expressions -/

theorem Condition.Filters.both (c : LoweringContext) (hd : d.Filters fun _ => true)
    (hd' : d'.Filters fun _ => true) : (all [d, d']).Filters fun _ => true := by
  have hself {d : Condition} (hd : d.Filters fun _ => true) :
      d.Related (Traversal.Both (Traversal.Filters fun _ => true)) d := by
    cases d with
    | always => exact .always
    | never => exact .never
    | test f => exact .test ⟨rfl, hd⟩
  exact (Condition.Related.all (Expr.readsWithin _ c).related.toRelates
    (Condition.Related.pair (hself hd) (hself hd'))).inClass.filters

theorem Condition.keeps_of_pairs (c : LoweringContext) {a b : Condition}
    (ha : a.Filters fun _ => true) (hb : b.Filters fun _ => true) (hd : d.Filters fun _ => true)
    (hd' : d'.Filters fun _ => true) (hkeeps : (any [all [a, b], all [d, d']]).Keeps ps g t) :
    a.Keeps ps g t ∧ b.Keeps ps g t ∨ d.Keeps ps g t ∧ d'.Keeps ps g t :=
  (keeps_of_either (.both c ha hb) (.both c hd hd') hkeeps).imp (keeps_of_both (.both c ha hb))
    (keeps_of_both (.both c hd hd'))

def Lowered.Exclusive (ps : Parameters) (g : Graph) (t : Traverser) (l : Lowered) : Prop :=
  ∀ yes no, l.holds = .ok yes → l.fails = .ok no → yes.Excludes ps g t no

namespace Expr

/-- Limits that are fused into one range are limits of one and the same value. -/
def RangesAgree (c : LoweringContext) : Expr → Prop
  | binary l .and r => RangesAgree c l ∧ RangesAgree c r ∧ l.LimitsAgree c r
  | binary l .or r | binary l .xor r => RangesAgree c l ∧ RangesAgree c r
  | unary .not e => RangesAgree c e
  | _ => True

theorem filters_of_holds (hd : (e.lower c).holds = .ok d) : d.Filters fun _ => true :=
  (e.lower_readsOnly c (e.allKeys_of_forall fun _ => rfl)).holds d hd

theorem filters_of_fails (hd : (e.lower c).fails = .ok d) : d.Filters fun _ => true :=
  (e.lower_readsOnly c (e.allKeys_of_forall fun _ => rfl)).fails d hd

theorem ofValue_exclusive (h : e.lower c = .ofValue e (e.lower c).value) :
    (e.lower c).Exclusive ps g t := by
  intro yes no hyes hno
  rw [h] at hyes hno
  exact valueIs_excludes (fun f hf => .value hf) hyes hno

theorem conjunction_exclusive (hagree : l.LimitsAgree c r) (hl : (l.lower c).Exclusive ps g t)
    (hr : (r.lower c).Exclusive ps g t) : ((binary l .and r).lower c).Exclusive ps g t := by
  intro yes no hyes hno
  have hfilters := filters_of_holds hyes
  obtain ⟨notL, hnotL, hno⟩ := bind_eq_ok.mp hno
  obtain ⟨notR, hnotR, hno⟩ := bind_eq_ok.mp hno
  obtain ⟨range, hrange, hyes⟩ := bind_eq_ok.mp hyes
  cases hno
  intro hkeeps hfails
  have hfails := keeps_of_either (filters_of_fails hnotL) (filters_of_fails hnotR) hfails
  cases range with
  | some d =>
    cases hyes
    obtain ⟨hleft, hright⟩ := range_excludes hagree hrange
    exact hfails.elim (hleft notL hnotL hkeeps) (hright notR hnotR hkeeps)
  | none =>
    obtain ⟨yesL, hyesL, hyes⟩ := bind_eq_ok.mp hyes
    obtain ⟨yesR, hyesR, hyes⟩ := bind_eq_ok.mp hyes
    cases hyes
    obtain ⟨hleft, hright⟩ := keeps_of_both hfilters hkeeps
    exact hfails.elim (hl yesL notL hyesL hnotL hleft) (hr yesR notR hyesR hnotR hright)

theorem disjunction_exclusive (hl : (l.lower c).Exclusive ps g t)
    (hr : (r.lower c).Exclusive ps g t) : ((binary l .or r).lower c).Exclusive ps g t := by
  intro yes no hyes hno
  have hfilters := filters_of_fails hno
  obtain ⟨yesL, hyesL, hyes⟩ := bind_eq_ok.mp hyes
  obtain ⟨yesR, hyesR, hyes⟩ := bind_eq_ok.mp hyes
  obtain ⟨notL, hnotL, hno⟩ := bind_eq_ok.mp hno
  obtain ⟨notR, hnotR, hno⟩ := bind_eq_ok.mp hno
  cases hyes
  cases hno
  intro hkeeps hfails
  obtain ⟨hleft, hright⟩ := keeps_of_both hfilters hfails
  obtain hkeeps | hkeeps :=
    keeps_of_either (filters_of_holds hyesL) (filters_of_holds hyesR) hkeeps
  · exact hl yesL notL hyesL hnotL hkeeps hleft
  · exact hr yesR notR hyesR hnotR hkeeps hright

theorem exclusiveOr_exclusive (hl : (l.lower c).Exclusive ps g t)
    (hr : (r.lower c).Exclusive ps g t) : ((binary l .xor r).lower c).Exclusive ps g t := by
  intro yes no hyes hno
  obtain ⟨yesL, hyesL, hyes, hno⟩ := bind_both hyes hno
  obtain ⟨notL, hnotL, hyes, hno⟩ := bind_both hyes hno
  obtain ⟨yesR, hyesR, hyes, hno⟩ := bind_both hyes hno
  obtain ⟨notR, hnotR, hyes, hno⟩ := bind_both hyes hno
  cases hyes
  cases hno
  have hyesL' := filters_of_holds hyesL
  have hnotL' := filters_of_fails hnotL
  have hyesR' := filters_of_holds hyesR
  have hnotR' := filters_of_fails hnotR
  have hleft := hl yesL notL hyesL hnotL
  have hright := hr yesR notR hyesR hnotR
  intro hkeeps hfails
  have hfails := keeps_of_pairs c hyesL' hyesR' hnotL' hnotR' hfails
  obtain ⟨hyes, hno⟩ | ⟨hno, hyes⟩ :=
    keeps_of_pairs c hyesL' hnotR' hnotL' hyesR' hkeeps
  · exact hfails.elim (fun h => hright h.2 hno) fun h => hleft hyes h.1
  · exact hfails.elim (fun h => hleft h.1 hno) fun h => hright hyes h.2

theorem lower_exclusive (he : e.RangesAgree c) : (e.lower c).Exclusive ps g t := by
  induction e using induction_parts with
  | step e ih =>
    cases e with
    | literal s =>
      intro yes no hyes hno
      cases s with
      | bool a =>
        cases hyes
        cases hno
        exact decided_excludes fun h => by rw [beq_iff_eq.mp h]; rfl
      | null =>
        cases hyes
        exact never_excludes no
      | _ => cases hyes
    | param name =>
      intro yes no hyes hno
      rw [lower, ofParameter] at hyes hno
      dsimp only at hyes hno
      split at hyes
      · cases hyes
        exact never_excludes no
      · rename_i hnull
        rw [if_neg hnull] at hno
        exact valueIs_excludes (fun f hf => .value (e := .param name) (c := c) hf) hyes hno
    | binary l op r =>
      have hl := ih l mem_cons_self
      have hr := ih r (mem_cons_of_mem l mem_cons_self)
      cases op with
      | compare cmp => exact fun yes no => comparison_excludes
      | and => exact conjunction_exclusive he.2.2 (hl he.1) (hr he.2.1)
      | or => exact disjunction_exclusive (hl he.1) (hr he.2)
      | xor => exact exclusiveOr_exclusive (hl he.1) (hr he.2)
      | text m => exact fun yes no hyes hno => textMatch_excludes (filters_of_fails hno) hyes hno
      | member => exact fun yes no hyes hno => member_excludes (filters_of_fails hno) hyes hno
      | arith a => exact ofValue_exclusive (congrArg (ofValue · _) (by rw [lower_expr, lower_expr]))
    | unary op x =>
      cases op with
      | not => exact fun yes no hyes hno => (ih x mem_cons_self he no yes hno hyes).symm
      | isNull => exact fun yes no => nullTest_excludes
      | isNotNull => exact fun yes no hyes hno => (nullTest_excludes hno hyes).symm
      | negate => exact ofValue_exclusive (congrArg (ofValue · _) (by rw [lower_expr]))
    | call name args distinct =>
      by_cases hname : ScalarFunction.ofName? name = some .existence
      · intro yes no hyes hno
        rw [lower, ofCall, hname] at hyes hno
        cases args with
        | nil => cases hyes
        | cons a args => exact (nullTest_excludes hno hyes).symm
      · refine ofValue_exclusive ?_
        rw [lower, ofCall]
        split
        · contradiction
        all_goals rfl
    | _ => exact ofValue_exclusive rfl

end Expr

/-! ### Truth values -/

theorem Process.eachRow_one (f : Traverser → Run (List Traverser)) (t : Traverser) :
    Process.eachRow f [t] = f t := by
  rw [Process.eachRow, Process.eachRow]
  simp only [pure_bind, append_nil, bind_pure]

theorem Condition.branch_outcome {h k : Traversal}
    (hd : (d.filter.run ps [t]).outcome g = (.ok (if b then [t] else []), g))
    (hf : d.branch (.ok h) k = .ok f) :
    (f.run ps [t]).outcome g = ((if b then h else k).run ps [t]).outcome g := by
  cases d with
  | always =>
    cases hf
    cases b with
    | true => rfl
    | false => cases hd
  | never =>
    cases hf
    cases b with
    | true => cases hd
    | false => rfl
  | test e =>
    cases hf
    have hleads : ((e.run ps).leads t).outcome g = (.ok b, g) := by
      refine (outcome_bind_ok (x := e.run ps [t]) hd).trans ?_
      cases b <;> rfl
    rw [Traversal.run_step (p := .choose (e.run ps) (h.run ps) (k.run ps)) rfl, Process.choose,
      Process.eachRow_one, outcome_bind_ok hleads]
    cases b <;> rfl

def Scalar.ofConditions (holds fails : Bool) : Scalar :=
  if holds then .bool true else if fails then .bool false else .null

theorem Lowered.truthValue_eq (yes no : Condition) :
    truthValue (.ok yes) (.ok no) =
      no.branch (.ok (constantValue (.bool false))) (constantValue .null) >>=
        fun rest => yes.branch (.ok (constantValue (.bool true))) rest := by
  cases yes <;> cases no <;> rfl

theorem truthValue_outcome {yes no : Condition} (hf : truthValue (.ok yes) (.ok no) = .ok f)
    (hyes : (yes.filter.run ps [t]).outcome g = (.ok (if a then [t] else []), g))
    (hno : (no.filter.run ps [t]).outcome g = (.ok (if b then [t] else []), g)) :
    (f.run ps [t]).outcome g = (.ok [t.moveTo (.scalar (.ofConditions a b))], g) := by
  have hconstant (s : Scalar) : (Traversal.run ps (constantValue (.scalar s)) [t]).outcome g =
      (.ok [t.moveTo (.scalar s)], g) := constant_outcome
  rw [truthValue_eq] at hf
  obtain ⟨rest, hrest, hf⟩ := bind_eq_ok.mp hf
  rw [branch_outcome hyes hf]
  cases a with
  | true => exact hconstant _
  | false =>
    refine (branch_outcome hno hrest).trans ?_
    cases b <;> exact hconstant _

/-- An expression whose value is made from its two conditions. -/
def Expr.asks : Expr → Bool
  | binary _ (.arith _) _ | unary .negate _ => false
  | binary .. | unary .. => true
  | call name _ _ => ScalarFunction.ofName? name == some .existence
  | _ => false

theorem Expr.value_of_asks (he : e.asks) :
    (e.lower c).value = truthValue (e.lower c).holds (e.lower c).fails := by
  cases e with
  | binary l op r =>
    cases op with
    | arith a => cases he
    | _ => rfl
  | unary op x =>
    cases op with
    | negate => cases he
    | _ => rfl
  | call name args distinct =>
    rw [lower, ofCall, beq_iff_eq.mp he]
    rfl
  | _ => cases he

/-- The condition is tested without an error. -/
def Condition.Ends (ps : Parameters) (g : Graph) (t : Traverser) (d : Condition) : Prop :=
  ∃ us g', (d.filter.run ps [t]).outcome g = (.ok us, g')

theorem Condition.Ends.decided (hends : d.Ends ps g t) (hd : d.Filters fun _ => true) :
    ∃ b : Bool, (d.filter.run ps [t]).outcome g = (.ok (if b then [t] else []), g) ∧
      (b ↔ d.Keeps ps g t) := by
  obtain ⟨us, g', hrun⟩ := hends
  obtain ⟨rfl, rfl | rfl⟩ := Traversal.Filters.outcome_one hd hrun
  · refine ⟨false, hrun, nofun, fun h => ?_⟩
    cases hrun.symm.trans h
  · exact ⟨true, hrun, fun _ => hrun, fun _ => rfl⟩

/-- **Conditions exclude their negations.** The value of an expression leads from a row to at most
one row. If the limits that the condition puts together are limits of one subject, then no row
passes both the condition and its negation; and where both come to an end, an expression that asks
for an answer has one truth value: true where the condition lets the row pass, false where its
negation does, and null elsewhere. -/
theorem conditions_exclude_negations (c : LoweringContext) (e : Expr) (g : Graph) (t : Traverser) :
    (∀ f us g', (e.lower c).value = .ok f → (f.run c.parameters [t]).outcome g = (.ok us, g') →
      us.length ≤ 1) ∧
    (e.RangesAgree c → ∀ yes no, (e.lower c).holds = .ok yes → (e.lower c).fails = .ok no →
      ¬(yes.Keeps c.parameters g t ∧ no.Keeps c.parameters g t) ∧
      (e.asks → yes.Ends c.parameters g t → no.Ends c.parameters g t →
        ∃ f s, (e.lower c).value = .ok f ∧
          (f.run c.parameters [t]).outcome g = (.ok [t.moveTo (.scalar s)], g) ∧
          (s = .bool true ↔ yes.Keeps c.parameters g t) ∧
          (s = .bool false ↔ no.Keeps c.parameters g t) ∧
          (s = .null ↔ ¬yes.Keeps c.parameters g t ∧ ¬no.Keeps c.parameters g t))) := by
  constructor
  · intro f us g' hf hrun
    obtain rfl | ⟨u, rfl, -⟩ := Expr.rows_of_value hf hrun
    · exact Nat.zero_le 1
    · exact Nat.le_refl 1
  · intro he yes no hyes hno
    have hexcludes : yes.Excludes c.parameters g t no := Expr.lower_exclusive he yes no hyes hno
    refine ⟨fun h => hexcludes h.1 h.2, fun hasks hends hends' => ?_⟩
    obtain ⟨a, ha, hkeeps⟩ := hends.decided (Expr.filters_of_holds hyes)
    obtain ⟨b, hb, hkeeps'⟩ := hends'.decided (Expr.filters_of_fails hno)
    obtain ⟨f, hf⟩ : ∃ f, truthValue (.ok yes) (.ok no) = .ok f := by
      cases yes <;> cases no <;> exact ⟨_, rfl⟩
    refine ⟨f, _, ?_, truthValue_outcome hf ha hb, ?_⟩
    · rw [Expr.value_of_asks hasks, hyes, hno, hf]
    · rw [← hkeeps, ← hkeeps']
      have hnot : a → b = false := fun ha =>
        Bool.eq_false_iff.mpr fun hb => hexcludes (hkeeps.mp ha) (hkeeps'.mp hb)
      cases a <;> cases b <;> simp_all [Scalar.ofConditions]

theorem marko_does_not_pass_negation :
    let c : LoweringContext :=
      { scope := { bindings := [⟨"n", .node⟩] }, parameters := [], current := some "n",
        clause := "MATCH" }
    let t : Traverser := { object := .vertex ⟨1⟩, path := [("n", .vertex ⟨1⟩)] }
    let age : Expr := .access (.var "n") "age"
    let e : Expr := .binary (.binary (.literal (.int 18)) (.compare .le) age) .and
      (.binary age (.compare .lt) (.literal (.int 30)))
    e.RangesAgree c ∧ ∃ yes no f, (e.lower c).holds = .ok yes ∧ (e.lower c).fails = .ok no ∧
      (e.lower c).value = .ok f ∧ yes.Keeps [] .modern t ∧ ¬no.Keeps [] .modern t ∧
      (f.run [] [t]).outcome .modern = (.ok [t.moveTo (.scalar (.bool true))], .modern) := by
  intro c t age e
  have he : e.RangesAgree c := by
    refine ⟨trivial, trivial, fun low high hlow hhigh _ => ?_⟩
    cases hlow
    cases hhigh
    rfl
  obtain ⟨hexcludes, htruth⟩ := (conditions_exclude_negations c e .modern t).2 he _ _ rfl rfl
  have hkeeps : Keeps [] .modern t
      (.test [.hasPredicate "age" (.between (.value (.int 18)) (.value (.int 30)))]) := rfl
  obtain ⟨f, s, hf, hrun, htrue, -⟩ := htruth rfl ⟨_, _, hkeeps⟩ ⟨_, _, rfl⟩
  rw [htrue.mpr hkeeps] at hrun
  exact ⟨he, _, _, f, rfl, rfl, hf, hkeeps, fun h => hexcludes ⟨hkeeps, h⟩, hrun⟩

/-- Zeros of either sign are taken for one, so that a limit of 1.0 / -0.0 and a limit of 1.0 / 0.0
make up a range, although the first number is below all others and the second above: the row passes
the condition, and it passes the negation too. -/
theorem signed_zeros_pass_negation :
    let range := "-1.0 / 0.0 <= coalesce(1.0 / -0.0) AND coalesce(1.0 / 0.0) < 5.0"
    let rows (text : String) : Option Nat :=
      (Session.submit ⟨.native, true, .empty "g"⟩ text []).1.toOption.map (·.rows.length)
    rows ("WITH 1 AS x WHERE " ++ range ++ " RETURN x") = some 1 ∧
      rows ("WITH 1 AS x WHERE NOT (" ++ range ++ ") RETURN x") = some 1 := by
  decide +kernel

end CypherTraversal
