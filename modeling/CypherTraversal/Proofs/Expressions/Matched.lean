import CypherTraversal.Proofs.Expressions.Beside

/-! # Readings with and without a place

A sheltered expression reads the same whether or not its context knows the variable that the row
is at. -/

namespace CypherTraversal

open Run Traverser List Traversal

variable {S : Traverser → Traverser → Prop} {ps : Parameters} {ok : String → Bool}
  {here : Option String}

theorem orCompare_of_ok {n : String} (h : ok n) : orCompare ok n := by
  rw [orCompare, h, Bool.true_or]

/-! ### Filters -/

structure Traversal.FiltersAlike (ps : Parameters) (S : Traverser → Traverser → Prop)
    (f k : Traversal) : Prop where
  empty : f.isEmpty = k.isEmpty
  rows : f.Matches ps S S k

theorem Traversal.FiltersAlike.append {f k f' k' : Traversal}
    (hf : f.FiltersAlike ps S k) (hf' : f'.FiltersAlike ps S k') :
    FiltersAlike ps S (f ++ f') (k ++ k') := by
  refine ⟨?_, hf.rows.append hf'.rows⟩
  have hempty (g h : Traversal) : (g ++ h).isEmpty = (g.isEmpty && h.isEmpty) := by
    cases g <;> rfl
  rw [hempty, hempty, hf.empty, hf'.empty]

abbrev Condition.Matches (ps : Parameters) (S : Traverser → Traverser → Prop) :
    Condition → Condition → Prop :=
  Condition.Related (Traversal.FiltersAlike ps S)

theorem Condition.Matches.filter {c d : Condition}
    (h : c.Matches ps S d) : c.filter.Matches ps S S d.filter := by
  cases h with
  | always => exact .nil
  | never => exact .not (f := [.identity]) (k := [.identity]) (.step rfl rfl .same)
  | test h => exact h.rows

theorem onElement_filtersAlike (c : LoweringContext) {name : String} (hname : ok name) {s : Step}
    (hs : s.TestsElement fun o => ∀ n, .label n ≠ o) :
    FiltersAlike ps (Beside here ok) ((c.on here).onElement name [s])
      ((c.on none).onElement name [s]) := by
  have hempty (c : LoweringContext) : (c.onElement name [s]).isEmpty = false := by
    unfold LoweringContext.onElement
    split <;> rfl
  refine ⟨by rw [hempty, hempty], ?_⟩
  cases s
  case has key =>
    have htests : Step.TestsObject ps (.has key) fun x => do
      return ((← Run.graph).property? key x).isSome := rfl
    exact onElement_matches c hname htests
  case hasNot key =>
    have htests : Step.TestsObject ps (.hasNot key) fun x => do
      return ((← Run.graph).property? key x).isNone := rfl
    exact onElement_matches c hname htests
  case hasPredicate key p =>
    have hp : p.Fixed := Predicate.Over.fixed hs
    exact onElement_matches c hname (hp.testsObject key)
  all_goals cases hs

/-! ### Readings -/

theorem readsLabels_compare {p : Predicate} (hp : p.operands = [.label compareLabel]) :
    p.ReadsLabels (orCompare ok) := by
  intro n hn
  rw [hp, mem_singleton] at hn
  cases hn
  rw [orCompare, beq_self_eq_true, Bool.or_true]

structure Lowered.Matches (ps : Parameters) (here : Option String) (ok : String → Bool)
    (l k : Lowered) : Prop where
  value : Agree (Traversal.Matches ps (Beside here ok) (Like ok)) l.value k.value
  holds : Agree (Condition.Matches ps (Beside here ok)) l.holds k.holds
  fails : Agree (Condition.Matches ps (Beside here ok)) l.fails k.fails

namespace Expr

theorem lowersMatched (c : LoweringContext) (ps : Parameters) (here : Option String)
    (ok : String → Bool) :
    LowersRelated (c.on here) (c.on none) (fun e => e.sheltered here ∧ ∀ n ∈ e.names, ok n)
      (fun e => ∀ n ∈ e.names, ok n) (fun _ => True) (fun o => ∀ n, .label n ≠ o)
      (FiltersAlike ps (Beside here ok)) (Matches ps (Beside here ok) (Like ok))
      (fun h => h.Matches ps (Like ok) (Like ok) h)
      (Matches ps (Beside none (orCompare ok)) (Like (orCompare ok))) where
  known _ _ hn := by cases hn
  scalar _ := .constantValue _
  choose ht hf hh := .choose ht.rows hf hh
  coalesce := .coalesce
  union h := (Matches.union h).append (.fold fun _ _ h => h.object)
  behind hf hh := hf.append hh
  steps hg hh := hg.append hh
  values key := .moveIn (m := fun g x => (g.property? key x).map .ofValue) rfl
  null := (Matches.constantValue _).mono (fun _ _ h => h.beside) fun _ _ h => h
  lookup h := .coalesce (forall₂_same.mpr h)
  is hp := .is hp.fixed
  id := .moveIn (m := fun _ x => Process.identifier? x) rfl
  label := .moveIn (m := fun g x => (g.label? x).map .str) rfl
  fold := .fold fun _ _ h => h.object
  filter hf := ⟨rfl, hf.filter⟩
  not hf := ⟨rfl, hf.rows.not⟩
  or h := ⟨rfl, .or (h.imp fun _ _ h => h.rows)⟩
  both := .append
  empty hf := hf.empty
  keep {f f' h h' s p} hf hh hs hp := by
    have hmark : Matches ps (Like ok) (Like (orCompare ok))
        ([.is notNullPredicate] ++ [.mark compareLabel])
        ([.is notNullPredicate] ++ [.mark compareLabel]) :=
      (Matches.is (.value rfl)).append .markCompare
    have hfirst : Matches ps (Like (orCompare ok)) (Like (orCompare ok)) [s] [s] := by
      rcases hs with rfl | rfl
      · exact .is (.value rfl)
      · exact .unfold
    have haway := hh.mono (fun _ _ h => Like.beside h) fun _ _ h => h
    exact ⟨rfl, (((hf.append hmark).append haway).append
      (hfirst.append (.satisfies rfl (readsLabels_compare hp)))).filter⟩
  isNull _ := rfl
  clause := rfl
  kind? _ := rfl
  mismatch _ _ := trivial
  fits _ := .inr fun _ => trivial
  part h x hx := ⟨(sheltered_iff.mp h.1).1 x hx, names_part h.2 x hx⟩
  constant _ _ := .constantValue _
  var h := .select (h.2 _ mem_cons_self)
  param _ := ⟨(fun _ hn => by cases hn), .constant fun _ hn => by cases hn⟩
  key h := (Matches.select (h.2 _ mem_cons_self)).mono (fun _ _ h => h.beside) fun _ _ h => h
  project _ hfs hlength := .project hfs (fun _ _ h => h.object)
    ((length_map _).trans hlength.symm) fun _ _ x h => .moveTo h.labels x
  element h hs := onElement_filtersAlike c (h _ (mem_cons_of_mem _ mem_cons_self)) hs

theorem lower_matches (c : LoweringContext) (ps : Parameters) (e : Expr) (here : Option String)
    (ok : String → Bool) (hs : e.sheltered here) (hok : ∀ n ∈ e.names, ok n) :
    (e.lower (c.on here)).Matches ps here ok (e.lower (c.on none)) := by
  have hrelated := lower_related (ι := Option String × (String → Bool))
    (P := fun i x => x.tests i.1 = false ∧ ∀ n ∈ x.names, i.2 n)
    (σ := fun i => (none, orCompare i.2)) (fun i => lowersMatched c ps i.1 i.2)
    (fun i e he => ?_) (fun i e he => ?_) e (here, ok) ⟨hs, hok⟩
  · exact ⟨hrelated.value.agree, hrelated.holds.agree, hrelated.fails.agree⟩
  · exact (sheltered_iff.mp he.1).2.mono (fun x hx _ => names_part he.2 x hx)
      fun x hx htests => ⟨htests, names_part he.2 x hx⟩
  · exact ⟨⟨sheltered_none e, fun n hn => orCompare_of_ok (he.2 n hn)⟩, lower_on c e he.1, rfl⟩

end Expr

/-! ### Contexts that agree on names

An expression asks of its scope and of the variable for the current object only what concerns its
own names, and of parameters only whether they are null. -/

structure LoweringContext.Agrees (ok : String → Bool) (c c' : LoweringContext) : Prop where
  kind? : ∀ n, ok n → c.scope.kind? n = c'.scope.kind? n
  current : ∀ n, ok n → (c.current = some n ↔ c'.current = some n)
  isNull : ∀ e, c.isNull e = c'.isNull e
  clause : c.clause = c'.clause

variable {c c' : LoweringContext}

namespace Expr

variable (h : c.Agrees ok c')

include h

theorem lowersAgreed : LowersRelated c c' (fun e => ∀ n ∈ e.names, ok n)
    (fun e => ∀ n ∈ e.names, ok n) (fun _ => True) (fun _ => True) Eq Eq (fun _ => True) Eq := by
  refine lowersRelated_eq h.isNull h.clause (fun hx => h.kind? _ (hx _ mem_cons_self)) names_part ?_
  intro name key hnames steps
  have hcurrent := h.current name (hnames name (mem_cons_of_mem _ mem_cons_self))
  simp only [LoweringContext.onElement, hcurrent]

theorem lower_agrees (e : Expr) (he : ∀ n ∈ e.names, ok n) : e.lower c = e.lower c' :=
  (lower_related_of (lowersAgreed h)
    (fun _ he => consults_of_parts fun x hx => ⟨names_part he x hx, names_part he x hx⟩) e he).eq

end Expr

end CypherTraversal
