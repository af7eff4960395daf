import CypherTraversal.Proofs.Bindings.Values
import CypherTraversal.Proofs.Expressions.Tested
import CypherTraversal.Proofs.Run.Matched

/-! # Rows that look alike

Rows at the same object with the same labels under the names that a step reads. The step keeps
them alike. -/

namespace CypherTraversal

open Run Traverser List Process

variable {name : String} {p : Predicate} {s : Step} {test : Object → Run Bool} {ps : Parameters}
  {ok : String → Bool} {here : Option String} {u v : Traverser} {o : Operand}

/-! ### Rows -/

structure Traverser.Like (ok : String → Bool) (u v : Traverser) : Prop where
  object : u.object = v.object
  labels : ∀ n, ok n → u.labelled? n = v.labelled? n

structure Traverser.Beside (here : Option String) (ok : String → Bool) (u v : Traverser) :
    Prop where
  labels : ∀ n, ok n → u.labelled? n = v.labelled? n
  selected : ∀ n, ok n → u.place.selected n = v.place.selected n
  current : ∀ x, here = some x → u.place.selected x = some u.object

theorem Traverser.Like.beside (h : u.Like ok v) : u.Beside none ok v := by
  refine ⟨h.labels, fun n hn => ?_, fun x hx => by cases hx⟩
  have hlookup : u.path.lookup n = v.path.lookup n := h.labels n hn
  unfold Place.selected place
  rw [h.object, hlookup]

theorem Traverser.Like.moveTo (h : ∀ n, ok n → u.labelled? n = v.labelled? n) (x : Object) :
    (u.moveTo x).Like ok (v.moveTo x) :=
  ⟨rfl, h⟩

def orCompare (ok : String → Bool) (n : String) : Bool :=
  ok n || n == compareLabel

theorem Traverser.Like.mark (h : u.Like ok v) :
    (u.mark compareLabel).Like (orCompare ok) (v.mark compareLabel) := by
  refine ⟨h.object, fun n hn => ?_⟩
  change List.lookup n ((compareLabel, u.object) :: u.path) =
    List.lookup n ((compareLabel, v.object) :: v.path)
  rw [lookup_cons, lookup_cons, h.object]
  split
  · rfl
  · rename_i hne
    rw [orCompare, hne, Bool.or_false] at hn
    exact h.labels n hn

/-! ### Predicates -/

def Predicate.ReadsLabels (ok : String → Bool) (p : Predicate) : Prop :=
  ∀ n, .label n ∈ p.operands → ok n

theorem Predicate.test_like (hp : p.ReadsLabels ok) (h : ∀ n, ok n → u.labelled? n = v.labelled? n)
    (x : Object) : p.test ps u x = p.test ps v x := by
  have hresolve (o : Operand) (ho : o ∈ p.operands) : o.resolve ps u = o.resolve ps v := by
    cases o with
    | value x | parameter name => rfl
    | label n => rw [Operand.resolve, Operand.resolve, h n (hp n ho)]
  cases p with
  | compare c o | within o | without o | text m o => rw [test, test, hresolve o mem_cons_self]
  | between low high =>
    rw [test, test, hresolve low mem_cons_self, hresolve high (mem_cons_of_mem _ mem_cons_self)]

def Predicate.Fixed (p : Predicate) : Prop :=
  ∀ n, .label n ∉ p.operands

theorem Predicate.Fixed.single (hp : p.operands = [o]) (ho : ∀ n, .label n ≠ o) : p.Fixed := by
  intro n hn
  rw [hp, mem_singleton] at hn
  exact ho n hn

theorem Predicate.Fixed.value {v : Value} (hp : p.operands = [.value v]) : p.Fixed :=
  single hp fun _ hn => by cases hn

theorem Predicate.Over.fixed (hp : p.Over fun o => ∀ n, .label n ≠ o) : p.Fixed :=
  fun n hn => hp _ hn n rfl

theorem Predicate.Fixed.readsLabels (hp : p.Fixed) : p.ReadsLabels ok :=
  fun n hn => absurd hn (hp n)

theorem Predicate.Fixed.test_eq (hp : p.Fixed) (u v : Traverser) (x : Object) :
    p.test ps u x = p.test ps v x := by
  have hnone : p.ReadsLabels fun _ => false := hp.readsLabels
  exact test_like hnone (fun _ hn => by cases hn) x

theorem LoweringContext.operand?_ne_label {e : Expr} (h : LoweringContext.operand? e = some o)
    (n : String) : .label n ≠ o := by
  unfold operand? at h
  split at h
  · cases h
    exact fun hn => by cases hn
  · obtain ⟨x, -, rfl⟩ := Option.map_eq_some_iff.mp h
    exact fun hn => by cases hn

/-! ### Steps -/

namespace Traversal.Matches

theorem select (hname : ok name) :
    Matches ps (Beside here ok) (Like ok) [.select name] [.select name] := by
  let selected (_ : Graph) (t : Traverser) : Option Object := t.place.selected name
  refine step (p := .moveIn selected) (q := .moveIn selected) rfl rfl (.moveIn fun g u v h => ?_)
  rw [show selected g u = selected g v from h.selected name hname]
  cases selected g v with
  | none => exact .none
  | some x => exact .some (.moveTo h.labels x)

theorem constant (ho : ∀ n, .label n ≠ o) :
    Matches ps (Beside here ok) (Like ok) [.constant o] [.constant o] := by
  refine step rfl rfl (.move fun g u v hg h => ?_)
  have hresolve : o.resolve ps u = o.resolve ps v := by
    cases o with
    | label n => exact absurd rfl (ho n)
    | _ => rfl
  rw [hresolve]
  refine (Run.Lockstep.refl _ g).map ?_
  rintro _ x _ - rfl
  exact .some (.moveTo h.labels x)

theorem constantValue (x : Value) :
    Matches ps (Beside here ok) (Like ok) (constantValue x) (constantValue x) :=
  constant fun _ hn => by cases hn

theorem moveIn {m : Graph → Object → Option Object}
    (hs : Step.stage ps s = .process (.moveIn fun g t => m g t.object)) :
    Matches ps (Like ok) (Like ok) [s] [s] := by
  refine step hs hs (.moveIn fun g u v h => ?_)
  rw [h.object]
  cases m g v.object with
  | none => exact .none
  | some x => exact .some (.moveTo h.labels x)

theorem satisfies (hs : Step.stage ps s = .process (.satisfies ps p)) (hp : p.ReadsLabels ok) :
    Matches ps (Like ok) (Like ok) [s] [s] := by
  refine step hs hs (.keep fun g u v _ h => ?_)
  rw [Predicate.test_like hp h.labels, h.object]
  exact .refl _ g

theorem is (hp : p.Fixed) : Matches ps (Like ok) (Like ok) [.is p] [.is p] :=
  satisfies rfl hp.readsLabels

theorem markCompare : Matches ps (Like ok) (Like (orCompare ok)) [.mark compareLabel]
    [.mark compareLabel] := by
  refine step rfl rfl (.pick fun g us vs h => ?_)
  exact rel_map (fun _ _ h => h.mark) h

theorem unfold : Matches ps (Like ok) (Like ok) [.unfold] [.unfold] := by
  refine step rfl rfl (.eachRow fun g u v hg h => .pure hg ?_)
  rw [h.object]
  exact forall₂_map_same fun x _ => .moveTo h.labels x

theorem fold {S : Traverser → Traverser → Prop} (hS : ∀ u v, S u v → u.object = v.object) :
    Matches ps S (Like ok) [.fold] [.fold] := by
  refine step rfl rfl fun g hg us vs h => ?_
  have hobjects := map_eq_of_forall₂ h hS
  unfold collect
  rw [hobjects]
  exact .pure hg (.cons ⟨rfl, fun _ _ => rfl⟩ .nil)

end Traversal.Matches

def Step.TestsObject (ps : Parameters) (s : Step) (test : Object → Run Bool) : Prop :=
  Step.stage ps s = .process (.keep fun t => test t.object)

theorem Predicate.Fixed.testsObject (hp : p.Fixed) (key : String) :
    Step.TestsObject ps (.hasPredicate key p) fun x => do
      match (← Run.graph).property? key x with
      | some v => Run.ofExcept (p.test ps { object := .null } (.ofValue v))
      | none => return false := by
  refine congrArg (fun test => Stage.process (keep test)) (funext fun t => ?_)
  refine congrArg (Run.graph >>= ·) (funext fun g => ?_)
  cases g.property? key t.object with
  | none => rfl
  | some v => exact congrArg Run.ofExcept (hp.test_eq t _ _)

theorem keep_leads (test : Traverser → Run Bool) (t : Traverser) (g : Graph) :
    Run.Lockstep .exact (fun _ => (· = ·)) g (test t) ((keep test).leads t) := by
  refine Run.lockstep_iff_agree.mpr ?_
  simp only [leads, on, keep, eachRow, outcome_bind]
  rcases (test t).outcome g with ⟨e | b, g'⟩
  · exact ⟨.error e, rfl⟩
  · cases b <;> exact ⟨.ok rfl, rfl⟩

theorem leads_select (hs : s.TestsObject ps test) {x : Object}
    (hselected : v.place.selected name = some x) (g : Graph) :
    Run.Lockstep .exact (fun _ => (· = ·)) g (test x)
      ((Traversal.run ps ([.select name] ++ [s])).leads v) := by
  have hkeep := keep_leads (fun t => test t.object) (v.moveTo x) g
  rw [Run.lockstep_iff_agree] at hkeep ⊢
  unfold leads on at hkeep ⊢
  rwa [outcome_bind, Traversal.outcome_append (.of_process hs) (select_outcome hselected g),
    Traversal.run_step hs, ← outcome_bind]

theorem onElement_matches (c : LoweringContext) (hname : ok name) (hs : s.TestsObject ps test) :
    Traversal.Matches ps (Beside here ok) (Beside here ok) ((c.on here).onElement name [s])
      ((c.on none).onElement name [s]) := by
  by_cases hhere : here = some name
  · have hdirect : (c.on here).onElement name [s] = [s] := if_pos hhere
    have hfilter : (c.on none).onElement name [s] = [.filter ([.select name] ++ [s])] :=
      if_neg (by simp [LoweringContext.on])
    rw [hdirect, hfilter]
    refine .step hs rfl (.keep fun g u v _ h => ?_)
    exact leads_select hs ((h.selected name hname).symm.trans (h.current name hhere)) g
  · have hat : Traversal.Matches ps (Like ok) (Like ok) [s] [s] := by
      refine .step hs hs (.keep fun g u v _ h => ?_)
      rw [h.object]
      exact .refl _ g
    have hselect : Traversal.Matches ps (Beside here ok) (Like ok) [.select name] [.select name] :=
      .select hname
    rw [c.onElement_on hhere]
    exact (hselect.append hat).filter

end CypherTraversal
