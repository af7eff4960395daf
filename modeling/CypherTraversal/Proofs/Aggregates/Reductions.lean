import CypherTraversal.Proofs.Run.Rows
import CypherTraversal.Proofs.Value.Sameness
import CypherTraversal.Traversal.OfQuery

/-! # Results of aggregates

`Aggregate.result` says what an aggregate makes of its arguments: nulls do not count, and with
DISTINCT only the first of several arguments that are the same does. The steps of an aggregate
compute this from a stream of arguments, and fail exactly where it fails. -/

namespace CypherTraversal

open Run LowerClause List Traversal Process Scalar

variable {ns : List Int} {start : Int} {a : Aggregate} {xs : List Object}

namespace Aggregate

/-- The arguments that an aggregate counts: never nulls, and each once if it is distinct. -/
def counted (a : Aggregate) (xs : List Object) : List Object :=
  let present := xs.filter fun x => !x.isNull
  if a.distinct then present.eraseDups else present

def reducedOr (r : Reduction) (empty : Object) (xs : List Object) : Except Error Object :=
  (Process.reduce r xs).map fun ys => ys.head?.getD empty

/-- The answer of an aggregate to the arguments of a group. -/
def result (a : Aggregate) (xs : List Object) : Except Error Object :=
  match a.function with
  | .count => .ok (.int (a.counted xs).length)
  | .collect => .ok (.list (a.counted xs))
  | .sum => reducedOr .sum (.int 0) (a.counted xs)
  | .avg => reducedOr .mean .null (a.counted xs)
  | .min => reducedOr .min .null (a.counted xs)
  | .max => reducedOr .max .null (a.counted xs)

/-! ### Sums -/

end Aggregate

/-! ### Running the steps of an aggregate -/

namespace Process

theorem dedup_objects (ts : List Traverser) :
    (dedup ts).map Traverser.object = (ts.map Traverser.object).eraseDups := by
  -- the objects that were seen are those of the rows that are kept, the latest first
  have hloop (kept : List Traverser) :
      ((ts.foldl (fun (acc : List Object × List Traverser) t =>
        if acc.1.any fun x => x == t.object then acc else (t.object :: acc.1, t :: acc.2))
          (kept.map Traverser.object, kept)).2.reverse).map Traverser.object =
        List.eraseDupsBy.loop (· == ·) (ts.map Traverser.object) (kept.map Traverser.object) := by
    induction ts generalizing kept with
    | nil =>
      rw [foldl_nil, map_nil, List.eraseDupsBy.loop, map_reverse]
    | cons t ts ih =>
      have hany : ((kept.map Traverser.object).any fun x => x == t.object) =
          (kept.map Traverser.object).any fun x => t.object == x :=
        congrArg (kept.map Traverser.object).any (funext fun x => Object.same_comm x t.object)
      rw [foldl_cons, map_cons, List.eraseDupsBy.loop, hany]
      cases (kept.map Traverser.object).any fun x => t.object == x with
      | true => exact ih kept
      | false => exact ih (t :: kept)
  exact hloop []

variable {ps : Parameters} {g : Graph}

theorem collect_outcome (f : List Object → Except Error (List Object)) (ts : List Traverser) :
    (collect f ts).outcome g =
      ((f (ts.map Traverser.object)).map fun ys => ys.map fun y => { object := y }, g) := by
  unfold collect
  cases f (ts.map Traverser.object) <;> rfl

theorem unfold_outcome (t : Traverser) :
    (unfold [t]).outcome g = (.ok ((parts t.object).map t.moveTo), g) := by
  have hsends : Sends g (fun _ => True) unfold fun t => (parts t.object).map t.moveTo :=
    .eachRow fun _ _ => rfl
  exact hsends.one trivial

end Process

section Steps

variable {ps : Parameters} {g : Graph}

theorem Traversal.firstOrNull_append {f h : Traversal} (hh : h.Starts ps) {ts us : List Traverser}
    (hf : (f.run ps ts).outcome g = (.ok us, g)) :
    ((run ps (f ++ h)).firstOrNull ts).outcome g = ((h.run ps).firstOrNull us).outcome g := by
  rw [firstOrNull, firstOrNull, outcome_bind, outcome_bind, outcome_append hh hf]

theorem countedSteps_outcome (ps : Parameters) (g : Graph) (a : Aggregate) (ts : List Traverser) :
    ∃ us : List Traverser, us.map Traverser.object = a.counted (ts.map Traverser.object) ∧
      (run ps (.is notNullPredicate :: if a.distinct then [.dedup] else []) ts).outcome g
        = (.ok us, g) := by
  have hpresent : (run ps [.is notNullPredicate] ts).outcome g =
      (.ok (ts.filter fun t => !t.object.isNull), g) := by
    have hkeep : Passes ps g [.is notNullPredicate] (fun t => !t.object.isNull)
        fun t => t := .keep rfl fun t => rfl
    rw [hkeep.outcome, map_id']
  have hobjects : (ts.filter fun t => !t.object.isNull).map Traverser.object =
      (ts.map Traverser.object).filter fun x => !x.isNull := by
    rw [filter_map]
    rfl
  unfold Aggregate.counted
  cases a.distinct with
  | false => exact ⟨_, hobjects, hpresent⟩
  | true =>
    refine ⟨Process.dedup (ts.filter fun t => !t.object.isNull), ?_, ?_⟩
    · rw [dedup_objects, hobjects]
      rfl
    · have hdedup : Starts ps [.dedup] := rfl
      exact outcome_append hdedup hpresent

theorem reduceOr_outcome (r : Reduction) (empty : Value) (ts : List Traverser) :
    ((run ps (reduceOr r empty)).firstOrNull ts).outcome g =
      (Aggregate.reducedOr r (.ofValue empty) (ts.map Traverser.object), g) := by
  -- the stream becomes one row, at the list of its objects
  have hfold : (run ps [.fold] ts).outcome g =
      (.ok [{ object := .list (ts.map Traverser.object) }], g) := rfl
  have hstarts : Starts ps [.coalesce [[.unfold, .reduce r], constantValue empty]] := rfl
  refine (firstOrNull_append hstarts hfold).trans ?_
  generalize ts.map Traverser.object = xs
  have hreduce : (run ps [.unfold, .reduce r] [{ object := .list xs }]).outcome g =
      ((reduce r xs).map fun ys => ys.map fun y => { object := y }, g) := by
    have hunfold : (run ps [.unfold] [{ object := .list xs }]).outcome g =
        (.ok (xs.map (Traverser.moveTo { object := .list xs })), g) :=
      unfold_outcome _
    have hstarts : Starts ps [.reduce r] := rfl
    refine (outcome_append hstarts hunfold).trans ?_
    rw [run_step (p := .collect (reduce r)) rfl, collect_outcome, map_map]
    rw [show Traverser.object ∘ Traverser.moveTo { object := .list xs } = id from rfl, map_id]
  rw [run_step (p := .eachRow fun u => coalesce u
    [run ps [.unfold, .reduce r], run ps (constantValue empty)]) rfl]
  unfold firstOrNull eachRow eachRow Aggregate.reducedOr
  rw [outcome_bind, outcome_bind]
  unfold coalesce on
  rw [outcome_bind, hreduce]
  cases reduce r xs with
  | error e => rfl
  | ok ys =>
    cases ys <;> rfl

theorem aggregateSteps_outcome (a : Aggregate) (ts : List Traverser) :
    ((run ps (aggregateSteps a)).firstOrNull ts).outcome g =
      (a.result (ts.map Traverser.object), g) := by
  obtain ⟨us, hus, hcounted⟩ := countedSteps_outcome ps g a ts
  unfold aggregateSteps Aggregate.result
  rw [← hus]
  cases a.function with
  | count =>
    have hstarts : Starts ps [.reduce .count] := rfl
    refine (firstOrNull_append hstarts hcounted).trans ?_
    rfl
  | collect =>
    have hstarts : Starts ps [.fold] := rfl
    refine (firstOrNull_append hstarts hcounted).trans ?_
    rfl
  | sum | avg | min | max =>
    have hstarts (r : Reduction) (empty : Value) : Starts ps (reduceOr r empty) := rfl
    exact (firstOrNull_append (hstarts _ _) hcounted).trans (reduceOr_outcome _ _ us)

end Steps

end CypherTraversal
