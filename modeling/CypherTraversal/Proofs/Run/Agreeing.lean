import CypherTraversal.Graph.Sample
import CypherTraversal.Proofs.Resolved.Checked
import CypherTraversal.Proofs.Run.Bonded
import CypherTraversal.Traversal.OfQuery

/-! # What a run reads of its parameters

A step looks up the parameters of its own operands and bounds and nothing else. Under two sets of
parameters that agree on them it has the same stage, if the traversals inside it have the same
stages. -/

namespace CypherTraversal

open List Step

variable {P Q : Parameters}

def Parameters.AgreeOn (names : List String) (P Q : Parameters) : Prop :=
  ∀ name ∈ names, P.find? name = Q.find? name

/-! ### Lookups -/

theorem Parameters.value_congr {name : String} (h : P.find? name = Q.find? name) :
    P.value name = Q.value name := by
  unfold Parameters.value
  rw [h]

theorem Operand.resolve_congr {o : Operand} (h : Parameters.AgreeOn o.parameters P Q)
    (t : Traverser) : o.resolve P t = o.resolve Q t := by
  cases o with
  | value v | label name => rfl
  | parameter name =>
    simp only [resolve, Parameters.value_congr (h name mem_cons_self)]

theorem Bound.count_congr {n : Bound} (h : Parameters.AgreeOn n.parameters P Q)
    (clause : String) : n.count P clause = n.count Q clause := by
  cases n with
  | literal n => rfl
  | parameter name =>
    simp only [count, Parameters.value_congr (h name mem_cons_self)]

theorem Predicate.test_congr {p : Predicate}
    (h : Parameters.AgreeOn (p.operands.flatMap Operand.parameters) P Q) (t : Traverser)
    (x : Object) : p.test P t x = p.test Q t x := by
  have hoperand (o : Operand) (ho : o ∈ p.operands) : o.resolve P t = o.resolve Q t :=
    o.resolve_congr (fun name hname => h name (mem_flatMap.mpr ⟨o, ho, hname⟩)) t
  cases p with
  | compare c o | within o | without o | text m o => simp only [test, hoperand o mem_cons_self]
  | between low high =>
    simp only [test, hoperand low mem_cons_self, hoperand high (mem_cons_of_mem low mem_cons_self)]

/-! ### Steps -/

namespace Step

theorem stage_congr {s : Step} (hown : Parameters.AgreeOn s.parameters P Q)
    (hinside : ∀ f ∈ s.inside, stages P f = stages Q f) : stage P s = stage Q s := by
  have heach (fs : List Traversal) (hfs : ∀ f ∈ fs, stages P f = stages Q f) :
      runEach P fs = runEach Q fs := by
    rw [runEach_eq_map, runEach_eq_map]
    refine map_congr_left fun f hf => ?_
    unfold Traversal.run
    rw [hfs f hf]
  cases s
  case hasPredicate key p | is p | wherePredicate p =>
    simp only [stage, Process.hasPredicate, Process.satisfies, Predicate.test_congr hown]
  case constant o => simp only [stage, Operand.resolve_congr hown]
  case skip n =>
    refine congrArg Stage.process (funext fun ts => ?_)
    simp only [Process.skip, Bound.count_congr hown]
  case limit n =>
    refine congrArg Stage.process (funext fun ts => ?_)
    simp only [Process.limit, Bound.count_congr hown]
  case range low high =>
    obtain ⟨hlow, hhigh⟩ := forall_mem_append.mp hown
    refine congrArg Stage.process (funext fun ts => ?_)
    simp only [Process.range, Bound.count_congr hlow, Bound.count_congr hhigh]
  case filter t | not t | «by» t | byOrder t o | flatMap t | property key t =>
    simp only [stage, hinside t mem_cons_self]
  case and ts | or ts | union ts | coalesce ts => simp only [stage, heach ts hinside]
  case choose c y n =>
    obtain ⟨hc, hrest⟩ := forall_mem_cons.mp hinside
    obtain ⟨hy, hrest⟩ := forall_mem_cons.mp hrest
    simp only [stage, hc, hy, forall_mem_singleton.mp hrest]
  all_goals rfl

end Step

/-! ### Traversals -/

namespace Traversal

theorem stages_congr (f : Traversal) (h : f.Every fun s => Parameters.AgreeOn s.parameters P Q) :
    stages P f = stages Q f := by
  induction f using induction_inside with
  | h f ih =>
    rw [stages_eq_map, stages_eq_map]
    refine map_congr_left fun s hs => ?_
    obtain ⟨hown, hinside⟩ := h.of_mem hs
    exact stage_congr hown fun g hg => ih s hs g hg (hinside g hg)

/-- **A run reads no parameters but those of its traversal.** Under two sets of parameters that have
the same value or none for each name that the traversal lists, it ends with the same values or the
same error and leaves the same graph. -/
theorem execute_reads_parameters {t : Traversal} (h : ∀ name ∈ t.parameters,
    P.find? name = Q.find? name) (g : Graph) : t.execute P g = t.execute Q g := by
  have hstages : stages P t = stages Q t := by
    refine t.stages_congr fun s hs name hname => h name ?_
    exact mem_addNames.mpr (.inr (List.mem_flatMap.mpr ⟨s, hs, hname⟩))
  unfold execute results run
  rw [hstages]

/-- A parameter deep inside a sort key, one as a bound that is missing in both sets, and one that
the traversal does not list and that only one of the sets has. -/
theorem sorted_names_read_parameters :
    let t : Traversal := [.vertices, .order, .byOrder [.coalesce [
        [.hasPredicate "age" (.between (.parameter "low") (.value (.int 33))), .values "name"],
        [.constant (.parameter "mark")]]] .desc,
      .limit (.parameter "n"), .values "name"]
    let P : Parameters := [("low", .int 28), ("mark", .str "b")]
    let Q : Parameters := [("low", .int 28), ("mark", .str "b"), ("other", .null)]
    t.parameters = ["low", "mark", "n"] ∧ (∀ name ∈ t.parameters, P.find? name = Q.find? name) ∧
      P.find? "other" ≠ Q.find? "other" ∧ t.execute P .modern = t.execute Q .modern := by
  intro t P Q
  have hlisted : t.parameters = ["low", "mark", "n"] := by decide
  have hagree : ∀ name ∈ t.parameters, P.find? name = Q.find? name := by
    rw [hlisted]
    simp [P, Q, Entries.find?]
  exact ⟨hlisted, hagree, by simp [P, Q, Entries.find?], execute_reads_parameters hagree .modern⟩

end Traversal
end CypherTraversal
