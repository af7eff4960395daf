import CypherTraversal.Proofs.Answers
import CypherTraversal.Proofs.Run.Outcome
import CypherTraversal.Proofs.Traversal.Every

/-! # Traversals in parts

A traversal may be cut in two wherever no modulator is cut off from its step. The second part then
goes on where the first one ends, and what the first one changed before it failed stays changed. -/

namespace CypherTraversal

open Run List Traversal

variable {f h : Traversal} {ps : Parameters} {s : Step} {ss : List Stage}

/-! ### Stages -/

namespace Stage

theorem runFrom_eq_run (h : modulators ss = []) (taken : Bool) : runFrom taken ss = run ss := by
  cases taken with
  | false => rfl
  | true =>
    cases ss with
    | nil => rfl
    | cons s ss =>
      cases s with
      | modulator m text => cases h
      | process p | modulated f => rfl

theorem modulators_append {rs : List Stage} (h : modulators rs = []) :
    modulators (ss ++ rs) = modulators ss := by
  induction ss with
  | nil => exact h
  | cons s ss ih =>
    cases s with
    | modulator m text => exact congrArg (m :: ·) ih
    | process p | modulated f => rfl

theorem runFrom_append {rs : List Stage} (h : modulators rs = []) (taken : Bool) :
    runFrom taken (ss ++ rs) = (runFrom taken ss).andThen (run rs) := by
  induction ss generalizing taken with
  | nil => exact runFrom_eq_run h taken
  | cons s ss ih =>
    have hassoc (p : Process) (b : Bool) :
        p.andThen (runFrom b (ss ++ rs)) = (p.andThen (runFrom b ss)).andThen (run rs) := by
      rw [ih b]
      funext ts
      exact (bind_assoc _ _ _).symm
    cases s with
    | modulator m text =>
      cases taken with
      | false => rfl
      | true => exact ih true
    | process p => cases taken <;> exact hassoc p false
    | modulated f =>
      cases taken <;>
        exact (congrArg (fun ms => (f ms).andThen _) (modulators_append h)).trans (hassoc _ true)

end Stage

theorem Step.stages_eq_map (ps : Parameters) (f : Traversal) : stages ps f = f.map (stage ps) :=
  eq_map rfl (fun _ _ => rfl) f

theorem Step.stages_append (ps : Parameters) (f h : Traversal) :
    stages ps (f ++ h) = stages ps f ++ stages ps h := by
  simp only [stages_eq_map, map_append]

namespace Traversal

def Starts (ps : Parameters) (f : Traversal) : Prop :=
  Stage.modulators (Step.stages ps f) = []

theorem run_append (hh : h.Starts ps) :
    (f ++ h : Traversal).run ps = (f.run ps).andThen (h.run ps) := by
  unfold run
  rw [Step.stages_append]
  exact Stage.runFrom_append hh false

theorem outcome_append {g : Graph} (hh : h.Starts ps) {ts us : List Traverser}
    (hf : (f.run ps ts).outcome g = (.ok us, g)) :
    (run ps (f ++ h) ts).outcome g = (h.run ps us).outcome g := by
  rw [run_append hh, Process.andThen, outcome_bind_ok hf]

theorem run_step {p : Process} (hs : Step.stage ps s = .process p) : run ps [s] = p := by
  unfold run Step.stages
  rw [hs]
  funext ts
  exact bind_pure (p ts)

theorem Starts.of_process {p : Process} (hs : Step.stage ps s = .process p) : Starts ps [s] := by
  unfold Starts Step.stages
  rw [hs]
  rfl

theorem Starts.append (hf : f.Starts ps) (hh : h.Starts ps) : Starts ps (f ++ h) := by
  unfold Starts
  rw [Step.stages_append, Stage.modulators_append hh]
  exact hf

end Traversal

/-! ### Steps -/

namespace Step

variable (ps : Parameters) {s : Step}

theorem stage_of_isModulator (h : s.isModulator) : ∃ m text, stage ps s = .modulator m text := by
  cases s <;> first | exact ⟨_, _, rfl⟩ | cases h

theorem stage_of_not_isModulator (h : s.isModulator = false) :
    (∃ p, stage ps s = .process p ∧ s.isModulated = false) ∨ ∃ k, stage ps s = .modulated k := by
  cases s <;> first | exact .inl ⟨_, rfl, rfl⟩ | exact .inr ⟨_, rfl⟩ | cases h

end Step

theorem Traversal.starts_of_head (hh : ∀ s ∈ h.head?, s.isModulator = false) : h.Starts ps := by
  cases h with
  | nil => rfl
  | cons s h =>
    unfold Starts Step.stages
    obtain ⟨p, hs, -⟩ | ⟨k, hs⟩ := Step.stage_of_not_isModulator ps (hh s rfl) <;> rw [hs] <;> rfl

/-- **A traversal runs as its parts do.** If the second part does not begin with a modulator, it
takes the stream and the graph with which the first part ends; and if the first part fails, so does
the whole, with the same error and the same graph. -/
theorem joined_traversals_run_in_turn (f h : Traversal)
    (hh : ∀ s ∈ h.head?, s.isModulator = false) (ps : Parameters) (ts : List Traverser)
    (g : Graph) :
    (Traversal.run ps (f ++ h) ts).outcome g =
      match (f.run ps ts).outcome g with
      | (.ok us, g') => (h.run ps us).outcome g'
      | (.error e, g') => (.error e, g') := by
  rw [run_append (starts_of_head hh), Process.andThen, outcome_bind]
  rcases (f.run ps ts).outcome g with ⟨_ | _, _⟩ <;> rfl

theorem vertex_stays_before_missing_parameter :
    ((Traversal.run [] ([.addVertex none] ++ [.constant (.parameter "p")])
      [{ object := .null }]).outcome (.empty "g")).2.vertices.length = 1 := by
  rw [joined_traversals_run_in_turn _ _ (by rintro _ ⟨⟩; rfl)]
  rfl

end CypherTraversal
