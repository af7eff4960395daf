import CypherTraversal.Proofs.Run.Parts
import Mathlib.Data.List.Basic

/-! # Processes that work row by row

Most processes send every row of a stream somewhere, whatever the other rows are, and leave the
graph as it is. `Process.Sends g S p F` says so of the rows with `S`: the process sends the row `t`
to `F t`. -/

namespace CypherTraversal

open Run List

variable {ps : Parameters} {s : Step} {test : Traverser → Run Bool}

/-! ### Rows and where they are sent -/

namespace Process

variable {g : Graph} {S T : Traverser → Prop} {p q : Process} {F G : Traverser → List Traverser}

def Sends (g : Graph) (S : Traverser → Prop) (p : Process) (F : Traverser → List Traverser) :
    Prop :=
  ∀ ts : List Traverser, (∀ t ∈ ts, S t) → (p ts).outcome g = (.ok (ts.flatMap F), g)

namespace Sends

theorem one (h : Sends g S p F) {t : Traverser} (ht : S t) :
    (p [t]).outcome g = (.ok (F t), g) := by
  rw [h [t] (by simpa using ht), flatMap_singleton]

theorem eachRow {f : Traverser → Run (List Traverser)}
    (h : ∀ t, S t → (f t).outcome g = (.ok (F t), g)) : Sends g S (eachRow f) F := by
  intro ts
  induction ts with
  | nil =>
    intro _
    rfl
  | cons t ts ih =>
    intro hts
    rw [Process.eachRow, outcome_bind_ok (h t (hts t mem_cons_self)),
      outcome_bind_ok (ih fun u hu => hts u (mem_cons_of_mem t hu))]
    rfl

theorem andThen (hp : Sends g S p F) (hq : Sends g T q G) (hF : ∀ t, S t → ∀ u ∈ F t, T u) :
    Sends g S (p.andThen q) fun t => (F t).flatMap G := by
  intro ts hts
  rw [Process.andThen, outcome_bind_ok (hp ts hts), hq, flatMap_assoc]
  intro u hu
  obtain ⟨t, ht, hu⟩ := mem_flatMap.mp hu
  exact hF t (hts t ht) u hu

theorem congr (h : Sends g S p F) (hF : ∀ t, S t → F t = G t) : Sends g S p G := by
  intro ts hts
  rw [h ts hts, flatMap_congr fun t ht => hF t (hts t ht)]

theorem leads (h : Sends g S p F) {t : Traverser} (ht : S t) :
    (p.leads t).outcome g = (.ok (!(F t).isEmpty), g) := by
  rw [Process.leads, Process.on, outcome_bind_ok (h.one ht)]
  rfl

theorem keep {b : Traverser → Bool} (h : ∀ t, S t → (test t).outcome g = (.ok (b t), g)) :
    Sends g S (keep test) fun t => if b t then [t] else [] := by
  refine eachRow fun t ht => ?_
  rw [outcome_bind_ok (h t ht)]
  rfl

theorem move {f : Traverser → Run (Option Object)} {x : Traverser → Option Object}
    (h : ∀ t, S t → (f t).outcome g = (.ok (x t), g)) :
    Sends g S (move f) fun t => ((x t).map t.moveTo).toList := by
  refine eachRow fun t ht => ?_
  rw [outcome_bind_ok (h t ht)]
  rfl

theorem moveIn (f : Graph → Traverser → Option Object) :
    Sends g S (moveIn f) fun t => ((f g t).map t.moveTo).toList :=
  move fun _ _ => rfl

theorem same : Sends g S (fun ts => return ts) fun t => [t] := by
  intro ts _
  rw [outcome_pure, flatMap_singleton']

theorem map (f : Traverser → Traverser) : Sends g S (fun ts => return ts.map f) fun t => [f t] := by
  intro ts _
  rw [outcome_pure, map_eq_flatMap]

theorem step (hs : Step.stage ps s = .process p) (h : Sends g S p F) :
    Sends g S (Traversal.run ps [s]) F := by
  rw [Traversal.run_step hs]
  exact h

theorem constant {o : Operand} {x : Object} (h : ∀ t, S t → o.resolve ps t = .ok x) :
    Sends g S (Traversal.run ps [.constant o]) fun t => [t.moveTo x] := by
  refine step rfl (move (x := fun _ => some x) fun t ht => ?_)
  rw [h t ht]
  rfl

end Sends
end Process

/-! ### Rows that pass -/

structure Traversal.Passes (ps : Parameters) (g : Graph) (f : Traversal) (b : Traverser → Bool)
    (F : Traverser → Traverser) : Prop where
  starts : f.Starts ps
  sends : Process.Sends g (fun _ => True) (f.run ps) fun t => if b t then [F t] else []

theorem flatMap_passed {b : Traverser → Bool} {F : Traverser → Traverser} (ts : List Traverser) :
    (ts.flatMap fun t => if b t then [F t] else []) = (ts.filter b).map F := by
  induction ts with
  | nil => rfl
  | cons t ts ih =>
    rw [flatMap_cons, ih, filter_cons]
    cases b t <;> rfl

namespace Traversal.Passes

variable {ps : Parameters} {g : Graph} {f h : Traversal} {b c : Traverser → Bool}
  {F G : Traverser → Traverser}

theorem nil : Passes ps g [] (fun _ => true) fun t => t :=
  ⟨rfl, .same⟩

theorem keep (hs : Step.stage ps s = .process (.keep test))
    (h : ∀ t, (test t).outcome g = (.ok (b t), g)) : Passes ps g [s] b fun t => t :=
  ⟨.of_process hs, .step hs (.keep fun t _ => h t)⟩

theorem moveIn {f : Graph → Traverser → Option Object}
    (hs : Step.stage ps s = .process (.moveIn f)) :
    Passes ps g [s] (fun t => (f g t).isSome) fun t => t.moveTo ((f g t).getD .null) := by
  refine ⟨.of_process hs, (Process.Sends.step hs (.moveIn f)).congr fun t _ => ?_⟩
  cases f g t <;> rfl

theorem mark (l : String) : Passes ps g [.mark l] (fun _ => true) fun t => t.mark l :=
  ⟨rfl, .step rfl (.map fun t => t.mark l)⟩

theorem append (hf : f.Passes ps g b F) (hh : h.Passes ps g c G) :
    Passes ps g (f ++ h) (fun t => b t && c (F t)) fun t => G (F t) := by
  refine ⟨hf.starts.append hh.starts, ?_⟩
  rw [run_append hh.starts]
  refine (hf.sends.andThen hh.sends fun _ _ _ _ => trivial).congr fun t _ => ?_
  cases b t with
  | false => rfl
  | true => exact flatMap_singleton _ (F t)

theorem congr (hf : f.Passes ps g b F) (hb : ∀ t, b t = c t) (hF : ∀ t, F t = G t) :
    f.Passes ps g c G := by
  refine ⟨hf.starts, hf.sends.congr fun t _ => ?_⟩
  rw [hb, hF]

theorem outcome (hf : f.Passes ps g b F) (ts : List Traverser) :
    (f.run ps ts).outcome g = (.ok ((ts.filter b).map F), g) := by
  rw [hf.sends ts fun _ _ => trivial, flatMap_passed]

end Traversal.Passes
end CypherTraversal
