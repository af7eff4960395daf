import CypherTraversal.Proofs.Run.Bonded
import CypherTraversal.Proofs.Run.Errors

/-! # What every run keeps

What the changes of a graph keep, every run keeps, and a run fails only as one of its steps can. -/

namespace CypherTraversal

open Run Bond

variable {E : Error → Prop} {I : Graph → Prop} {e : Error} {ps : Parameters} {t : Traversal}

structure Graph.Kept (I : Graph → Prop) : Prop where
  addVertex : ∀ {g : Graph} (label : String), I g → I (g.addVertex label []).2
  addEdge : ∀ {g : Graph} {label : String} {source target : VertexId} {added : Edge × Graph},
    I g → g.addEdge label source target [] = .ok added → I added.2
  setVertexProperty : ∀ {g h : Graph} {v : VertexId} {key : String} {value : Value},
    I g → g.setVertexProperty v key value = .ok h → I h
  setEdgeProperty : ∀ {g h : Graph} {e : EdgeId} {key : String} {value : Value},
    I g → g.setEdgeProperty e key value = .ok h → I h

theorem Graph.kept_always : Graph.Kept fun _ => True :=
  ⟨fun _ _ => trivial, fun _ _ => trivial, fun _ _ => trivial, fun _ _ => trivial⟩

def Error.arisesInRun : Error → Bool
  | execution _ | notFound _ | strayModulator _ => true
  | _ => false

theorem Error.OfPart.arisesInRun (h : e.OfPart) : e.arisesInRun := by
  cases h with
  | missingParameter name => rfl
  | ofObject h => cases h <;> rfl

def Error.arisesInStep : Error → Bool
  | execution _ | notFound _ => true
  | _ => false

theorem Error.OfPart.arisesInStep (h : e.OfPart) : e.arisesInStep := by
  cases h with
  | missingParameter name => rfl
  | ofObject h => cases h <;> rfl

theorem Error.arisesInRun_of_arisesInStep (h : e.arisesInStep) : e.arisesInRun := by
  cases e
  case execution | notFound => rfl
  all_goals cases h

def Error.arisesAtObject : Error → Bool
  | execution (.missingParameter _) => false
  | e => e.arisesInStep

theorem Error.OfObject.arisesAtObject (h : e.OfObject) : e.arisesAtObject := by
  cases h <;> rfl

theorem Error.arisesInStep_of_arisesAtObject (h : e.arisesAtObject) : e.arisesInStep := by
  unfold Error.arisesAtObject at h
  split at h
  · cases h
  · exact h

def Step.operands : Step → List Operand
  | .constant o => [o]
  | s => (s.predicate?.map Predicate.operands).getD []

def Step.WindowsFail (ps : Parameters) (E : Error → Prop) : Step → Prop
  | .skip n => FailsWith E (n.count ps "SKIP")
  | .limit n => FailsWith E (n.count ps "LIMIT")
  | .range low high => FailsWith E (low.count ps "range") ∧ FailsWith E (high.count ps "range")
  | _ => True

structure Step.Fails (ps : Parameters) (E : Error → Prop) (s : Step) : Prop where
  windows : s.WindowsFail ps E
  operands : ∀ o ∈ s.operands, ∀ t, FailsWith E (o.resolve ps t)
  inside : ∀ f ∈ s.inside, f.Placed E

abbrev Process.Keeps (I : Graph → Prop) (E : Error → Prop) (p : Process) : Prop :=
  p.Carries I E (fun _ => True) (fun _ => True)

namespace Process.Keeps

variable {I : Graph → Prop} {E : Error → Prop}

theorem move {f : Traverser → Run (Option Object)}
    (h : ∀ t, (f t).Ensures I (fun _ => True) E) : (move f).Keeps I E :=
  Carries.move fun t _ => (h t).imp fun _ _ _ _ => trivial

/-! ### Changes -/

section Changes

variable (hI : Graph.Kept I) (hE : ∀ e : Error, e.arisesAtObject → E e)

include hE in
theorem ofObject {α : Type} {x : Except Error α} (h : FailsWith Error.OfObject x) :
    (Run.ofExcept x).Ensures I (fun _ => True) E :=
  .ofExcept (fun _ _ => trivial) fun e he => hE e (h e he).arisesAtObject

include hI

theorem addVertex (label : Option String) : (addVertex label).Keeps I E :=
  move fun _ => Ensures.graph.bind fun _ hg =>
    (Ensures.setGraph (hI.addVertex _ hg)).bind fun _ _ => .pure trivial

include hE

theorem addEdge (label : String) (ms : List Modulator) : (addEdge label ms).Keeps I E := by
  have hend (t : Traverser) (l : Option String) :
      (Run.ofExcept (endOf t l)).Ensures I (fun _ => True) E := by
    refine .ofExcept (fun _ _ => trivial) fun e he => hE e ?_
    unfold endOf vertexOf at he
    split at he
    · cases he
    · cases he
      rfl
  refine move fun t => (hend t _).bind fun source _ => (hend t _).bind fun target _ => ?_
  refine Ensures.graph.bind fun g hg => ?_
  have hadded : (Run.ofExcept (g.addEdge label source target [])).Ensures I
      (fun added => I added.2) E :=
    .ofExcept (fun _ h => hI.addEdge hg h)
      fun e he => hE e (g.addEdge_ofObject label source target e he).arisesAtObject
  exact hadded.bind fun _ h => (Ensures.setGraph h).bind fun _ _ => .pure trivial

theorem setElement (key : String) (t : Traverser) (value : Value) :
    (setElement key t value).Ensures I (fun _ => True) E := by
  have hset {x : Except Error Graph} (hok : ∀ g, x = .ok g → I g)
      (hx : FailsWith Error.OfObject x) : (do
        Run.setGraph (← Run.ofExcept x)
        return [t] : Run (List Traverser)).Ensures I (fun _ => True) E := by
    have hgraph : (Run.ofExcept x).Ensures I I E :=
      .ofExcept hok fun e he => hE e (hx e he).arisesAtObject
    exact hgraph.bind fun _ h => (Ensures.setGraph h).bind fun _ _ => .pure trivial
  refine Ensures.graph.bind fun g hg => ?_
  split
  · exact hset (fun _ h => hI.setVertexProperty hg h) (g.setVertexProperty_ofObject _ key value)
  · exact hset (fun _ h => hI.setEdgeProperty hg h) (g.setEdgeProperty_ofObject _ key value)
  · exact (Ensures.throw (Q := fun _ => True) (hE _ rfl)).bind fun _ _ => .pure trivial

end Changes

end Process.Keeps

/-! ### Whole traversals -/

def Bond.keeping (I : Graph → Prop) (E : Error → Prop) : Bond :=
  .equal I fun d e => d = e ∧ E d

section Keeping

variable {I : Graph → Prop} {E : Error → Prop}

section Equal

variable {error : Error → Error → Prop} (hself : ∀ e, E e → error e e)

include hself

theorem Run.Ensures.lockstep {x : Run (List Traverser)} (h : x.Ensures I (fun _ => True) E)
    {g : Graph} (hg : I g) :
    Run.Lockstep (equal I error).toPace (equal I error).Rows g x x := by
  obtain ⟨m, hm, ⟨us, hus, -⟩ | ⟨e, he, hE⟩⟩ := h g hg
  · exact ⟨m, .intro, hm, .inl ⟨us, us, hus, hus, rows_equal.mpr rfl⟩⟩
  · exact ⟨m, .intro, hm, .inr ⟨e, e, he, he, hself e hE⟩⟩

theorem Process.Keeps.lockstep {p : Process} (h : p.Keeps I E) : p.Lockstep (.equal I error) p := by
  intro g hg us vs hrows
  obtain rfl := rows_equal.mp hrows
  exact ((h us fun _ _ => trivial).imp fun _ _ => trivial).lockstep hself hg

theorem Bond.equal_answers {α : Type} {r : Except Error α} (h : FailsWith E r) :
    (equal I error).Answers (fun _ => True) r r :=
  ⟨rfl, fun e he => hself e (h e he), fun _ _ => trivial⟩

end Equal

theorem Process.Lockstep.keeps {p : Process} (h : p.Lockstep (.keeping I E) p) : p.Keeps I E := by
  intro ts _ g hg
  obtain ⟨m, -, hm, ⟨us, _, hus, -⟩ | ⟨e, _, he, -, -, hE⟩⟩ :=
    h g hg ts ts (rows_equal.mpr rfl)
  · exact ⟨m, hm, .inl ⟨us, hus, fun _ _ => trivial⟩⟩
  · exact ⟨m, hm, .inr ⟨e, he, hE⟩⟩

variable {ps : Parameters}

namespace Step

theorem mem_visit (s : Step) : s ∈ visit s := by
  cases s <;> exact List.mem_cons_self

theorem Fails.bonded (hI : Graph.Kept I) (hE : ∀ e : Error, e.arisesAtObject → E e)
    {error : Error → Error → Prop} (hself : ∀ e, E e → error e e) {s : Step}
    (h : s.Fails ps E) : s.Bonded (.equal I error) ps ps := by
  obtain ⟨hwindows, hoperands, -⟩ := h
  cases s
  case inject => exact fun _ _ _ => trivial
  case project => exact fun _ _ _ _ => trivial
  case hasPredicate key p | is p | wherePredicate p =>
    rintro g u _ rfl x
    exact equal_answers hself (p.test_fails (fun o ho => hoperands o ho u) x)
  case mark l =>
    rintro g u _ rfl
    rfl
  case select l =>
    rintro g u _ rfl
    exact ⟨rfl, fun _ _ => trivial⟩
  case constant o =>
    rintro g u _ rfl
    exact equal_answers hself (hoperands o List.mem_cons_self u)
  case reduce r =>
    refine fun g xs _ => ⟨rfl, fun e he => hself e (hE e ?_), fun _ _ _ _ => trivial⟩
    exact (Process.reduce_ofObject r xs e he).arisesAtObject
  case skip | limit => exact equal_answers hself hwindows
  case range => exact ⟨equal_answers hself hwindows.1, equal_answers hself hwindows.2⟩
  case addVertex l => exact (Process.Keeps.addVertex hI l).lockstep hself
  case addEdge l =>
    intro ms ns hms
    have hkeeps := (Process.Keeps.addEdge hI hE l ms).lockstep hself
    unfold Process.addEdge at hkeeps ⊢
    rwa [← Process.Lockstep.sourceLabel? hms, ← Process.Lockstep.targetLabel? hms]
  case property key t =>
    constructor
    · rintro g u _ hg rfl value
      exact (Process.Keeps.setElement hI hE key u value).lockstep hself hg
    · exact fun g x _ _ => equal_answers hself fun e he =>
        hE e (x.toValue_ofObject g e he).arisesAtObject
  all_goals trivial

theorem run_keeps (hI : Graph.Kept I) (hE : ∀ e : Error, e.arisesAtObject → E e) (ss : List Step)
    (h : ∀ r ∈ visitAll ss, r.Fails ps E) (hplaced : Traversal.Placed E ss) :
    (Stage.run (stages ps ss)).Keeps I E := by
  have herror {f : Traversal} (hf : f.Placed E) :
      f.Placed fun e => (keeping I E).error e e :=
    hf.imp_right fun hstray text => ⟨rfl, hstray text⟩
  refine Process.Lockstep.keeps (Traversal.run_lockstep ss (fun r hr => ?_) (herror hplaced))
  exact ⟨(h r hr).bonded hI hE fun _ he => ⟨rfl, he⟩, fun f hf => herror ((h r hr).inside f hf)⟩

end Step

end Keeping

theorem Traversal.results_ensure (hE : ∀ e : Error, e.arisesAtObject → E e)
    (ht : (t.run ps).Keeps I E) : (t.results ps).Ensures I (fun _ => True) E := by
  refine (ht t.input fun _ _ => trivial).bind fun us _ => ?_
  exact Ensures.graph.bind fun g _ => Process.Keeps.ofObject hE (Object.toValues_ofObject g _)

theorem Operand.resolve_fails (hE : ∀ e : Error, e.arisesInStep → E e) (ps : Parameters)
    (t : Traverser) (o : Operand) : FailsWith E (o.resolve ps t) :=
  (o.resolve_ofPart ps t).mono fun e he => hE e he.arisesInStep

theorem Traversal.results_keep (hI : Graph.Kept I) (hE : ∀ e : Error, e.arisesInRun → E e)
    (ht : t.Every (Step.WindowsFail ps E)) : (t.results ps).Ensures I (fun _ => True) E := by
  have hstep (e : Error) (he : e.arisesInStep) : E e := hE e (Error.arisesInRun_of_arisesInStep he)
  have hobject (e : Error) (he : e.arisesAtObject) : E e :=
    hstep e (Error.arisesInStep_of_arisesAtObject he)
  have hstray (text : String) : E (.strayModulator text) := hE _ rfl
  exact results_ensure hobject (Step.run_keeps hI hobject t
    (fun r hr => ⟨ht r hr, fun o _ u => o.resolve_fails hstep ps u, fun _ _ => .inr hstray⟩)
    (.inr hstray))

theorem Traversal.Modulated.results_keep (hI : Graph.Kept I)
    (hE : ∀ e : Error, e.arisesInStep → E e) (ht : t.Modulated)
    (hinside : t.Every fun s => s.WindowsFail ps E ∧ ∀ f ∈ s.inside, f.Modulated) :
    (t.results ps).Ensures I (fun _ => True) E := by
  have hobject (e : Error) (he : e.arisesAtObject) : E e :=
    hE e (Error.arisesInStep_of_arisesAtObject he)
  exact results_ensure hobject (Step.run_keeps hI hobject t (fun r hr => ⟨(hinside r hr).1,
    fun o _ u => o.resolve_fails hE ps u, fun f hf => .inl ((hinside r hr).2 f hf)⟩) (.inl ht))

end CypherTraversal
