import CypherTraversal.Client.Session
import CypherTraversal.Proofs.Accepted
import CypherTraversal.Proofs.Run.Keeping

/-! # Running restricted traversals

A traversal and its form in the restricted library end alike: with the same answer, or with errors
of one variant. -/

namespace CypherTraversal

open Run Session Step Process

/-! ### Computations that end alike

Two computations are alike when from every graph they end with the same answer, or with errors of
one variant, and leave the same graph. Processes are alike when they are in lockstep along a bond
that says no more than this. -/

def Error.SameVariant (d e : Error) : Prop :=
  d.ctorIdx = e.ctorIdx

theorem Error.sameVariant_stray (step step' : String) :
    (Error.strayModulator step).SameVariant (.strayModulator step') := rfl

namespace Run

variable {α β : Type}

/-- The same answer or errors of one variant, and the same graph. -/
inductive EndsAlike : Except Error α × Graph → Except Error α × Graph → Prop
  | answer (a : α) (g : Graph) : EndsAlike (.ok a, g) (.ok a, g)
  | error {d e : Error} (h : d.SameVariant e) (g : Graph) : EndsAlike (.error d, g) (.error e, g)

theorem EndsAlike.refl (r : Except Error α × Graph) : EndsAlike r r := by
  rcases r with ⟨_ | a, g⟩
  · exact .error rfl g
  · exact .answer a g

theorem EndsAlike.map {r s : Except Error α × Graph} (h : EndsAlike r s) (f : α → β) :
    EndsAlike (r.1.map f, r.2) (s.1.map f, s.2) := by
  rcases h with ⟨a, g⟩ | ⟨he, g⟩
  · exact .answer (f a) g
  · exact .error he g

end Run

def Bond.alike : Bond :=
  .equal (fun _ => True) Error.SameVariant

section Alike

variable {α : Type} {g : Graph}

theorem Run.lockstep_alike_iff {x y : Run α} :
    Lockstep Bond.alike.toPace (fun _ => (· = ·)) g x y ↔
      EndsAlike (x.outcome g) (y.outcome g) := by
  constructor
  · rintro ⟨h, -, -, ⟨a, _, ha, hb, rfl⟩ | ⟨d, e, hd, he, hde⟩⟩
    · rw [ha, hb]
      exact .answer a h
    · rw [hd, he]
      exact .error hde h
  · intro hends
    generalize hx : x.outcome g = r at hends
    generalize hy : y.outcome g = s at hends
    rcases hends with ⟨a, h⟩ | ⟨hde, h⟩
    · exact ⟨h, trivial, trivial, .inl ⟨a, a, hx, hy, rfl⟩⟩
    · exact ⟨h, trivial, trivial, .inr ⟨_, _, hx, hy, hde⟩⟩

abbrev Process.Alike (p q : Process) : Prop :=
  p.Lockstep .alike q

namespace Process

theorem alike_iff {p q : Process} :
    p.Alike q ↔ ∀ ts g, EndsAlike ((p ts).outcome g) ((q ts).outcome g) := by
  constructor
  · exact fun h ts g => lockstep_alike_iff.mp ((h g trivial ts ts (Bond.rows_equal.mpr rfl)).mono
      fun _ _ _ _ => Bond.rows_equal.mp)
  · intro h g _ us vs hrows
    obtain rfl := Bond.rows_equal.mp hrows
    exact (lockstep_alike_iff.mpr (h us g)).mono fun _ _ _ _ => Bond.rows_equal.mpr

theorem alike_refl (p : Process) : p.Alike p :=
  alike_iff.mpr fun _ _ => .refl _

end Process

abbrev Modulator.Alike : Modulator → Modulator → Prop :=
  Modulator.Lockstep .alike

end Alike
/-! ### Lists of stages -/

namespace Stage

structure Alike (ss rs : List Stage) : Prop where
  modulators : List.Forall₂ Modulator.Alike (modulators ss) (modulators rs)
  runFrom : ∀ taken, (runFrom taken ss).Alike (runFrom taken rs)

namespace Alike

variable {ss rs : List Stage}

theorem nil : Alike [] [] :=
  ⟨.nil, fun _ => alike_refl _⟩

theorem run (h : Alike ss rs) : (run ss).Alike (run rs) :=
  h.runFrom false

theorem cons {s r : Stage} (hs : s.Lockstep .alike r) (h : Alike ss rs) :
    Alike (s :: ss) (r :: rs) := by
  cases hs with
  | process hp =>
    refine ⟨.nil, fun taken => ?_⟩
    cases taken <;> exact hp.andThen (h.runFrom false)
  | modulated hf =>
    refine ⟨.nil, fun taken => ?_⟩
    cases taken <;> exact (hf _ _ h.modulators).andThen (h.runFrom true)
  | modulator hm _ =>
    refine ⟨.cons hm h.modulators, fun taken => ?_⟩
    cases taken
    · exact fun _ hg _ _ _ => .throw hg (Error.sameVariant_stray ..)
    · exact h.runFrom true

theorem two_processes {p q r : Process} (hp : p.Alike (q.andThen r)) (h : Alike ss rs) :
    Alike (.process p :: ss) (.process q :: .process r :: rs) := by
  have hpq : (p.andThen (Stage.runFrom false ss)).Alike
      (q.andThen (r.andThen (Stage.runFrom false rs))) := by
    have hassoc : (q.andThen r).andThen (Stage.runFrom false rs) =
        q.andThen (r.andThen (Stage.runFrom false rs)) := by
      funext ts
      exact bind_assoc _ _ _
    exact hassoc ▸ hp.andThen (h.runFrom false)
  refine ⟨.nil, fun taken => ?_⟩
  cases taken <;> exact hpq

end Alike
end Stage

/-! ### Steps -/

namespace Step

variable {ps : Parameters}

theorem bonded_alike (s : Step) : s.Bonded .alike ps ps := by
  have hfails : s.Fails ps fun _ => True := by
    refine ⟨?_, fun _ _ _ _ _ => trivial, fun _ _ => .inr fun _ => trivial⟩
    cases s
    case range => exact ⟨fun _ _ => trivial, fun _ _ => trivial⟩
    all_goals first | trivial | exact fun _ _ => trivial
  have hself (e : Error) (_ : True) : e.SameVariant e := rfl
  exact hfails.bonded Graph.kept_always (fun _ _ => trivial) hself

theorem count_alike (n : Bound) :
    (∃ k, n.count ps "SKIP" = .ok k ∧ n.count ps "range" = .ok k) ∨
      ∃ d e, n.count ps "SKIP" = .error d ∧ n.count ps "range" = .error e ∧ d.SameVariant e := by
  have hint (k : Nat) (clause : String) : (Value.int k).rowCount clause = .ok k := by
    simp [Value.rowCount]
  have hvalue (v : Value) : (∃ k, v.rowCount "SKIP" = .ok k ∧ v.rowCount "range" = .ok k) ∨
      ∃ d e, v.rowCount "SKIP" = .error d ∧ v.rowCount "range" = .error e ∧ d.SameVariant e := by
    obtain ⟨k, rfl, hk⟩ | hskip := v.rowCount_cases "SKIP"
    · exact .inl ⟨k, hk, hint k _⟩
    · obtain ⟨k, rfl, -⟩ | hrange := v.rowCount_cases "range"
      · cases (hint k _).symm.trans hskip
      · exact .inr ⟨_, _, hskip, hrange, rfl⟩
  cases n with
  | literal n => exact hvalue (.int n)
  | parameter name =>
    simp only [Bound.count]
    cases Parameters.value ps name with
    | ok v => exact hvalue v
    | error e => exact .inr ⟨e, e, rfl, rfl, rfl⟩

theorem skip_alike (n : Bound) :
    (Process.skip ps n).Alike (Process.range ps n (.literal (-1))) := by
  refine alike_iff.mpr fun ts g => ?_
  unfold Process.skip Process.range
  obtain ⟨k, hskip, hrange⟩ | ⟨d, e, hskip, hrange, hde⟩ := count_alike n
  · rw [hskip, hrange]
    exact .answer _ g
  · rw [hskip, hrange]
    exact .error hde g

theorem values_alike (key : String) {ss rs : List Stage} (h : Stage.Alike ss rs) :
    Stage.Alike (stage ps (values key) :: ss) (stages ps [properties key, value] ++ rs) := by
  have hvalue : (moveIn fun g t => (g.property? key t.object).map .ofValue) =
      (moveIn fun g t => (g.property? key t.object).map .ofValue).andThen fun ts => return ts := by
    funext ts
    exact (bind_pure _).symm
  exact .two_processes (hvalue ▸ alike_refl _) h

theorem respelled_alike {s : Step} (hinside : ∀ f ∈ s.inside,
      (Traversal.run ps f).Alike (Traversal.run ps (respelledAll f))) {ss rs : List Stage}
    (h : Stage.Alike ss rs) : Stage.Alike (stage ps s :: ss) (stages ps (respelled s) ++ rs) := by
  obtain ⟨key, rfl⟩ | ⟨n, rfl⟩ | hs := s.restricted_or
  · exact values_alike key h
  · exact .cons (.process (skip_alike n)) h
  · rw [hs.respelled_eq]
    exact .cons (stage_lockstep (bonded_alike s) (.inr Error.sameVariant_stray) hinside) h

end Step

namespace Traversal

theorem stages_alike (ps : Parameters) (t : Traversal) :
    Stage.Alike (stages ps t) (stages ps (respelledAll t)) := by
  induction t using induction_inside with
  | h t ih =>
    induction t with
    | nil => exact .nil
    | cons s ss ihss =>
      obtain ⟨hs, hss⟩ := List.forall_mem_cons.mp ih
      rw [respelledAll, stages_append]
      exact respelled_alike (fun f hf => (hs f hf).run) (ihss hss)

theorem input_respelledAll (t : Traversal) : input (respelledAll t) = t.input := by
  cases t with
  | nil => rfl
  | cons s ss => cases s <;> rfl

theorem results_alike {t t' : Traversal} (h : t.restrict = .ok t') (ps : Parameters) (g : Graph) :
    EndsAlike ((t.results ps).outcome g) ((t'.results ps).outcome g) := by
  obtain rfl := eq_respelled_of_restrictFrom h
  have hrun := (stages_alike ps t).run
  refine lockstep_alike_iff.mp ?_
  unfold results
  rw [input_respelledAll]
  refine (lockstep_alike_iff.mpr (alike_iff.mp hrun t.input g)).bind ?_
  rintro m us _ - - rfl
  exact lockstep_alike_iff.mpr (.refl _)

end Traversal

/-! ### Sessions -/

theorem compile_native_cosmosdb {text : String} {ps : Parameters} {p q : Program}
    (hp : compile .native text ps = .ok p) (hq : compile .cosmosdb text ps = .ok q) :
    ∃ t t' : Traversal, t.restrict = .ok t' ∧ p.traversal? = some t ∧ q.traversal? = some t' ∧
      p.columns = q.columns ∧ p.parameters = ps ∧ q.parameters = ps := by
  obtain ⟨parsed, -, hp, hq⟩ := bind_both hp hq
  obtain ⟨resolved, -, hp, hq⟩ := bind_both hp hq
  obtain ⟨lowered, -, hp, hq⟩ := bind_both hp hq
  cases hp
  obtain ⟨_, -, hq⟩ := bind_eq_ok.mp hq
  obtain ⟨t', ht', hq⟩ := bind_eq_ok.mp hq
  cases hq
  exact ⟨lowered.traversal, t', ht', rfl, rfl, rfl, rfl, rfl⟩

theorem Session.prepare_cases (s : Session) (text : String) (ps : Parameters) :
    (∃ e, ∀ flavor, prepare { s with flavor } text ps = .error e) ∨
      ∀ flavor, prepare { s with flavor } text ps = compile flavor text ps := by
  obtain ⟨flavor, strict, g⟩ := s
  unfold prepare
  rcases checkParameterNames ps.keys with e | _
  · exact .inl ⟨e, fun _ => rfl⟩
  · cases strict
    · exact .inr fun _ => rfl
    · rcases checkSupplied text ps with e | _
      · exact .inl ⟨e, fun _ => rfl⟩
      · exact .inr fun _ => rfl

theorem Session.submit_eq_of_prepare {s : Session} {text : String} {ps : Parameters} {p : Program}
    {t : Traversal} (hp : s.prepare text ps = .ok p) (ht : p.traversal? = some t) :
    s.submit text ps = ((t.execute p.parameters s.graph).1.map (Table.ofValues p.columns),
      { s with graph := (t.execute p.parameters s.graph).2 }) := by
  unfold submit
  rw [hp]
  dsimp only
  rw [ht]

/-- **The restriction keeps the meaning.** A traversal and its restricted form end with the same
values, or with errors of one variant, and leave the same graph; so a query that compiles both
with and without the restriction has the same table in two sessions that differ in this alone. -/
theorem restricted_ends_alike :
    (∀ t t' : Traversal, t.restrict = .ok t' →
      ∀ (ps : Parameters) (g : Graph), EndsAlike (t.execute ps g) (t'.execute ps g)) ∧
    ∀ (s : Session) (text : String) (ps : Parameters) (p q : Program),
      compile .native text ps = .ok p → compile .cosmosdb text ps = .ok q →
      let native := Session.submit { s with flavor := .native } text ps
      let restricted := Session.submit { s with flavor := .cosmosdb } text ps
      EndsAlike (native.1, native.2.graph) (restricted.1, restricted.2.graph) := by
  refine ⟨fun t t' h ps g => Traversal.results_alike h ps g, fun s text ps p q hp hq => ?_⟩
  obtain ⟨t, t', ht, hpt, hqt, hcolumns, hpps, hqps⟩ := compile_native_cosmosdb hp hq
  rcases s.prepare_cases text ps with ⟨e, he⟩ | hprepare
  · -- the parameters are refused before anything is compiled
    simp only [submit, he]
    exact .refl _
  · rw [submit_eq_of_prepare ((hprepare .native).trans hp) hpt,
      submit_eq_of_prepare ((hprepare .cosmosdb).trans hq) hqt, hpps, hqps, hcolumns]
    exact (Traversal.results_alike ht ps s.graph).map (Table.ofValues q.columns)

theorem skipped_names_end_alike :
    (∃ t' : Traversal,
      Traversal.restrict [.vertices, .project ["n"], .by [.values "name"], .skip (.literal 1)] =
        .ok t' ∧
      EndsAlike
        (Traversal.execute [.vertices, .project ["n"], .by [.values "name"], .skip (.literal 1)] []
          .modern)
        (t'.execute [] .modern)) ∧
    ∃ (s : Session) (p q : Program), s.graph = .modern ∧
      compile .native "MATCH (n) RETURN n.name SKIP 1" [] = .ok p ∧
      compile .cosmosdb "MATCH (n) RETURN n.name SKIP 1" [] = .ok q ∧
      let native := Session.submit { s with flavor := .native } "MATCH (n) RETURN n.name SKIP 1" []
      let restricted :=
        submit { s with flavor := .cosmosdb } "MATCH (n) RETURN n.name SKIP 1" []
      EndsAlike (native.1, native.2.graph) (restricted.1, restricted.2.graph) := by
  obtain ⟨p, hp⟩ := exists_ok_of_isOk
    (show (compile .native "MATCH (n) RETURN n.name SKIP 1" []).isOk by decide +kernel)
  obtain ⟨q, hq⟩ := exists_ok_of_isOk
    (show (compile .cosmosdb "MATCH (n) RETURN n.name SKIP 1" []).isOk by decide +kernel)
  have hs := restricted_ends_alike.2 ⟨.native, true, .modern⟩ "MATCH (n) RETURN n.name SKIP 1" []
    p q hp hq
  exact ⟨⟨_, rfl, restricted_ends_alike.1 _ _ rfl [] .modern⟩, _, p, q, rfl, hp, hq, hs⟩

end CypherTraversal
