import CypherTraversal.Proofs.Run.Lockstep

/-! # Runs that match

Two computations match along a relation when they fail with the same error or give answers that are
related, and leave the same graph. Two traversals match when they take streams whose rows are
related in turn to streams whose rows are related in turn. -/

namespace CypherTraversal

open List Process

/-! ### Computations that may fail -/

section Agree

variable {ε α α' β β' : Type}

/-- Both succeed with related answers or fail with one error. -/
inductive Agree (R : α → β → Prop) : Except ε α → Except ε β → Prop
  | ok {a : α} {b : β} (h : R a b) : Agree R (.ok a) (.ok b)
  | error (e : ε) : Agree R (.error e) (.error e)

namespace Agree

variable {R : α → β → Prop} {S : α' → β' → Prop} {x : Except ε α} {y : Except ε β}

theorem mono {R' : α → β → Prop} (h : Agree R x y) (hR : ∀ a b, R a b → R' a b) : Agree R' x y := by
  cases h with
  | ok h => exact .ok (hR _ _ h)
  | error e => exact .error e

theorem of_ok (h : Agree R x y) {a : α} {b : β} (hx : x = .ok a) (hy : y = .ok b) : R a b := by
  cases h with
  | ok h =>
    cases hx
    cases hy
    exact h
  | error e => cases hx

theorem gives {P : α → Prop} {Q : β → Prop} (h : Agree R x y) (hx : Gives P x) (hy : Gives Q y) :
    Agree (fun a b => R a b ∧ P a ∧ Q b) x y := by
  cases h with
  | ok h => exact .ok ⟨h, hx _ rfl, hy _ rfl⟩
  | error e => exact .error e

end Agree

theorem Meet.agree {E : ε → Prop} {R : α → β → Prop} {x : Except ε α} {y : Except ε β}
    (h : Meet E R x y) : Agree R x y := by
  cases h with
  | ok h => exact .ok h
  | error => exact .error _

end Agree

/-! ### Processes -/

/-- Two runs that fail with the same error and leave the same graph. -/
def Pace.exact : Pace :=
  ⟨fun _ => True, fun _ _ => True, (· = ·), fun _ => trivial, fun _ _ => trivial⟩

abbrev Pace.Link.of (S : Traverser → Traverser → Prop) : Pace.exact.Link :=
  ⟨fun _ => S, fun h _ => h⟩

theorem Run.lockstep_iff_agree {α β : Type} {R : α → β → Prop} {x : Run α} {y : Run β} {g : Graph} :
    Run.Lockstep .exact (fun _ => R) g x y ↔
      Agree R (x.outcome g).1 (y.outcome g).1 ∧ (x.outcome g).2 = (y.outcome g).2 := by
  constructor
  · rintro ⟨h, -, -, ⟨a, b, ha, hb, hab⟩ | ⟨e, _, he, he', rfl⟩⟩
    · rw [ha, hb]
      exact ⟨.ok hab, rfl⟩
    · rw [he, he']
      exact ⟨.error e, rfl⟩
  · rcases hx : x.outcome g with ⟨r, h⟩
    rcases hy : y.outcome g with ⟨s, h'⟩
    rintro ⟨hrs, rfl : h = h'⟩
    refine ⟨h, trivial, trivial, ?_⟩
    cases hrs with
    | ok hab => exact .inl ⟨_, _, hx, hy, hab⟩
    | error e => exact .inr ⟨e, e, hx, hy, rfl⟩

theorem Run.Lockstep.refl {α : Type} (x : Run α) (g : Graph) :
    Run.Lockstep .exact (fun _ => (· = ·)) g x x := by
  refine Run.lockstep_iff_agree.mpr ⟨?_, rfl⟩
  cases (x.outcome g).1 with
  | ok a => exact .ok rfl
  | error e => exact .error e

abbrev Process.Matches (S T : Traverser → Traverser → Prop) : Process → Process → Prop :=
  Process.InStep (.of S) (.of T)

theorem Process.Matches.agree {S T : Traverser → Traverser → Prop} {p q : Process}
    {u v : Traverser} (h : p.Matches S T q) (huv : S u v) (g : Graph) :
    Agree (Forall₂ T) ((p [u]).outcome g).1 ((q [v]).outcome g).1 ∧
      ((p [u]).outcome g).2 = ((q [v]).outcome g).2 :=
  Run.lockstep_iff_agree.mp (h g trivial [u] [v] (.cons huv .nil))

theorem Process.Matches.moveIn {S T : Traverser → Traverser → Prop}
    {m n : Graph → Traverser → Option Object}
    (h : ∀ g u v, S u v → Option.Rel (fun x y => T (u.moveTo x) (v.moveTo y)) (m g u) (n g v)) :
    (moveIn m).Matches S T (moveIn n) :=
  .move fun g u v hg hrow => .onGraph (.pure hg (h g u v hrow))

/-! ### Traversals -/

structure Traversal.Matches (ps : Parameters) (S T : Traverser → Traverser → Prop)
    (f k : Traversal) : Prop where
  starts : f.Starts ps ∧ k.Starts ps
  rows : (f.run ps).Matches S T (k.run ps)

namespace Traversal.Matches

variable {ps : Parameters} {S T U R : Traverser → Traverser → Prop} {f k f' k' : Traversal}
  {fs ks : List Traversal}

theorem nil : Matches ps S S [] [] :=
  ⟨⟨rfl, rfl⟩, .same⟩

theorem append (hf : f.Matches ps S T k) (hf' : f'.Matches ps T U k') :
    Matches ps S U (f ++ f') (k ++ k') := by
  refine ⟨⟨hf.starts.1.append hf'.starts.1, hf.starts.2.append hf'.starts.2⟩, ?_⟩
  rw [run_append hf'.starts.1, run_append hf'.starts.2]
  exact hf.rows.andThen hf'.rows

theorem mono {S' T' : Traverser → Traverser → Prop} (hf : f.Matches ps S T k)
    (hS : ∀ u v, S' u v → S u v) (hT : ∀ u v, T u v → T' u v) : f.Matches ps S' T' k :=
  ⟨hf.starts, fun g hg us vs h => (hf.rows g hg us vs (h.imp hS)).mono fun _ _ _ _ h => h.imp hT⟩

theorem step {s r : Step} {p q : Process} (hs : Step.stage ps s = .process p)
    (hr : Step.stage ps r = .process q) (h : p.Matches S T q) : Matches ps S T [s] [r] := by
  refine ⟨⟨.of_process hs, .of_process hr⟩, ?_⟩
  rw [run_step hs, run_step hr]
  exact h

theorem runEach (h : Forall₂ (Matches ps S T) fs ks) :
    Forall₂ (Process.Matches S T) (Step.runEach ps fs) (Step.runEach ps ks) := by
  induction h with
  | nil => exact .nil
  | cons h _ ih => exact .cons h.rows ih

theorem filter (h : f.Matches ps S T k) : Matches ps S S [.filter f] [.filter k] :=
  step rfl rfl (.keep fun _ _ _ hg huv => h.rows.leads hg huv)

theorem not (h : f.Matches ps S T k) : Matches ps S S [.not f] [.not k] :=
  step rfl rfl (.keep fun _ _ _ hg huv =>
    (h.rows.leads hg huv).map fun _ _ _ _ hab => congrArg _ hab)

theorem or (h : Forall₂ (Matches ps S T) fs ks) : Matches ps S S [.or fs] [.or ks] :=
  step rfl rfl (.keep fun _ _ _ hg huv => InStep.someLeads (runEach h) hg huv)

theorem union (h : Forall₂ (Matches ps S T) fs ks) : Matches ps S T [.union fs] [.union ks] :=
  step rfl rfl (.eachRow fun _ _ _ hg huv => InStep.union (runEach h) hg huv)

theorem coalesce (h : Forall₂ (Matches ps S T) fs ks) :
    Matches ps S T [.coalesce fs] [.coalesce ks] :=
  step rfl rfl (.eachRow fun _ _ _ hg huv => InStep.coalesce (runEach h) hg huv)

theorem choose {test test' : Traversal} (htest : test.Matches ps S R test')
    (hyes : f.Matches ps S T k) (hno : f'.Matches ps S T k') :
    Matches ps S T [.choose test f f'] [.choose test' k k'] :=
  step rfl rfl (.choose htest.rows hyes.rows hno.rows)

end Traversal.Matches

/-! ### Projections -/

section Projections

variable {S T : Traverser → Traverser → Prop} {u v : Traverser}

theorem Process.Matches.projectFrom {ps qs : List Process} {g : Graph}
    (h : Forall₂ (Matches S T) ps qs) (hT : ∀ u v, T u v → u.object = v.object)
    (hne : ps ≠ []) (huv : S u v) (i : Nat) (keys : List String) :
    Run.Lockstep .exact (fun _ => (· = ·)) g (projectFrom ps u i keys)
      (projectFrom qs v i keys) := by
  induction keys generalizing g i with
  | nil => exact .pure trivial rfl
  | cons key keys ih =>
    have hkey : Run.Lockstep .exact (fun _ => (· = ·)) g (keyObject ps[i % ps.length]? u)
        (keyObject qs[i % qs.length]? v) := by
      have hi := forall₂_getElem? h (i % ps.length)
      rw [getElem?_eq_getElem (Nat.mod_lt i (length_pos_of_ne_nil hne))] at hi ⊢
      rw [← h.length_eq]
      generalize qs[i % ps.length]? = q at hi
      cases hi with
      | some hp =>
        refine (hp.on trivial huv).map fun _ us vs _ hus => ?_
        cases hus with
        | nil => rfl
        | cons hu _ => exact hT _ _ hu
    refine hkey.bind ?_
    rintro m x _ - - rfl
    refine (ih (i + 1)).map ?_
    rintro n rest _ - rfl
    rfl

theorem Traversal.Matches.project {ps : Parameters} {fs ks : List Traversal} {keys : List String}
    (h : Forall₂ (Matches ps S T) fs ks) (hT : ∀ u v, T u v → u.object = v.object)
    (hlength : keys.length = fs.length) (hmove : ∀ u v x, S u v → T (u.moveTo x) (v.moveTo x)) :
    Matches ps S T (.project keys :: fs.map .by) (.project keys :: ks.map .by) := by
  refine ⟨⟨rfl, rfl⟩, ?_⟩
  rw [run_modulated rfl (Step.modulate_by ps fs), run_modulated rfl (Step.modulate_by ps ks)]
  refine .andThen (.move fun g u v _ huv => ?_) .same
  rw [Modulator.processes_by, Modulator.processes_by]
  have hruns : Forall₂ (Process.Matches S T) (fs.map (run ps)) (ks.map (run ps)) :=
    rel_map (fun _ _ h => h.rows) h
  have hentries : Run.Lockstep .exact (fun _ => (· = ·)) g
      (projectFrom (fs.map (run ps)) u 0 keys)
      (projectFrom (ks.map (run ps)) v 0 keys) := by
    cases fs with
    | nil =>
      rw [length_eq_zero_iff.mp hlength]
      exact .pure trivial rfl
    | cons f fs => exact Process.Matches.projectFrom hruns hT (cons_ne_nil _ _) huv 0 keys
  refine hentries.map ?_
  rintro _ entries _ - rfl
  exact .some (hmove u v _ huv)

end Projections

end CypherTraversal
