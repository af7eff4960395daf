import CypherTraversal.Proofs.Run.Lockstep

/-! # Traversals in lockstep

Two runs of a traversal are in lockstep if each of its steps, wherever it stands, keeps to the bond
between them where it does more than move rows between objects: where it reads the path of a row or
a parameter, where it writes objects down, and where it changes the graph. -/

namespace CypherTraversal

open Run List Step Traversal

variable {B : Bond} {ps qs : Parameters}

/-! ### Stages -/

inductive Stage.Lockstep (B : Bond) : Stage → Stage → Prop
  | process {p q : Process} (h : p.Lockstep B q) : Lockstep B (.process p) (.process q)
  | modulated {f k : List Modulator → Process}
      (h : ∀ ms ns, List.Forall₂ (Modulator.Lockstep B) ms ns → (f ms).Lockstep B (k ns)) :
    Lockstep B (.modulated f) (.modulated k)
  | modulator {m n : Modulator} (h : m.Lockstep B n) {text text' : String}
      (hstray : text = text' ∨ B.error (.strayModulator text) (.strayModulator text')) :
    Lockstep B (.modulator m text) (.modulator n text')

namespace Stage

variable {ss rs : List Stage}

theorem modulators_lockstep (h : Forall₂ (Stage.Lockstep B) ss rs) :
    Forall₂ (Modulator.Lockstep B) (modulators ss) (modulators rs) := by
  induction h with
  | nil => exact .nil
  | cons hs _ ih =>
    cases hs with
    | process h | modulated h => exact .nil
    | modulator h _ => exact .cons h ih

def inPlace : (taken : Bool) → List Stage → Bool
  | _, [] => true
  | taken, .modulator _ _ :: ss => taken && inPlace true ss
  | _, .process _ :: ss => inPlace false ss
  | _, .modulated _ :: ss => inPlace true ss

theorem runFrom_lockstep (h : Forall₂ (Stage.Lockstep B) ss rs) {taken : Bool}
    (hplaced : inPlace taken ss ∨ ∀ text, B.error (.strayModulator text) (.strayModulator text)) :
    (runFrom taken ss).Lockstep B (runFrom taken rs) := by
  induction h generalizing taken with
  | nil => exact .same
  | cons hs hrest ih =>
    cases hs with
    | process h => cases taken <;> exact h.andThen (ih hplaced)
    | modulated h => cases taken <;> exact (h _ _ (modulators_lockstep hrest)).andThen (ih hplaced)
    | modulator h herror =>
      cases taken with
      | true => exact ih hplaced
      | false =>
        rcases hplaced with hplaced | hstray
        · cases hplaced
        · refine fun _ hg _ _ _ => .throw hg ?_
          rcases herror with rfl | herror
          · exact hstray _
          · exact herror

end Stage

/-! ### Modulators in place -/

theorem Traversal.Modulated.stages_inPlace {f : Traversal} (hf : f.Modulated) (taken : Bool) :
    Stage.inPlace taken (stages ps f) := by
  induction hf generalizing taken with
  | nil => rfl
  | @cons s ms f hs _ ih =>
    obtain ⟨p, hp, hmodulated⟩ | ⟨k, hk⟩ := stage_of_not_isModulator ps hs.isModulator_eq
    · have hnil : ms = [] := by
        by_contra hne
        rw [hs.isModulated hne] at hmodulated
        cases hmodulated
      rw [hnil, stages, hp]
      exact ih false
    · rw [stages, hk]
      have hms := hs.forall_isModulator
      clear hs
      induction ms with
      | nil => exact ih true
      | cons m ms ihms =>
        obtain ⟨hm, hms⟩ := forall_mem_cons.mp hms
        obtain ⟨n, text, hn⟩ := stage_of_isModulator ps hm
        rw [cons_append, stages, hn]
        exact ihms hms

def Traversal.Placed (E : Error → Prop) (f : Traversal) : Prop :=
  f.Modulated ∨ ∀ text, E (.strayModulator text)

/-! ### Steps -/

namespace Step

def Bonded (B : Bond) (ps qs : Parameters) : Step → Prop
  | inject vs => ∀ g, ∀ v ∈ vs, B.object g (.ofValue v)
  | hasPredicate _ p | is p | wherePredicate p => ∀ g u v, B.row g u v → ∀ x,
    B.Answers (fun _ => True) (p.test ps u x) (p.test qs v x)
  | mark l => ∀ g u v, B.row g u v → B.row g (u.mark l) (v.mark l)
  | select l => ∀ g u v, B.row g u v →
    u.labelled? l = v.labelled? l ∧ ∀ y, u.labelled? l = some y → B.object g y
  | constant o => ∀ g u v, B.row g u v → B.Answers (B.object g) (o.resolve ps u) (o.resolve qs v)
  | project keys => ∀ g (es : List (String × Object)), es.map Prod.fst = keys →
    (∀ e ∈ es, B.object g e.2) → B.object g (.map (Entries.ofList es))
  | reduce r => ∀ g xs, (∀ x ∈ xs, B.object g x) →
    B.Answers (fun ys => ∀ y ∈ ys, B.object g y) (Process.reduce r xs) (Process.reduce r xs)
  | skip n => B.Answers (fun _ => True) (n.count ps "SKIP") (n.count qs "SKIP")
  | limit n => B.Answers (fun _ => True) (n.count ps "LIMIT") (n.count qs "LIMIT")
  | range low high => B.Answers (fun _ => True) (low.count ps "range") (low.count qs "range") ∧
    B.Answers (fun _ => True) (high.count ps "range") (high.count qs "range")
  | addVertex l => (Process.addVertex l).Lockstep B (Process.addVertex l)
  | addEdge l => ∀ ms ns, List.Forall₂ (Modulator.Lockstep B) ms ns →
    (Process.addEdge l ms).Lockstep B (Process.addEdge l ns)
  | property key _ => (∀ g u v, B.graph g → B.row g u v → ∀ value,
      Run.Lockstep B.toPace B.Rows g
        (Process.setElement key u value) (Process.setElement key v value)) ∧
    ∀ g x, B.graph g → B.object g x → B.Answers (fun _ => True) (x.toValue g) (x.toValue g)
  | _ => True

variable {F : Traversal → Traversal}

theorem runEach_lockstep {ts : List (List Step)}
    (h : ∀ t ∈ ts, (run ps t).Lockstep B (run qs (F t))) :
    Forall₂ (Process.Lockstep B) (runEach ps ts) (runEach qs (ts.map F)) := by
  rw [runEach_eq_map, runEach_eq_map, map_map]
  exact forall₂_map_same h

theorem select_lockstep {l : String} (hs : (select l).Bonded B ps qs) :
    (Process.select l).Lockstep B (Process.select l) := by
  refine .moveIn fun g u v hg hrow => ?_
  obtain ⟨hlabelled, hobject⟩ := hs g u v hrow
  have hu := B.object_of_row hrow
  rw [← B.same hrow, ← hlabelled]
  refine ⟨rfl, fun y hy => ?_⟩
  split at hy
  · rename_i entries hentries
    rcases Option.or_eq_some_iff.mp hy with hy | ⟨-, hy⟩
    · exact B.entry (hentries ▸ hu) hy
    · exact hobject y hy
  · exact hobject y hy

theorem leaf_lockstep {s : Step} (hleaf : s.inside = []) (hs : s.Bonded B ps qs) :
    (stage ps s).Lockstep B (stage qs s) := by
  cases s
  case vertices =>
    exact .process (.eachRow fun g u v hg hrow => .onGraph (.pure hg
      (forall₂_map_same fun w hw => B.moveTo hrow (B.vertex hg hw))))
  case inject vs =>
    exact .process (.pick fun g us vs hrows => rel_append hrows
      (forall₂_map_same fun v hv => B.fresh (hs g v hv)))
  case hasLabel | has | hasNot => exact .process (.keepIn _)
  case hasPredicate key p =>
    refine .process (.keep fun g u v hg hrow => .onGraph ?_)
    rw [← B.same hrow]
    split
    · exact (Run.Lockstep.answer hg (hs g u v hrow _)).mono fun _ _ _ _ hab => hab.1
    · exact .pure hg rfl
  case is p | wherePredicate p =>
    refine .process (.keep fun g u v hg hrow => ?_)
    rw [← B.same hrow]
    exact (Run.Lockstep.answer hg (hs g u v hrow _)).mono fun _ _ _ _ hab => hab.1
  case edges d labels =>
    exact .process (.eachRow fun g u v hg hrow => .onGraph (.pure hg (B.edges d labels hg hrow)))
  case endpoint e =>
    refine .process (.moveIn fun g u v hg hrow => ?_)
    obtain ⟨heq, hobject⟩ := B.endpoint e hg hrow
    refine ⟨congrArg _ heq, fun y hy => ?_⟩
    obtain ⟨w, hw, rfl⟩ := Option.map_eq_some_iff.mp hy
    exact hobject w hw
  case mark l =>
    refine .process (.pick fun g us vs hrows => ?_)
    exact rel_map (hs g) hrows
  case select l => exact .process (select_lockstep hs)
  case selectColumn c => exact .process (.moveAt fun _ _ _ _ hx hy => B.side hx hy)
  case values key | properties key =>
    refine .process (.moveAt (f := fun g x => (g.property? key x).map .ofValue)
      fun g x y hg _ hy => ?_)
    obtain ⟨w, hw, rfl⟩ := Option.map_eq_some_iff.mp hy
    exact B.property hg hw
  case value | identity | barrier => exact .process .same
  case id =>
    refine .process (.moveAt fun g x y _ _ hy => ?_)
    unfold Process.identifier? at hy
    split at hy <;> cases hy <;> exact B.scalar g _
  case label =>
    refine .process (.moveAt (f := fun g x => (g.label? x).map .str) fun g x y _ _ hy => ?_)
    obtain ⟨l, -, rfl⟩ := Option.map_eq_some_iff.mp hy
    exact B.scalar g _
  case constant o =>
    exact .process (.move fun g u v hg hrow => .onExcept hg (hs g u v hrow) fun x hx =>
      .pure hg (.some ⟨rfl, hx⟩))
  case project keys => exact .modulated fun ms ns hms => .project hms hs
  case unfold =>
    refine .process (.eachRow fun g u v hg hrow => .pure hg ?_)
    rw [← B.same hrow]
    exact forall₂_map_same fun y hy => B.moveTo hrow (B.part (B.object_of_row hrow) hy)
  case fold =>
    refine .process (.collect fun g xs hxs => ⟨rfl, .ok _, .ok ?_⟩)
    exact forall_mem_singleton.mpr (B.list hxs)
  case reduce r => exact .process (.collect hs)
  case dedup => exact .process .dedup
  case group => exact .modulated fun ms ns hms => .group hms
  case order => exact .modulated fun ms ns hms => .order hms
  case skip n => exact .process (.skip hs)
  case limit n => exact .process (.limit hs)
  case range low high => exact .process (.range hs.1 hs.2)
  case addVertex l => exact .process hs
  case addEdge l => exact .modulated hs
  case fromLabel l => exact .modulator (.fromLabel l) (.inl rfl)
  case toLabel l => exact .modulator (.toLabel l) (.inl rfl)
  case and | or =>
    cases hleaf
    exact .process (.keep fun g u v hg hrow => .pure hg rfl)
  case union | coalesce =>
    cases hleaf
    exact .process (.eachRow fun g u v hg hrow => .pure hg .nil)
  all_goals cases hleaf

theorem stage_lockstep {s : Step} (hs : s.Bonded B ps qs) (hstray : s.mapInside F = s ∨
      ∀ text text', B.error (.strayModulator text) (.strayModulator text'))
    (h : ∀ t ∈ s.inside, (run ps t).Lockstep B (run qs (F t))) :
    (stage ps s).Lockstep B (stage qs (s.mapInside F)) := by
  have only {t : Traversal} (ht : s.inside = [t]) :
      (run ps t).Lockstep B (run qs (F t)) :=
    h t (by rw [ht]; exact mem_cons_self)
  have htext : s.inspect = (s.mapInside F).inspect ∨
      B.error (.strayModulator s.inspect) (.strayModulator (s.mapInside F).inspect) := by
    rcases hstray with hsame | herror
    · exact .inl (congrArg inspect hsame.symm)
    · exact .inr (herror ..)
  cases s
  case filter t => exact .process (.keep fun g u v hg hrow => (only rfl).leads hg hrow)
  case not t =>
    refine .process (.keep fun g u v hg hrow => ((only rfl).leads hg hrow).map ?_)
    rintro m a _ - rfl
    rfl
  case and ts =>
    exact .process (.keep fun g u v hg hrow =>
      Process.InStep.allLead (runEach_lockstep h) hg hrow)
  case or ts =>
    exact .process (.keep fun g u v hg hrow =>
      Process.InStep.someLeads (runEach_lockstep h) hg hrow)
  case union ts =>
    exact .process (.eachRow fun g u v hg hrow =>
      Process.InStep.union (runEach_lockstep h) hg hrow)
  case coalesce ts =>
    exact .process (.eachRow fun g u v hg hrow =>
      Process.InStep.coalesce (runEach_lockstep h) hg hrow)
  case choose c y n =>
    obtain ⟨hc, h⟩ := forall_mem_cons.mp h
    obtain ⟨hy, h⟩ := forall_mem_cons.mp h
    exact .process (.choose hc hy (h n mem_cons_self))
  case flatMap t => exact .process (.eachRow fun g u v hg hrow => (only rfl).on hg hrow)
  case property key t => exact .process (.setProperty hs.1 hs.2 (only rfl))
  case «by» t => exact .modulator (.by (only rfl)) htext
  case byOrder t o => exact .modulator (.byOrder (only rfl) o) htext
  all_goals exact leaf_lockstep rfl hs

structure Keeps (B : Bond) (ps qs : Parameters) (s : Step) : Prop where
  bonded : s.Bonded B ps qs
  inside : ∀ f ∈ s.inside, f.Placed fun e => B.error e e

end Step

theorem Traversal.run_of_stages (f : Traversal) (h : ∀ s ∈ f, (stage ps s).Lockstep B (stage qs s))
    (hplaced : f.Placed fun e => B.error e e) : (f.run ps).Lockstep B (f.run qs) := by
  have hstages : Forall₂ (Stage.Lockstep B) (stages ps f) (stages qs f) := by
    rw [stages_eq_map, stages_eq_map]
    exact forall₂_map_same h
  exact Stage.runFrom_lockstep hstages
    (hplaced.imp_left fun hmodulated => hmodulated.stages_inPlace false)

theorem Traversal.stages_lockstep (f : Traversal) : f.Every (Step.Keeps B ps qs) →
    ∀ s ∈ f, (stage ps s).Lockstep B (stage qs s) := by
  induction f using induction_inside with
  | h f ih =>
    intro h s hs
    obtain ⟨hkeeps, hevery⟩ := h.of_mem hs
    have hstage := stage_lockstep hkeeps.bonded (.inl s.mapInside_self) fun t ht =>
      t.run_of_stages (ih s hs t ht (hevery t ht)) (hkeeps.inside t ht)
    rwa [s.mapInside_self] at hstage

theorem Traversal.run_lockstep (f : Traversal) (h : f.Every (Step.Keeps B ps qs)) :
    (f.Placed fun e => B.error e e) → (f.run ps).Lockstep B (f.run qs) :=
  f.run_of_stages (f.stages_lockstep h)

end CypherTraversal
