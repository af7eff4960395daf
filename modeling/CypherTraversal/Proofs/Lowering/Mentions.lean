import CypherTraversal.Proofs.Refused
import CypherTraversal.Proofs.Script.Determined

/-! # Parameters of lowered queries

The parameters that a program lists are those that its traversal mentions, at every depth, and a run
looks up no others. -/

namespace CypherTraversal

open Run List Operand Step Traversal

variable {name : String} {n : Bound} {r : ResolvedQuery} {t : Traversal} {q : Query} {f : Traversal}
  {names : List String} {o : Operand} {ps : Parameters} {s : Step}

/-! ### Mentioning a parameter -/

inductive Step.Mentions (name : String) : Step → Prop
  | constant : Mentions name (.constant (.parameter name))
  | predicate {s : Step} {p : Predicate} (hp : s.predicate? = some p)
      (h : .parameter name ∈ p.operands) : Mentions name s
  | skip : Mentions name (.skip (.parameter name))
  | limit : Mentions name (.limit (.parameter name))
  | rangeLow (high : Bound) : Mentions name (.range (.parameter name) high)
  | rangeHigh (low : Bound) : Mentions name (.range low (.parameter name))
  | inside {s r : Step} {f : Traversal} (hf : f ∈ s.inside) (hr : r ∈ f) (h : r.Mentions name) :
    Mentions name s

def Traversal.Mentions (name : String) (f : Traversal) : Prop :=
  ∃ s ∈ f, s.Mentions name

theorem Operand.mem_parameters : name ∈ o.parameters ↔ o = .parameter name := by
  cases o <;> simp [parameters, eq_comm]

theorem Bound.mem_parameters : name ∈ n.parameters ↔ n = .parameter name := by
  cases n <;> simp [parameters, eq_comm]

theorem Step.mem_parameters_of_operand (h : .parameter name ∈ s.operands) :
    name ∈ s.parameters := by
  cases s
  case constant o => exact mem_parameters.mpr (mem_singleton.mp h).symm
  case hasPredicate | is | wherePredicate =>
    exact mem_flatMap.mpr ⟨_, h, mem_parameters.mpr rfl⟩
  all_goals cases h

theorem Step.mentions_of_mem (h : name ∈ s.parameters) : s.Mentions name := by
  cases s
  case constant o =>
    obtain rfl := mem_parameters.mp h
    exact .constant
  case skip n =>
    obtain rfl := Bound.mem_parameters.mp h
    exact .skip
  case limit n =>
    obtain rfl := Bound.mem_parameters.mp h
    exact .limit
  case range low high =>
    rcases mem_append.mp h with h | h
    · obtain rfl := Bound.mem_parameters.mp h
      exact .rangeLow high
    · obtain rfl := Bound.mem_parameters.mp h
      exact .rangeHigh low
  case hasPredicate | is | wherePredicate =>
    obtain ⟨o, ho, h⟩ := mem_flatMap.mp h
    obtain rfl := mem_parameters.mp h
    exact .predicate rfl ho
  all_goals cases h

theorem Step.mem_visitAll {r : Step} : r ∈ visitAll f ↔ ∃ s ∈ f, r ∈ visit s := by
  induction f with
  | nil => simp [visitAll]
  | cons s f ih => rw [visitAll, mem_append, ih, exists_mem_cons_iff]

theorem Step.Mentions.exists_visited (h : s.Mentions name) :
    ∃ r ∈ visit s, name ∈ r.parameters := by
  induction h with
  | constant | skip | limit | rangeLow => exact ⟨_, mem_visit _, mem_cons_self⟩
  | rangeHigh low => exact ⟨_, mem_visit _, mem_append_right _ mem_cons_self⟩
  | @predicate s p hp h =>
    refine ⟨s, mem_visit s, mem_parameters_of_operand ?_⟩
    cases s <;> cases hp <;> exact h
  | @inside s r f hf hr _ ih =>
    obtain ⟨t, ht, hname⟩ := ih
    have hvisited : t ∈ visitAll f := mem_visitAll.mpr ⟨r, hr, ht⟩
    rw [visit_eq]
    exact ⟨t, mem_cons_of_mem s (mem_flatMap.mpr ⟨f, hf, hvisited⟩), hname⟩

theorem Traversal.mentions_of_visited (f : Traversal) :
    (∃ r ∈ visitAll f, name ∈ r.parameters) → f.Mentions name := by
  induction f using induction_inside with
  | h f ih =>
    rintro ⟨r, hr, hname⟩
    obtain ⟨s, hs, hr⟩ := mem_visitAll.mp hr
    rw [visit_eq] at hr
    rcases mem_cons.mp hr with rfl | hr
    · exact ⟨r, hs, mentions_of_mem hname⟩
    · obtain ⟨h, hh, hr⟩ := mem_flatMap.mp hr
      obtain ⟨t, ht, hmentions⟩ := ih s hs h hh ⟨r, hr, hname⟩
      exact ⟨s, hs, .inside hh ht hmentions⟩

theorem Traversal.mentions_iff : f.Mentions name ↔ ∃ r ∈ visitAll f, name ∈ r.parameters := by
  refine ⟨?_, f.mentions_of_visited⟩
  rintro ⟨s, hs, h⟩
  obtain ⟨r, hr, hname⟩ := h.exists_visited
  exact ⟨r, mem_visitAll.mpr ⟨s, hs, hr⟩, hname⟩

theorem Traversal.mem_parameters_iff : name ∈ f.parameters ↔ f.Mentions name := by
  rw [parameters, mem_addNames, mem_flatMap, mentions_iff]
  exact ⟨fun h => h.resolve_left not_mem_nil, .inr⟩

/-! ### Looking parameters up -/

def Error.Misses (ps : Parameters) (names : List String) (e : Error) : Prop :=
  ∀ name, e = .execution (.missingParameter name) → name ∈ names ∧ ps.has name = false

section Lookups

variable {ps : Parameters} {names : List String}

theorem Error.misses_of_arisesAtObject {e : Error} (h : e.arisesAtObject) : e.Misses ps names := by
  rintro name rfl
  cases h

theorem Parameters.value_misses (h : name ∈ names) :
    FailsWith (Error.Misses ps names) (ps.value name) := by
  unfold value
  cases hv : Entries.find? name ps with
  | some v => exact .ok v
  | none =>
    refine .error fun other hother => ?_
    cases hother
    refine ⟨h, ?_⟩
    unfold Entries.has
    rw [hv]
    rfl

theorem Operand.resolve_misses (h : o.parameters ⊆ names) (t : Traverser) :
    FailsWith (Error.Misses ps names) (o.resolve ps t) :=
  resolve_failsWith (fun _ hname => Parameters.value_misses (h hname)) t

theorem Bound.count_misses (h : n.parameters ⊆ names) (clause : String) :
    FailsWith (Error.Misses ps names) (n.count ps clause) := by
  refine count_fails (fun _ hname => Parameters.value_misses (h hname)) fun _ _ hname => ?_
  cases hname

theorem Step.fails_misses (h : s.parameters ⊆ names) : s.Fails ps (Error.Misses ps names) := by
  refine ⟨?_, fun o ho t => resolve_misses (fun name hname => h ?_) t,
    fun f _ => .inr fun text name hname => ?_⟩
  · cases s
    case skip n => exact Bound.count_misses h "SKIP"
    case limit n => exact Bound.count_misses h "LIMIT"
    case range low high =>
      obtain ⟨hlow, hhigh⟩ := append_subset.mp h
      exact ⟨Bound.count_misses hlow "range", Bound.count_misses hhigh "range"⟩
    all_goals trivial
  · rw [mem_parameters] at hname
    exact mem_parameters_of_operand (hname ▸ ho)
  · cases hname

end Lookups

theorem Traversal.mentions_of_missing {g : Graph}
    (h : (t.execute ps g).1 = .error (.execution (.missingParameter name))) :
    t.Mentions name ∧ ps.has name = false := by
  have hobject (e : Error) (he : e.arisesAtObject) : e.Misses ps t.parameters :=
    Error.misses_of_arisesAtObject he
  have hfails (s : Step) (hs : s ∈ visitAll t) : s.Fails ps (Error.Misses ps t.parameters) :=
    fails_misses fun name hname => mem_parameters_iff.mpr (mentions_iff.mpr ⟨s, hs, hname⟩)
  have hstray : Placed (Error.Misses ps t.parameters) t := by
    refine .inr fun text name hname => ?_
    cases hname
  have hrun := results_ensure hobject (run_keeps Graph.kept_always hobject t hfails hstray)
  obtain ⟨hname, hsupplied⟩ :=
    (hrun.of_error (h := (t.execute ps g).2) trivial (Prod.ext h rfl)).2 name rfl
  exact ⟨mem_parameters_iff.mp hname, hsupplied⟩

/-! ### Restricted traversals -/

abbrev Step.NamesOnly (names : List String) (s : Step) : Prop :=
  s.parameters ⊆ names

theorem Traversal.mentions_of_restrict {t' : Traversal} (h : t.restrict = .ok t')
    (hname : t'.Mentions name) : t.Mentions name := by
  have hnames : t.Every (NamesOnly t.parameters) := fun s hs name hname =>
    mem_parameters_iff.mpr (mentions_iff.mpr ⟨s, hs, hname⟩)
  have hnames' : t'.Every (NamesOnly t.parameters) := by
    rw [eq_respelled_of_restrictFrom h]
    refine hnames.respelledAll (fun _ _ => ⟨nil_subset _, nil_subset _⟩) (fun n hn => ?_)
      fun s F _ hs => ?_
    · exact append_subset.mpr ⟨hn, nil_subset _⟩
    · cases s <;> exact hs
  obtain ⟨s, hs, hname⟩ := mentions_iff.mp hname
  exact mem_parameters_iff.mp (hnames' s hs hname)

/-! ### Queries -/

theorem Operand.Known.parameters_subset (h : o.Known names) : o.parameters ⊆ names := by
  cases o with
  | value v | label l => exact nil_subset _
  | parameter name => exact cons_subset.mpr ⟨h, nil_subset _⟩

theorem Step.Known.namesOnly (h : s.Known ps names) : s.NamesOnly names := by
  cases s
  case constant o => exact Operand.Known.parameters_subset h
  case is p | hasPredicate key p =>
    intro name hname
    obtain ⟨o, ho, hname⟩ := mem_flatMap.mp hname
    exact (h o ho).parameters_subset hname
  case wherePredicate p =>
    obtain ⟨l, hl, -⟩ := h
    show p.operands.flatMap Operand.parameters ⊆ names
    rw [hl]
    exact nil_subset _
  case skip n | limit n => exact Bound.Known.parameters h
  case range low high => exact append_subset.mpr ⟨h.1.parameters, h.2.parameters⟩
  all_goals exact nil_subset _

theorem Query.mem_parameters_of_mentions (hr : q.resolve = .ok r)
    {l : LoweredQuery} (hl : r.lower ps = .ok l) (h : l.traversal.Mentions name) :
    name ∈ r.parameters := by
  obtain ⟨s, hs, hname⟩ := mentions_iff.mp h
  exact ((q.lower_wellBuilt hr hl).every s hs).1.namesOnly hname

theorem Session.checkSupplied_eq_ok {text : String} (hq : Query.parse text = .ok q)
    (hr : q.resolve = .ok r) (ps : Parameters) :
    checkSupplied text ps = .ok () ↔ ∀ name ∈ r.parameters, ps.has name := by
  unfold checkSupplied
  rw [hq]
  show (q.resolve >>= fun r => _) = _ ↔ _
  rw [hr]
  dsimp only [bind, Except.bind]
  cases hfind : r.parameters.find? fun name => !ps.has name with
  | none =>
    have hall : ∀ name ∈ r.parameters, ps.has name := by simpa using hfind
    exact iff_of_true rfl hall
  | some name =>
    have hmissing := find?_some hfind
    have hmem := mem_of_find?_eq_some hfind
    constructor
    · intro h
      cases h
    · intro h
      rw [h name hmem] at hmissing
      cases hmissing

/-- **Parameter names in programs are complete and safe.** Where a query has a program, its
traversal mentions at any depth only parameters that the query lists, each with a name that a script
can write; in flavors with script text none of them is reserved. The strict check of a session is
that all of the listed parameters are supplied, and then no run of the program, on whatever graph,
fails because a parameter is missing. -/
theorem program_parameters_complete {flavor : Flavor} {text : String} {ps : Parameters}
    {p : Program} (hp : compile flavor text ps = .ok p) :
    ∃ (q : Query) (r : ResolvedQuery) (l : LoweredQuery), Query.parse text = .ok q ∧
      q.resolve = .ok r ∧ r.lower ps = .ok l ∧
      (∀ name, l.traversal.Mentions name → name ∈ r.parameters ∧ Text.isPlainName name ∧
        (flavor ≠ .native → isReserved name = false)) ∧
      (Session.checkSupplied text ps = .ok () ↔ ∀ name ∈ r.parameters, ps.has name) ∧
      ((∀ name ∈ r.parameters, ps.has name) → ∀ t, p.traversal? = some t →
        ∀ (g : Graph) (name : String),
          (t.execute p.parameters g).1 ≠ .error (.execution (.missingParameter name))) := by
  obtain ⟨q, r, l, hq, hr, hl, hps, -, hnames, hruns⟩ := compile_eq_ok hp
  have hlisted {name : String} (h : l.traversal.Mentions name) : name ∈ r.parameters :=
    Query.mem_parameters_of_mentions hr hl h
  refine ⟨q, r, l, hq, hr, hl, fun name hname => ⟨hlisted hname, ?_, fun hflavor => ?_⟩,
    Session.checkSupplied_eq_ok hq hr ps, fun hsupplied t ht g name herror => ?_⟩
  · exact ResolvedQuery.isPlainName_of_lower hl name (hlisted hname)
  · obtain ⟨⟨⟩, hparameters, -⟩ := bind_eq_ok.mp (hnames hflavor)
    have hcollected := mem_parameters_iff.mpr hname
    exact checkReserved_eq_ok.mp hparameters name (List.mem_append_left _ hcollected)
  · rw [hps] at herror
    obtain ⟨hmentions, hmissing⟩ := mentions_of_missing herror
    have hquery : l.traversal.Mentions name := by
      rcases hruns t ht with rfl | hrestrict
      · exact hmentions
      · exact mentions_of_restrict hrestrict hmentions
    rw [hsupplied name (hlisted hquery)] at hmissing
    cases hmissing

theorem limited_names_parameters_complete :
    let text := "MATCH (n) WHERE n.age > $low AND n.name IN $names WITH n, [$mark] AS m LIMIT $k
      RETURN n.name AS name, m"
    let ps : Parameters := [("k", .int 2), ("low", .int 28), ("mark", .null),
      ("names", .list [.str "marko", .str "josh"])]
    ∃ (p : Program) (t : Traversal) (q : Query) (r : ResolvedQuery) (l : LoweredQuery),
      compile .cosmosdb text ps = .ok p ∧ p.traversal? = some t ∧ Query.parse text = .ok q ∧
      q.resolve = .ok r ∧ r.lower ps = .ok l ∧ r.parameters = ["low", "names", "mark", "k"] ∧
      (∀ name ∈ r.parameters, l.traversal.Mentions name ∧ ps.has name) ∧
      (∀ name, l.traversal.Mentions name → name ∈ r.parameters ∧ Text.isPlainName name ∧
        (Flavor.cosmosdb ≠ .native → isReserved name = false)) ∧
      Session.checkSupplied text ps = .ok () ∧
      ∀ name, (t.execute p.parameters .modern).1 ≠
        .error (.execution (.missingParameter name)) := by
  intro text ps
  obtain ⟨q, hq, r, hr, l, hl, p, hp, t, ht, hlisted, hmentioned⟩ : ∃ q, Query.parse text = .ok q ∧
      ∃ r, q.resolve = .ok r ∧ ∃ l, r.lower ps = .ok l ∧ ∃ p, compile .cosmosdb text ps = .ok p ∧
      ∃ t, p.traversal? = some t ∧ r.parameters = ["low", "names", "mark", "k"] ∧
      l.traversal.parameters = r.parameters := by decide +kernel
  obtain ⟨q', r', l', hq', hr', hl', hnames, hstrict, hrun⟩ := program_parameters_complete hp
  obtain rfl := Except.ok.inj (hq.symm.trans hq')
  obtain rfl := Except.ok.inj (hr.symm.trans hr')
  obtain rfl := Except.ok.inj (hl.symm.trans hl')
  have hsupplied : ∀ name ∈ r.parameters, ps.has name := by
    rw [hlisted]
    decide
  refine ⟨p, t, q, r, l, hp, ht, hq, hr, hl, hlisted, fun name hname => ?_, hnames,
    hstrict.mpr hsupplied, hrun hsupplied t ht .modern⟩
  refine ⟨mem_parameters_iff.mp ?_, hsupplied name hname⟩
  rwa [hmentioned]

end CypherTraversal
