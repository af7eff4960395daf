import CypherTraversal.Proofs.Presence.Objects
import CypherTraversal.Proofs.Run.Reading

/-! # No element dangles

Every vertex and edge that a row holds at any moment of a run is in the graph, so a run never fails
because an element is missing. -/

namespace CypherTraversal

open Run CypherTraversal.Graph List Bond

variable (ps : Parameters)

def Error.isNotFound : Error → Bool
  | notFound _ => true
  | _ => false

abbrev Finds {α : Type} (x : Except Error α) : Prop :=
  FailsWith (fun e => e.isNotFound = false) x

theorem Operand.resolve_finds (t : Traverser) (o : Operand) :
    Finds (o.resolve ps t) :=
  resolve_failsWith (fun name _ => ps.value_fails (fun _ => rfl) name) t

theorem Predicate.test_finds (t : Traverser) (p : Predicate) (x : Object) :
    Finds (p.test ps t x) :=
  p.test_fails (fun o _ => o.resolve_finds ps t) x

theorem Bound.count_finds (clause : String) (n : Bound) :
    Finds (n.count ps clause) :=
  count_fails (fun name _ => ps.value_fails (fun _ => rfl) name) fun _ => rfl

/-! ### The bond -/

def RowsIn (g : Graph) (ts : List Traverser) : Prop :=
  ∀ t ∈ ts, t.PresentIn g

theorem Traverser.PresentIn.edgesFrom {g : Graph} {t : Traverser} (ht : t.PresentIn g)
    (d : Direction) (labels : List String) : RowsIn g (g.edgesFrom d labels t) := by
  unfold Graph.edgesFrom
  have hobject := ht.object
  split
  · rename_i v hv
    rw [hv] at hobject
    refine forall_mem_map.mpr fun e he => ⟨?_, ht.path, ?_⟩
    · exact .edge (edge?_isSome_iff.mpr ⟨e, (mem_filter.mp he).1, rfl⟩)
    · rintro _ ⟨⟩
      cases hobject with
      | vertex hv => exact hv
  · exact forall_mem_nil _

theorem Graph.Closed.endpoint? {g : Graph} (hg : g.Closed) {e : Endpoint} {t : Traverser}
    {v : VertexId} (hv : g.endpoint? e t = some v) : (Object.vertex v).PresentIn g := by
  unfold Graph.endpoint? at hv
  split at hv
  · obtain ⟨x, hx, hv⟩ := Option.bind_eq_some_iff.mp hv
    obtain ⟨hsource, htarget⟩ := hg x (mem_of_find?_eq_some hx)
    cases e with
    | target =>
      cases hv
      exact .vertex htarget
    | source =>
      cases hv
      exact .vertex hsource
    | other =>
      obtain ⟨w, -, hv⟩ := Option.bind_eq_some_iff.mp hv
      unfold Edge.other? at hv
      split at hv
      · cases hv
        exact .vertex htarget
      · split at hv
        · cases hv
          exact .vertex hsource
        · cases hv
  · cases hv

def Bond.presence : Bond where
  graph := Graph.Closed
  later := Changes
  row g u v := u.PresentIn g ∧ u = v
  object g x := x.PresentIn g
  error d e := d = e ∧ d.isNotFound = false
  later_refl _ := .refl
  later_trans := .trans
  row_later h hc := ⟨h.1.changes hc, h.2⟩
  object_later h hc := h.changes hc
  same h := congrArg _ h.2
  object_of_row h := h.1.object
  moveTo h hx := ⟨h.1.moveTo hx, by rw [h.2]⟩
  fresh hx := ⟨.fresh hx, rfl⟩
  scalar _ s := .scalar s
  list h := .list h
  groups h := .groups (fun e he => (h e he).1) fun e he => (h e he).2
  part h hy := h.parts hy
  side h hy := h.sides? hy
  entry h hy := h.find? hy
  vertex _ hv := .vertex (vertex?_isSome_iff.mpr ⟨_, hv, rfl⟩)
  edges d labels _ h := by
    rw [← h.2]
    exact List.forall₂_same.mpr fun t ht => ⟨h.1.edgesFrom d labels t ht, rfl⟩
  endpoint e hg h := ⟨by rw [h.2], fun _ hw => hg.endpoint? hw⟩
  property _ _ := Object.presentIn_ofValue _

theorem Bond.presence_answers {α : Type} {Q : α → Prop} {r : Except Error α} (h : Finds r)
    (hQ : Gives Q r) : presence.Answers Q r r :=
  ⟨rfl, fun e he => ⟨rfl, h e he⟩, hQ⟩

/-! ### Changes -/

namespace Process.Lockstep

variable {g : Graph} {t : Traverser}

theorem addVertex (label : Option String) :
    (addVertex label).Lockstep .presence (addVertex label) := by
  refine move fun g _ _ hg _ => .onGraph ?_
  have hchange : Change g (g.addVertex (label.getD defaultLabel) []).2 := .addVertex _ []
  refine .onChange (B := presence.toPace) (.single hchange)
    (.pure (hg.change hchange) (.some ⟨rfl, ?_⟩))
  exact .vertex (vertex?_isSome_iff.mpr ⟨_, mem_append_right _ mem_cons_self, rfl⟩)

theorem endOf (ht : t.PresentIn g) (l : Option String) :
    presence.Answers (fun v => (g.vertex? v).isSome) (endOf t l) (endOf t l) := by
  have hpresent : ((l.bind t.labelled?).getD t.object).PresentIn g := by
    cases hl : l.bind t.labelled? with
    | none => exact ht.object
    | some x =>
      obtain ⟨name, -, hx⟩ := Option.bind_eq_some_iff.mp hl
      exact ht.labelled? hx
  unfold Process.endOf vertexOf
  generalize (l.bind t.labelled?).getD t.object = x at hpresent
  cases hpresent with
  | vertex hv => exact presence_answers (.ok _) (.ok hv)
  | _ => exact presence_answers (.error rfl) (.error _)

theorem addEdge (label : String) {ms ns : List Modulator}
    (hms : Forall₂ (Modulator.Lockstep .presence) ms ns) :
    (addEdge label ms).Lockstep .presence (addEdge label ns) := by
  unfold Process.addEdge
  rw [← sourceLabel? hms, ← targetLabel? hms]
  refine move ?_
  rintro g t _ hg ⟨ht, rfl⟩
  refine .onExcept hg (endOf ht _) fun source hs => .onExcept hg (endOf ht _) fun target ht => ?_
  have hconnect : g.addEdge label source target [] = .ok (g.connect label source target []) := by
    unfold Graph.addEdge
    rw [if_neg (by simpa using Option.isSome_iff_ne_none.mp hs),
      if_neg (by simpa using Option.isSome_iff_ne_none.mp ht)]
  have hanswers : presence.Answers (fun added => g.addEdge label source target [] = .ok added)
      (g.addEdge label source target []) (g.addEdge label source target []) :=
    presence_answers (by rw [hconnect]; exact .ok _) fun _ h => h
  refine .onGraph (.onExcept hg hanswers fun added hadded => ?_)
  have hchange : Change g added.2 := .addEdge [] hadded
  refine .onChange (B := presence.toPace) (.single hchange)
    (.pure (hg.change hchange) (.some ⟨rfl, ?_⟩))
  rw [hconnect] at hadded
  cases hadded
  exact .edge (edge?_isSome_iff.mpr ⟨_, mem_append_right _ mem_cons_self, rfl⟩)

theorem setElement (key : String) (hg : g.Closed) (ht : t.PresentIn g) (value : Value) :
    Run.Lockstep presence.toPace presence.Rows g (setElement key t value)
      (setElement key t value) := by
  have hset {r : Except Error Graph} (hr : Finds r) (hchange : ∀ h, r = .ok h → Change g h) :
      Run.Lockstep presence.toPace presence.Rows g (do
        Run.setGraph (← Run.ofExcept r)
        return [t]) (do
        Run.setGraph (← Run.ofExcept r)
        return [t]) := by
    refine .onExcept hg (presence_answers hr hchange) fun h hc => ?_
    refine .onChange (B := presence.toPace) (.single hc) (.pure (hg.change hc) ?_)
    exact .cons ⟨ht.changes (.single hc), rfl⟩ .nil
  have hobject := ht.object
  refine .onGraph ?_
  split
  · rename_i v hv
    rw [hv] at hobject
    cases hobject with
    | vertex hv =>
      have hfound : ¬ (g.vertex? v).isNone := by simpa using Option.isSome_iff_ne_none.mp hv
      refine hset ?_ fun h hh => .setVertexProperty hh
      unfold Graph.setVertexProperty
      rw [if_neg hfound]
      exact .ok _
  · rename_i e he
    rw [he] at hobject
    cases hobject with
    | edge he =>
      have hfound : ¬ (g.edge? e).isNone := by simpa using Option.isSome_iff_ne_none.mp he
      refine hset ?_ fun h hh => .setEdgeProperty hh
      unfold Graph.setEdgeProperty
      rw [if_neg hfound]
      exact .ok _
  · exact (Run.Lockstep.throw (B := presence.toPace) (R := fun _ _ _ => True) hg
      ⟨rfl, rfl⟩).bind
      fun _ _ _ hc hh _ => .pure hh (.cons ⟨ht.changes hc, rfl⟩ .nil)

end Process.Lockstep

/-! ### Traversals -/

theorem Step.bonded_presence (s : Step) : s.Bonded .presence ps ps := by
  have answers {α : Type} {r : Except Error α} (h : Finds r) :
      presence.Answers (fun _ => True) r r :=
    presence_answers h fun _ _ => trivial
  cases s
  case inject vs => exact fun g v _ => Object.presentIn_ofValue v
  case hasPredicate key p | is p | wherePredicate p =>
    rintro g u _ ⟨-, rfl⟩ x
    exact answers (p.test_finds ps u x)
  case mark l =>
    rintro g u _ ⟨hu, rfl⟩
    exact ⟨hu.mark l, rfl⟩
  case select l =>
    rintro g u _ ⟨hu, rfl⟩
    exact ⟨rfl, fun y hy => hu.labelled? hy⟩
  case constant o =>
    rintro g u _ ⟨hu, rfl⟩
    exact presence_answers (o.resolve_finds ps u) fun x hx => hu.resolve hx
  case project keys => exact fun g es _ hes => .map fun e he => hes e (Entries.mem_ofList he)
  case reduce r =>
    intro g xs hxs
    have hfails : Finds (Process.reduce r xs) :=
      Process.reduce_fails (E := fun e => e.isNotFound = false) (fun _ => rfl) rfl r xs
    refine presence_answers hfails fun ys hys y hy => ?_
    rcases Process.Reads.mem_reduce hys hy with ⟨s, rfl⟩ | hy
    · exact .scalar s
    · exact hxs y hy
  case skip n => exact answers (n.count_finds ps _)
  case limit n => exact answers (n.count_finds ps _)
  case range low high => exact ⟨answers (low.count_finds ps _), answers (high.count_finds ps _)⟩
  case addVertex l => exact .addVertex l
  case addEdge l => exact fun ms ns hms => .addEdge l hms
  case property key t =>
    constructor
    · rintro g u _ hg ⟨hu, rfl⟩ value
      exact Process.Lockstep.setElement key hg hu value
    · intro g x _ hx
      obtain ⟨v, hv⟩ := Object.PresentIn.exists_toValue hx
      exact answers (by rw [hv]; exact .ok v)
  all_goals trivial

theorem Traversal.run_presence (t : Traversal) :
    (t.run ps).Lockstep .presence (t.run ps) :=
  t.run_lockstep (fun s _ => ⟨s.bonded_presence ps, fun _ _ => .inr fun _ => ⟨rfl, rfl⟩⟩)
    (.inr fun _ => ⟨rfl, rfl⟩)

/-! ### Moments of a run -/

/-- At some moment of a run, in the graph of that moment, there is the row. -/
inductive Traversal.Holds (ps : Parameters) :
    Traversal → Graph → List Traverser → Graph → Traverser → Prop
  | reached {p q : Traversal} {g h : Graph} {ts us : List Traverser} {u : Traverser}
      (hq : q.Starts ps) (hrun : (p.run ps ts).outcome g = (.ok us, h)) (hu : u ∈ us) :
      Holds ps (p ++ q) g ts h u
  | partly {p b q : Traversal} {g h k : Graph} {ts us vs ws : List Traverser} {u : Traverser}
      (hb : Starts ps (b ++ q)) (hq : q.Starts ps)
      (hrun : (p.run ps ts).outcome g = (.ok (us ++ vs), h))
      (hpart : (b.run ps us).outcome h = (.ok ws, k)) (hu : u ∈ ws) :
      Holds ps (p ++ (b ++ q)) g ts k u
  | inside {p b q f : Traversal} {s : Step} {g h k m : Graph} {ts us vs : List Traverser}
      {u : Traverser} (hb : Starts ps (b ++ q)) (hq : q.Starts ps)
      (hrun : (p.run ps ts).outcome g = (.ok us, h)) (hs : s ∈ b) (hf : f ∈ s.inside)
      (hvs : ∀ v ∈ vs, v ∈ us) (hc : Changes h k) (hu : Holds ps f k vs m u) :
      Holds ps (p ++ (b ++ q)) g ts m u
  | stays {t : Traversal} {g h k : Graph} {ts : List Traverser} {u : Traverser}
      (hu : Holds ps t g ts h u) (hc : Changes h k) : Holds ps t g ts k u

variable {ps : Parameters} {g h : Graph}

theorem Traversal.present_of_ok {t : Traversal} (hg : g.Closed) {ts us : List Traverser}
    (hts : RowsIn g ts) (hrun : (t.run ps ts).outcome g = (.ok us, h)) :
    h.Closed ∧ RowsIn h us := by
  obtain ⟨k, -, hk, ⟨ws, _, hws, -, hrows⟩ | ⟨e, _, he, -⟩⟩ :=
    t.run_presence ps g hg ts ts (forall₂_same.mpr fun t ht => ⟨hts t ht, rfl⟩)
  · rw [hrun] at hws
    cases hws
    exact ⟨hk, ((forall₂_and_left ..).mp hrows).1⟩
  · rw [hrun] at he
    cases he

theorem Traversal.Holds.present {t : Traversal} {ts : List Traverser} {u : Traverser}
    (hu : t.Holds ps g ts h u) (hg : g.Closed) (hts : RowsIn g ts) :
    h.Closed ∧ u.PresentIn h := by
  induction hu with
  | reached _ hrun hu =>
    obtain ⟨hh, hus⟩ := Traversal.present_of_ok hg hts hrun
    exact ⟨hh, hus _ hu⟩
  | partly _ _ hrun hpart hu =>
    obtain ⟨hh, hus⟩ := Traversal.present_of_ok hg hts hrun
    obtain ⟨hfirst, -⟩ := forall_mem_append.mp hus
    obtain ⟨hk, hws⟩ := Traversal.present_of_ok hh hfirst hpart
    exact ⟨hk, hws _ hu⟩
  | inside _ _ hrun _ _ hvs hc _ ih =>
    obtain ⟨hh, hus⟩ := Traversal.present_of_ok hg hts hrun
    exact ih (hh.changes hc) fun v hv => (hus v (hvs v hv)).changes hc
  | stays _ hc ih =>
    obtain ⟨hh, hu⟩ := ih hg hts
    exact ⟨hh.changes hc, hu.changes hc⟩

theorem Traversal.input_present (t : Traversal) : RowsIn g t.input := by
  have hnull : RowsIn g [{ object := .null }] :=
    forall_mem_singleton.mpr (.fresh (.scalar .null))
  cases t with
  | nil => exact hnull
  | cons s t =>
    cases s with
    | inject vs => exact forall_mem_nil _
    | _ => exact hnull

theorem Traversal.results_presence (ps : Parameters) (t : Traversal) (hg : g.Closed) :
    Run.Lockstep presence.toPace (fun _ _ _ => True) g (t.results ps) (t.results ps) := by
  refine (t.run_presence ps g hg t.input t.input
    (forall₂_same.mpr fun u hu => ⟨t.input_present u hu, rfl⟩)).bind
      fun h us vs _ hh hrows => .onGraph ?_
  obtain ⟨values, hvalues⟩ := exists_mapM_eq_ok fun x hx =>
    (presence.objects_at hrows x hx).exists_toValue
  rw [← presence.objects_eq hrows, Object.toValues_eq_mapM, hvalues]
  exact .pure hh trivial

/-- **No element dangles.** If both ends of every edge are in the graph, then at every moment of
every run all that a traverser holds is in the graph: its object, with whatever that is made of, its
path and where it came from. Scalars are the only values that stay whole: a list or a map becomes an
object of its parts. And no run fails for want of an element. -/
theorem no_element_dangles (t : Traversal) (ps : Parameters) (g : Graph) (hg : g.Closed) :
    (∀ h u, t.Holds ps g t.input h u → h.Closed ∧ u.PresentIn h) ∧
      (∀ v s, Object.ofValue v = .scalar s → v = .scalar s) ∧
      ∀ element, (t.execute ps g).1 ≠ .error (.notFound element) := by
  refine ⟨fun h u hu => hu.present hg t.input_present, fun v s hv => ?_, fun element he => ?_⟩
  · cases v with
    | scalar r =>
      cases hv
      rfl
    | list items => cases hv
    | map entries => cases hv
  · obtain ⟨h, -, -, ⟨vs, _, hvs, -⟩ | ⟨e, _, hrun, -, -, hfound⟩⟩ := t.results_presence ps hg
    · rw [show (t.execute ps g).1 = .ok vs from congrArg Prod.fst hvs] at he
      cases he
    · rw [show (t.execute ps g).1 = .error e from congrArg Prod.fst hrun] at he
      cases he
      cases hfound

def fanOut : Traversal :=
  [.addVertex none, .mark "hub", .vertices, .addEdge "spoke", .fromLabel "hub", .group,
    .by [.endpoint .source], .by [.property "n" [.constant (.value (.int 1))], .fold]]

theorem fanOut_holds_present :
    Graph.modern.Closed ∧ (∃ h u, fanOut.Holds [] Graph.modern fanOut.input h u ∧
        h.edges.length = 13 ∧ u.PresentIn h) ∧
      ∀ element, (fanOut.execute [] Graph.modern).1 ≠ .error (.notFound element) := by
  have hclosed : Graph.modern.Closed := by decide +kernel
  obtain ⟨hpresent, -, hfound⟩ := no_element_dangles fanOut [] Graph.modern hclosed
  refine ⟨hclosed, ?_, hfound⟩
  have hends : ∃ us, ((fanOut.run [] fanOut.input).outcome Graph.modern).1 = .ok us ∧
      us.length = 1 ∧ ((fanOut.run [] fanOut.input).outcome Graph.modern).2.edges.length = 13 := by
    decide +kernel
  rcases hrun : (fanOut.run [] fanOut.input).outcome Graph.modern with ⟨r, h⟩
  rw [hrun] at hends
  obtain ⟨us, rfl, hlength, hedges⟩ := hends
  obtain ⟨u, rfl⟩ := List.length_eq_one_iff.mp hlength
  have hheld : fanOut.Holds [] Graph.modern fanOut.input h u :=
    .reached (p := fanOut) (q := []) rfl hrun List.mem_cons_self
  exact ⟨h, u, hheld, hedges, (hpresent h u hheld).2⟩

end CypherTraversal
