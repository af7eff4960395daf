import CypherTraversal.Proofs.Lowering.Reading

/-! # Rows that run apart

A step gathers if what it does with a row depends on the other rows, or if it adds rows of its own.
A traversal that leaves the graph as it is and has no such step takes two streams, one behind the
other, to what it makes of each of them. What stands inside its steps may well gather, for it is
given one row at a time. The steps of MATCH and UNWIND and those of WHERE are of this form. -/

namespace CypherTraversal

open Run LowerClause List Traversal

variable {f : Traversal} {g : Graph} {p q : Process} {s : Step} {ss : List Stage}

/-! ### Processes -/

namespace Process

/-- A run on two streams, one behind the other, ends well exactly if the runs on both of them do. -/
def Apart (g : Graph) (p : Process) : Prop :=
  ∀ ts us vs h, (p (ts ++ us)).outcome g = (.ok vs, h) ↔ h = g ∧ ∃ as bs,
    (p ts).outcome g = (.ok as, g) ∧ (p us).outcome g = (.ok bs, g) ∧ vs = as ++ bs

def Leaves (g : Graph) (p : Process) : Prop :=
  ∀ ts us h, (p ts).outcome g = (.ok us, h) → h = g

theorem Apart.leaves (hp : p.Apart g) : p.Leaves g := by
  intro ts us h hrun
  rw [← append_nil ts, hp] at hrun
  exact hrun.1

theorem map_eq_eachRow (k : Traverser → Traverser) :
    (fun ts => return ts.map k) = eachRow fun t => return [k t] := by
  funext ts
  induction ts with
  | nil => rfl
  | cons t ts ih =>
    rw [eachRow, ← ih]
    rfl

theorem same_eq_eachRow : (fun ts => return ts) = eachRow fun t => return [t] := by
  simpa using map_eq_eachRow fun t => t

theorem eachRow_append (k : Traverser → Run (List Traverser)) (ts us : List Traverser) :
    eachRow k (ts ++ us) = do
      let as ← eachRow k ts
      let bs ← eachRow k us
      return as ++ bs := by
  induction ts with
  | nil => simp only [nil_append, eachRow, pure_bind, bind_pure]
  | cons t ts ih => simp only [cons_append, eachRow, ih, bind_assoc, pure_bind, append_assoc]

theorem Leaves.apart {k : Traverser → Run (List Traverser)} (hk : (eachRow k).Leaves g) :
    (eachRow k).Apart g := by
  intro ts us vs h
  rw [eachRow_append]
  constructor
  · intro hrun
    obtain ⟨as, m, has, hrest⟩ := of_outcome_bind hrun
    obtain rfl := hk ts as m has
    obtain ⟨bs, n, hbs, hend⟩ := of_outcome_bind hrest
    obtain rfl := hk us bs n hbs
    cases hend
    exact ⟨rfl, as, bs, has, hbs, rfl⟩
  · rintro ⟨rfl, as, bs, has, hbs, rfl⟩
    rw [outcome_bind_ok has, outcome_bind_ok hbs]
    rfl

theorem Apart.andThen (hp : p.Apart g) (hq : q.Apart g) : (p.andThen q).Apart g := by
  intro ts us vs h
  constructor
  · intro hrun
    obtain ⟨ws, m, hws, hvs⟩ := of_outcome_bind hrun
    obtain ⟨rfl, as, bs, has, hbs, rfl⟩ := (hp ts us ws m).mp hws
    obtain ⟨rfl, cs, ds, hcs, hds, rfl⟩ := (hq as bs vs h).mp hvs
    exact ⟨rfl, cs, ds, (outcome_bind_ok has).trans hcs, (outcome_bind_ok hbs).trans hds, rfl⟩
  · rintro ⟨rfl, cs, ds, hcs, hds, rfl⟩
    obtain ⟨as, m, has, hcs⟩ := of_outcome_bind hcs
    obtain ⟨bs, n, hbs, hds⟩ := of_outcome_bind hds
    obtain rfl := hp.leaves ts as m has
    obtain rfl := hp.leaves us bs n hbs
    exact (outcome_bind_ok ((hp ts us _ _).mpr ⟨rfl, as, bs, has, hbs, rfl⟩)).trans
      ((hq as bs _ _).mpr ⟨rfl, cs, ds, hcs, hds, rfl⟩)

end Process

/-! ### Stages -/

/-- Rows are bonded to themselves, and no run leaves the bond as long as the graph is `g`. -/
def Bond.at (g : Graph) : Bond :=
  @reading (· = g) (fun _ => true) fun h _ => .of_forall (fun _ => rfl) h

theorem Process.Lockstep.leaves (hp : p.Lockstep (.at g) p) : p.Leaves g := by
  intro ts us h hrun
  have hrows : (Bond.at g).Rows g ts ts :=
    forall₂_same.mpr fun t _ => ⟨.of_forall (fun _ => rfl) t, rfl⟩
  obtain ⟨m, -, hm, ⟨_, _, hok, -⟩ | ⟨_, _, herror, -⟩⟩ := hp g rfl ts ts hrows
  · rw [hrun] at hok
    cases hok
    exact hm
  · rw [hrun] at herror
    cases herror

def Stage.TakesRows : Stage → Prop
  | .process p => ∃ k, p = .eachRow k
  | .modulated f => ∀ ms, ∃ k, f ms = .eachRow k
  | .modulator .. => True

-- A modulator where none is awaited fails on every stream, so the runs on both parts fail too.
theorem Stage.runFrom_apart (hss : ∀ s ∈ ss, s.Lockstep (.at g) s ∧ s.TakesRows) (taken : Bool) :
    (runFrom taken ss).Apart g := by
  induction ss generalizing taken with
  | nil =>
    rw [runFrom, Process.same_eq_eachRow]
    exact Process.Leaves.apart (Process.same_eq_eachRow ▸ fun _ _ _ hrun => by cases hrun; rfl)
  | cons s ss ih =>
    obtain ⟨⟨hs, hrows⟩, hrest⟩ := forall_mem_cons.mp hss
    have hself := forall₂_same.mpr fun r hr => (hrest r hr).1
    cases s with
    | process p =>
      obtain ⟨k, rfl⟩ := hrows
      cases hs with
      | process hs => cases taken <;> exact hs.leaves.apart.andThen (ih hrest false)
    | modulated k =>
      cases hs with
      | modulated hs =>
        have hleaves := (hs _ _ (modulators_lockstep hself)).leaves
        obtain ⟨k', hk⟩ := hrows (modulators ss)
        have hapart : (k (modulators ss)).Apart g := by
          rw [hk] at hleaves ⊢
          exact hleaves.apart
        cases taken <;> exact hapart.andThen (ih hrest true)
    | modulator m text =>
      cases taken with
      | true => exact ih hrest true
      | false =>
        intro ts us vs h
        constructor
        · intro hrun
          cases hrun
        · rintro ⟨-, as, bs, has, -⟩
          cases has

/-! ### Traversals -/

namespace Step

def gathers : Step → Bool
  | inject _ | fold | reduce _ | dedup | group | order | skip _ | limit _ | range .. => true
  | _ => false

theorem stage_takesRows (ps : Parameters) (h : s.gathers = false) : (stage ps s).TakesRows := by
  cases s
  case inject | fold | reduce | dedup | group | order | skip | limit | range => cases h
  case mark l => exact ⟨_, Process.map_eq_eachRow _⟩
  case value | identity | barrier => exact ⟨_, Process.same_eq_eachRow⟩
  case project | addEdge => exact fun _ => ⟨_, rfl⟩
  case «by» | byOrder | fromLabel | toLabel => trivial
  all_goals exact ⟨_, rfl⟩

theorem gathers_of_isFilter (h : s.isFilter) : s.gathers = false := by
  cases s
  case inject | fold | reduce | dedup | group | order | skip | limit | range => cases h
  all_goals rfl

end Step

namespace Traversal

abbrev TakesRows (f : Traversal) : Prop :=
  ∀ s ∈ f, s.gathers = false

/-- No step changes the graph, at any depth, and none gathers where the rows come in. -/
structure RowByRow (f : Traversal) : Prop where
  reads : ∀ s ∈ Step.visitAll f, s.changesGraph = false
  rows : f.TakesRows

theorem RowByRow.apart (hf : f.RowByRow) (ps : Parameters) (g : Graph) : (f.run ps).Apart g := by
  have hkeeps : f.Every (Step.Keeps (.at g) ps ps) := fun s hs =>
    ⟨Step.bonded_of_readsOnly _ (fun p _ => Value.allKeys_of_forall (fun _ => rfl) p.2)
      (readsOnly_true_iff.mpr hf.reads s hs), fun _ _ => .inr fun _ => ⟨rfl, nofun, nofun⟩⟩
  unfold run Stage.run
  rw [Step.stages_eq_map]
  exact Stage.runFrom_apart (forall_mem_map.mpr fun s hs =>
    ⟨f.stages_lockstep hkeeps s hs, s.stage_takesRows ps (hf.rows s hs)⟩) false

theorem Filters.takesRows (hf : f.Filters fun _ => true) : f.TakesRows :=
  fun s hs => Step.gathers_of_isFilter (hf.isFilter s hs)

end Traversal

/-! ### Clauses -/

section Lowered

variable (env : Env) (scope : Scope)

theorem constraints_takesRows (element : String) (entries : List (String × Expr)) :
    Gives TakesRows (constraints env scope element entries) :=
  (constraints_filters env scope element (Expr.entryKeys_of_forall (fun _ => rfl) _)).mono
    fun _ hf => hf.takesRows

theorem matchNode_takesRows (n : ResolvedNode) (start : Bool) :
    Gives TakesRows (matchNode env scope n start) := by
  refine (constraints_takesRows env scope n.name n.properties).bind fun f hf => .ok ?_
  simp only [forall_mem_append]
  refine ⟨⟨⟨?_, (labels_filter n.labels).takesRows⟩, ?_⟩, hf⟩
  · cases start <;> cases n.bound <;> simp [Step.gathers]
  · cases n.bound <;> simp [Step.gathers]

theorem matchRelationship_takesRows (r : ResolvedRelationship) :
    Gives TakesRows (matchRelationship env scope r) := by
  refine (constraints_takesRows env scope r.name r.properties).bind fun f hf => .ok ?_
  simp only [forall_mem_append]
  refine ⟨⟨?_, hf⟩, by simp [Step.gathers]⟩
  cases r.bound <;> simp [Step.gathers]

theorem matchPattern_takesRows (p : ResolvedPattern) :
    Gives TakesRows (matchPattern env scope p) := by
  refine (matchNode_takesRows env scope p.start true).bind fun start hstart =>
    (Gives.mapM (R := TakesRows) fun hop _ => ?_).bind fun fs hfs => .ok ?_
  · exact (matchRelationship_takesRows env scope hop.1).bind fun f hf =>
      (matchNode_takesRows env scope hop.2 false).bind fun h hh =>
        .ok (forall_mem_append.mpr ⟨hf, hh⟩)
  · exact forall_mem_append.mpr ⟨hstart, forall_mem_flatten.mpr hfs⟩

end Lowered

/-- MATCH or UNWIND, which look things up for each row by itself. -/
def ResolvedClause.isLookup (r : ResolvedClause) : Bool :=
  match r.body with
  | .read .. | .unwind .. => true
  | _ => false

theorem clause_takesRows (env : Env) {r : ResolvedClause} (hr : r.isLookup)
    (current : Option String) : Gives (fun x => x.1.TakesRows) (clause env r current) := by
  unfold clause
  unfold ResolvedClause.isLookup at hr
  cases hbody : r.body with
  | read patterns filter =>
    refine (Gives.mapM fun p _ => matchPattern_takesRows env _ p).bind fun fs hfs => ?_
    exact (filterOf_filters _ (Expr.optionKeys_of_forall (fun _ => rfl) filter)).bind fun f hf =>
      .ok (forall_mem_append.mpr ⟨forall_mem_flatten.mpr hfs, hf.takesRows⟩)
  | unwind e var => exact Gives.skip fun items => .ok (by simp [TakesRows, Step.gathers])
  | project | create =>
    rw [hbody] at hr
    cases hr

/-- **Rows are processed independently.** A traversal without steps that change the graph, at any
depth, and without steps that gather rows at its top runs well on two streams, one behind the other,
exactly if it runs well on both; it then yields the rows for the first and behind them those for the
second. What MATCH and UNWIND are lowered to is such a traversal, and so is what a WHERE is. -/
theorem rows_run_apart :
    (∀ f : Traversal, f.RowByRow → ∀ (ps : Parameters) (g h : Graph) (ts us vs : List Traverser),
      (f.run ps (ts ++ us)).outcome g = (.ok vs, h) ↔ h = g ∧ ∃ as bs,
        (f.run ps ts).outcome g = (.ok as, g) ∧ (f.run ps us).outcome g = (.ok bs, g) ∧
          vs = as ++ bs) ∧
    (∀ (env : Env) (r : ResolvedClause) (current : Option String) (f : Traversal)
      (after : Option String), r.isLookup → clause env r current = .ok (f, after) → f.RowByRow) ∧
    ∀ (c : LoweringContext) (filter : Option Expr) (f : Traversal), filterOf c filter = .ok f →
      f.RowByRow := by
  refine ⟨fun f hf ps g h ts us vs => hf.apart ps g ts us vs h,
    fun env r current f after hr hf => ?_, fun c filter f hf => ?_⟩
  · have hcreate : r.isCreate = false := by
      unfold ResolvedClause.isCreate
      unfold ResolvedClause.isLookup at hr
      split
      · rename_i hbody
        rw [hbody] at hr
        cases hr
      · rfl
    have hreads := clause_readsOnly (fun _ => rfl) (r.readsKeys_of_forall (fun _ => rfl) hcreate)
      current _ hf
    exact ⟨readsOnly_true_iff.mp hreads, clause_takesRows env hr current _ hf⟩
  · have hfilters := filterOf_filters c (Expr.optionKeys_of_forall (fun _ => rfl) filter) f hf
    exact ⟨readsOnly_true_iff.mp hfilters.readsOnly, hfilters.takesRows⟩

/-- An edge out of each vertex: the limit is inside a step, where it does not see the other rows. -/
theorem one_edge_each_runs_apart :
    let f : Traversal := [.vertices, .flatMap [.edges .outgoing [], .limit (.literal 1)]]
    let t : Traverser := { object := .str "" }
    (∃ as bs, (f.run [] [t]).outcome .modern = (.ok as, .modern) ∧
      (f.run [] [t]).outcome .modern = (.ok bs, .modern) ∧
      (f.run [] [t, t]).outcome .modern = (.ok (as ++ bs), .modern)) ∧
    (∃ h after, clause ⟨[], []⟩ ⟨.unwind (.list [.param "x"]) "y", 0, 0, []⟩ none = .ok (h, after) ∧
      h.RowByRow) ∧
    ∃ h, filterOf ⟨default, [], none, "WHERE"⟩ (some (.literal (.bool true))) = .ok h ∧
      h.RowByRow := by
  intro f t
  obtain ⟨hrun, hclause, hfilter⟩ := rows_run_apart
  refine ⟨?_, ?_, ?_⟩
  · obtain ⟨vs, hvs⟩ := exists_ok_of_isOk
      (show ((f.run [] [t, t]).outcome .modern).1.isOk by decide +kernel)
    have hwhole : (f.run [] [t, t]).outcome .modern = (.ok vs, _) := Prod.ext hvs rfl
    obtain ⟨hsame, as, bs, has, hbs, rfl⟩ :=
      (hrun f ⟨by decide, by decide⟩ [] .modern _ [t] [t] vs).mp hwhole
    exact ⟨as, bs, has, hbs, hsame ▸ hwhole⟩
  · obtain ⟨⟨h, after⟩, hh⟩ := exists_ok_of_isOk (show (clause ⟨[], []⟩
      ⟨.unwind (.list [.param "x"]) "y", 0, 0, []⟩ none).isOk by decide +kernel)
    exact ⟨h, after, hh, hclause _ _ _ _ _ rfl hh⟩
  · obtain ⟨h, hh⟩ := exists_ok_of_isOk (show (filterOf ⟨default, [], none, "WHERE"⟩
      (some (.literal (.bool true)))).isOk by decide +kernel)
    exact ⟨h, hh, hfilter _ _ _ hh⟩

end CypherTraversal
