import CypherTraversal.Graph.Sample
import CypherTraversal.Proofs.Aggregates.Rows

/-! # Aggregates over groups of rows

The steps of an aggregating projection take a value for each item from each row, put the rows with
the same keys together, and take the result of each aggregate over each group. Without keys there
is one group, which holds all rows, be there none. -/

namespace CypherTraversal

open Run LowerClause List Traversal Process

variable {col : ResolvedItem × String} {f : Traversal} {p : ResolvedProjection}

/-! ### What is computed -/

def Expr.valueOn (c : LoweringContext) (ps : Parameters) (g : Graph) (e : Expr) (t : Traverser) :
    Except Error Object := do
  let f ← (e.lower c).value
  (((f.run ps).firstOrNull [t]).outcome g).1

/-- What a row contributes to a column: a key, or the argument of an aggregate. -/
def ResolvedItem.takes (c : LoweringContext) (ps : Parameters) (g : Graph) (i : ResolvedItem)
    (t : Traverser) : Except Error Object :=
  match i.value with
  | .expr e => e.valueOn c ps g t
  | .aggregate a =>
    match a.argument with
    | some e => e.valueOn c ps g t
    | none => .ok (.int 1)

def ResolvedItem.result (key : ResolvedItem → Object) (arguments : ResolvedItem → List Object)
    (i : ResolvedItem) : Except Error Object :=
  match i.value with
  | .expr _ => .ok (key i)
  | .aggregate a => a.result (arguments i)

/-- The row of a group, from its key and the arguments of its rows. -/
def ResolvedProjection.resultRow (p : ResolvedProjection) (key : ResolvedItem → Object)
    (arguments : ResolvedItem → List Object) : Except Error Traverser :=
  (p.items.mapM fun (i : ResolvedItem) => (i.result key arguments).map fun x => (i.name, x)).map
    fun es => { object := .map (Entries.ofList es) }

/-! ### Arguments of rows -/

section Arguments

variable {c : LoweringContext} {ps : Parameters} {g : Graph}

theorem argumentValue_keeps {v : ItemValue} (hf : argumentValue c v = .ok f) (ps : Parameters)
    (g : Graph) (t : Traverser) : (((f.run ps).firstOrNull [t]).outcome g).2 = g := by
  have hreads : (f.run ps).Reads (· = g) fun _ => true :=
    ReadsOnly.reads (fun h _ => .of_forall (fun _ => rfl) h)
      (fun p _ => p.2.allKeys_of_forall fun _ => rfl)
      (argumentValue_readsOnly c (v.allKeys_of_forall fun _ => rfl) f hf)
  have hkeys : ∀ u ∈ [t], u.AllKeys fun _ => true :=
    fun u _ => .of_forall (fun _ => rfl) u
  have hfirst := hreads.firstOrNull hkeys
  obtain ⟨h, rfl, ⟨x, hx, -⟩ | ⟨e, he, -⟩⟩ := hfirst g rfl
  · rw [hx]
  · rw [he]

theorem takes_outcome {i : ResolvedItem} (hf : argumentValue c i.value = .ok f) {t : Traverser}
    {x : Object} (hx : i.takes c ps g t = .ok x) :
    ((f.run ps).firstOrNull [t]).outcome g = (.ok x, g) := by
  refine Prod.ext ?_ (argumentValue_keeps hf ps g t)
  have hexpr {e : Expr} (he : (e.lower c).value = .ok f) (hx : e.valueOn c ps g t = .ok x) :
      (((f.run ps).firstOrNull [t]).outcome g).1 = .ok x := by
    rw [Expr.valueOn, he] at hx
    exact hx
  unfold ResolvedItem.takes at hx
  unfold argumentValue at hf
  cases hvalue : i.value with
  | expr e =>
    rw [hvalue] at hx hf
    exact hexpr hf hx
  | aggregate a =>
    rw [hvalue] at hx hf
    dsimp only at hx hf
    cases hargument : a.argument with
    | some e =>
      rw [hargument] at hx hf
      exact hexpr hf hx
    | none =>
      rw [hargument] at hx hf
      cases hf
      cases hx
      rfl

end Arguments

def argumentRow (items : List ResolvedItem) (value : ResolvedItem → Traverser → Object)
    (t : Traverser) : Traverser :=
  t.moveTo (.map (Entries.ofList ((withColumns 0 items).map fun col => (col.2, value col.1 t))))

def argumentList (p : ResolvedProjection) (value : ResolvedItem → Traverser → Object)
    (ts : List Traverser) : Object :=
  .list (ts.map fun t => (argumentRow p.items value t).object)

def keySteps (p : ResolvedProjection) : Traversal :=
  .project (p.keyItems.map ResolvedItem.name) ::
    (p.keyItems.map fun i => [Step.select i.name]).map .by

def groupSteps (p : ResolvedProjection) : Traversal :=
  [.group, .by (keySteps p), .by [.fold], .unfold]

def resultSteps (p : ResolvedProjection) (steps : ResolvedItem × String → Traversal) : Traversal :=
  .project p.names :: ((withColumns 0 p.items).map steps).map .by

theorem aggregateRows_cases {c : LoweringContext} (hf : aggregateRows c p = .ok f) :
    ∃ rows, argumentRows c (withColumns 0 p.items) = .ok rows ∧
      (p.keyItems ≠ [] ∧ f = rows ++ (groupSteps p ++ resultSteps p groupValue) ∨
        p.keyItems = [] ∧ f = rows ++ ([.fold] ++ resultSteps p totalValue)) := by
  obtain ⟨rows, hrows, hf⟩ := bind_eq_ok.mp hf
  refine ⟨rows, hrows, ?_⟩
  dsimp only at hf
  have hkeys : (p.items.filter fun i => !i.value.isAggregate) = p.keyItems := rfl
  rw [hkeys, isEmpty_map] at hf
  split at hf
  · rename_i hempty
    have hnone := filter_eq_nil_iff.mp (List.isEmpty_iff.mp hempty)
    have haggregate : ∀ i ∈ p.items, i.value.isAggregate := by simpa using hnone
    rw [flatMap_totalItem fun col hcol => haggregate _ (mem_withColumns hcol).1, append_assoc] at hf
    cases hf
    exact .inr ⟨List.isEmpty_iff.mp hempty, rfl⟩
  · rename_i hnonempty
    have hselects : ((p.keyItems.map ResolvedItem.name).map fun k => Step.by [.select k]) =
        (p.keyItems.map fun i => [Step.select i.name]).map .by := by
      rw [map_map, map_map]
      rfl
    rw [hselects, map_groupItem, append_assoc] at hf
    cases hf
    exact .inl ⟨fun hnone => hnonempty (List.isEmpty_iff.mpr hnone), rfl⟩

section Rows

variable {c : LoweringContext} {ps : Parameters} {g : Graph} {p : ResolvedProjection}
  {value : ResolvedItem → Traverser → Object}

theorem argumentRows_outcome (hf : argumentRows c (withColumns 0 p.items) = .ok f)
    {ts : List Traverser} (hvalue : ∀ t ∈ ts, ∀ i ∈ p.items, i.takes c ps g t = .ok (value i t)) :
    (f.run ps ts).outcome g = (.ok (ts.map (argumentRow p.items value)), g) := by
  obtain ⟨fs, hfs, hf⟩ := bind_eq_ok.mp hf
  cases hf
  -- each column goes with the traversal of its argument
  obtain ⟨hlength, hpairs⟩ := forall₂_iff_zip.mp (mapM_eq_ok.mp hfs)
  have hcols : ((withColumns 0 p.items).zip fs).map Prod.fst = withColumns 0 p.items :=
    map_fst_zip (Nat.le_of_eq hlength)
  have htraversals : ((withColumns 0 p.items).zip fs).map Prod.snd = fs :=
    map_snd_zip (Nat.le_of_eq hlength.symm)
  have hproject := project_outcome_ok (Prod.snd ∘ Prod.fst) Prod.snd id ts
    (fun (d : (ResolvedItem × String) × Traversal) t => value d.1.1 t) fun t ht d hd =>
      takes_outcome (hpairs hd) (hvalue t ht _ (mem_withColumns (of_mem_zip hd).1).1)
  rw [← map_map, hcols, htraversals, map_id] at hproject
  refine hproject.trans (congrArg (·, g) (congrArg Except.ok (map_congr_left fun t _ => ?_)))
  have hentries : (((withColumns 0 p.items).zip fs).map fun d =>
      ((Prod.snd ∘ Prod.fst) d, value d.1.1 t)) =
      (withColumns 0 p.items).map fun col => (col.2, value col.1 t) := by
    rw [← hcols, map_map, hcols]
    rfl
  rw [hentries]
  rfl

variable (hnames : p.names.Nodup) (hplain : ∀ i ∈ p.items, isGenerated i.name = false)

include hnames hplain

theorem argumentRow_entry (hcol : col ∈ withColumns 0 p.items) (t : Traverser) :
    ∃ entries, (argumentRow p.items value t).object = .map entries ∧
      Entries.find? col.2 entries = some (value col.1 t) :=
  ⟨_, rfl, Object.find?_ofList (nodup_withColumns hnames hplain 0) (fun col => value col.1 t) hcol⟩

/-! ### Groups -/

theorem aggregate_outcome {i : ResolvedItem} {column : String}
    (hcol : (i, column) ∈ withColumns 0 p.items) (a : Aggregate) {u : Traverser}
    (ts : List Traverser) (hu : u.object = argumentList p value ts) :
    ((run ps ([.unfold, .select column] ++ aggregateSteps a)).firstOrNull [u]).outcome g =
      (a.result (ts.map (value i)), g) := by
  have hunfold : (run ps [.unfold] [u]).outcome g =
      (.ok (ts.map fun t => u.moveTo (argumentRow p.items value t).object), g) := by
    rw [run_step (p := .unfold) rfl, unfold_outcome, hu]
    exact congrArg (fun us => (Except.ok us, g)) map_map
  have hselect : (run ps [.select column]
      (ts.map fun t => u.moveTo (argumentRow p.items value t).object)).outcome g =
      (.ok (ts.map fun t => (u.moveTo (argumentRow p.items value t).object).moveTo (value i t)),
        g) :=
    select_outcome_map _ ts fun t _ => argumentRow_entry hnames hplain hcol t
  have harguments : (run ps [.unfold, .select column] [u]).outcome g =
      (.ok (ts.map fun t => (u.moveTo (argumentRow p.items value t).object).moveTo (value i t)),
        g) := by
    have hstarts : Starts ps [.select column] := rfl
    exact (outcome_append hstarts hunfold).trans hselect
  have hsteps : Starts ps (aggregateSteps a) := rfl
  rw [firstOrNull_append hsteps harguments, aggregateSteps_outcome, map_map]
  rfl

theorem totalValue_outcome (hcol : col ∈ withColumns 0 p.items)
    (haggregate : col.1.value.isAggregate) (key : ResolvedItem → Object) (ts : List Traverser) :
    ((run ps (totalValue col)).firstOrNull
        [{ object := argumentList p value ts }]).outcome g =
      (col.1.result key fun i => ts.map (value i), g) := by
  unfold totalValue ResolvedItem.result
  cases hvalue : col.1.value with
  | expr e =>
    rw [hvalue] at haggregate
    cases haggregate
  | aggregate a => exact aggregate_outcome hnames hplain hcol a ts rfl

omit hnames hplain in
theorem resultRows_outcome {α : Type} (row : α → Traverser)
    (hrow : ∀ u x, (row u).moveTo x = { object := x }) (us : List α)
    {steps : ResolvedItem × String → Traversal} (key : α → ResolvedItem → Object)
    (arguments : α → ResolvedItem → List Object)
    (h : ∀ u ∈ us, ∀ col ∈ withColumns 0 p.items,
      (((steps col).run ps).firstOrNull [row u]).outcome g =
        (col.1.result (key u) (arguments u), g)) :
    ((resultSteps p steps).run ps (us.map row)).outcome g =
      (us.mapM fun u => p.resultRow (key u) (arguments u), g) := by
  rw [resultSteps, names_eq_withColumns, project_outcome (ResolvedItem.name ∘ Prod.fst)
    steps row us (fun col u => col.1.result (key u) (arguments u)) h]
  refine congrArg (fun k => (List.mapM k us, g)) (funext fun u => ?_)
  have hitems : ((withColumns 0 p.items).map Prod.fst).mapM (fun (i : ResolvedItem) =>
      (i.result (key u) (arguments u)).map fun x => (i.name, x)) = _ := mapM_map
  rw [map_fst_withColumns] at hitems
  simp only [hrow]
  rw [ResolvedProjection.resultRow, hitems]
  rfl

/-! ### Aggregations -/

section Aggregations

variable {f : Traversal} (hf : aggregateRows c p = .ok f) {ts : List Traverser}
  (hvalue : ∀ t ∈ ts, ∀ i ∈ p.items, i.takes c ps g t = .ok (value i t))

include hf hvalue

theorem aggregateRows_outcome_of_no_keys (hkeys : p.keyItems = []) (key : ResolvedItem → Object) :
    (f.run ps ts).outcome g =
      ((p.resultRow key fun i => ts.map (value i)).map fun t => [t], g) := by
  obtain ⟨rows, hrows, ⟨hsome, -⟩ | ⟨-, rfl⟩⟩ := aggregateRows_cases hf
  · exact absurd hkeys hsome
  · have haggregate : ∀ i ∈ p.items, i.value.isAggregate := by
      have hnone := filter_eq_nil_iff.mp hkeys
      simpa using hnone
    have hfold : (run ps [.fold] (ts.map (argumentRow p.items value))).outcome g =
        (.ok [{ object := argumentList p value ts }], g) := by
      rw [run_step (p := .collect fun xs => .ok [.list xs]) rfl, collect_outcome, map_map]
      rfl
    have hstarts : Starts ps ([.fold] ++ resultSteps p totalValue) := rfl
    have hresults : Starts ps (resultSteps p totalValue) := rfl
    rw [outcome_append hstarts (argumentRows_outcome hrows hvalue), outcome_append hresults hfold]
    -- all rows are one group
    have hone : ((resultSteps p totalValue).run ps
        ([()].map fun _ => { object := argumentList p value ts })).outcome g =
        ([()].mapM fun _ => p.resultRow key fun i => ts.map (value i), g) :=
      resultRows_outcome _ (fun _ _ => rfl) [()] (fun _ => key) (fun _ i => ts.map (value i))
        fun _ _ _ hcol => totalValue_outcome hnames hplain hcol
          (haggregate _ (mem_withColumns hcol).1) key ts
    refine hone.trans (congrArg (·, g) ?_)
    cases p.resultRow key fun i => ts.map (value i) <;> rfl

end Aggregations

end Rows

end CypherTraversal
