import CypherTraversal.Proofs.Aggregates.Grouped
import CypherTraversal.Proofs.Bindings.Unwound
import CypherTraversal.Proofs.Conditions.Membership
import CypherTraversal.Proofs.Lowering.Mentions
import CypherTraversal.Proofs.Tables

/-! # Lists that are unwound and collected

UNWIND makes a row of each item of a list, and collect makes a list of what the rows hold. A list
that is supplied as a parameter goes through both and comes back without its nulls. -/

namespace CypherTraversal

open Run LowerClause List Object Traversal Session

variable (distinct : Bool) (t : Traverser)

/-! ### Values that become objects -/

namespace Object

mutual

theorem same_ofValue : ∀ a b : Value, (ofValue a).same (ofValue b) = a.same b
  | .scalar _, .scalar _ => rfl
  | .list xs, .list ys => sameItems_ofItems xs ys
  | .map xs, .map ys => sameEntries_ofEntries xs ys
  | .scalar _, .list _ | .scalar _, .map _ | .list _, .scalar _ | .map _, .scalar _
  | .list _, .map _ | .map _, .list _ => rfl

theorem sameItems_ofItems : ∀ xs ys : List Value,
    sameItems (ofItems xs) (ofItems ys) = Value.sameItems xs ys
  | [], [] | [], _ :: _ | _ :: _, [] => rfl
  | x :: xs, y :: ys => by
    rw [ofItems, ofItems, sameItems, Value.sameItems, same_ofValue x y, sameItems_ofItems xs ys]

theorem sameEntries_ofEntries : ∀ xs ys : List (String × Value),
    sameEntries (ofEntries xs) (ofEntries ys) = Value.sameEntries xs ys
  | [], [] | [], _ :: _ | _ :: _, [] => rfl
  | (k, x) :: xs, (l, y) :: ys => by
    rw [ofEntries, ofEntries, sameEntries, Value.sameEntries, same_ofValue x y,
      sameEntries_ofEntries xs ys]

end

theorem eraseDups_map_ofValue (vs : List Value) :
    (vs.map ofValue).eraseDups = vs.eraseDups.map ofValue := by
  have hloop (seen : List Value) :
      List.eraseDupsBy.loop (· == ·) (vs.map ofValue) (seen.map ofValue) =
        (List.eraseDupsBy.loop (· == ·) vs seen).map ofValue := by
    induction vs generalizing seen with
    | nil => rw [map_nil, List.eraseDupsBy.loop, List.eraseDupsBy.loop, map_reverse]
    | cons v vs ih =>
      have hany : ((seen.map ofValue).any fun x => ofValue v == x) = seen.any fun w => v == w := by
        rw [any_map]
        exact congrArg seen.any (funext fun w => same_ofValue v w)
      rw [map_cons, List.eraseDupsBy.loop, List.eraseDupsBy.loop, hany]
      cases seen.any fun w => v == w with
      | true => exact ih seen
      | false => exact ih (v :: seen)
  exact hloop []

end Object

def Value.counted (vs : List Value) : List Value :=
  let present := vs.filter fun v => !v.isNull
  if distinct then present.eraseDups else present

theorem Aggregate.counted_map_ofValue (a : Aggregate) (vs : List Value) :
    a.counted (vs.map .ofValue) = (Value.counted a.distinct vs).map .ofValue := by
  have hpresent : (vs.map ofValue).filter (fun x => !x.isNull) =
      (vs.filter fun v => !v.isNull).map .ofValue := by
    rw [filter_map]
    exact congrArg (List.map ofValue) (filter_congr fun v _ => congrArg (!·) (isNull_ofValue v))
  unfold Aggregate.counted Value.counted
  rw [hpresent]
  cases a.distinct with
  | false => rfl
  | true => exact eraseDups_map_ofValue _

/-! ### Rows of items -/

variable {ps : Parameters} {g : Graph} {vs : List Value}

theorem unwindParameter_outcome {name : String} (hname : ps.find? name = some (.list vs))
    (var : String) (t : Traverser) :
    ((unwindSteps [.constant (.parameter name)] var).run ps [t]).outcome g =
      (.ok (vs.map fun v => t.atItem var (.ofValue v)), g) := by
  have hvalue : ((Expr.param name).lower ⟨{}, ps, none, ""⟩).value =
      .ok [.constant (.parameter name)] := rfl
  have hlist : Process.Sends g (fun _ => True) (run ps [.constant (.parameter name)])
      fun t => [t.moveTo (.ofValue (.list vs))] := by
    refine .constant fun t _ => ?_
    rw [Operand.resolve, Parameters.value, hname]
    rfl
  rw [unwindSteps_outcome hvalue, hlist.one trivial]
  refine congrArg (fun us => (Except.ok us, g)) ((flatMap_singleton _ _).trans ?_)
  show (ofItems vs).map _ = _
  rw [ofItems_eq_map, map_map]
  rfl

theorem firstOrNull_atItem (var : String) (y : Object) :
    ((run ps [.select var]).firstOrNull [t.atItem var y]).outcome g = (.ok y, g) := by
  rw [Process.firstOrNull, outcome_bind_ok t.atItem_answers]
  rfl

/-! ### Queries that unwind a parameter -/

@[match_pattern]
def unwindQuery (items : List ProjectionItem) : Query :=
  ⟨[.unwind (.param "xs") "x", .project true ⟨false, items, [], none, none, none⟩], []⟩

@[match_pattern]
def collectItem : ProjectionItem :=
  ⟨.call "collect" [.var "x"] distinct, some "ys"⟩

theorem parse_unwind {text : String} (h : ∃ q, Query.parse text = .ok q ∧ (match q with
      | unwindQuery [⟨.var "x", none⟩] => true
      | _ => false : Bool)) :
    Query.parse text = .ok (unwindQuery [⟨.var "x", none⟩]) := by
  obtain ⟨q, hq, h⟩ := h
  split at h
  · exact hq
  · cases h

theorem parse_collect {text : String} (h : ∃ q, Query.parse text = .ok q ∧ (match q with
      | unwindQuery [collectItem d] => d = distinct
      | _ => false : Bool)) :
    Query.parse text = .ok (unwindQuery [collectItem distinct]) := by
  obtain ⟨q, hq, h⟩ := h
  split at h
  · obtain rfl := of_decide_eq_true h
    exact hq
  · cases h

/-- The steps that return the items as they are. -/
def itemSteps : Traversal :=
  [.project ["x"], .by [.select "x"]]

/-- The steps that start a traversal and make a row of each item of the parameter. -/
def itemRows : Traversal :=
  .inject [.str startMark] :: unwindSteps [.constant (.parameter "xs")] "x"

theorem compile_items (ps : Parameters) :
    (unwindQuery [⟨.var "x", none⟩]).compile .native ps =
      .ok ⟨.native (itemRows ++ itemSteps), ps, ["x"]⟩ := rfl

def collectProjection : ResolvedProjection :=
  { final := true, distinct := false,
    items := [⟨"ys", .aggregate ⟨.collect, some (.var "x"), distinct⟩⟩], order := [],
    orderScope := 0, skip := none, limit := none, filter := none }

def itemContext (ps : Parameters) : LoweringContext :=
  { scope := { bindings := [⟨"x", .value⟩] }, parameters := ps, current := none,
    clause := "RETURN" }

theorem compile_collect (ps : Parameters) :
    ∃ f, aggregateRows (itemContext ps) (collectProjection distinct) = .ok f ∧
      (unwindQuery [collectItem distinct]).compile .native ps =
        .ok ⟨.native (itemRows ++ f), ps, ["ys"]⟩ := by
  refine ⟨_, rfl, ?_⟩
  cases distinct <;> rfl

theorem resolve_collect :
    ∃ r, (unwindQuery [collectItem distinct]).resolve = .ok r ∧ r.parameters = ["xs"] := by
  cases distinct <;> exact ⟨_, rfl, rfl⟩

/-! ### Answers -/

theorem toValues_rows (column : String) (vs : List Value) :
    toValues g (vs.map fun v => .map [(column, .ofValue v)]) =
      .ok ((vs.map fun v => [(column, v)]).map .map) := by
  rw [toValues_eq_mapM, mapM_map, map_map]
  refine mapM_eq_ok_map fun v _ => ?_
  have hentries : toEntries g [(column, .ofValue v)] = .ok [(column, v)] := by
    rw [toEntries, toValue_ofValue]
    rfl
  show (do return .map (← toEntries g [(column, .ofValue v)]) : Except Error Value) = _
  rw [hentries]
  rfl

theorem itemSteps_outcome (vs : List Value) :
    (itemSteps.run ps (vs.map fun v => t.atItem "x" (.ofValue v))).outcome g =
      (.ok (vs.map fun v => (t.atItem "x" (.ofValue v)).moveTo (.map [("x", .ofValue v)])), g) := by
  let row (v : Value) : Traverser := t.atItem "x" (.ofValue v)
  have hproject : (run ps (.project ([()].map fun _ => "x") ::
      ([()].map fun _ => [Step.select "x"]).map .by) (vs.map row)).outcome g = _ :=
    project_outcome_ok (fun _ => "x") (fun _ => [.select "x"]) row vs (fun _ v => .ofValue v)
      fun v _ _ _ => firstOrNull_atItem t "x" (.ofValue v)
  exact hproject

theorem collectSteps_outcome {distinct : Bool} {f : Traversal}
    (hf : aggregateRows (itemContext ps) (collectProjection distinct) = .ok f) (vs : List Value) :
    (f.run ps (vs.map fun v => t.atItem "x" (.ofValue v))).outcome g =
      (.ok [{ object := .map [("ys", .ofValue (.list (Value.counted distinct vs)))] }], g) := by
  -- the argument of the aggregate is what a row holds under the variable
  let value (_ : ResolvedItem) (u : Traverser) : Object := (u.labelled? "x").getD .null
  have hvalue : ∀ u ∈ vs.map fun v => t.atItem "x" (.ofValue v),
      ∀ i ∈ (collectProjection distinct).items,
        i.takes (itemContext ps) ps g u = .ok (value i u) := by
    refine forall_mem_map.mpr fun v _ => forall_mem_singleton.mpr ?_
    show (((run ps [.select "x"]).firstOrNull [t.atItem "x" (.ofValue v)]).outcome g).1 = _
    rw [firstOrNull_atItem]
    rfl
  have hnames : (collectProjection distinct).names.Nodup := nodup_singleton "ys"
  have hplain : ∀ i ∈ (collectProjection distinct).items, isGenerated i.name = false :=
    forall_mem_singleton.mpr (show isGenerated "ys" = false by decide)
  have harguments (i : ResolvedItem) :
      (vs.map fun v => t.atItem "x" (.ofValue v)).map (value i) = vs.map .ofValue := map_map
  rw [aggregateRows_outcome_of_no_keys hnames hplain hf hvalue rfl fun _ => .null]
  simp only [harguments]
  let a : Aggregate := ⟨.collect, some (.var "x"), distinct⟩
  show (Except.ok [Traverser.mk (.map [("ys", .list (a.counted (vs.map .ofValue)))]) [] none], g) =
    _
  rw [Aggregate.counted_map_ofValue, ofValue, ofItems_eq_map]

theorem checkParameterNames_of_plain {names : List String}
    (h : ∀ name ∈ names, Text.isPlainName name) : checkParameterNames names = .ok () := by
  induction names with
  | nil => rfl
  | cons name names ih =>
    obtain ⟨hname, hrest⟩ := forall_mem_cons.mp h
    show (checkParameterName name >>= fun _ => checkParameterNames names) = _
    rw [checkParameterName, if_pos hname]
    exact ih hrest

theorem Session.submit_unwindQuery {s : Session} (hflavor : s.flavor = .native)
    (hnames : ∀ name ∈ ps.keys, Text.isPlainName name) {xs : List Value}
    (hxs : ps.find? "xs" = some (.list xs)) {text : String} {items : List ProjectionItem}
    (hq : Query.parse text = .ok (unwindQuery items))
    (hr : ∃ r, (unwindQuery items).resolve = .ok r ∧ r.parameters = ["xs"]) {f : Traversal}
    (hstarts : f.Starts ps) {column : String}
    (hcompile : (unwindQuery items).compile .native ps =
      .ok ⟨.native (itemRows ++ f), ps, [column]⟩)
    {us : List Traverser} {vs : List Value}
    (hus : us.map Traverser.object = vs.map fun v => .map [(column, .ofValue v)])
    (hrun : (f.run ps (xs.map fun v =>
      Traverser.atItem "x" { object := .str startMark } (.ofValue v))).outcome s.graph =
        (.ok us, s.graph)) :
    s.submit text ps = (.ok ⟨[column], vs.map fun v => [(column, v)]⟩, s) := by
  obtain ⟨r, hr, hparameters⟩ := hr
  have hsupplied : ∀ name ∈ r.parameters, ps.has name := by
    rw [hparameters, forall_mem_singleton, Entries.has, hxs]
    rfl
  have hprepare : s.prepare text ps = (unwindQuery items).compile .native ps := by
    rw [prepare, checkParameterNames_of_plain hnames, hflavor, compile, hq]
    cases s.strictParameters with
    | false => rfl
    | true =>
      rw [if_pos rfl, (checkSupplied_eq_ok hq hr ps).mpr hsupplied]
      rfl
  have hrows : (run ps (itemRows ++ f) []).outcome s.graph = (.ok us, s.graph) :=
    (outcome_append hstarts (unwindParameter_outcome hxs "x" _)).trans hrun
  have hkeys : ∀ r ∈ vs.map (fun v => [(column, v)]), (Entries.keys r).Perm [column] :=
    forall_mem_map.mpr fun _ _ => .refl _
  rw [submit_eq_of_prepare (hprepare.trans hcompile) rfl]
  rw [execute_of_rows hrows, hus, toValues_rows]
  exact Prod.ext (congrArg Except.ok (Table.ofValues_map hkeys)) rfl

/-- **UNWIND and collect are inverse.** The items of a list that is supplied as a parameter come
back in order, a row for each, be it null or not. Collected, they are the list without its nulls,
and with DISTINCT only the first of all items that are the same. -/
theorem Session.submit_unwound {s : Session} (hflavor : s.flavor = .native) {ps : Parameters}
    (hnames : ∀ name ∈ ps.keys, Text.isPlainName name) {xs : List Value}
    (hxs : ps.find? "xs" = some (.list xs)) :
    s.submit "UNWIND $xs AS x RETURN x" ps =
        (.ok ⟨["x"], xs.map fun v => [("x", v)]⟩, s) ∧
      s.submit "UNWIND $xs AS x RETURN collect(x) AS ys" ps =
        (.ok ⟨["ys"], [[("ys", .list (xs.filter fun v => !v.isNull))]]⟩, s) ∧
      s.submit "UNWIND $xs AS x RETURN collect(DISTINCT x) AS ys" ps =
        (.ok ⟨["ys"], [[("ys", .list (xs.filter fun v => !v.isNull).eraseDups)]]⟩, s) := by
  have hcollect {text : String} (distinct : Bool)
      (hq : Query.parse text = .ok (unwindQuery [collectItem distinct])) :
      s.submit text ps = (.ok ⟨["ys"], [.list (Value.counted distinct xs)].map
        fun v => [("ys", v)]⟩, s) := by
    obtain ⟨f, hf, hcompile⟩ := compile_collect distinct ps
    have hstarts : f.Starts ps := by
      cases hf
      rfl
    exact submit_unwindQuery hflavor hnames hxs hq (resolve_collect distinct) hstarts
      hcompile rfl (collectSteps_outcome _ hf xs)
  refine ⟨?_, hcollect false (parse_collect _ (by decide +kernel)),
    hcollect true (parse_collect _ (by decide +kernel))⟩
  have hstarts : itemSteps.Starts ps := rfl
  exact submit_unwindQuery hflavor hnames hxs (parse_unwind (by decide +kernel)) ⟨_, rfl, rfl⟩
    hstarts (compile_items ps) (by rw [List.map_map]; rfl) (itemSteps_outcome _ xs)

theorem nested_items_come_back :
    let s : Session := ⟨.native, true, .modern⟩
    let item : Value := .map [("x", .null)]
    let ps : Parameters := [("n", .null), ("xs", .list [.null, item, .list [.null], item, .int 1])]
    s.submit "UNWIND $xs AS x RETURN x" ps =
        (.ok ⟨["x"], [[("x", .null)], [("x", item)], [("x", .list [.null])], [("x", item)],
          [("x", .int 1)]]⟩, s) ∧
      s.submit "UNWIND $xs AS x RETURN collect(x) AS ys" ps =
        (.ok ⟨["ys"], [[("ys", .list [item, .list [.null], item, .int 1])]]⟩, s) ∧
      s.submit "UNWIND $xs AS x RETURN collect(DISTINCT x) AS ys" ps =
        (.ok ⟨["ys"], [[("ys", .list [item, .list [.null], .int 1])]]⟩, s) := by
  intro s item ps
  have hnames : ∀ name ∈ ps.keys, Text.isPlainName name := by decide +kernel
  have hxs : ps.find? "xs" = some (.list [.null, item, .list [.null], item, .int 1]) := rfl
  exact submit_unwound rfl hnames hxs

end CypherTraversal
