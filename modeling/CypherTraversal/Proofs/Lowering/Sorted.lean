import CypherTraversal.Proofs.Conditions.Exclusive
import CypherTraversal.Proofs.Run.Ordering
import CypherTraversal.Proofs.Tables

/-! # Sort keys and columns

A sort key that is a variable stands for the first item of its projection that has the name, or
that is the variable: an item in front that is the variable is taken, although another one has the
name. Rows are sorted by the column of the item that is taken. -/

namespace CypherTraversal

open Run List Traversal

variable {o : ResolvedOrder} {ps : Parameters} {g g' : Graph} {t : Traverser}
  {ts us : List Traverser} {c : LoweringContext} {f : Traversal} {p : ResolvedProjection}
  {x : String}

/-! ### Columns -/

theorem Expr.var_beq_iff {e : Expr} : (Expr.var x == e) = true ↔ e = .var x := by
  change same (.var x) e = true ↔ _
  cases e with
  | var y =>
    rw [same, beq_iff_eq, eq_comm]
    exact ⟨fun h => h ▸ rfl, fun h => by cases h; rfl⟩
  | _ => exact iff_of_false nofun nofun

/-- A sort key that is the variable `x` can mean this column. -/
def ResolvedItem.Answers (x : String) (i : ResolvedItem) : Prop :=
  i.name = x ∨ i.value = .expr (.var x)

namespace Resolve

variable {st st' : State} {cs : List Clause} {rs : List ResolvedClause} {scopeIn : ScopeId}
  {s : Scope}

theorem isColumn_var {input : Scope} {clause : String} {i : ResolvedItem} :
    isColumn input clause (.var x) i ↔ i.Answers x := by
  obtain ⟨name, value⟩ := i
  unfold isColumn ResolvedItem.Answers
  rw [Bool.or_eq_true, beq_iff_eq, eq_comm]
  refine or_congr_right ?_
  cases value with
  | expr e => exact Expr.var_beq_iff.trans ⟨congrArg _, fun h => by cases h; rfl⟩
  | aggregate a =>
    refine iff_of_false ?_ nofun
    dsimp only
    split
    · rename_i hvalue
      obtain ⟨_, -, hvalue⟩ := bind_eq_ok.mp hvalue
      cases hvalue
      exact Bool.false_ne_true
    · exact Bool.false_ne_true

theorem clause_columns {c : Clause} {r : ResolvedClause} (hs : st.scopes[scopeIn]? = some s)
    (h : clause scopeIn c st = .ok (r, st')) (hp : r.body = .project p) :
    ∀ o ∈ p.order, ∃ clause,
      o.column = (p.items.find? (isColumn s clause o.expr)).map ResolvedItem.name := by
  cases c with
  | project final w =>
    obtain ⟨expanded, acc, sorted, order, skip, limit, -, -, horder, -, -, -, rfl, rfl⟩ :=
      project_run hs h
    cases hp
    refine Gives.mapM (fun o _ o' ho => ⟨projectionName final, ?_⟩) order horder
    rw [orderItem_eq ho]
  | read optional ws filter =>
    cases optional with
    | false =>
      obtain ⟨ps, scope, parameters, st₁, -, -, -, rfl⟩ := read_iff.mp h
      cases hp
    | true => cases h
  | unwind e x =>
    obtain ⟨-, -, -, rfl⟩ := unwind_run hs h
    cases hp
  | create ws =>
    obtain ⟨ps, scope, parameters, st₁, -, -, rfl⟩ := create_run hs h
    cases hp
  | delete detach targets | set items => cases h

end Resolve

theorem Query.resolve_columns_of_variables {q : Query} {r : ResolvedQuery} (hr : q.resolve = .ok r)
    {rs : List ResolvedClause} (hrs : rs ∈ r.branches) {c : ResolvedClause} (hc : c ∈ rs)
    (hp : c.body = .project p) (ho : o ∈ p.order) (hx : o.expr = .var x) (hname : x ∈ p.names) :
    ∃ before i after, p.items = before ++ i :: after ∧ o.column = some i.name ∧ i.Answers x ∧
      ∀ j ∈ before, ¬j.Answers x := by
  obtain ⟨cs, -, hcs⟩ := mem_of_forall₂ (Query.resolve_each hr) hrs
  obtain ⟨w, -, id, s, st, st', hs, hclause⟩ := mem_of_forall₂ hcs hc
  obtain ⟨clause, hcolumn⟩ := Resolve.clause_columns hs hclause hp o ho
  rw [hx] at hcolumn
  obtain ⟨j, hj, rfl⟩ := mem_map.mp hname
  cases hfind : p.items.find? (Resolve.isColumn s clause (.var j.name)) with
  | none => exact absurd (Resolve.isColumn_var.mpr (.inl rfl)) (find?_eq_none.mp hfind j hj)
  | some i =>
    obtain ⟨hanswers, before, after, hitems, hbefore⟩ := find?_eq_some_iff_append.mp hfind
    rw [hfind] at hcolumn
    refine ⟨before, i, after, hitems, hcolumn, Resolve.isColumn_var.mp hanswers, fun k hk h => ?_⟩
    have := hbefore k hk
    rw [Resolve.isColumn_var.mpr h] at this
    cases this

/-! ### Sorting -/

namespace ResolvedOrder

def direction (o : ResolvedOrder) : SortOrder :=
  if o.ascending then .asc else .desc

/-- The traversal from a row to its sort key. -/
def steps (c : LoweringContext) (o : ResolvedOrder) : Except Error Traversal :=
  match o.column with
  | some column => .ok [.select column]
  | none => (o.expr.lower c).value

/-- The key of a row, null where it leads nowhere, with its direction. -/
def key (c : LoweringContext) (ps : Parameters) (g : Graph) (t : Traverser) (o : ResolvedOrder) :
    Object × SortOrder :=
  (match o.steps c with
    | .ok f => f.firstObject ps g t
    | .error _ => .null, o.direction)

theorem key_of_column {column : String} {M : List (String × Object)}
    {y : Object} (ho : o.column = some column) (ht : t.object = .map M)
    (hy : Entries.find? column M = some y) : o.key c ps g t = (y, o.direction) := by
  have hselected : t.place.selected column = some y := by
    unfold Place.selected Traverser.place
    rw [ht]
    exact congrArg (Option.or · _) hy
  rw [key, steps, ho]
  dsimp only
  rw [firstObject, objects, select_outcome hselected]
  rfl

end ResolvedOrder

namespace LowerClause

theorem orderKey_eq_ok {s : Step} (h : orderKey c o = .ok s) :
    ∃ f, o.steps c = .ok f ∧ f.ReadsOnly (fun _ => true) ∧ s = .byOrder f o.direction := by
  obtain ⟨f, hf, rfl⟩ : ∃ f, o.steps c = .ok f ∧ .byOrder f o.direction = s := by
    unfold orderKey at h
    unfold ResolvedOrder.steps
    cases hcolumn : o.column with
    | some column =>
      rw [hcolumn] at h
      cases h
      exact ⟨_, rfl, rfl⟩
    | none =>
      rw [hcolumn] at h
      exact map_eq_ok.mp h
  obtain ⟨_, _, heq, hreads⟩ := orderKey_readsOnly c (o.expr.allKeys_of_forall fun _ => rfl) _ h
  cases heq
  exact ⟨f, hf, hreads, rfl⟩

variable {order : List ResolvedOrder}

theorem orderKeys_eq_ok {steps : List Step} (h : order.mapM (orderKey c) = .ok steps) :
    ∃ keys : List (Traversal × SortOrder), Forall₂ (fun s k => s.sortKey? = some k) steps keys ∧
      Forall₂ (fun o k => o.steps c = .ok k.1 ∧ k.1.ReadsOnly (fun _ => true) ∧ k.2 = o.direction)
        order keys := by
  induction mapM_eq_ok.mp h with
  | nil => exact ⟨[], .nil, .nil⟩
  | @cons o s _ _ ho hrest ih =>
    obtain ⟨f, hf, hreads, rfl⟩ := orderKey_eq_ok ho
    obtain ⟨keys, hkeys, horder⟩ := ih (mapM_eq_ok.mpr hrest)
    exact ⟨(f, o.direction) :: keys, .cons rfl hkeys, .cons ⟨hf, hreads, rfl⟩ horder⟩

theorem orderRows_keys (hne : order ≠ []) (h : orderRows c order = .ok f) :
    ∃ (steps : List Step) (keys : List (Traversal × SortOrder)),
      f = .order :: steps ∧ keys ≠ [] ∧ Forall₂ (fun s k => s.sortKey? = some k) steps keys ∧
      Forall₂ (fun o k => o.steps c = .ok k.1 ∧ k.1.ReadsOnly (fun _ => true) ∧ k.2 = o.direction)
        order keys := by
  rw [orderRows, if_neg (by simpa using hne)] at h
  obtain ⟨steps, hsteps, h⟩ := bind_eq_ok.mp h
  cases h
  obtain ⟨keys, hkeys, horder⟩ := orderKeys_eq_ok hsteps
  refine ⟨steps, keys, rfl, fun h => hne ?_, hkeys, horder⟩
  cases h
  cases horder
  rfl

theorem orderRows_sorts (hne : order ≠ []) (hf : orderRows c order = .ok f)
    (hrun : (f.run ps ts).outcome g = (.ok us, g')) :
    us = Sorting.sort (fun a b => Process.orderKeys (order.map (·.key c ps g a))
      (order.map (·.key c ps g b))) ts := by
  obtain ⟨steps, keys, rfl, hkeysNe, hsteps, hkeys⟩ := orderRows_keys hne hf
  have hvalues (t : Traverser) : order.map (·.key c ps g t) = Process.keysOf ps g keys t := by
    refine map_eq_of_forall₂ hkeys fun o k hk => ?_
    rw [ResolvedOrder.key, hk.1, hk.2.2]
  simp only [hvalues]
  refine order_of_ok hkeysNe hsteps (fun k hk => ?_) hrun
  obtain ⟨o, -, -, hreads, -⟩ := mem_of_forall₂ hkeys hk
  exact hreads

variable {env : Env} {scopeIn scopeOut : ScopeId} {current next : Option String}

theorem project_order (hnames : p.names.Nodup)
    (h : project env scopeIn scopeOut p current = .ok (f, next)) :
    ∃ front order back, f = front ++ (order ++ back) ∧
      orderRows (env.context (env.scopes.scope p.orderScope) none (projectionName p.final))
        p.order = .ok order ∧
      ∀ ps, front.LeadsTo ps (Traverser.HasColumns p.names) := by
  rw [project_eq] at h
  obtain ⟨rows, hrows, h⟩ := bind_eq_ok.mp h
  obtain ⟨kept, hkept, h⟩ := bind_eq_ok.mp h
  obtain ⟨order, horder, hkept⟩ := bind_eq_ok.mp hkept
  obtain ⟨skip, -, hkept⟩ := bind_eq_ok.mp hkept
  obtain ⟨limit, -, hkept⟩ := bind_eq_ok.mp hkept
  cases hkept
  have hcolumns (ps : Parameters) : Traversal.LeadsTo ps (Traverser.HasColumns p.names)
      (rows ++ if p.distinct then [.dedup] else []) := by
    refine ((projectedRows_columns hnames rows hrows).append ?_).carries
    split
    · exact .step rfl (.pick fun _ _ => Process.Reads.mem_dedup)
    · exact .nil
  split at h
  · cases h
    exact ⟨_, order, skip ++ limit, by simp only [append_assoc], horder, hcolumns⟩
  · obtain ⟨filter, -, h⟩ := bind_eq_ok.mp h
    cases h
    exact ⟨_, order, skip ++ (limit ++ (labelRow p.names ++ filter)), by simp only [append_assoc],
      horder, hcolumns⟩

end LowerClause

/-- **What a sort key that is a variable stands for.** If an item of the projection has the name of
the variable, then the key stands for the first item that has the name or is the variable. That is
the item with the name exactly if no item in front of it is the variable. The rows of the projection
are put in the order of their keys, and this key of a row is its entry under the name of the item
that was taken. -/
theorem variable_sorts_by_first_item {q : Query} {r : ResolvedQuery} (hr : q.resolve = .ok r)
    {rs : List ResolvedClause} (hrs : rs ∈ r.branches) {c : ResolvedClause} (hc : c ∈ rs)
    {p : ResolvedProjection} (hp : c.projection? = some p) {o : ResolvedOrder} (ho : o ∈ p.order)
    {x : String} (hx : o.expr = .var x) (hname : x ∈ p.names) :
    ∃ before i after, p.items = before ++ i :: after ∧ o.column = some i.name ∧ i.Answers x ∧
      (∀ j ∈ before, ¬j.Answers x) ∧
      (o.column = some x ↔ ∀ j ∈ p.items.takeWhile (·.name ≠ x), j.value ≠ .expr (.var x)) ∧
      ∀ env current steps next, LowerClause.clause env c current = .ok (steps, next) →
        ∃ front order back, steps = front ++ (order ++ back) ∧
          let context := env.context (env.scopes.scope p.orderScope) none (projectionName p.final)
          LowerClause.orderRows context p.order = .ok order ∧
          ∀ ps g m m' ts ws us, (front.run ps ts).outcome g = (.ok ws, m) →
            (order.run ps ws).outcome m = (.ok us, m') →
            us = Sorting.sort (fun a b => Process.orderKeys (p.order.map (·.key context ps m a))
              (p.order.map (·.key context ps m b))) ws ∧
            ∀ w ∈ ws, ∃ M y, w.object = .map M ∧ Entries.find? i.name M = some y ∧
              o.key context ps m w = (y, o.direction) := by
  have hp := ResolvedClause.body_of_projection? hp
  obtain ⟨before, i, after, hitems, hcolumn, hanswers, hbefore⟩ :=
    Query.resolve_columns_of_variables hr hrs hc hp ho hx hname
  have hchecked := Query.resolve_checked hr rs hrs c hc
  rw [ResolvedClause.Checked, hp] at hchecked
  obtain ⟨_, _, _, -, -, -, hchecked⟩ := hchecked
  refine ⟨before, i, after, hitems, hcolumn, hanswers, hbefore, ?_, ?_⟩
  · -- in front of the item that is taken nothing has the name
    have hfront : ∀ j ∈ before, decide (j.name ≠ x) = true := fun j hj =>
      decide_eq_true fun h => hbefore j hj (.inl h)
    rw [hitems, hcolumn, takeWhile_append_of_pos hfront, Option.some_inj]
    by_cases hi : i.name = x
    · refine iff_of_true hi fun j hj h => ?_
      rw [takeWhile_cons_of_neg (by simpa using hi), append_nil] at hj
      exact hbefore j hj (.inr h)
    · refine iff_of_false hi fun h => ?_
      refine h i (mem_append_right _ ?_) (hanswers.resolve_left hi)
      rw [takeWhile_cons_of_pos (by simpa using hi)]
      exact mem_cons_self
  · intro env current steps next hsteps
    rw [LowerClause.clause, hp] at hsteps
    obtain ⟨front, order, back, hf, horder, hleads⟩ :=
      LowerClause.project_order hchecked.names hsteps
    refine ⟨front, order, back, hf, horder, fun ps g m m' ts ws us hfront hrun => ?_⟩
    refine ⟨LowerClause.orderRows_sorts (ne_nil_of_mem ho) horder hrun, fun w hw => ?_⟩
    have hrow := (hleads ps ts (fun _ _ => trivial)).of_ok trivial hfront
    obtain ⟨M, hM, hkeys⟩ := hrow.2 w hw
    have hi : i.name ∈ Entries.keys M := hkeys.mem_iff.mpr (mem_map_of_mem (hitems ▸ by simp))
    obtain ⟨y, hy⟩ := Option.isSome_iff_exists.mp (Entries.has_of_mem_keys hi)
    exact ⟨M, y, hM, hy, ResolvedOrder.key_of_column hcolumn hM hy⟩

theorem named_item_in_front_is_sorted_by :
    ∃ q r rs c p o, Query.parse "MATCH (b) RETURN b.name AS b, b AS n ORDER BY b DESC" = .ok q ∧
      q.resolve = .ok r ∧ rs ∈ r.branches ∧ c ∈ rs ∧ c.projection? = some p ∧ o ∈ p.order ∧
      o.expr = .var "b" ∧ "b" ∈ p.names ∧ o.column = some "b" := by
  obtain ⟨q, hq, r, hr, rs, hrs, c, hc, p, hp, o, ho, hcheck⟩ :
      ∃ q, Query.parse "MATCH (b) RETURN b.name AS b, b AS n ORDER BY b DESC" = .ok q ∧
      ∃ r, q.resolve = .ok r ∧ ∃ rs ∈ r.branches, ∃ c ∈ rs, ∃ p, c.projection? = some p ∧
      ∃ o ∈ p.order, (.var "b" == o.expr && p.names.contains "b" &&
        (p.items.takeWhile (·.name ≠ "b")).isEmpty) := by
    decide +kernel
  simp only [Bool.and_eq_true, Expr.var_beq_iff, contains_iff_mem, List.isEmpty_iff] at hcheck
  obtain ⟨⟨hx, hname⟩, hfront⟩ := hcheck
  obtain ⟨before, i, after, -, -, -, -, hcolumn, -⟩ :=
    variable_sorts_by_first_item hr hrs hc hp ho hx hname
  refine ⟨q, r, rs, c, p, o, hq, hr, hrs, hc, hp, ho, hx, hname, hcolumn.mpr ?_⟩
  rw [hfront]
  exact forall_mem_nil _

theorem variable_in_front_is_sorted_by :
    ((Session.submit ⟨.native, true, .modern⟩
      "MATCH (n:person) WITH n.name AS a, n.age AS b RETURN b AS x, a AS b ORDER BY b"
      []).1.toOption.map fun table => table.rows.map fun row => (row.find? "b").map Value.text) =
        some [some "'vadas'", some "'marko'", some "'josh'", some "'peter'"] := by
  decide +kernel

end CypherTraversal
