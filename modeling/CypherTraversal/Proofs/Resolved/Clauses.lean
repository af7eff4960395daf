import CypherTraversal.Proofs.Resolved.Binding

/-! # What resolving a query establishes

Every clause reads the scope that the clause before it left, and leaves a scope that is made of the
one it read. Scopes are only ever added to the table, so what was said of a clause when it was
resolved holds of the scopes of the whole query. -/

namespace CypherTraversal

open List Scope

variable {scopes' : ScopeTable} {e : Expr} {x : String} {w : Projection} {part : UnionPart}
  {q : Query} {c : Clause} {columns : List String} {cs : List Clause} {final : Bool}
  {item : ProjectionItem} {r : ResolvedClause} {rs : List ResolvedClause} {s : Scope}
  {scopeIn : ScopeId} {scopes : ScopeTable} {ws : List (Pattern Expr)} {filter : Option Expr}

structure ResolvedItem.Reads (input : Scope) (final : Bool) (i : ResolvedItem)
    (w : ProjectionItem) : Prop where
  name : i.name = w.name
  value : Resolve.itemValue input (projectionName final) w.expr = .ok i.value
  aliased : final = false → w.asName = none → ∃ x, w.expr = .var x

def Projection.Stands (w : Projection) (item : ProjectionItem) : Prop :=
  item ∈ w.items ∨ ∃ x, item = ⟨.var x, none⟩

def Clause.isReturn : Clause → Bool
  | .project final _ => final
  | _ => false

def ResolvedClause.isReturn (r : ResolvedClause) : Bool :=
  match r.body with
  | .project p => p.final
  | _ => false

def ResolvedClause.projection? (d : ResolvedClause) : Option ResolvedProjection :=
  match d.body with
  | .project p => some p
  | _ => none

theorem ResolvedClause.body_of_projection? {d : ResolvedClause} {p : ResolvedProjection}
    (h : d.projection? = some p) :
    d.body = .project p := by
  unfold projection? at h
  split at h
  · cases h
    assumption
  · cases h

inductive ClauseResolved (scopes : ScopeTable) : Clause → ResolvedClause → Prop
  | read {r : ResolvedClause} {ws : List (Pattern Expr)} {filter : Option Expr}
      {ps : List ResolvedPattern} {s s' : Scope} (body : r.body = .read ps filter)
      (scopeIn : scopes[r.scopeIn]? = some s) (scopeOut : scopes[r.scopeOut]? = some s')
      (reads : List.Forall₂ ResolvedPattern.Reads ps ws)
      (binds : Scope.Binds { s with parent := some r.scopeIn }
        (ps.flatMap ResolvedPattern.bindings) s') :
    ClauseResolved scopes (.read false ws filter) r
  | create {r : ResolvedClause} {ws : List (Pattern Expr)} {ps : List ResolvedPattern}
      {s s' : Scope} (body : r.body = .create ps)
      (scopeIn : scopes[r.scopeIn]? = some s) (scopeOut : scopes[r.scopeOut]? = some s')
      (reads : List.Forall₂ ResolvedPattern.Reads ps ws)
      (binds : Scope.Binds { s with parent := some r.scopeIn }
        (ps.flatMap ResolvedPattern.bindings) s')
      (new : ∀ p ∈ ps, Resolve.checkNew p = .ok ()) :
    ClauseResolved scopes (.create ws) r
  | unwind {r : ResolvedClause} {e : Expr} {x : String} {s s' : Scope}
      (body : r.body = .unwind e x) (scopeIn : scopes[r.scopeIn]? = some s)
      (scopeOut : scopes[r.scopeOut]? = some s')
      (bindings : s'.bindings = s.bindings ++ [⟨x, .value⟩]) (new : x ∉ s.names) :
    ClauseResolved scopes (.unwind e x) r
  | project {r : ResolvedClause} {final : Bool} {w : Projection} {p : ResolvedProjection}
      {s s' : Scope} (body : r.body = .project p) (hfinal : p.final = final)
      (scopeIn : scopes[r.scopeIn]? = some s) (scopeOut : scopes[r.scopeOut]? = some s')
      (bindings : s'.bindings = p.items.map fun i => ⟨i.name, Resolve.itemKind s i.value⟩)
      (distinct : p.names.Nodup)
      (items : ∀ i ∈ p.items, ∃ item, w.Stands item ∧ i.Reads s final item)
      (order : ∀ o ∈ p.order, ∃ o' ∈ w.order, o.expr = o'.expr) (filter : p.filter = w.filter) :
    ClauseResolved scopes (.project final w) r

inductive Chained : ScopeId → List ResolvedClause → Prop
  | nil (id : ScopeId) : Chained id []
  | cons {r : ResolvedClause} {rs : List ResolvedClause} (rest : Chained r.scopeOut rs) :
    Chained r.scopeIn (r :: rs)

theorem ClauseResolved.mono (hmore : scopes <+: scopes')
    (h : ClauseResolved scopes c r) : ClauseResolved scopes' c r := by
  have hmono {i : Nat} {s : Scope} (hs : scopes[i]? = some s) : scopes'[i]? = some s := by
    obtain ⟨more, rfl⟩ := hmore
    obtain ⟨hi, -⟩ := List.getElem?_eq_some_iff.mp hs
    rw [getElem?_append_left hi, hs]
  cases h with
  | read body scopeIn scopeOut reads binds =>
    exact .read body (hmono scopeIn) (hmono scopeOut) reads binds
  | create body scopeIn scopeOut reads binds new =>
    exact .create body (hmono scopeIn) (hmono scopeOut) reads binds new
  | unwind body scopeIn scopeOut bindings new =>
    exact .unwind body (hmono scopeIn) (hmono scopeOut) bindings new
  | project body hfinal scopeIn scopeOut bindings distinct items order filter =>
    exact .project body hfinal (hmono scopeIn) (hmono scopeOut) bindings distinct items order filter

theorem ClauseResolved.isReturn_eq (h : ClauseResolved scopes c r) : r.isReturn = c.isReturn := by
  unfold ResolvedClause.isReturn
  cases h with
  | read body | create body | unwind body =>
    rw [body]
    rfl
  | project body hfinal =>
    rw [body]
    exact hfinal

namespace Resolve

variable {st st' : State}

theorem scope_of_getElem? {id : ScopeId} (h : scopes[id]? = some s) : scopes.scope id = s := by
  unfold ScopeTable.scope
  rw [getD_eq_getElem?_getD, h]
  rfl

theorem getElem?_mono {id : ScopeId} (hs : scopes[id]? = some s) (more : List Scope) :
    (scopes ++ more)[id]? = some s := by
  rw [getElem?_append_left (List.getElem?_eq_some_iff.mp hs).1, hs]

/-! ### How clauses are resolved -/

section Runs

variable {scopeIn : ScopeId} {s : Scope} {r : ResolvedClause} (hs : st.scopes[scopeIn]? = some s)

include hs

omit hs in
theorem read_iff : read ws filter scopeIn st = .ok (r, st') ↔
    ∃ ps scope parameters st₁,
      patterns "MATCH" (fun _ => .ok ()) { st.scopes.scope scopeIn with parent := some scopeIn } ws
        [] st = .ok ((ps, scope, parameters), st₁) ∧
      Expr.checkOption scope "MATCH" filter = .ok () ∧
      st' = { st₁ with scopes := st₁.scopes ++ [scope] } ∧
      r = ⟨.read ps filter, scopeIn, st₁.scopes.length,
        addNames parameters (Expr.optionParameters filter)⟩ := by
  constructor
  · intro h
    obtain ⟨d, st₀, hd, h⟩ := run_bind_eq_ok.mp h
    obtain ⟨⟨ps, scope, parameters⟩, st₁, hps, h⟩ := run_bind_eq_ok.mp h
    obtain ⟨⟨⟩, st₂, hlift, h⟩ := run_bind_eq_ok.mp h
    cases h
    cases hd
    obtain ⟨hfilter, rfl⟩ := liftM_eq_ok.mp hlift
    exact ⟨ps, scope, parameters, _, hps, hfilter, rfl, rfl⟩
  · rintro ⟨ps, scope, parameters, st₁, hps, hfilter, rfl, rfl⟩
    exact run_bind_eq_ok.mpr ⟨_, _, rfl, run_bind_eq_ok.mpr ⟨_, _, hps, run_bind_eq_ok.mpr
      ⟨⟨⟩, _, liftM_eq_ok.mpr ⟨hfilter, rfl⟩, rfl⟩⟩⟩

theorem create_run (h : create ws scopeIn st = .ok (r, st')) : ∃ ps scope parameters st₁,
      patterns "CREATE" checkNew { s with parent := some scopeIn } ws [] st =
        .ok ((ps, scope, parameters), st₁) ∧
      st' = { st₁ with scopes := st₁.scopes ++ [scope] } ∧
      r = ⟨.create ps, scopeIn, st₁.scopes.length, parameters⟩ := by
  rw [← scope_of_getElem? hs]
  obtain ⟨d, st₀, hd, h⟩ := run_bind_eq_ok.mp h
  obtain ⟨⟨ps, scope, parameters⟩, st₁, hps, h⟩ := run_bind_eq_ok.mp h
  cases h
  cases hd
  exact ⟨ps, scope, parameters, st₁, hps, rfl, rfl⟩

theorem unwind_run (h : unwind e x scopeIn st = .ok (r, st')) :
    e.check { s with parent := some scopeIn } "UNWIND" = .ok () ∧
      kind? { s with parent := some scopeIn } x = none ∧
      st' = { st with
        scopes := st.scopes ++ [bind { s with parent := some scopeIn } x .value] } ∧
      r = ⟨.unwind e x, scopeIn, st.scopes.length, addNames [] e.parameters⟩ := by
  rw [← scope_of_getElem? hs]
  obtain ⟨d, st₀, hd, h⟩ := run_bind_eq_ok.mp h
  obtain ⟨⟨⟩, st₁, hlift, h⟩ := run_bind_eq_ok.mp h
  split at h
  · cases h
  · rename_i hnew
    cases h
    cases hd
    obtain ⟨hcheck, rfl⟩ := liftM_eq_ok.mp hlift
    rw [has_eq, Option.not_isSome_iff_eq_none] at hnew
    exact ⟨hcheck, hnew, rfl, rfl⟩

theorem project_run (h : project final w scopeIn st = .ok (r, st')) :
    ∃ expanded acc sorted order skip limit,
      expandStar s (projectionName final) w.items = .ok expanded ∧
      addItems s final expanded { output := childOf scopeIn } = .ok acc ∧
      orderItems s sorted (projectionName final) acc.items w.order = .ok order ∧
      boundParameters "SKIP" w.skip = .ok skip ∧ boundParameters "LIMIT" w.limit = .ok limit ∧
      Expr.checkOption acc.output (projectionName final) w.filter = .ok () ∧
      st' = { st with scopes := st.scopes ++ [sorted] ++ [acc.output] } ∧
      r = ⟨.project ⟨final, w.distinct, acc.items, order, st.scopes.length, w.skip, w.limit,
          w.filter⟩, scopeIn, (st.scopes ++ [sorted]).length,
        addNames (addNames (addNames (addNames acc.parameters
          (w.order.flatMap fun o => o.expr.parameters)) skip) limit)
          (Expr.optionParameters w.filter)⟩ := by
  obtain ⟨input, st₁, hinput, h⟩ := run_bind_eq_ok.mp h
  obtain ⟨expanded, st₂, hexpanded, h⟩ := run_bind_eq_ok.mp h
  obtain ⟨acc, st₃, hitems, h⟩ := run_bind_eq_ok.mp h
  obtain ⟨order, st₄, horder, h⟩ := run_bind_eq_ok.mp h
  obtain ⟨orderScope, st₅, hpush, h⟩ := run_bind_eq_ok.mp h
  obtain ⟨skip, st₆, hskip, h⟩ := run_bind_eq_ok.mp h
  obtain ⟨limit, st₇, hlimit, h⟩ := run_bind_eq_ok.mp h
  obtain ⟨⟨⟩, st₈, hfilter, h⟩ := run_bind_eq_ok.mp h
  cases h
  cases hinput
  obtain rfl := scope_of_getElem? hs
  obtain ⟨hstar, rfl⟩ := liftM_eq_ok.mp hexpanded
  obtain ⟨hacc, rfl⟩ := liftM_eq_ok.mp hitems
  obtain ⟨hsorts, rfl⟩ := liftM_eq_ok.mp horder
  cases hpush
  obtain ⟨hskips, rfl⟩ := liftM_eq_ok.mp hskip
  obtain ⟨hlimits, rfl⟩ := liftM_eq_ok.mp hlimit
  obtain ⟨hfilters, rfl⟩ := liftM_eq_ok.mp hfilter
  exact ⟨expanded, acc, _, order, skip, limit, hstar, hacc, hsorts, hskips, hlimits, hfilters,
    rfl, rfl⟩

end Runs

/-! ### Patterns and lists -/

section Clauses

variable {scopeIn : ScopeId} {s : Scope} {r : ResolvedClause} (hs : st.scopes[scopeIn]? = some s)

include hs

theorem read_eq_ok (hws : ∀ w ∈ ws, w.Alternates) (h : read ws filter scopeIn st = .ok (r, st')) :
    ClauseResolved st'.scopes (.read false ws filter) r := by
  obtain ⟨ps, scope, parameters, st₁, hps, -, rfl, rfl⟩ := read_iff.mp h
  rw [scope_of_getElem? hs] at hps
  obtain ⟨hreads, hbinds, hnames, -⟩ := patterns_eq_ok hws hps
  rw [← mapM_nameOr_scopes hnames] at hs
  exact .read rfl (getElem?_mono hs _) getElem?_concat_length hreads hbinds

theorem create_eq_ok (hws : ∀ w ∈ ws, w.Alternates) (h : create ws scopeIn st = .ok (r, st')) :
    ClauseResolved st'.scopes (.create ws) r := by
  obtain ⟨ps, scope, parameters, st₁, hps, rfl, rfl⟩ := create_run hs h
  obtain ⟨hreads, hbinds, hnames, hnew⟩ := patterns_eq_ok hws hps
  rw [← mapM_nameOr_scopes hnames] at hs
  exact .create rfl (getElem?_mono hs _) getElem?_concat_length hreads hbinds hnew

theorem unwind_eq_ok (h : unwind e x scopeIn st = .ok (r, st')) :
    ClauseResolved st'.scopes (.unwind e x) r := by
  obtain ⟨-, hnew, rfl, rfl⟩ := unwind_run hs h
  exact .unwind (s := s) rfl (getElem?_mono hs _) getElem?_concat_length (bind_bindings hnew)
    (kind?_eq_none_iff.mp hnew)

end Clauses

/-! ### Projections -/

structure Items.Sound (input : Scope) (final : Bool) (W : ProjectionItem → Prop) (acc : Items) :
    Prop where
  bindings : acc.output.bindings = acc.items.map fun i => ⟨i.name, itemKind input i.value⟩
  distinct : (acc.items.map ResolvedItem.name).Nodup
  items : ∀ i ∈ acc.items, ∃ item, W item ∧ i.Reads input final item

theorem addItem_eq_ok {input : Scope} {acc acc' : Items}
    (h : addItem input final acc item = .ok acc') :
    (final = false → item.asName = none → ∃ x, item.expr = .var x) ∧
      ∃ value, itemValue input (projectionName final) item.expr = .ok value ∧
        acc' = if (acc.items.find? fun i => i.name = item.name).isSome
          then { acc with parameters := addNames acc.parameters item.expr.parameters }
          else ⟨acc.items ++ [⟨item.name, value⟩],
            acc.output.bind item.name (itemKind input value),
            addNames acc.parameters item.expr.parameters⟩ := by
  unfold addItem at h
  dsimp only at h
  refine ⟨?_, ?_⟩
  · rintro rfl hnone
    rw [hnone] at h
    cases hexpr : item.expr with
    | var x => exact ⟨x, rfl⟩
    | _ =>
      rw [hexpr] at h
      cases h
  split at h
  case h_2 => cases h
  all_goals
    obtain ⟨value, hvalue, h⟩ := bind_eq_ok.mp h
    refine ⟨value, hvalue, ?_⟩
    cases hfind : acc.items.find? fun i => i.name = item.name with
    | some i =>
      rw [hfind] at h
      dsimp only at h
      split at h
      · cases h
        rfl
      · cases h
    | none =>
      rw [hfind] at h
      cases h
      rfl

section AddItems

variable {input : Scope} {W : ProjectionItem → Prop} {final : Bool} {acc acc' : Items}

theorem addItem_sound (hitem : W item) (hacc : acc.Sound input final W)
    (h : addItem input final acc item = .ok acc') : acc'.Sound input final W := by
  obtain ⟨haliased, value, hvalue, rfl⟩ := addItem_eq_ok h
  split
  · exact ⟨hacc.bindings, hacc.distinct, hacc.items⟩
  · rename_i hfind
    have hnew : item.name ∉ acc.items.map ResolvedItem.name := by
      rw [Option.not_isSome_iff_eq_none, find?_eq_none] at hfind
      simpa using hfind
    constructor
    · have hnames : item.name ∉ acc.output.bindings.map Binding.name := by
        rw [hacc.bindings, map_map]
        exact hnew
      rw [map_append, ← hacc.bindings]
      exact rebind_of_new hnames
    · rw [map_append]
      refine nodup_append.mpr ⟨hacc.distinct, pairwise_singleton _ _, ?_⟩
      rintro x hx y hy rfl
      obtain rfl := mem_singleton.mp hy
      exact hnew hx
    · exact forall_mem_append.mpr ⟨hacc.items,
        forall_mem_singleton.mpr ⟨item, hitem, rfl, hvalue, haliased⟩⟩

theorem addItems_sound {items : List ProjectionItem} (hitems : ∀ item ∈ items, W item)
    (hacc : acc.Sound input final W) (h : addItems input final items acc = .ok acc') :
    acc'.Sound input final W := by
  unfold addItems at h
  induction items generalizing acc with
  | nil =>
    cases h
    exact hacc
  | cons item items ih =>
    obtain ⟨hitem, hitems⟩ := forall_mem_cons.mp hitems
    obtain ⟨acc₁, h₁, h⟩ := bind_eq_ok.mp h
    exact ih hitems (addItem_sound hitem hacc h₁) h

end AddItems

theorem expandStar_gives (s : Scope) (clause : String) (items : List ProjectionItem) :
    Gives (fun expanded => ∀ item ∈ expanded,
        item ∈ items ∨ ∃ x, isGenerated x = false ∧ item = ⟨.var x, none⟩)
      (expandStar s clause items) := by
  refine (Gives.mapM (R := fun expanded => ∀ item ∈ expanded,
    item ∈ items ∨ ∃ x, isGenerated x = false ∧ item = ⟨.var x, none⟩) fun item hitem => ?_).bind
    fun lists hlists => .ok ?_
  · split
    · dsimp only
      split
      · exact .error _
      · refine .ok (forall_mem_map.mpr fun x hx => .inr ⟨x, ?_, rfl⟩)
        simpa using (mem_filter.mp hx).2
    · exact .ok (forall_mem_singleton.mpr (.inl hitem))
  · intro item hitem
    obtain ⟨items, hitems, hitem⟩ := mem_flatten.mp hitem
    exact hlists items hitems item hitem

theorem orderItem_eq {input orderScope : Scope} {clause : String} {items : List ResolvedItem}
    {o : OrderItem} {o' : ResolvedOrder} (h : orderItem input orderScope clause items o = .ok o') :
    o' = ⟨o.expr, (items.find? (isColumn input clause o.expr)).map ResolvedItem.name,
      o.ascending⟩ := by
  unfold orderItem at h
  dsimp only at h
  split at h
  · obtain ⟨-, -, h⟩ := bind_eq_ok.mp h
    cases h
    rfl
  · cases h
    rfl

theorem project_eq_ok (hs : st.scopes[scopeIn]? = some s)
    (h : project final w scopeIn st = .ok (r, st')) :
    ClauseResolved st'.scopes (.project final w) r := by
  obtain ⟨expanded, acc, sorted, order, skip, limit, hexpanded, hacc, horder, -, -, -, rfl, rfl⟩ :=
    project_run hs h
  have hempty : Items.Sound s final w.Stands { output := childOf scopeIn } :=
    ⟨rfl, nodup_nil, forall_mem_nil _⟩
  have hstands : ∀ item ∈ expanded, w.Stands item := fun item hitem =>
    (expandStar_gives _ _ _ expanded hexpanded item hitem).imp_right fun ⟨x, _, h⟩ => ⟨x, h⟩
  have hsound := addItems_sound hstands hempty hacc
  have hsorted : ∀ o ∈ order, ∃ o' ∈ w.order, o.expr = o'.expr :=
    Gives.mapM (fun o ho o' h => ⟨o, ho, orderItem_eq h ▸ rfl⟩) order horder
  exact .project rfl rfl (getElem?_mono (getElem?_mono hs _) _) getElem?_concat_length
    hsound.bindings hsound.distinct hsound.items hsorted rfl

/-! ### Whole queries -/

theorem clause_eq_ok (hc : ∀ w ∈ c.patterns, w.Alternates) (hs : st.scopes[scopeIn]? = some s)
    (h : clause scopeIn c st = .ok (r, st')) : ClauseResolved st'.scopes c r := by
  cases c with
  | read optional ws filter =>
    cases optional with
    | false => exact read_eq_ok hs hc h
    | true => cases h
  | project final w => exact project_eq_ok hs h
  | unwind e x => exact unwind_eq_ok hs h
  | create ws => exact create_eq_ok hs hc h
  | delete detach targets | set items => cases h

def BranchResolved (scopes : ScopeTable) (cs : List Clause) (rs : List ResolvedClause) : Prop :=
  ∃ id, scopes[id]? = some {} ∧ Chained id rs ∧ List.Forall₂ (ClauseResolved scopes) cs rs ∧
    ∀ r ∈ rs.dropLast, r.isReturn = false

theorem BranchResolved.mono (hmore : scopes <+: scopes')
    (h : BranchResolved scopes cs rs) : BranchResolved scopes' cs rs := by
  obtain ⟨id, hid, hchained, hall, hreturns⟩ := h
  obtain ⟨more, rfl⟩ := hmore
  exact ⟨id, getElem?_mono hid more, hchained, hall.imp fun _ _ hr => hr.mono ⟨more, rfl⟩, hreturns⟩

theorem checkClauses_eq_ok (h : checkClauses cs = .ok ()) :
    ∀ c ∈ cs.dropLast, c.isReturn = false := by
  obtain ⟨⟨⟩, -, h⟩ := bind_eq_ok.mp h
  dsimp only at h
  split at h
  · cases h
  · rename_i hreturns
    intro c hc
    have hreturn := any_eq_false.mp (Bool.not_eq_true _ ▸ hreturns) c hc
    cases c with
    | project final p =>
      cases final with
      | false => rfl
      | true => exact absurd rfl hreturn
    | _ => rfl

theorem isReturn_of_forall₂ (h : Forall₂ (ClauseResolved scopes) cs rs)
    (hcs : ∀ c ∈ cs.dropLast, c.isReturn = false) : ∀ r ∈ rs.dropLast, r.isReturn = false := by
  induction h with
  | nil => exact forall_mem_nil _
  | cons hr hrest ih =>
    cases hrest with
    | nil => exact forall_mem_nil _
    | cons hnext hrest =>
      obtain ⟨hc, hcs⟩ := forall_mem_cons.mp hcs
      exact forall_mem_cons.mpr ⟨hr.isReturn_eq.trans hc, ih hcs⟩

theorem branch_run (h : branch cs st = .ok (rs, st')) : checkClauses cs = .ok () ∧
      clausesFrom st.scopes.length cs { st with scopes := st.scopes ++ [{}] } = .ok (rs, st') := by
  obtain ⟨⟨⟩, st₁, hlift, hclauses⟩ := run_bind_eq_ok.mp h
  obtain ⟨hcheck, rfl⟩ := liftM_eq_ok.mp hlift
  exact ⟨hcheck, hclauses⟩

theorem branch_of_unionBranch (h : unionBranch columns part st = .ok (rs, st')) :
    branch part.clauses st = .ok (rs, st') := by
  obtain ⟨b, st₁, hb, h⟩ := run_bind_eq_ok.mp h
  split at h
  · cases h
  · split at h
    · cases h
    · cases h
      exact hb

end Resolve

theorem Query.resolve_eq_ok {r : ResolvedQuery} (h : q.resolve = .ok r) :
    ∃ first st rest st', Resolve.branch q.clauses {} = .ok (first, st) ∧
      q.union.mapM (Resolve.unionBranch (Resolve.columnsOf first)) st = .ok (rest, st') ∧
      r.branches = first :: rest ∧ r.scopes = st'.scopes ∧
      r.columns = Resolve.columnsOf first ∧ ∀ part ∈ q.union, part.all = !r.distinctUnion := by
  obtain ⟨⟨⟨branches, distinctUnion, columns⟩, st'⟩, hquery, h⟩ := bind_eq_ok.mp h
  cases h
  obtain ⟨first, st, hbranch, hquery⟩ := run_bind_eq_ok.mp hquery
  -- the first part says whether UNION drops repeated rows
  split at hquery
  all_goals
    split at hquery
    · cases hquery
    · rename_i hmixed
      obtain ⟨rest, st₂, hrest, hquery⟩ := run_bind_eq_ok.mp hquery
      cases hquery
      refine ⟨first, st, rest, _, hbranch, hrest, rfl, rfl, rfl, fun part hpart => ?_⟩
      rw [Bool.eq_not]
      exact fun hsame => hmixed (any_eq_true.mpr ⟨part, hpart, beq_iff_eq.mpr hsame⟩)

/-! ### Columns -/

theorem Resolve.unionBranch_columns {st st' : State}
    (h : unionBranch columns part st = .ok (rs, st')) : columnsOf rs = columns ∧ columns ≠ [] := by
  obtain ⟨b, st₁, -, h⟩ := run_bind_eq_ok.mp h
  split at h
  · cases h
  · rename_i hempty
    split at h
    · cases h
    · rename_i hsame
      cases h
      exact ⟨not_not.mp hsame, fun hnil => by simp [hnil] at hempty⟩

end CypherTraversal
