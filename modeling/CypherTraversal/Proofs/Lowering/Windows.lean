import CypherTraversal.Traversal.OfQuery

/-! # Projections and their windows

A projection makes its rows in one of two ways, with or without aggregates, and what follows is
the same. SKIP and LIMIT are the one place where values of parameters have to be of a kind: a
value counts rows, or the query is refused. -/

namespace CypherTraversal

variable (col : ResolvedItem × String)

/-! ### Counting rows -/

theorem Value.rowCount_cases (clause : String) (v : Value) :
    (∃ n : Nat, v = .int n ∧ v.rowCount clause = .ok n) ∨
      v.rowCount clause = .error (.range clause v.text) := by
  unfold rowCount
  split
  · rename_i n
    split
    · rename_i hn
      have hnat : (n.natAbs : Int) = n := Int.natAbs_of_nonneg hn
      exact .inl ⟨n.natAbs, congrArg Value.int hnat.symm, rfl⟩
    · exact .inr rfl
  · exact .inr rfl

def Bound.Counts (ps : Parameters) : Bound → Prop
  | .literal n => 0 ≤ n
  | .parameter name => ∀ v, ps.find? name = some v → ∃ n : Nat, v = .int n

namespace LowerClause

variable (env : Env) (keyword : String)

theorem bound_param (name : String) :
    bound env keyword (.param name) = .ok (.parameter name) ∧
        (Bound.parameter name).Counts env.parameters ∨
      ∃ got, bound env keyword (.param name) = .error (.range keyword got) := by
  unfold bound Bound.Counts
  dsimp only
  cases hv : env.parameters.find? name with
  | none => exact .inl ⟨rfl, nofun⟩
  | some v =>
    obtain ⟨n, hn, hcount⟩ | hcount := v.rowCount_cases keyword
    · refine .inl ⟨?_, fun w hw => ⟨n, (Option.some.inj hw).symm.trans hn⟩⟩
      dsimp only
      rw [hcount]
      rfl
    · refine .inr ⟨v.text, ?_⟩
      dsimp only
      rw [hcount]
      rfl

theorem bound_constant {e : Expr} {v : Value} (he : e.constant? = some v) :
    (∃ n : Nat, bound env keyword e = .ok (.literal n)) ∨
      ∃ got, bound env keyword e = .error (.range keyword got) := by
  have hbound : bound env keyword e = do return .literal (← v.rowCount keyword) := by
    unfold bound
    split
    · cases he
    · rw [he]
  rw [hbound]
  obtain ⟨n, -, hcount⟩ | hcount := v.rowCount_cases keyword
  · exact .inl ⟨n, by rw [hcount]; rfl⟩
  · exact .inr ⟨v.text, by rw [hcount]; rfl⟩

/-! ### Projections -/

/-- The rows of a projection before they are sorted and cut. -/
def projectedRows (c : LoweringContext) (p : ResolvedProjection) : Except Error Traversal :=
  if p.isAggregating then aggregateRows c p else plainRows c p

def keptRows (p : ResolvedProjection) : Except Error Traversal := do
  let order ← orderRows (env.context (env.scopes.scope p.orderScope) none (projectionName p.final))
    p.order
  let skip ← window env "SKIP" .skip p.skip
  let limit ← window env "LIMIT" .limit p.limit
  return (if p.distinct then [.dedup] else []) ++ order ++ skip ++ limit

theorem project_eq (scopeIn scopeOut : ScopeId) (p : ResolvedProjection) (current : Option String) :
    project env scopeIn scopeOut p current = do
      let c := env.context (env.scopes.scope scopeIn) current (projectionName p.final)
      let rows ← projectedRows c p
      let kept ← keptRows env p
      if p.final then return (rows ++ kept, none)
      let filter ← filterOf (env.context (env.scopes.scope scopeOut) none "WITH") p.filter
      return (rows ++ kept ++ labelRow p.names ++ filter, none) := by
  unfold project projectedRows keptRows
  simp only [bind_assoc, pure_bind, List.append_assoc]
  cases p.isAggregating <;> rfl

end LowerClause

/-! ### Columns -/

open LowerClause List

variable {n : Nat} {items : List ResolvedItem}

theorem mem_withColumns {col : ResolvedItem × String} (h : col ∈ withColumns n items) :
    col.1 ∈ items ∧ (col.1.value.isAggregate = false ∧ col.2 = col.1.name ∨
      col.1.value.isAggregate = true ∧ ∃ m, n ≤ m ∧ col.2 = argumentColumn m) := by
  induction items generalizing n with
  | nil => cases h
  | cons i items ih =>
    rw [withColumns] at h
    split at h
    · rename_i haggregate
      rcases mem_cons.mp h with rfl | h
      · exact ⟨mem_cons_self, .inr ⟨haggregate, n, Nat.le_refl n, rfl⟩⟩
      · refine ⟨mem_cons_of_mem i (ih h).1, (ih h).2.imp_right ?_⟩
        exact fun ⟨hvalue, m, hm, hcolumn⟩ => ⟨hvalue, m, Nat.le_of_succ_le hm, hcolumn⟩
    · rename_i hplain
      rcases mem_cons.mp h with rfl | h
      · exact ⟨mem_cons_self, .inl ⟨by simpa using hplain, rfl⟩⟩
      · exact ⟨mem_cons_of_mem i (ih h).1, (ih h).2⟩

theorem map_fst_withColumns (n : Nat) (items : List ResolvedItem) :
    (withColumns n items).map Prod.fst = items := by
  induction items generalizing n with
  | nil => rfl
  | cons i items ih =>
    rw [withColumns]
    split <;> exact congrArg (i :: ·) (ih _)

theorem names_eq_withColumns (p : ResolvedProjection) :
    p.names = (withColumns 0 p.items).map (ResolvedItem.name ∘ Prod.fst) := by
  rw [← map_map, map_fst_withColumns]
  rfl

def groupValue : Traversal :=
  match col.1.value with
  | .aggregate a => [.selectColumn .values, .unfold, .select col.2] ++ aggregateSteps a
  | .expr _ => [.selectColumn .keys, .select col.1.name]

theorem groupItem_eq : groupItem col = .by (groupValue col) := by
  obtain ⟨⟨name, value⟩, column⟩ := col
  cases value <;> rfl

theorem map_groupItem (cols : List (ResolvedItem × String)) :
    cols.map groupItem = (cols.map groupValue).map .by := by
  rw [map_map]
  exact map_congr_left fun col _ => groupItem_eq col

def totalValue : Traversal :=
  match col.1.value with
  | .aggregate a => [.unfold, .select col.2] ++ aggregateSteps a
  | .expr _ => []

theorem flatMap_totalItem {cols : List (ResolvedItem × String)}
    (h : ∀ col ∈ cols, col.1.value.isAggregate) :
    cols.flatMap totalItem = (cols.map totalValue).map .by := by
  induction cols with
  | nil => rfl
  | cons col cols ih =>
    obtain ⟨hcol, hcols⟩ := forall_mem_cons.mp h
    rw [flatMap_cons, ih hcols, map_cons, map_cons, totalItem, totalValue]
    cases hvalue : col.1.value with
    | aggregate a => rfl
    | expr e =>
      rw [hvalue] at hcol
      cases hcol

end CypherTraversal
