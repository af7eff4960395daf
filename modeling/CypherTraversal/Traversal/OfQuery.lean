import CypherTraversal.Resolved.OfQuery
import CypherTraversal.Traversal.Bound
import CypherTraversal.Traversal.OfExpr

/-! # Traversals of queries

Each clause appends steps to one traversal. After every clause a traverser carries a row: the
variables are labels of its path, and its current object is the last element of a pattern or the
last row that was projected. Values of parameters are looked at, to see which are null and whether
they can count rows, but never written into the traversal. -/

namespace CypherTraversal

def startMark : String := "  cypher.start"

/-- The label that WITH keeps its rows under. -/
def rowLabel : String := "  cypher.with"

structure LoweredQuery where
  traversal : Traversal
  columns : List String
  projected : List String
deriving Repr, Inhabited

/-! ### Parameter names -/

def checkParameterName (name : String) : Except Error Unit :=
  if Text.isPlainName name then .ok () else .error (.parameterName name)

def checkParameterNames (names : List String) : Except Error Unit :=
  names.forM checkParameterName

namespace LowerClause

structure Env where
  scopes : ScopeTable
  parameters : Parameters

/-- Steps, and the variable that rows are taken to be at behind them. -/
abbrev Result := Except Error (Traversal × Option String)

def Env.context (env : Env) (scope : Scope) (current : Option String) (clause : String) :
    LoweringContext :=
  { scope, parameters := env.parameters, current, clause }

def filterOf (c : LoweringContext) : Option Expr → Except Error Traversal
  | none => .ok []
  | some e => do return (← (e.lower c).holds).filter

/-! ### MATCH -/

def constraints (env : Env) (scope : Scope) (element : String) (entries : List (String × Expr)) :
    Except Error Traversal := do
  let c := env.context scope (some element) "MATCH"
  let filters ← entries.mapM fun (key, e) => do
    let property := (Expr.access (.var element) key).lower c
    return (← Lowered.comparison c property .eq (e.lower c)).filter
  return filters.flatten

def matchNode (env : Env) (scope : Scope) (n : ResolvedNode) (start : Bool) :
    Except Error Traversal := do
  let arrive : Traversal :=
    match start, n.bound with
    | true, true => [.select n.name]
    | true, false => [.vertices]
    | false, true => [.wherePredicate (.compare .eq (.label n.name))]
    | false, false => []
  let labels : Traversal := if n.labels.isEmpty then [] else [.hasLabel n.labels]
  let mark : Traversal := if n.bound then [] else [.mark n.name]
  return arrive ++ labels ++ mark ++ (← constraints env scope n.name n.properties)

def arrival : Direction → Endpoint
  | .outgoing => .target
  | .incoming => .source
  | .both => .other

def matchRelationship (env : Env) (scope : Scope) (r : ResolvedRelationship) :
    Except Error Traversal := do
  let bind : Step :=
    if r.bound then .wherePredicate (.compare .eq (.label r.name)) else .mark r.name
  return [.edges r.direction r.types, bind] ++ (← constraints env scope r.name r.properties) ++
    [.endpoint (arrival r.direction)]

def matchHop (env : Env) (scope : Scope) (hop : ResolvedRelationship × ResolvedNode) :
    Except Error Traversal := do
  return (← matchRelationship env scope hop.1) ++ (← matchNode env scope hop.2 false)

def matchPattern (env : Env) (scope : Scope) (p : ResolvedPattern) : Except Error Traversal := do
  let start ← matchNode env scope p.start true
  let hops ← p.hops.mapM (matchHop env scope)
  return start ++ hops.flatten

def lastOf (current : Option String) (patterns : List ResolvedPattern) : Option String :=
  match patterns.getLast? with
  | some p => some p.lastName
  | none => current

def read (env : Env) (scopeOut : ScopeId) (patterns : List ResolvedPattern) (filter : Option Expr)
    (current : Option String) : Result := do
  let scope := env.scopes.scope scopeOut
  let steps ← patterns.mapM (matchPattern env scope)
  let current := lastOf current patterns
  let filter ← filterOf (env.context scope current "WHERE") filter
  return (steps.flatten ++ filter, current)

/-! ### UNWIND -/

def unwind (env : Env) (scopeIn : ScopeId) (e : Expr) (var : String) (current : Option String) :
    Result := do
  let c := env.context (env.scopes.scope scopeIn) current "UNWIND"
  let items := (← (e.lower c).value) ++ [.unfold]
  return ([.flatMap items, .mark var, .constant (.value (.str startMark))], none)

/-! ### CREATE -/

def newProperties (c : LoweringContext) (entries : List (String × Expr)) :
    Except Error Traversal := do
  let kept := entries.filter fun p => !p.2.constant?.any Value.isNull
  kept.mapM fun (key, e) => return .property key (← (e.lower c).value)

def createNode (c : LoweringContext) (n : ResolvedNode) : Except Error Traversal := do
  if n.bound then return []
  return [.addVertex n.labels.head?, .mark n.name] ++ (← newProperties c n.properties)

def createHop (c : LoweringContext) (previous : String)
    (hop : ResolvedRelationship × ResolvedNode) : Except Error Traversal := do
  let (r, next) := hop
  let node ← createNode c next
  match r.types.head? with
  | none => throw (.invalid .relationshipTypeMissing)
  | some type =>
    let (source, target) :=
      if r.direction = .incoming then (next.name, previous) else (previous, next.name)
    return node ++ [.addEdge type, .fromLabel source, .toLabel target, .mark r.name] ++
      (← newProperties c r.properties)

def createHops (c : LoweringContext) (previous : String) :
    List (ResolvedRelationship × ResolvedNode) → Except Error Traversal
  | [] => .ok []
  | hop :: hops => do
    return (← createHop c previous hop) ++ (← createHops c hop.2.name hops)

def create (env : Env) (scopeOut : ScopeId) (patterns : List ResolvedPattern)
    (current : Option String) : Result := do
  let c := env.context (env.scopes.scope scopeOut) none "CREATE"
  let steps ← patterns.mapM fun p => do
    return (← createNode c p.start) ++ (← createHops c p.start.name p.hops)
  return (steps.flatten, lastOf current patterns)

/-! ### WITH and RETURN -/

def reduceOr (r : Reduction) (empty : Value) : Traversal :=
  [.fold, .coalesce [[.unfold, .reduce r], constantValue empty]]

def aggregateSteps (a : Aggregate) : Traversal :=
  let arguments : Traversal := .is notNullPredicate :: if a.distinct then [.dedup] else []
  arguments ++ match a.function with
    | .count => [.reduce .count]
    | .collect => [.fold]
    | .sum => reduceOr .sum (.int 0)
    | .avg => reduceOr .mean .null
    | .min => reduceOr .min .null
    | .max => reduceOr .max .null

def argumentColumn (n : Nat) : String :=
  generatedLead ++ "agg_" ++ toString n

def withColumns : Nat → List ResolvedItem → List (ResolvedItem × String)
  | _, [] => []
  | n, i :: is =>
    if i.value.isAggregate then (i, argumentColumn n) :: withColumns (n + 1) is
    else (i, i.name) :: withColumns n is

def argumentValue (c : LoweringContext) : ItemValue → Except Error Traversal
  | .expr e => (e.lower c).value
  | .aggregate a =>
    match a.argument with
    | some e => (e.lower c).value
    | none => .ok (constantValue (.int 1))

def argumentRows (c : LoweringContext) (columns : List (ResolvedItem × String)) :
    Except Error Traversal := do
  let values ← columns.mapM fun (i, _) => argumentValue c i.value
  return .project (columns.map Prod.snd) :: values.map .by

def totalItem (column : ResolvedItem × String) : List Step :=
  match column.1.value with
  | .aggregate a => [.by ([.unfold, .select column.2] ++ aggregateSteps a)]
  | .expr _ => []

def groupItem (column : ResolvedItem × String) : Step :=
  match column.1.value with
  | .aggregate a =>
    .by ([.selectColumn .values, .unfold, .select column.2] ++ aggregateSteps a)
  | .expr _ => .by [.selectColumn .keys, .select column.1.name]

def aggregateRows (c : LoweringContext) (p : ResolvedProjection) : Except Error Traversal := do
  let columns := withColumns 0 p.items
  let rows ← argumentRows c columns
  let keys := (p.items.filter fun i => !i.value.isAggregate).map ResolvedItem.name
  if keys.isEmpty then
    return rows ++ [.fold, .project p.names] ++ columns.flatMap totalItem
  else
    let key : Traversal := .project keys :: keys.map fun k => .by [.select k]
    return rows ++ [.group, .by key, .by [.fold], .unfold, .project p.names] ++
      columns.map groupItem

def plainRows (c : LoweringContext) (p : ResolvedProjection) : Except Error Traversal := do
  let values ← p.items.mapM fun i => argumentValue c i.value
  return .project p.names :: values.map .by

def orderKey (c : LoweringContext) (o : ResolvedOrder) : Except Error Step := do
  let key ← match o.column with
    | some column => pure [.select column]
    | none => (o.expr.lower c).value
  return .byOrder key (if o.ascending then .asc else .desc)

def orderRows (c : LoweringContext) (order : List ResolvedOrder) : Except Error Traversal := do
  if order.isEmpty then return []
  return .order :: (← order.mapM (orderKey c))

def bound (env : Env) (keyword : String) (e : Expr) : Except Error Bound :=
  match e with
  | .param name => do
    match env.parameters.find? name with
    | some v => let _ ← v.rowCount keyword
    | none => pure ()
    return .parameter name
  | e =>
    match e.constant? with
    | some v => do return .literal (← v.rowCount keyword)
    | none => .error (.unsupported keyword (.nonConstantValue e.text))

def window (env : Env) (keyword : String) (step : Bound → Step) :
    Option Expr → Except Error Traversal
  | none => .ok []
  | some e => do return [step (← bound env keyword e)]

/-- Makes the columns of a row labels of its path. -/
def labelRow (names : List String) : Traversal :=
  [.mark rowLabel] ++
    names.flatMap (fun n => [.select rowLabel, .select n, .mark n]) ++ [.select rowLabel]

def project (env : Env) (scopeIn scopeOut : ScopeId) (p : ResolvedProjection)
    (current : Option String) : Result := do
  let clause := projectionName p.final
  let c := env.context (env.scopes.scope scopeIn) current clause
  let rows ← if p.isAggregating then aggregateRows c p else plainRows c p
  let distinct : Traversal := if p.distinct then [.dedup] else []
  let order ← orderRows (env.context (env.scopes.scope p.orderScope) none clause) p.order
  let skip ← window env "SKIP" .skip p.skip
  let limit ← window env "LIMIT" .limit p.limit
  let steps := rows ++ distinct ++ order ++ skip ++ limit
  if p.final then return (steps, none)
  let filter ← filterOf (env.context (env.scopes.scope scopeOut) none "WITH") p.filter
  return (steps ++ labelRow p.names ++ filter, none)

/-! ### Clauses -/

def clause (env : Env) (r : ResolvedClause) (current : Option String) : Result :=
  match r.body with
  | .read patterns filter => read env r.scopeOut patterns filter current
  | .project p => project env r.scopeIn r.scopeOut p current
  | .unwind e var => unwind env r.scopeIn e var current
  | .create patterns => create env r.scopeOut patterns current

def clauses (env : Env) : List ResolvedClause → Option String → Except Error Traversal
  | [], _ => .ok []
  | r :: rs, current => do
    let (steps, current) ← clause env r current
    return steps ++ (← clauses env rs current)

def branch (env : Env) (rs : List ResolvedClause) : Except Error Traversal := do
  let steps ← clauses env rs none
  match rs.getLast?.map ResolvedClause.body with
  | some (.create _) => return steps ++ [.barrier, .limit (.literal 0)]
  | _ => return steps

end LowerClause

def startsWithMatch (rs : List ResolvedClause) : Bool :=
  match rs.head?.map ResolvedClause.body with
  | some (.read ..) => true
  | _ => false

namespace ResolvedQuery

def joinBranches (q : ResolvedQuery) (branches : List Traversal) : Traversal :=
  let start : Step := .inject [.str startMark]
  match branches with
  | [t] => if q.branches.head?.any startsWithMatch then t else start :: t
  | ts => [start, .union ts] ++ if q.distinctUnion then [.dedup] else []

def projectedNames (q : ResolvedQuery) : List String :=
  addNames [] (q.branches.flatten.flatMap fun r =>
    match r.body with
    | .project p => p.names.filter fun n => !isGenerated n
    | _ => [])

def lower (q : ResolvedQuery) (parameters : Parameters) : Except Error LoweredQuery := do
  checkParameterNames q.parameters
  let branches ← q.branches.mapM (LowerClause.branch { scopes := q.scopes, parameters })
  return { traversal := q.joinBranches branches, columns := q.columns,
           projected := q.projectedNames }

end ResolvedQuery

def Traversal.parameters (t : Traversal) : List String :=
  addNames [] ((Step.visitAll t).flatMap Step.parameters)

end CypherTraversal
