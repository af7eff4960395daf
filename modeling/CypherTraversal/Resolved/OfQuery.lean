import CypherTraversal.Resolved.Check

/-! # Resolving queries

Clause by clause, the variables of a query are looked up in the scope that the clause reads, and
the scope that it leaves is made. Nodes and relationships without a name get one that starts with
two blanks and is numbered through the whole query. -/

namespace CypherTraversal

def generatedLead : String := "  "

def isGenerated (name : String) : Bool :=
  generatedLead.toList.isPrefixOf name.toList

namespace Resolve

structure State where
  scopes : ScopeTable := []
  unnamed : Nat := 0

end Resolve

abbrev Resolve := StateT Resolve.State (Except Error)

namespace Resolve

def pushScope (s : Scope) : Resolve ScopeId := fun st =>
  let (id, scopes) := st.scopes.push s
  .ok (id, { st with scopes })

def scopeAt (id : ScopeId) : Resolve Scope := do
  return (← get).scopes.scope id

def derivedFrom (id : ScopeId) : Resolve Scope := do
  return { (← scopeAt id) with parent := some id }

def nameOr (name : Option String) : Resolve String := fun st =>
  match name with
  | some n => .ok (n, st)
  | none =>
    .ok (generatedLead ++ "UNNAMED" ++ toString st.unnamed, { st with unnamed := st.unnamed + 1 })

/-! ### Patterns -/

def bindElement (scope : Scope) (name : String) (kind : Kind) : Except Error (Bool × Scope) :=
  match scope.kind? name with
  | none => .ok (false, scope.bind name kind)
  | some k =>
    if k = kind then .ok (true, scope)
    else .error (.typeMismatch kind.text (k.text ++ s!" `{name}`"))

/-- The part of a pattern that was read; `pending` waits for its node. -/
structure PatternState where
  scope : Scope
  parameters : List String
  start : Option ResolvedNode := none
  hops : List (ResolvedRelationship × ResolvedNode) := []
  pending : Option ResolvedRelationship := none

def checkProperties (clause : String) (properties : List (String × Expr)) (p : PatternState) :
    Except Error PatternState := do
  Expr.checkEntries p.scope clause properties
  return { p with parameters := addNames p.parameters (Expr.entryParameters properties) }

def addElement (clause : String) (p : PatternState) : PatternElement Expr → Resolve PatternState
  | .node var labels properties => do
    let name ← nameOr var
    let (bound, scope) ← bindElement p.scope name .node
    let properties := properties.getD []
    let p ← checkProperties clause properties { p with scope }
    let node : ResolvedNode := { name, labels, properties, bound }
    match p.pending with
    | some r => return { p with pending := none, hops := p.hops ++ [(r, node)] }
    | none => return { p with start := some node }
  | .relationship var types direction properties length => do
    if length.isSome then throw (.unsupported clause .variableLength)
    let name ← nameOr var
    let (bound, scope) ← bindElement p.scope name .relationship
    let properties := properties.getD []
    let p ← checkProperties clause properties { p with scope }
    return { p with pending := some { name, types, direction, properties, bound } }

def pattern (clause : String) (scope : Scope) (parameters : List String) (p : Pattern Expr) :
    Resolve (ResolvedPattern × Scope × List String) := do
  if p.path.isSome then throw (.unsupported clause .pathVariable)
  let result ← p.elements.foldlM (addElement clause) { scope, parameters }
  match result.start, result.pending with
  | some start, none => return ({ start, hops := result.hops }, result.scope, result.parameters)
  | _, _ => throw (.invalid (.malformedPattern p.text))

def checkNewNode (n : ResolvedNode) : Except Error Unit :=
  if n.bound && (!n.labels.isEmpty || !n.properties.isEmpty) then
    .error (.invalid (.nodeDeclared n.name))
  else if 1 < n.labels.length then .error (.unsupported "CREATE" .multipleLabels)
  else .ok ()

def checkNewRelationship (r : ResolvedRelationship) : Except Error Unit :=
  if r.bound then .error (.invalid (.relationshipDeclared r.name))
  else if r.types.length ≠ 1 then .error (.invalid .relationshipType)
  else if r.direction = .both then .error (.invalid .undirected)
  else .ok ()

def checkNew (p : ResolvedPattern) : Except Error Unit := do
  p.nodes.forM checkNewNode
  p.hops.forM fun h => checkNewRelationship h.1

def patterns (clause : String) (check : ResolvedPattern → Except Error Unit) (scope : Scope) :
    List (Pattern Expr) → List String → Resolve (List ResolvedPattern × Scope × List String)
  | [], parameters => return ([], scope, parameters)
  | p :: ps, parameters => do
    let (r, scope, parameters) ← pattern clause scope parameters p
    check r
    let (rs, scope, parameters) ← patterns clause check scope ps parameters
    return (r :: rs, scope, parameters)

/-! ### Clauses -/

def read (ps : List (Pattern Expr)) (filter : Option Expr) (scopeIn : ScopeId) :
    Resolve ResolvedClause := do
  let (patterns, scope, parameters) ←
    patterns "MATCH" (fun _ => .ok ()) (← derivedFrom scopeIn) ps []
  Expr.checkOption scope "MATCH" filter
  let parameters := addNames parameters (Expr.optionParameters filter)
  let scopeOut ← pushScope scope
  return { body := .read patterns filter, scopeIn, scopeOut, parameters }

def create (ps : List (Pattern Expr)) (scopeIn : ScopeId) : Resolve ResolvedClause := do
  let (patterns, scope, parameters) ← patterns "CREATE" checkNew (← derivedFrom scopeIn) ps []
  let scopeOut ← pushScope scope
  return { body := .create patterns, scopeIn, scopeOut, parameters }

def unwind (e : Expr) (var : String) (scopeIn : ScopeId) : Resolve ResolvedClause := do
  let scope ← derivedFrom scopeIn
  e.check scope "UNWIND"
  if scope.has var then throw (.invalid (.declaredTwice var))
  let scopeOut ← pushScope (scope.bind var .value)
  return { body := .unwind e var, scopeIn, scopeOut, parameters := addNames [] e.parameters }

def expandStar (scope : Scope) (clause : String) (items : List ProjectionItem) :
    Except Error (List ProjectionItem) := do
  let expanded ← items.mapM fun item =>
    match item.expr with
    | .star =>
      let visible := scope.names.filter fun n => !isGenerated n
      if visible.isEmpty then .error (.invalid (.starWithoutVariables clause))
      else .ok (visible.map fun n => { expr := .var n, asName := none })
    | _ => .ok [item]
  return expanded.flatten

def itemValue (scope : Scope) (clause : String) (e : Expr) : Except Error ItemValue := do
  match e with
  | .call name args distinct =>
    match AggregateFunction.ofName? name with
    | some function =>
      match args with
      | [.star] =>
        if function = .count then return .aggregate { function, argument := none, distinct }
        else throw (.unsupported clause (.starArgument name))
      | [arg] =>
        arg.check scope clause
        return .aggregate { function, argument := some arg, distinct }
      | _ => throw (.invalid (.aggregateArguments name))
    | none =>
      e.check scope clause
      return .expr e
  | _ =>
    e.check scope clause
    return .expr e

structure Items where
  items : List ResolvedItem := []
  output : Scope
  parameters : List String := []

def itemKind (input : Scope) : ItemValue → Kind
  | .aggregate _ => .aggregate
  | .expr e => e.kindIn input

def addItem (input : Scope) (final : Bool) (acc : Items) (item : ProjectionItem) :
    Except Error Items := do
  let clause := projectionName final
  match final, item.asName, item.expr with
  | false, none, .var _ => pure ()
  | false, none, e => throw (.invalid (.unaliased e.text))
  | _, _, _ => pure ()
  let name := item.name
  let value ← itemValue input clause item.expr
  let acc := { acc with parameters := addNames acc.parameters item.expr.parameters }
  match acc.items.find? fun i => i.name = name with
  | some i => if i.value == value then return acc else throw (.ambiguous name clause)
  | none =>
    return { acc with
      items := acc.items ++ [{ name, value }]
      output := acc.output.bind name (itemKind input value) }

def addItems (input : Scope) (final : Bool) (items : List ProjectionItem) (acc : Items) :
    Except Error Items :=
  items.foldlM (addItem input final) acc

/-- A sort key means this item, by its name or as the same expression. -/
def isColumn (input : Scope) (clause : String) (e : Expr) (item : ResolvedItem) : Bool :=
  let named := match e with
    | .var name => name == item.name
    | _ => false
  named || match item.value with
    | .expr f => e == f
    | .aggregate _ =>
      match itemValue input clause e with
      | .ok value => value == item.value
      | .error _ => false

def orderItem (input orderScope : Scope) (clause : String) (items : List ResolvedItem)
    (o : OrderItem) : Except Error ResolvedOrder := do
  let column := (items.find? (isColumn input clause o.expr)).map ResolvedItem.name
  if column.isNone then o.expr.check orderScope "ORDER BY"
  return { expr := o.expr, column, ascending := o.ascending }

def orderItems (input orderScope : Scope) (clause : String) (items : List ResolvedItem)
    (os : List OrderItem) : Except Error (List ResolvedOrder) :=
  os.mapM (orderItem input orderScope clause items)

def boundParameters (keyword : String) : Option Expr → Except Error (List String)
  | none => .ok []
  | some (.literal _) => .ok []
  | some (.param name) => .ok [name]
  | some e => .error (.unsupported keyword (.nonConstantBound e.text))

def project (final : Bool) (p : Projection) (scopeIn : ScopeId) : Resolve ResolvedClause := do
  let clause := projectionName final
  let input ← scopeAt scopeIn
  let expanded ← expandStar input clause p.items
  let acc ← addItems input final expanded { output := Scope.childOf scopeIn }
  let aggregating := acc.items.any fun i => i.value.isAggregate
  let sortScope := if aggregating then acc.output else acc.output.extendedBy input
  let order ← orderItems input sortScope clause acc.items p.order
  let parameters := addNames acc.parameters (p.order.flatMap fun o => o.expr.parameters)
  let orderScope ← pushScope sortScope
  let parameters := addNames parameters (← boundParameters "SKIP" p.skip)
  let parameters := addNames parameters (← boundParameters "LIMIT" p.limit)
  Expr.checkOption acc.output clause p.filter
  let parameters := addNames parameters (Expr.optionParameters p.filter)
  let scopeOut ← pushScope acc.output
  return {
    body := .project {
      final, distinct := p.distinct, items := acc.items, order, orderScope, skip := p.skip,
      limit := p.limit, filter := p.filter }
    scopeIn, scopeOut, parameters }

/-! ### Queries -/

def checkClauses (clauses : List Clause) : Except Error Unit := do
  clauses.forM fun c =>
    match c with
    | .read true .. | .delete .. | .set _ => .error (.unsupported c.name (.clause c.name))
    | _ => .ok ()
  let isReturn : Clause → Bool
    | .project true _ => true
    | _ => false
  if clauses.dropLast.any isReturn then throw (.invalid .returnNotLast)
  match clauses.getLast? with
  | some (.project true _) => return ()
  | some (.create _) => return ()
  | some c => throw (.invalid (.concludesWith c.name))
  | none => throw (.invalid .empty)

def clause (scopeIn : ScopeId) : Clause → Resolve ResolvedClause
  | .read false patterns filter => read patterns filter scopeIn
  | .project final p => project final p scopeIn
  | .unwind e var => unwind e var scopeIn
  | .create patterns => create patterns scopeIn
  | c => throw (.unsupported c.name (.clause c.name))

def clausesFrom (scopeIn : ScopeId) : List Clause → Resolve (List ResolvedClause)
  | [] => return []
  | c :: cs => do
    let r ← clause scopeIn c
    return r :: (← clausesFrom r.scopeOut cs)

def columnsOf (clauses : List ResolvedClause) : List String :=
  match clauses.getLast?.map ResolvedClause.body with
  | some (.project p) => p.names
  | _ => []

def branch (clauses : List Clause) : Resolve (List ResolvedClause) := do
  checkClauses clauses
  clausesFrom (← pushScope {}) clauses

def unionBranch (columns : List String) (part : UnionPart) : Resolve (List ResolvedClause) := do
  let b ← branch part.clauses
  if (columnsOf b).isEmpty || columns.isEmpty then throw (.invalid .unionWithoutReturn)
  if columnsOf b ≠ columns then throw (.invalid .unionColumns)
  return b

def query (q : Query) : Resolve (List (List ResolvedClause) × Bool × List String) := do
  let first ← branch q.clauses
  let distinctUnion := match q.union with
    | part :: _ => !part.all
    | [] => false
  if q.union.any fun part => part.all == distinctUnion then throw (.invalid .mixedUnion)
  let rest ← q.union.mapM (unionBranch (columnsOf first))
  return (first :: rest, distinctUnion, columnsOf first)

end Resolve

def Query.resolve (q : Query) : Except Error ResolvedQuery := do
  let ((branches, distinctUnion, columns), st) ← (Resolve.query q).run {}
  return { branches, distinctUnion, scopes := st.scopes, columns }

end CypherTraversal
