import CypherTraversal.Query.Syntax
import CypherTraversal.Resolved.Scope
import CypherTraversal.Text.Name

/-! # Resolved queries

A query whose names are all known: every clause has the scope it reads and the scope it leaves,
every node and relationship has a name, and the items of a projection are told apart into plain
expressions and aggregates. -/

namespace CypherTraversal

/-! ### Patterns -/

structure ResolvedNode where
  name : String
  labels : List String
  properties : List (String × Expr)
  bound : Bool
deriving Repr, Inhabited

structure ResolvedRelationship where
  name : String
  types : List String
  direction : Direction
  properties : List (String × Expr)
  bound : Bool
deriving Repr, Inhabited

/-- A node, and relationships with the node that each leads to. -/
structure ResolvedPattern where
  start : ResolvedNode
  hops : List (ResolvedRelationship × ResolvedNode)
deriving Repr, Inhabited

def ResolvedPattern.nodes (p : ResolvedPattern) : List ResolvedNode :=
  p.start :: p.hops.map Prod.snd

def ResolvedPattern.lastName (p : ResolvedPattern) : String :=
  match p.hops.getLast? with
  | some (_, node) => node.name
  | none => p.start.name

/-! ### Projections -/

inductive AggregateFunction where
  | count | sum | avg | min | max | collect
deriving DecidableEq, Repr, Inhabited

def AggregateFunction.names : List (String × AggregateFunction) :=
  [("count", .count), ("sum", .sum), ("avg", .avg), ("min", .min), ("max", .max),
    ("collect", .collect)]

def AggregateFunction.ofName? (name : String) : Option AggregateFunction :=
  names.lookup (Text.lowerAscii name)

structure Aggregate where
  function : AggregateFunction
  argument : Option Expr
  distinct : Bool
deriving Repr, Inhabited

inductive ItemValue where
  | expr (e : Expr)
  | aggregate (a : Aggregate)
deriving Repr, Inhabited

namespace ItemValue

def isAggregate : ItemValue → Bool
  | aggregate _ => true
  | expr _ => false

def same : ItemValue → ItemValue → Bool
  | expr a, expr b => a == b
  | aggregate a, aggregate b =>
    a.function == b.function && Expr.sameOption a.argument b.argument && a.distinct == b.distinct
  | _, _ => false

instance : BEq ItemValue := ⟨same⟩

end ItemValue

structure ResolvedItem where
  name : String
  value : ItemValue
deriving Repr, Inhabited

structure ResolvedOrder where
  expr : Expr
  column : Option String
  ascending : Bool
deriving Repr, Inhabited

structure ResolvedProjection where
  final : Bool
  distinct : Bool
  items : List ResolvedItem
  order : List ResolvedOrder
  orderScope : ScopeId
  skip : Option Expr
  limit : Option Expr
  filter : Option Expr
deriving Repr, Inhabited

namespace ResolvedProjection

def isAggregating (p : ResolvedProjection) : Bool :=
  p.items.any fun i => i.value.isAggregate

def names (p : ResolvedProjection) : List String :=
  p.items.map ResolvedItem.name

end ResolvedProjection

/-! ### Clauses and queries -/

inductive ResolvedBody where
  | read (patterns : List ResolvedPattern) (filter : Option Expr)
  | project (p : ResolvedProjection)
  | unwind (expr : Expr) (var : String)
  | create (patterns : List ResolvedPattern)
deriving Repr, Inhabited

def projectionName (final : Bool) : String :=
  if final then "RETURN" else "WITH"

/-- A clause between the scope it reads and the scope it leaves. -/
structure ResolvedClause where
  body : ResolvedBody
  scopeIn : ScopeId
  scopeOut : ScopeId
  parameters : List String
deriving Repr, Inhabited

structure ResolvedQuery where
  branches : List (List ResolvedClause)
  distinctUnion : Bool
  scopes : ScopeTable
  columns : List String
deriving Repr, Inhabited

def addNames (names new : List String) : List String :=
  new.foldl (fun ns n => if ns.contains n then ns else ns ++ [n]) names

def ResolvedQuery.parameters (q : ResolvedQuery) : List String :=
  addNames [] (q.branches.flatten.flatMap ResolvedClause.parameters)

end CypherTraversal
