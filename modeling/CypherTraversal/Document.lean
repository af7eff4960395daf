import CypherTraversal.Json.Basic
import CypherTraversal.Query.Syntax

/-! # Documents of queries

Queries are written as documents in one way throughout. A constructor without fields is its name; a
constructor with fields is an object of one field, named for the constructor. A record is an
object of its fields, and what is missing is null. A floating point number is an object of one
field `$float`. -/

namespace CypherTraversal.Document

/-! ### Writing -/

def tagged (name : String) (content : Json) : Json :=
  .object [(name, content)]

def texts (xs : List String) : Json :=
  .array (xs.map .str)

def nat (n : Nat) : Json :=
  .int n

def optional (f : α → Json) : Option α → Json
  | none => .null
  | some a => f a

def float (x : Binary64) : Json :=
  tagged "$float" (.str (x.toText .plain))

def finite (x : Binary64) : Json :=
  if x.isFinite then float x else .null

def scalar : Scalar → Json
  | .null => .str "Null"
  | .bool b => tagged "Boolean" (.bool b)
  | .int n => tagged "Integer" (.int n)
  | .float x => tagged "Float" (finite x)
  | .str s => tagged "String" (.str s)

/-! ### Reading -/

def tag? : Json → Option (String × Json)
  | .str name => some (name, .null)
  | .object [(name, content)] => some (name, content)
  | _ => none

def field (name : String) (j : Json) : Json :=
  (j.field? name).getD .null

def text? : Json → Option String
  | .str s => some s
  | _ => none

def int? : Json → Option Int
  | .int n => some n
  | _ => none

def nat? : Json → Option Nat
  | .int n => if 0 ≤ n then some n.natAbs else none
  | _ => none

def bool? : Json → Option Bool
  | .bool b => some b
  | _ => none

def items? : Json → Option (List Json)
  | .array items => some items
  | _ => none

def list? (f : Json → Option α) (j : Json) : Option (List α) := do
  (← items? j).mapM f

def option? (f : Json → Option α) : Json → Option (Option α)
  | .null => some none
  | j => (f j).map some

def pair? {α β : Type} (f : Json → Option α) (g : Json → Option β) : Json → Option (α × β)
  | .array [a, b] => do pure (← f a, ← g b)
  | _ => none

def float? (j : Json) : Option Binary64 := do
  Binary64.ofText? (← text? (← j.field? "$float"))

def scalar? (j : Json) : Option Scalar := do
  let (name, content) ← tag? j
  if name == "Null" then pure .null
  else if name == "Boolean" then Scalar.bool <$> bool? content
  else if name == "Integer" then Scalar.int <$> int? content
  else if name == "Float" then Scalar.float <$> float? content
  else if name == "String" then Scalar.str <$> text? content
  else none

mutual

def size : Json → Nat
  | .array items => 1 + sizeItems items
  | .object fields => 1 + sizeFields fields
  | _ => 1

def sizeItems : List Json → Nat
  | [] => 0
  | j :: js => 1 + size j + sizeItems js

def sizeFields : List (String × Json) → Nat
  | [] => 0
  | (_, j) :: js => 1 + size j + sizeFields js

end

/-! ### Names of constructors -/

def comparisonNames : List (Comparison × String) :=
  [(.eq, "Equals"), (.ne, "NotEquals"), (.lt, "LessThan"), (.le, "LessEquals"),
    (.gt, "GreaterThan"), (.ge, "GreaterEquals")]

def binaryNames : List (BinaryOp × String) :=
  comparisonNames.map (fun p => (.compare p.1, p.2)) ++
  [(.and, "And"), (.or, "Or"), (.xor, "Xor"), (.arith .add, "Add"), (.arith .sub, "Subtract"),
    (.arith .mul, "Multiply"), (.arith .div, "Divide"), (.arith .mod, "Modulo"),
    (.arith .pow, "Power"), (.text .contains, "Contains"), (.text .startsWith, "StartsWith"),
    (.text .endsWith, "EndsWith"), (.member, "In")]

def unaryNames : List (UnaryOp × String) :=
  [(.not, "Not"), (.negate, "Negate"), (.isNull, "IsNull"), (.isNotNull, "IsNotNull")]

def directionNames : List (Direction × String) :=
  [(.outgoing, "Outgoing"), (.incoming, "Incoming"), (.both, "Both")]

def nameIn [BEq α] (table : List (α × String)) (a : α) : Json :=
  .str ((table.lookup a).getD "")

def ofName? (table : List (α × String)) (j : Json) : Option α := do
  let s ← text? j
  (table.find? fun p => p.2 == s).map Prod.fst

/-! ### Writing queries -/

def pathLength (l : PathLength) : Json :=
  .object [("min", optional nat l.min), ("max", optional nat l.max)]

def entryList (pairs : List Json) : Json :=
  .object [("entries", .array pairs)]

mutual

def expr : Expr → Json
  | .literal s => tagged "Literal" (scalar s)
  | .var name => tagged "Variable" (.str name)
  | .access base key => tagged "Property" (.array [expr base, .str key])
  | .param name => tagged "Parameter" (.str name)
  | .binary l op r =>
    tagged "Binary" (.object [("left", expr l), ("op", nameIn binaryNames op), ("right", expr r)])
  | .unary op e => tagged "Unary" (.object [("op", nameIn unaryNames op), ("operand", expr e)])
  | .call name args distinct =>
    tagged "Function" (.object
      [("name", .str name), ("args", .array (exprs args)), ("distinct", .bool distinct)])
  | .list items => tagged "List" (.array (exprs items))
  | .map entries => tagged "Map" (entryList (exprEntries entries))
  | .caseOf operand whens otherwise =>
    tagged "Case" (.object
      [("operand", exprOption operand), ("when_clauses", .array (exprWhens whens)),
        ("else_clause", exprOption otherwise)])
  | .pattern ⟨path, elements⟩ =>
    tagged "Pattern" (.object
      [("variable", optional .str path), ("elements", .array (exprElements elements))])
  | .comprehension var source filter result =>
    tagged "ListComprehension" (.object
      [("variable", .str var), ("list", expr source), ("filter", exprOption filter),
        ("projection", exprOption result)])
  | .star => .str "Star"

def exprs : List Expr → List Json
  | [] => []
  | e :: es => expr e :: exprs es

def exprEntries : List (String × Expr) → List Json
  | [] => []
  | (k, e) :: es => .array [.str k, expr e] :: exprEntries es

def exprOption : Option Expr → Json
  | none => .null
  | some e => expr e

def exprWhens : List (Expr × Expr) → List Json
  | [] => []
  | (w, t) :: rest => .array [expr w, expr t] :: exprWhens rest

def exprElements : List (PatternElement Expr) → List Json
  | [] => []
  | e :: es => exprElement e :: exprElements es

def exprElement : PatternElement Expr → Json
  | .node var labels properties =>
    tagged "Node" (.object
      [("variable", optional .str var), ("labels", texts labels),
        ("properties", exprProperties properties)])
  | .relationship var types direction properties length =>
    tagged "Relationship" (.object
      [("variable", optional .str var), ("rel_types", texts types),
        ("direction", nameIn directionNames direction),
        ("properties", exprProperties properties), ("length", optional pathLength length)])

def exprProperties : Option (List (String × Expr)) → Json
  | none => .null
  | some entries => entryList (exprEntries entries)

end

def pattern (p : Pattern Expr) : Json :=
  .object [("variable", optional .str p.path), ("elements", .array (exprElements p.elements))]

def projection (p : Projection) : Json :=
  let item (i : ProjectionItem) : Json :=
    .object [("expression", expr i.expr), ("alias", optional .str i.asName)]
  let order (o : OrderItem) : Json :=
    .object [("expression", expr o.expr), ("ascending", .bool o.ascending)]
  .object
    [("distinct", .bool p.distinct), ("items", .array (p.items.map item)),
      ("order_by", .array (p.order.map order)), ("skip", optional expr p.skip),
      ("limit", optional expr p.limit), ("where_clause", optional expr p.filter)]

def setItem : SetItem → Json
  | .property entity key value =>
    tagged "Property" (.object
      [("entity", .str entity), ("property", .str key), ("value", expr value)])
  | .labels var labels =>
    tagged "Labels" (.object [("variable", .str var), ("labels", texts labels)])
  | .all var value =>
    tagged "AllProperties" (.object [("variable", .str var), ("value", expr value)])

def clause : Clause → Json
  | .read opt patterns filter =>
    tagged (if opt then "OptionalMatch" else "Match") (.object
      [("patterns", .array (patterns.map pattern)), ("where_clause", optional expr filter)])
  | .project final p => tagged (if final then "Return" else "With") (projection p)
  | .unwind e var => tagged "Unwind" (.object [("expression", expr e), ("variable", .str var)])
  | .create patterns => tagged "Create" (.object [("patterns", .array (patterns.map pattern))])
  | .delete detach targets =>
    tagged "Delete" (.object
      [("detach", .bool detach), ("expressions", .array (targets.map expr))])
  | .set items => tagged "Set" (.object [("items", .array (items.map setItem))])

def clauses (cs : List Clause) : Json :=
  .array (cs.map clause)

def query (q : Query) : Json :=
  let part (u : UnionPart) : Json := .object [("all", .bool u.all), ("clauses", clauses u.clauses)]
  .object [("clauses", clauses q.clauses), ("union", .array (q.union.map part))]

/-! ### Reading queries -/

def entries? (f : Json → Option Expr) (j : Json) : Option (List (String × Expr)) :=
  list? (pair? text? f) (field "entries" j)

def pathLength? (j : Json) : Option PathLength := do
  pure { min := ← option? nat? (field "min" j), max := ← option? nat? (field "max" j) }

def element? (f : Json → Option Expr) (j : Json) : Option (PatternElement Expr) := do
  let (name, c) ← tag? j
  let var ← option? text? (field "variable" c)
  let properties ← option? (entries? f) (field "properties" c)
  if name == "Node" then
    pure (.node var (← list? text? (field "labels" c)) properties)
  else if name == "Relationship" then
    pure (.relationship var (← list? text? (field "rel_types" c))
      (← ofName? directionNames (field "direction" c)) properties
      (← option? pathLength? (field "length" c)))
  else none

def pattern? (f : Json → Option Expr) (j : Json) : Option (Pattern Expr) := do
  pure { path := ← option? text? (field "variable" j)
         elements := ← list? (element? f) (field "elements" j) }

def expr? : Nat → Json → Option Expr
  | 0, _ => none
  | n + 1, j => do
    let (name, c) ← tag? j
    if name == "Literal" then Expr.literal <$> scalar? c
    else if name == "Variable" then Expr.var <$> text? c
    else if name == "Property" then (fun p => Expr.access p.1 p.2) <$> pair? (expr? n) text? c
    else if name == "Parameter" then Expr.param <$> text? c
    else if name == "Binary" then
      pure (.binary (← expr? n (field "left" c)) (← ofName? binaryNames (field "op" c))
        (← expr? n (field "right" c)))
    else if name == "Unary" then
      pure (.unary (← ofName? unaryNames (field "op" c)) (← expr? n (field "operand" c)))
    else if name == "Function" then
      pure (.call (← text? (field "name" c)) (← list? (expr? n) (field "args" c))
        (← bool? (field "distinct" c)))
    else if name == "List" then Expr.list <$> list? (expr? n) c
    else if name == "Map" then Expr.map <$> entries? (expr? n) c
    else if name == "Case" then
      pure (.caseOf (← option? (expr? n) (field "operand" c))
        (← list? (pair? (expr? n) (expr? n)) (field "when_clauses" c))
        (← option? (expr? n) (field "else_clause" c)))
    else if name == "Pattern" then Expr.pattern <$> pattern? (expr? n) c
    else if name == "ListComprehension" then
      pure (.comprehension (← text? (field "variable" c)) (← expr? n (field "list" c))
        (← option? (expr? n) (field "filter" c)) (← option? (expr? n) (field "projection" c)))
    else if name == "Star" then pure .star
    else none

def readExpr? (j : Json) : Option Expr :=
  expr? (size j + 1) j

def readPattern? : Json → Option (Pattern Expr) :=
  pattern? readExpr?

def projection? (j : Json) : Option Projection := do
  let item? (i : Json) : Option ProjectionItem := do
    pure { expr := ← readExpr? (field "expression" i)
           asName := ← option? text? (field "alias" i) }
  let order? (o : Json) : Option OrderItem := do
    pure { expr := ← readExpr? (field "expression" o)
           ascending := ← bool? (field "ascending" o) }
  pure
    { distinct := ← bool? (field "distinct" j)
      items := ← list? item? (field "items" j)
      order := ← list? order? (field "order_by" j)
      skip := ← option? readExpr? (field "skip" j)
      limit := ← option? readExpr? (field "limit" j)
      filter := ← option? readExpr? (field "where_clause" j) }

def setItem? (j : Json) : Option SetItem := do
  let (name, c) ← tag? j
  if name == "Property" then
    pure (.property (← text? (field "entity" c)) (← text? (field "property" c))
      (← readExpr? (field "value" c)))
  else if name == "Labels" then
    pure (.labels (← text? (field "variable" c)) (← list? text? (field "labels" c)))
  else if name == "AllProperties" then
    pure (.all (← text? (field "variable" c)) (← readExpr? (field "value" c)))
  else none

def clause? (j : Json) : Option Clause := do
  let (name, c) ← tag? j
  if name == "Match" || name == "OptionalMatch" then
    pure (.read (name == "OptionalMatch") (← list? readPattern? (field "patterns" c))
      (← option? readExpr? (field "where_clause" c)))
  else if name == "With" || name == "Return" then
    pure (.project (name == "Return") (← projection? c))
  else if name == "Unwind" then
    pure (.unwind (← readExpr? (field "expression" c)) (← text? (field "variable" c)))
  else if name == "Create" then Clause.create <$> list? readPattern? (field "patterns" c)
  else if name == "Delete" then
    pure (.delete (← bool? (field "detach" c)) (← list? readExpr? (field "expressions" c)))
  else if name == "Set" then Clause.set <$> list? setItem? (field "items" c)
  else none

def unionPart? (j : Json) : Option UnionPart := do
  pure { all := ← bool? (field "all" j), clauses := ← list? clause? (field "clauses" j) }

def query? (j : Json) : Option Query := do
  pure { clauses := ← list? clause? (field "clauses" j)
         union := ← list? unionPart? (field "union" j) }

end CypherTraversal.Document
