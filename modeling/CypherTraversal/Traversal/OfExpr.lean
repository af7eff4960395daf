import CypherTraversal.Resolved.Check
import CypherTraversal.Traversal.Condition
import CypherTraversal.Value.Order

/-! # Traversals of expressions

An expression has two readings. As a value it is a traversal that leads from a row to one object,
null included. As a condition it is a `Condition` that passes where the expression is true, and
another one that passes where it is false; where it is unknown neither passes.

`Expr.lower` computes both readings of an expression from those of its parts. -/

namespace CypherTraversal

/-! ### Comparisons -/

namespace Comparison

def negate : Comparison → Comparison
  | eq => ne | ne => eq | lt => ge | le => gt | gt => le | ge => lt

def flip : Comparison → Comparison
  | lt => gt | le => ge | gt => lt | ge => le | c => c

def accepts : Comparison → Ordering → Bool
  | eq, o => o == .eq
  | ne, o => o != .eq
  | lt, o => o == .lt
  | le, o => o != .gt
  | gt, o => o == .gt
  | ge, o => o != .lt

def eval? (c : Comparison) (a b : Value) : Option Bool :=
  match c with
  | eq => a.eq? b
  | ne => (a.eq? b).map not
  | c => (a.compare? b).map c.accepts

end Comparison

/-! ### Pieces of traversals -/

def compareLabel : String := "  cmp"

def constantValue (v : Value) : Traversal :=
  [.constant (.value v)]

def nullPredicate : Predicate := .compare .eq (.value .null)
def notNullPredicate : Predicate := .compare .ne (.value .null)
def truthPredicate (b : Bool) : Predicate := .compare .eq (.value (.bool b))

/-- Where an expression stands; rows are at the variable `current`. -/
structure LoweringContext where
  scope : Scope
  parameters : Parameters
  current : Option String
  clause : String

namespace LoweringContext

def operand? (e : Expr) : Option Operand :=
  match e with
  | .param name => some (.parameter name)
  | e => e.constant?.map .value

def isNull (c : LoweringContext) (e : Expr) : Bool :=
  match e with
  | .param name => (c.parameters.find? name).any Value.isNull
  | e => e.constant?.any Value.isNull

def elementProperty? (c : LoweringContext) : Expr → Option (String × String)
  | .access (.var name) key => if c.scope.isElement name then some (name, key) else none
  | _ => none

def onElement (c : LoweringContext) (name : String) (steps : Traversal) : Traversal :=
  if c.current = some name then steps else [.filter (.select name :: steps)]

end LoweringContext

/-! ### Lowered expressions -/

/-- One limit of a subject, to be fused with a limit on the other side. -/
structure HalfRange where
  subject : Expr
  against : Predicate → Except Error Traversal
  limit : Expr

/-- The readings of an expression: its value, its condition and the negation. -/
structure Lowered where
  expr : Expr
  value : Except Error Traversal
  holds : Except Error Condition
  fails : Except Error Condition
  lower? : Option HalfRange := none
  upper? : Option HalfRange := none

namespace Lowered

def truthValue (holds fails : Except Error Condition) : Except Error Traversal := do
  let yes := constantValue (.bool true)
  let no := constantValue (.bool false)
  let unknown := constantValue .null
  match ← holds, ← fails with
  | .always, _ => return yes
  | .never, .always => return no
  | .never, .never => return unknown
  | .never, .test f => return [.choose f no unknown]
  | .test t, .always => return [.choose t yes no]
  | .test t, .never => return [.choose t yes unknown]
  | .test t, .test f => return [.choose t yes [.choose f no unknown]]

def valueIs (b : Bool) (value : Except Error Traversal) : Except Error Condition := do
  return .test [.filter ((← value) ++ [.is (truthPredicate b)])]

def ofValue (e : Expr) (value : Except Error Traversal) : Lowered :=
  { expr := e, value, holds := valueIs true value, fails := valueIs false value }

def ofConditions (e : Expr) (holds fails : Except Error Condition) : Lowered :=
  { expr := e, value := truthValue holds fails, holds, fails }

def ofLiteral (s : Scalar) : Lowered :=
  let condition (b : Bool) : Except Error Condition :=
    match s with
    | .bool a => .ok (if a == b then .always else .never)
    | .null => .ok .never
    | s => .error (.typeMismatch "Boolean" s.typeName)
  { expr := .literal s, value := .ok (constantValue (.scalar s)), holds := condition true,
    fails := condition false }

def ofParameter (c : LoweringContext) (name : String) : Lowered :=
  let value : Traversal := [.constant (.parameter name)]
  let condition (b : Bool) : Except Error Condition :=
    if c.isNull (.param name) then .ok .never else valueIs b (.ok value)
  { expr := .param name, value := .ok value, holds := condition true, fails := condition false }

def ofVariable (c : LoweringContext) (name : String) : Lowered :=
  ofValue (.var name) <|
    if c.scope.has name then .ok [.select name] else .error (.unbound name c.clause)

def orConstant (e : Expr) (value : Except Error Traversal) : Except Error Traversal :=
  match e.constant? with
  | some v => .ok (constantValue v)
  | none => value

/-! ### Accesses -/

def baseKind (c : LoweringContext) : Expr → Except Error Kind
  | .var name =>
    match c.scope.kind? name with
    | some k => .ok k
    | none => .error (.unbound name c.clause)
  | .map _ => .ok .map
  | .param _ | .access .. | .caseOf .. => .ok .value
  | .call name _ _ =>
    .ok (if ScalarFunction.ofName? name = some .coalesce then .value else .scalar)
  | .list _ => .ok .list
  | _ => .ok .scalar

def access (c : LoweringContext) (base : Lowered) (key : String) : Except Error Traversal := do
  let kind ← baseKind c base.expr
  let null := constantValue .null
  let lookup : List Traversal ← match kind with
    | .node | .relationship => pure [[.values key], null]
    | .map => pure [[.select key], null]
    | .value => pure [[.values key], [.select key], null]
    | k =>
      throw (.typeMismatch "Node, Relationship or Map" (k.text ++ s!" `{base.expr.text}`"))
  return (← base.value) ++ [.coalesce lookup]

/-! ### Tests -/

def nullTest (c : LoweringContext) (e : Lowered) (wantNull : Bool) : Except Error Condition :=
  match c.elementProperty? e.expr with
  | some (name, key) =>
    .ok (.test (c.onElement name [if wantNull then .hasNot key else .has key]))
  | none =>
    match e.expr.constant? with
    | some v => .ok (if v.isNull == wantNull then .always else .never)
    | none => do
      let p := if wantNull then nullPredicate else notNullPredicate
      return .test [.filter ((← e.value) ++ [.is p])]

def against (c : LoweringContext) (e : Lowered) (p : Predicate) : Except Error Traversal :=
  match c.elementProperty? e.expr with
  | some (name, key) => .ok (c.onElement name [.hasPredicate key p])
  | none => do return [.filter ((← e.value) ++ [.is notNullPredicate, .is p])]

/-- Labels the right value, reads the left one there and compares it with the label. -/
def againstRow (l r : Lowered) (p : Operand → Predicate) : Except Error Traversal := do
  let right ← r.value
  let left ← l.value
  return [.filter (right ++ [.is notNullPredicate, .mark compareLabel] ++ left ++
    [.is notNullPredicate, .wherePredicate (p (.label compareLabel))])]

def comparison (c : LoweringContext) (l : Lowered) (cmp : Comparison) (r : Lowered) :
    Except Error Condition :=
  if c.isNull l.expr || c.isNull r.expr then .ok .never
  else match l.expr.constant?, r.expr.constant? with
    | some a, some b => .ok (if cmp.eval? a b == some true then .always else .never)
    | _, _ =>
      match LoweringContext.operand? l.expr, LoweringContext.operand? r.expr with
      | some o, none => Condition.test <$> against c r (.compare cmp.flip o)
      | _, some o => Condition.test <$> against c l (.compare cmp o)
      | none, none => Condition.test <$> againstRow l r (.compare cmp)

def halfRange (c : LoweringContext) (cmp : Comparison) (l : Lowered) (op : Comparison)
    (r : Lowered) : Option HalfRange :=
  let known (e : Lowered) : Bool := (LoweringContext.operand? e.expr).isSome
  if op = cmp && known l && !known r then
    some { subject := r.expr, against := against c r, limit := l.expr }
  else if op = cmp.flip && !known l && known r then
    some { subject := l.expr, against := against c l, limit := r.expr }
  else none

def range? (c : LoweringContext) (l r : Lowered) : Except Error (Option Condition) :=
  match l.lower?, r.upper? with
  | some low, some high =>
    if low.subject != high.subject then .ok none
    else if c.isNull low.limit || c.isNull high.limit then .ok (some .never)
    else match LoweringContext.operand? low.limit, LoweringContext.operand? high.limit with
      | some a, some b => do return some (.test (← low.against (.between a b)))
      | _, _ => .ok none
  | _, _ => .ok none

def conjunction (c : LoweringContext) (l r : Lowered) : Except Error Condition := do
  match ← range? c l r with
  | some condition => return condition
  | none => return .all [← l.holds, ← r.holds]

def exclusive (l r : Lowered) (same : Bool) : Except Error Condition := do
  let a ← l.holds
  let notA ← l.fails
  let b ← r.holds
  let notB ← r.fails
  return if same then .any [.all [a, b], .all [notA, notB]]
    else .any [.all [a, notB], .all [notA, b]]

def checkText (e : Lowered) : Except Error Unit :=
  match e.expr.constant? with
  | some v =>
    if v.isText then .ok ()
    else .error (.typeMismatch "String" (v.typeName ++ s!" in `{e.expr.text}`"))
  | none => .ok ()

def textMatch (c : LoweringContext) (l : Lowered) (m : TextMatch) (r : Lowered) (negated : Bool) :
    Except Error Condition := do
  if c.isNull l.expr || c.isNull r.expr then return .never
  checkText l
  checkText r
  let positive ←
    match LoweringContext.operand? l.expr, LoweringContext.operand? r.expr with
    | none, some o => against c l (.text m o)
    | _, _ => againstRow l r (.text m)
  if negated then
    return .all [← nullTest c l false, ← nullTest c r false, .test [.not positive]]
  else
    return .test positive

def memberPredicate (negated : Bool) (o : Operand) : Predicate :=
  if negated then .without o else .within o

def constantMember (c : LoweringContext) (l r : Lowered) (list : Value) (negated : Bool) :
    Except Error Condition := do
  match list with
  | .list items =>
    if negated && items.any Value.isNull then return .never
    let known := items.filter fun v => !v.isNull
    match l.expr.constant? with
    | some v =>
      let found := known.any fun w => v.eq? w == some true
      return if found != negated then .always else .never
    | none => return .test (← against c l (memberPredicate negated (.value (.list known))))
  | v => throw (.typeMismatch "List" (v.typeName ++ s!" in `{r.expr.text}`"))

def rowMember (c : LoweringContext) (l r : Lowered) (negated : Bool) : Except Error Condition := do
  let left ← l.value
  let right ← r.value
  let positive : Traversal :=
    [.filter (left ++ [.is notNullPredicate, .mark compareLabel] ++ right ++
      [.unfold, .wherePredicate (.compare .eq (.label compareLabel))])]
  if negated then
    return .all [← nullTest c l false, .test [.not positive]]
  else
    return .test positive

def member (c : LoweringContext) (l r : Lowered) (negated : Bool) : Except Error Condition :=
  if c.isNull l.expr || c.isNull r.expr then .ok .never
  else match r.expr.constant?, r.expr with
    | some list, _ => constantMember c l r list negated
    | none, .param name =>
      Condition.test <$> against c l (memberPredicate negated (.parameter name))
    | none, _ => rowMember c l r negated

/-! ### Calls, lists, maps and branches -/

def firstArgument (name : String) (args : List Lowered) : Except Error Lowered :=
  match args with
  | e :: _ => .ok e
  | [] => .error (.invalid (.missingArgument name))

def coalesce (args : List Lowered) : Except Error Traversal := do
  let branches ← args.mapM fun e => return (← e.value) ++ [.is notNullPredicate]
  return [.coalesce (branches ++ [constantValue .null])]

def ofCall (c : LoweringContext) (e : Expr) (name : String) (args : List Lowered) : Lowered :=
  match ScalarFunction.ofName? name with
  | some .existence =>
    let test (wantNull : Bool) : Except Error Condition := do
      nullTest c (← firstArgument "exists" args) wantNull
    ofConditions e (test false) (test true)
  | some .id => ofValue e do return (← (← firstArgument name args).value) ++ [.id]
  | some .type => ofValue e do return (← (← firstArgument name args).value) ++ [.label]
  | some .labels => ofValue e do return (← (← firstArgument name args).value) ++ [.label, .fold]
  | some .coalesce => ofValue e (coalesce args)
  | none => ofValue e (.error (.unsupported c.clause (.function name)))

def listValue (items : List Lowered) : Except Error Traversal := do
  return [.union (← items.mapM Lowered.value), .fold]

def mapValue (keys : List String) (entries : List Lowered) : Except Error Traversal := do
  return .project keys :: (← entries.mapM fun e => return .by (← e.value))

def branches (c : LoweringContext) (operand : Option Lowered) (otherwise : Except Error Traversal) :
    List (Lowered × Lowered) → Except Error Traversal
  | [] => otherwise
  | (w, t) :: rest => do
    let result ← branches c operand otherwise rest
    let test ← match operand with
      | some e => comparison c e .eq w
      | none => w.holds
    match test with
    | .always => t.value
    | .never => return result
    | .test filter => return [.choose filter (← t.value) result]

def ofComparison (c : LoweringContext) (e : Expr) (l : Lowered) (cmp : Comparison) (r : Lowered) :
    Lowered :=
  { ofConditions e (comparison c l cmp r) (comparison c l cmp.negate r) with
    lower? := halfRange c .le l cmp r
    upper? := halfRange c .gt l cmp r }

def ofBinary (c : LoweringContext) (l : Lowered) (op : BinaryOp) (r : Lowered) : Lowered :=
  let e : Expr := .binary l.expr op r.expr
  match op with
  | .compare cmp => ofComparison c e l cmp r
  | .and =>
    ofConditions e (conjunction c l r) do return .any [← l.fails, ← r.fails]
  | .or =>
    ofConditions e (do return .any [← l.holds, ← r.holds]) (do return .all [← l.fails, ← r.fails])
  | .xor => ofConditions e (exclusive l r false) (exclusive l r true)
  | .text m => ofConditions e (textMatch c l m r false) (textMatch c l m r true)
  | .member => ofConditions e (member c l r false) (member c l r true)
  | .arith _ => ofValue e (orConstant e (.error (.unsupported c.clause (.arithmetic e.text))))

def ofUnary (c : LoweringContext) (op : UnaryOp) (x : Lowered) : Lowered :=
  let e : Expr := .unary op x.expr
  match op with
  | .not => ofConditions e x.fails x.holds
  | .isNull => ofConditions e (nullTest c x true) (nullTest c x false)
  | .isNotNull => ofConditions e (nullTest c x false) (nullTest c x true)
  | .negate => ofValue e (orConstant e (.error (.unsupported c.clause (.arithmetic e.text))))

end Lowered

/-! ### Lowering -/

namespace Expr

mutual

def lower (c : LoweringContext) : Expr → Lowered
  | literal s => .ofLiteral s
  | var name => .ofVariable c name
  | param name => .ofParameter c name
  | access base key => .ofValue (access base key) (Lowered.access c (lower c base) key)
  | binary l op r => .ofBinary c (lower c l) op (lower c r)
  | unary op x => .ofUnary c op (lower c x)
  | call name args distinct => .ofCall c (call name args distinct) name (lowerAll c args)
  | list items =>
    .ofValue (list items)
      (Lowered.orConstant (list items) (Lowered.listValue (lowerAll c items)))
  | map entries =>
    .ofValue (map entries)
      (Lowered.orConstant (map entries)
        (Lowered.mapValue (entries.map Prod.fst) (lowerEntries c entries)))
  | caseOf operand whens otherwise =>
    .ofValue (caseOf operand whens otherwise)
      (Lowered.branches c (lowerOption c operand)
        (((lowerOption c otherwise).map Lowered.value).getD (.ok (constantValue .null)))
        (lowerWhens c whens))
  | pattern p => .ofValue (pattern p) (.error (.unsupported c.clause .patternExpression))
  | comprehension v s f r =>
    .ofValue (comprehension v s f r) (.error (.unsupported c.clause .comprehension))
  | star => .ofValue star (.error (.unsupported c.clause .star))

def lowerAll (c : LoweringContext) : List Expr → List Lowered
  | [] => []
  | e :: es => lower c e :: lowerAll c es

def lowerEntries (c : LoweringContext) : List (String × Expr) → List Lowered
  | [] => []
  | (_, e) :: es => lower c e :: lowerEntries c es

def lowerOption (c : LoweringContext) : Option Expr → Option Lowered
  | none => none
  | some e => some (lower c e)

def lowerWhens (c : LoweringContext) : List (Expr × Expr) → List (Lowered × Lowered)
  | [] => []
  | (w, t) :: rest => (lower c w, lower c t) :: lowerWhens c rest

end

end Expr
end CypherTraversal
