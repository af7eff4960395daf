import CypherTraversal.Query.Constant
import CypherTraversal.Query.Text
import CypherTraversal.Resolved.Basic

/-! # Checking expressions

An expression can be used in a clause when its variables are in scope and it uses only what has a
traversal. Errors name the clause; of several faults the first from the left is reported. -/

namespace CypherTraversal

inductive ScalarFunction where
  | existence | id | type | labels | coalesce
deriving DecidableEq, Repr, Inhabited

namespace ScalarFunction

def names : List (String × ScalarFunction) :=
  [("exists", .existence), ("id", .id), ("type", .type), ("labels", .labels),
    ("coalesce", .coalesce)]

def ofName? (name : String) : Option ScalarFunction :=
  names.lookup (Text.lowerAscii name)

def takes : ScalarFunction → Nat → Bool
  | coalesce, n => 1 ≤ n
  | _, n => n = 1

end ScalarFunction

namespace Expr

def checkCall (clause name : String) (args : List Expr) (distinct : Bool) : Except Error Unit :=
  if (AggregateFunction.ofName? name).isSome then
    .error (.unsupported clause (.nestedAggregate (text (.call name args distinct))))
  else
    match ScalarFunction.ofName? name with
    | none => .error (.unsupported clause (.function name))
    | some f =>
      if !f.takes args.length then .error (.invalid (.argumentCount name))
      else
        match f, args with
        | .existence, access _ _ :: _ => .ok ()
        | .existence, e :: _ => .error (.unsupported clause (.existsOf e.text))
        | _, _ => .ok ()

mutual

def check (scope : Scope) (clause : String) : Expr → Except Error Unit
  | literal _ => .ok ()
  | param _ => .ok ()
  | var name => if scope.has name then .ok () else .error (.unbound name clause)
  | access base _ => check scope clause base
  | binary l op r => do
    match op, constant? (binary l op r) with
    | .arith _, none => throw (.unsupported clause (.arithmetic (text (binary l op r))))
    | _, _ => pure ()
    check scope clause l
    check scope clause r
  | unary op e => do
    match op, constant? (unary op e) with
    | .negate, none => throw (.unsupported clause (.arithmetic (text (unary op e))))
    | _, _ => pure ()
    check scope clause e
  | call name args distinct => do
    checkCall clause name args distinct
    checkAll scope clause args
  | list items => checkAll scope clause items
  | map entries => checkEntries scope clause entries
  | caseOf operand whens otherwise => do
    checkOption scope clause operand
    checkWhens scope clause whens
    checkOption scope clause otherwise
  | pattern _ => .error (.unsupported clause .patternExpression)
  | comprehension .. => .error (.unsupported clause .comprehension)
  | star => .error (.unsupported clause .star)

def checkAll (scope : Scope) (clause : String) : List Expr → Except Error Unit
  | [] => .ok ()
  | e :: es => do
    check scope clause e
    checkAll scope clause es

def checkEntries (scope : Scope) (clause : String) : List (String × Expr) → Except Error Unit
  | [] => .ok ()
  | (_, e) :: es => do
    check scope clause e
    checkEntries scope clause es

def checkOption (scope : Scope) (clause : String) : Option Expr → Except Error Unit
  | none => .ok ()
  | some e => check scope clause e

def checkWhens (scope : Scope) (clause : String) : List (Expr × Expr) → Except Error Unit
  | [] => .ok ()
  | (w, t) :: rest => do
    check scope clause w
    check scope clause t
    checkWhens scope clause rest

end

/-! ### Parameters -/

mutual

def parameters : Expr → List String
  | param name => [name]
  | access base _ => parameters base
  | binary l _ r => parameters l ++ parameters r
  | unary _ e => parameters e
  | call _ args _ => allParameters args
  | list items => allParameters items
  | map entries => entryParameters entries
  | caseOf operand whens otherwise =>
    optionParameters operand ++ whenParameters whens ++ optionParameters otherwise
  | literal _ | var _ | star | pattern _ | comprehension .. => []

def allParameters : List Expr → List String
  | [] => []
  | e :: es => parameters e ++ allParameters es

def entryParameters : List (String × Expr) → List String
  | [] => []
  | (_, e) :: es => parameters e ++ entryParameters es

def optionParameters : Option Expr → List String
  | none => []
  | some e => parameters e

def whenParameters : List (Expr × Expr) → List String
  | [] => []
  | (w, t) :: rest => parameters w ++ parameters t ++ whenParameters rest

end

/-! ### Kinds -/

def kindIn (scope : Scope) : Expr → Kind
  | var name => (scope.kind? name).getD .value
  | literal _ => .scalar
  | param _ => .value
  | access (var name) _ => if scope.isElement name then .scalar else .value
  | access _ _ => .value
  | list _ => .list
  | map _ => .map
  | call name _ _ =>
    match ScalarFunction.ofName? name with
    | some .labels => .list
    | some .coalesce => .value
    | _ => .scalar
  | binary l op r => constantKind (constant? (binary l op r))
  | unary op e => constantKind (constant? (unary op e))
  | caseOf .. | pattern _ | comprehension .. | star => .value
where
  constantKind : Option Value → Kind
    | some (.list _) => .list
    | some (.map _) => .map
    | _ => .scalar

end Expr
end CypherTraversal
