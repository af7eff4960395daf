import CypherTraversal.Query.Syntax

/-! # Traversals

A traversal is a list of steps. Each step turns a stream of traversers into another one; some
steps hold traversals of their own. Modulators (`by`, `byOrder`, `fromLabel`, `toLabel`) are steps
that belong to the step before them. -/

namespace CypherTraversal

inductive Operand where
  | value (v : Value)
  | parameter (name : String)
  | label (name : String)
deriving Repr, Inhabited

inductive Predicate where
  | compare (c : Comparison) (o : Operand)
  | between (low high : Operand)
  | within (o : Operand)
  | without (o : Operand)
  | text (m : TextMatch) (o : Operand)
deriving Repr, Inhabited

inductive Bound where
  | literal (n : Int)
  | parameter (name : String)
deriving DecidableEq, Repr, Inhabited

inductive Column where
  | keys | values
deriving DecidableEq, Repr, Inhabited

inductive SortOrder where
  | asc | desc
deriving DecidableEq, Repr, Inhabited

inductive Endpoint where
  | target | source | other
deriving DecidableEq, Repr, Inhabited

inductive Reduction where
  | count | sum | min | max | mean
deriving DecidableEq, Repr, Inhabited

inductive Step where
  | vertices
  | inject (values : List Value)
  | hasLabel (labels : List String)
  | has (key : String)
  | hasPredicate (key : String) (p : Predicate)
  | hasNot (key : String)
  | is (p : Predicate)
  | filter (t : List Step)
  | wherePredicate (p : Predicate)
  | not (t : List Step)
  | and (ts : List (List Step))
  | or (ts : List (List Step))
  | edges (direction : Direction) (labels : List String)
  | endpoint (e : Endpoint)
  | mark (label : String)
  | select (label : String)
  | selectColumn (column : Column)
  | values (key : String)
  | properties (key : String)
  | value
  | id
  | label
  | constant (o : Operand)
  | project (keys : List String)
  | by (t : List Step)
  | byOrder (t : List Step) (order : SortOrder)
  | unfold
  | fold
  | reduce (r : Reduction)
  | dedup
  | group
  | order
  | skip (n : Bound)
  | limit (n : Bound)
  | range (low high : Bound)
  | union (ts : List (List Step))
  | choose (test yes no : List Step)
  | coalesce (ts : List (List Step))
  | flatMap (t : List Step)
  | identity
  | barrier
  | addVertex (label : Option String)
  | addEdge (label : String)
  | fromLabel (label : String)
  | toLabel (label : String)
  | property (key : String) (t : List Step)
deriving Repr, Inhabited

abbrev Traversal := List Step

/-! ### Parts -/

def Predicate.operands : Predicate → List Operand
  | compare _ o => [o]
  | between low high => [low, high]
  | within o => [o]
  | without o => [o]
  | text _ o => [o]

def Predicate.matchesText : Predicate → Bool
  | text .. => true
  | _ => false

namespace Step

def predicate? : Step → Option Predicate
  | hasPredicate _ p => some p
  | is p => some p
  | wherePredicate p => some p
  | _ => none

mutual

def visit : Step → List Step
  | .filter t => .filter t :: visitAll t
  | .not t => .not t :: visitAll t
  | .by t => .by t :: visitAll t
  | .byOrder t o => .byOrder t o :: visitAll t
  | .flatMap t => .flatMap t :: visitAll t
  | .property k t => .property k t :: visitAll t
  | .and ts => .and ts :: visitEach ts
  | .or ts => .or ts :: visitEach ts
  | .union ts => .union ts :: visitEach ts
  | .coalesce ts => .coalesce ts :: visitEach ts
  | .choose c y n => .choose c y n :: (visitAll c ++ visitAll y ++ visitAll n)
  | s => [s]

def visitAll : List Step → List Step
  | [] => []
  | s :: ss => visit s ++ visitAll ss

def visitEach : List (List Step) → List Step
  | [] => []
  | t :: ts => visitAll t ++ visitEach ts

end

end Step

def Operand.parameters : Operand → List String
  | parameter name => [name]
  | _ => []

def Bound.parameters : Bound → List String
  | parameter name => [name]
  | literal _ => []

def Step.parameters (s : Step) : List String :=
  match s with
  | .constant o => o.parameters
  | .skip n => n.parameters
  | .limit n => n.parameters
  | .range low high => low.parameters ++ high.parameters
  | s => (s.predicate?.map Predicate.operands).getD [] |>.flatMap Operand.parameters

end CypherTraversal
