import CypherTraversal.Traversal.Step

/-! # Conditions

What a condition of a query becomes: an answer known beforehand, or steps that let a traverser
pass. -/

namespace CypherTraversal

inductive Condition where
  | always
  | never
  | test (t : Traversal)
deriving Repr, Inhabited

namespace Condition

def allSteps : List Condition → Option Traversal
  | [] => some []
  | never :: _ => none
  | always :: cs => allSteps cs
  | test t :: cs => (allSteps cs).map (t ++ ·)

def all (cs : List Condition) : Condition :=
  match allSteps cs with
  | none => never
  | some [] => always
  | some t => test t

def anyTests : List Condition → Option (List Traversal)
  | [] => some []
  | always :: _ => none
  | never :: cs => anyTests cs
  | test t :: cs => (anyTests cs).map (t :: ·)

def any (cs : List Condition) : Condition :=
  match anyTests cs with
  | none => always
  | some [] => never
  | some [t] => test t
  | some ts => test [.or ts]

def filter : Condition → Traversal
  | always => []
  | never => [.not [.identity]]
  | test t => t

end Condition
end CypherTraversal
