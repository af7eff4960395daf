import CypherTraversal.Text.Blank
import CypherTraversal.Text.Name
import CypherTraversal.Traversal.Restricted

/-! # Flavors

The forms in which a traversal can be handed out: script text, the traversal itself, or script
text in the restricted step library. -/

namespace CypherTraversal

/-- The kind of endpoint that a program is written for. -/
inductive Flavor where
  | gremlin
  | native
  | cosmosdb
deriving DecidableEq, Repr, Inhabited

namespace Flavor

def name : Flavor → String
  | gremlin => "gremlin"
  | native => "native"
  | cosmosdb => restrictedFlavor

def all : List Flavor :=
  [gremlin, native, cosmosdb]

def default : Flavor := gremlin

def supportedNames : String :=
  ", ".intercalate (all.map name)

def ofName (s : String) : Except Error Flavor :=
  match all.find? fun f => Text.sameIgnoringCase f.name (Text.trimBlank s) with
  | some f => .ok f
  | none => .error (.unknownFlavor s supportedNames)

end Flavor
end CypherTraversal
