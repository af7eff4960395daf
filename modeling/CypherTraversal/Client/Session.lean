import CypherTraversal.Client.Settings
import CypherTraversal.Client.Table
import CypherTraversal.Graph.Sample
import CypherTraversal.Program
import CypherTraversal.Run.Traversal

/-! # Sessions

A session takes query texts one after another and runs them on one graph. What a query has
changed stays, also if the query fails later on. -/

namespace CypherTraversal

/-- What a client keeps between queries. -/
structure Session where
  flavor : Flavor
  strictParameters : Bool
  graph : Graph
deriving Repr

namespace Session

def ofSettings (s : Settings) : Except Error Session := do
  return {
    flavor := ← s.selected
    strictParameters := s.strictParameters
    graph := Graph.named s.graphName }

def checkSupplied (text : String) (ps : Parameters) : Except Error Unit := do
  match (← (← Query.parse text).resolve).parameters.find? fun name => !ps.has name with
  | some name => throw (.execution (.missingParameter name))
  | none => return

def prepare (s : Session) (text : String) (ps : Parameters) : Except Error Program := do
  checkParameterNames ps.keys
  if s.strictParameters then checkSupplied text ps
  compile s.flavor text ps

def submit (s : Session) (text : String) (ps : Parameters) : Except Error Table × Session :=
  match s.prepare text ps with
  | .error e => (.error e, s)
  | .ok p =>
    match p.traversal? with
    | none => (.error (.execution .scriptText), s)
    | some t =>
      let (values, graph) := t.execute p.parameters s.graph
      (values.map (Table.ofValues p.columns), { s with graph })

end Session
end CypherTraversal
