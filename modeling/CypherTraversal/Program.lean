import CypherTraversal.Flavor
import CypherTraversal.Query.Parser
import CypherTraversal.Traversal.OfQuery
import CypherTraversal.Traversal.Script

/-! # Programs

What a query becomes in a flavor, with the parameters it was made for. Script text names
parameters and columns, so neither may use a word that scripts reserve. -/

namespace CypherTraversal

inductive ProgramBody where
  | script (text : String)
  | native (t : Traversal)
  | compatible (text : String) (t : Traversal)
deriving Repr, Inhabited

structure Program where
  body : ProgramBody
  parameters : Parameters
  columns : List String
deriving Repr, Inhabited

namespace Program

def text? (p : Program) : Option String :=
  match p.body with
  | .script text => some text
  | .native _ => none
  | .compatible text _ => some text

def traversal? (p : Program) : Option Traversal :=
  match p.body with
  | .script _ => none
  | .native t => some t
  | .compatible _ t => some t

def display (p : Program) : String :=
  match p.body with
  | .script text => text
  | .native t => t.script
  | .compatible text _ => text

end Program

def checkReserved (flavor : Flavor) (kind : IdentifierKind) (names : List String) :
    Except Error Unit :=
  match names.find? isReserved with
  | some name => .error (.reserved kind name flavor.name)
  | none => .ok ()

namespace LoweredQuery

def checkNames (q : LoweredQuery) (flavor : Flavor) (parameters : Parameters) :
    Except Error Unit := do
  checkReserved flavor .parameter (q.traversal.parameters ++ parameters.keys)
  checkReserved flavor .projection q.projected

def emit (q : LoweredQuery) (flavor : Flavor) (parameters : Parameters) :
    Except Error Program := do
  let program (body : ProgramBody) : Program := { body, parameters, columns := q.columns }
  match flavor with
  | .native => return program (.native q.traversal)
  | .gremlin =>
    q.checkNames flavor parameters
    return program (.script q.traversal.script)
  | .cosmosdb =>
    q.checkNames flavor parameters
    let t ← q.traversal.restrict
    return program (.compatible t.script t)

end LoweredQuery

def Query.compile (q : Query) (flavor : Flavor) (parameters : Parameters) :
    Except Error Program := do
  (← (← q.resolve).lower parameters).emit flavor parameters

def compile (flavor : Flavor) (text : String) (parameters : Parameters) :
    Except Error Program := do
  (← Query.parse text).compile flavor parameters

end CypherTraversal
