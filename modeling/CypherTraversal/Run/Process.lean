import CypherTraversal.Run.Object

/-! # Processes

A traverser is at an object and remembers the objects that were labelled on its way. A process
turns a stream of traversers into another one; it may change the graph, and it may fail. What was
changed before a failure stays changed. -/

namespace CypherTraversal

/-- A row: an object, labels and, at an edge, the vertex it was entered from. -/
structure Traverser where
  object : Object
  path : List (String × Object) := []
  origin : Option VertexId := none
deriving Repr, Inhabited

namespace Traverser

def moveTo (t : Traverser) (x : Object) : Traverser :=
  { t with object := x }

def labelled? (t : Traverser) (label : String) : Option Object :=
  t.path.lookup label

def mark (t : Traverser) (label : String) : Traverser :=
  { t with path := (label, t.object) :: t.path }

end Traverser

/-- A computation on a graph; what it changed stays, also if it fails. -/
abbrev Run := ExceptT Error (StateM Graph)

namespace Run

def graph : Run Graph :=
  ExceptT.lift get

def setGraph (g : Graph) : Run Unit :=
  ExceptT.lift (set g)

def ofExcept (x : Except Error α) : Run α :=
  ExceptT.mk (pure x)

end Run

/-- What a step does with a stream of rows. -/
abbrev Process := List Traverser → Run (List Traverser)

namespace Process

def eachRow (f : Traverser → Run (List Traverser)) : Process
  | [] => return []
  | t :: ts => do
    let first ← f t
    let rest ← eachRow f ts
    return first ++ rest

def keep (test : Traverser → Run Bool) : Process :=
  eachRow fun t => return if ← test t then [t] else []

def move (f : Traverser → Run (Option Object)) : Process :=
  eachRow fun t => return ((← f t).map t.moveTo).toList

def collect (f : List Object → Except Error (List Object)) : Process := fun ts => do
  let objects ← Run.ofExcept (f (ts.map Traverser.object))
  return objects.map fun x => { object := x }

def on (p : Process) (t : Traverser) : Run (List Traverser) :=
  p [t]

def leads (p : Process) (t : Traverser) : Run Bool :=
  return !(← p.on t).isEmpty

def firstOrNull (p : Process) (ts : List Traverser) : Run Object :=
  return ((← p ts).head?.map Traverser.object).getD .null

def andThen (p q : Process) : Process := fun ts => do
  q (← p ts)

end Process
end CypherTraversal
