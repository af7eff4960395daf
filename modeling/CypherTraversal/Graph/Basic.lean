import CypherTraversal.Error
import CypherTraversal.Text.Quoted
import CypherTraversal.Value.Basic

/-! # Property graphs

Vertices and directed edges with a label and properties, both kept in the order in which they
were added. Identifiers count up from one, separately for vertices and edges, modulo 2 ^ 64. A
property is never null: setting null removes it. -/

namespace CypherTraversal

/-! ### Identifiers -/

structure VertexId where
  index : Nat
deriving DecidableEq, Repr, Inhabited

structure EdgeId where
  index : Nat
deriving DecidableEq, Repr, Inhabited

def VertexId.inspect (v : VertexId) : String := s!"VertexId({v.index})"

def EdgeId.inspect (e : EdgeId) : String := s!"EdgeId({e.index})"

/-- The identifiers that are given out next. -/
structure IdSource where
  vertex : Nat := 1
  edge : Nat := 1
deriving DecidableEq, Repr, Inhabited

namespace IdSource

def span : Nat := 0x10000000000000000

def takeVertex (s : IdSource) : VertexId × IdSource :=
  (⟨s.vertex⟩, ⟨(s.vertex + 1) % span, s.edge⟩)

def takeEdge (s : IdSource) : EdgeId × IdSource :=
  (⟨s.edge⟩, ⟨s.vertex, (s.edge + 1) % span⟩)

end IdSource

def signedIndex (index : Nat) : Int :=
  (index : Int).bmod IdSource.span

/-! ### Elements -/

inductive Direction where
  | outgoing
  | incoming
  | both
deriving DecidableEq, Repr, Inhabited

def Direction.reverse : Direction → Direction
  | outgoing => incoming
  | incoming => outgoing
  | both => both

def setProperty (key : String) (value : Value) (properties : Entries Value) : Entries Value :=
  if value.isNull then properties.erase key else properties.insert key value

def propertiesOf (pairs : List (String × Value)) : Entries Value :=
  pairs.foldl (fun properties p => setProperty p.1 p.2 properties) []

structure Vertex where
  id : VertexId
  label : String
  properties : Entries Value
deriving Repr, Inhabited

structure Edge where
  id : EdgeId
  label : String
  source : VertexId
  target : VertexId
  properties : Entries Value
deriving Repr, Inhabited

def Edge.other? (e : Edge) (v : VertexId) : Option VertexId :=
  if e.source = v then some e.target else if e.target = v then some e.source else none

def Edge.touches (e : Edge) (v : VertexId) : Direction → Bool
  | .outgoing => e.source = v
  | .incoming => e.target = v
  | .both => e.source = v || e.target = v

/-! ### Graphs -/

structure Graph where
  name : String
  ids : IdSource := {}
  vertices : List Vertex := []
  edges : List Edge := []
deriving Repr, Inhabited

namespace Graph

def empty (name : String) : Graph := { name }

def inspect (g : Graph) : String :=
  "Graph \x7b name: " ++ Text.inspect g.name ++ " \x7d"

def vertex? (g : Graph) (id : VertexId) : Option Vertex :=
  g.vertices.find? fun v => v.id = id

def edge? (g : Graph) (id : EdgeId) : Option Edge :=
  g.edges.find? fun e => e.id = id

def withLabel (g : Graph) (label : String) : List Vertex :=
  g.vertices.filter fun v => v.label = label

def incident (g : Graph) (v : VertexId) (direction : Direction) (labels : List String) :
    List Edge :=
  g.edges.filter fun e => (labels.isEmpty || labels.contains e.label) && e.touches v direction

def addVertex (g : Graph) (label : String) (properties : Entries Value) : Vertex × Graph :=
  let (id, ids) := g.ids.takeVertex
  let vertex : Vertex := { id, label, properties }
  (vertex, { g with ids, vertices := g.vertices ++ [vertex] })

def connect (g : Graph) (label : String) (source target : VertexId) (properties : Entries Value) :
    Edge × Graph :=
  let (id, ids) := g.ids.takeEdge
  let edge : Edge := { id, label, source, target, properties }
  (edge, { g with ids, edges := g.edges ++ [edge] })

def addEdge (g : Graph) (label : String) (source target : VertexId) (properties : Entries Value) :
    Except Error (Edge × Graph) :=
  if (g.vertex? source).isNone then .error (.notFound source.inspect)
  else if (g.vertex? target).isNone then .error (.notFound target.inspect)
  else .ok (g.connect label source target properties)

/-- Changes the first element that has the identifier. -/
def update {α ι : Type} [DecidableEq ι] (key : α → ι) (id : ι) (f : α → α) : List α → List α
  | [] => []
  | a :: as => if key a = id then f a :: as else a :: update key id f as

def setVertexProperty (g : Graph) (id : VertexId) (key : String) (value : Value) :
    Except Error Graph :=
  if (g.vertex? id).isNone then .error (.notFound id.inspect)
  else
    let set (v : Vertex) : Vertex := { v with properties := setProperty key value v.properties }
    .ok { g with vertices := update Vertex.id id set g.vertices }

def setEdgeProperty (g : Graph) (id : EdgeId) (key : String) (value : Value) :
    Except Error Graph :=
  if (g.edge? id).isNone then .error (.notFound id.inspect)
  else
    let set (e : Edge) : Edge := { e with properties := setProperty key value e.properties }
    .ok { g with edges := update Edge.id id set g.edges }

end Graph
end CypherTraversal
