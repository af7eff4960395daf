import CypherTraversal.Run.Object

/-! # Objects as values

An element becomes a map of its properties with its kind, identifier and label, and an edge also
names its ends. An entry becomes a map of its key and its value, and groups a list of such maps. -/

namespace CypherTraversal

def Vertex.toValue (v : Vertex) : Value :=
  .map (v.properties
    |>.insert "_type" (.str "node")
    |>.insert "_id" (.int (signedIndex v.id.index))
    |>.insert "_label" (.str v.label))

def Edge.toValue (e : Edge) : Value :=
  .map (e.properties
    |>.insert "_type" (.str "relationship")
    |>.insert "_id" (.int (signedIndex e.id.index))
    |>.insert "_label" (.str e.label)
    |>.insert "_outV" (.int (signedIndex e.source.index))
    |>.insert "_inV" (.int (signedIndex e.target.index)))

def entryValue (key value : Value) : Value :=
  .map [("key", key), ("value", value)]

namespace Object

mutual

def toValue (g : Graph) : Object → Except Error Value
  | scalar s => .ok (.scalar s)
  | vertex v =>
    match g.vertex? v with
    | some x => .ok x.toValue
    | none => .error (.notFound s!"vertex {v.index}")
  | edge e =>
    match g.edge? e with
    | some x => .ok x.toValue
    | none => .error (.notFound s!"edge {e.index}")
  | list items => do return .list (← toValues g items)
  | map entries => do return .map (← toEntries g entries)
  | entry k v => do return entryValue (← toValue g k) (← toValue g v)
  | groups gs => do return .list (← groupValues g gs)

def toValues (g : Graph) : List Object → Except Error (List Value)
  | [] => .ok []
  | x :: xs => do return (← toValue g x) :: (← toValues g xs)

def toEntries (g : Graph) : List (String × Object) → Except Error (List (String × Value))
  | [] => .ok []
  | (k, x) :: xs => do return (k, ← toValue g x) :: (← toEntries g xs)

def groupValues (g : Graph) : List (Object × Object) → Except Error (List Value)
  | [] => .ok []
  | (k, v) :: gs => do
    let key ← toValue g k
    let value ← toValue g v
    return entryValue key value :: (← groupValues g gs)

end

end Object
end CypherTraversal
