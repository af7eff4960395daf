import CypherTraversal.Traversal.Inspect
import CypherTraversal.Value.Order

/-! # Objects

What a traverser can be at: scalars, elements of the graph, lists and maps of objects, and the
groups of a stream with their entries. Objects compare as values do, and elements by identity. The
keys of a group may be any objects, so maps and groups are different things. -/

namespace CypherTraversal

inductive Object where
  | scalar (s : Scalar)
  | vertex (v : VertexId)
  | edge (e : EdgeId)
  | list (items : List Object)
  | map (entries : List (String × Object))
  | entry (key value : Object)
  | groups (gs : List (Object × Object))
deriving Repr, Inhabited

namespace Object

abbrev null : Object := .scalar .null
abbrev int (n : Int) : Object := .scalar (.int n)
abbrev float (x : Binary64) : Object := .scalar (.float x)
abbrev str (s : String) : Object := .scalar (.str s)

def isNull : Object → Bool
  | scalar s => s.isNull
  | _ => false

mutual

def ofValue : Value → Object
  | .scalar s => scalar s
  | .list items => list (ofItems items)
  | .map entries => map (ofEntries entries)

def ofItems : List Value → List Object
  | [] => []
  | v :: vs => ofValue v :: ofItems vs

def ofEntries : List (String × Value) → List (String × Object)
  | [] => []
  | (k, v) :: vs => (k, ofValue v) :: ofEntries vs

end

/-! ### Messages -/

mutual

def inspect : Object → String
  | scalar s => inspectCall "Value" [s.inspect]
  | vertex v => inspectCall "Vertex" [v.inspect]
  | edge e => inspectCall "Edge" [e.inspect]
  | list items => inspectCall "List" [inspectList (inspects items)]
  | map entries => inspectCall "Map" [inspectEntries (inspectPairs entries)]
  | entry k v => inspectCall "Entry" [inspect k, inspect v]
  | groups gs => inspectCall "Groups" [inspectList (inspectGroups gs)]

def inspects : List Object → List String
  | [] => []
  | x :: xs => inspect x :: inspects xs

def inspectPairs : List (String × Object) → List (String × String)
  | [] => []
  | (k, x) :: xs => (k, inspect x) :: inspectPairs xs

def inspectGroups : List (Object × Object) → List String
  | [] => []
  | (k, v) :: gs => inspectCall "" [inspect k, inspect v] :: inspectGroups gs

end

/-! ### Sameness -/

mutual

def same : Object → Object → Bool
  | scalar a, scalar b => a.same b
  | vertex a, vertex b => a == b
  | edge a, edge b => a == b
  | list xs, list ys => sameItems xs ys
  | map xs, map ys => sameEntries xs ys
  | entry k v, entry l w => same k l && same v w
  | groups gs, groups hs => sameGroups gs hs
  | _, _ => false
termination_by structural x => x

def sameItems : List Object → List Object → Bool
  | [], [] => true
  | x :: xs, y :: ys => same x y && sameItems xs ys
  | _, _ => false
termination_by structural x => x

def sameEntries : List (String × Object) → List (String × Object) → Bool
  | [], [] => true
  | (k, x) :: xs, (l, y) :: ys => k == l && same x y && sameEntries xs ys
  | _, _ => false
termination_by structural x => x

def sameGroups : List (Object × Object) → List (Object × Object) → Bool
  | [], [] => true
  | (k, v) :: gs, (l, w) :: hs => same k l && same v w && sameGroups gs hs
  | _, _ => false
termination_by structural x => x

end

instance : BEq Object := ⟨same⟩

/-! ### Comparison -/

mutual

def eq? : Object → Object → Option Bool
  | scalar a, scalar b => a.eq? b
  | scalar .null, _ => none
  | _, scalar .null => none
  | list xs, list ys => if xs.length = ys.length then eqItems? xs ys else some false
  | map xs, map ys => if xs.map Prod.fst = ys.map Prod.fst then eqEntries? xs ys else some false
  | a, b => some (a.same b)
termination_by structural x => x

def eqItems? : List Object → List Object → Option Bool
  | x :: xs, y :: ys => Truth.both (eq? x y) (eqItems? xs ys)
  | _, _ => some true
termination_by structural x => x

def eqEntries? : List (String × Object) → List (String × Object) → Option Bool
  | (_, x) :: xs, (_, y) :: ys => Truth.both (eq? x y) (eqEntries? xs ys)
  | _, _ => some true
termination_by structural x => x

end

mutual

def compare? : Object → Object → Option Ordering
  | scalar a, scalar b => a.compare? b
  | list xs, list ys => compareItems? xs ys
  | _, _ => none
termination_by structural x => x

def compareItems? : List Object → List Object → Option Ordering
  | [], [] => some .eq
  | [], _ :: _ => some .lt
  | _ :: _, [] => some .gt
  | x :: xs, y :: ys =>
    match compare? x y with
    | some .eq => compareItems? xs ys
    | other => other
termination_by structural x => x

end

def rank : Object → Nat
  | map _ | groups _ | entry .. => 0
  | vertex _ => 1
  | edge _ => 2
  | list _ => 3
  | scalar .null => 5
  | scalar _ => 4

mutual

def order : Object → Object → Ordering
  | scalar a, scalar b => a.order b
  | vertex a, vertex b => compare a.index b.index
  | edge a, edge b => compare a.index b.index
  | list xs, list ys => orderItems xs ys
  | a, b => compare a.rank b.rank
termination_by structural x => x

def orderItems : List Object → List Object → Ordering
  | [], [] => .eq
  | [], _ :: _ => .lt
  | _ :: _, [] => .gt
  | x :: xs, y :: ys => (order x y).then (orderItems xs ys)
termination_by structural x => x

end

end Object
end CypherTraversal
