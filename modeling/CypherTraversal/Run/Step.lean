import CypherTraversal.Run.Export
import CypherTraversal.Run.Predicate
import CypherTraversal.Sorting

/-! # Single steps

The processes of the steps, given the processes of the traversals inside them. -/

namespace CypherTraversal

/-! ### Elements -/

namespace Graph

def label? (g : Graph) : Object → Option String
  | .vertex v => (g.vertex? v).map Vertex.label
  | .edge e => (g.edge? e).map Edge.label
  | _ => none

def property? (g : Graph) (key : String) : Object → Option Value
  | .vertex v => (g.vertex? v).bind fun x => x.properties.find? key
  | .edge e => (g.edge? e).bind fun x => x.properties.find? key
  | _ => none

def endpoint? (g : Graph) (e : Endpoint) (t : Traverser) : Option VertexId :=
  match t.object with
  | .edge id => do
    let x ← g.edge? id
    match e with
    | .target => some x.target
    | .source => some x.source
    | .other => x.other? (← t.origin)
  | _ => none

def edgesFrom (g : Graph) (d : Direction) (labels : List String) (t : Traverser) :
    List Traverser :=
  match t.object with
  | .vertex v =>
    (g.incident v d labels).map fun e => { t with object := .edge e.id, origin := some v }
  | _ => []

end Graph

namespace Process

def keepIn (test : Graph → Object → Bool) : Process :=
  keep fun t => return test (← Run.graph) t.object

def moveIn (f : Graph → Traverser → Option Object) : Process :=
  move fun t => return f (← Run.graph) t

def vertices : Process :=
  eachRow fun t => do
    let g ← Run.graph
    return g.vertices.map fun v => t.moveTo (.vertex v.id)

def hasPredicate (parameters : Parameters) (key : String) (p : Predicate) : Process :=
  keep fun t => do
    match (← Run.graph).property? key t.object with
    | some v => Run.ofExcept (p.test parameters t (.ofValue v))
    | none => return false

def satisfies (parameters : Parameters) (p : Predicate) : Process :=
  keep fun t => Run.ofExcept (p.test parameters t t.object)

/-! ### Paths and maps -/

def select (label : String) : Process :=
  moveIn fun _ t =>
    match t.object with
    | .map entries => (Entries.find? label entries).or (t.labelled? label)
    | _ => t.labelled? label

def side (c : Column) (key value : Object) : Object :=
  match c with
  | .keys => key
  | .values => value

def sides? (c : Column) : Object → Option Object
  | .entry k v => some (side c k v)
  | .groups gs => some (.list (gs.map fun g => side c g.1 g.2))
  | .map entries => some (.list (entries.map fun e => side c (.str e.1) e.2))
  | _ => none

def parts : Object → List Object
  | .list items => items
  | .map entries => entries.map fun e => .entry (.str e.1) e.2
  | .groups gs => gs.map fun g => .entry g.1 g.2
  | .scalar .null => []
  | x => [x]

def unfold : Process :=
  eachRow fun t => return (parts t.object).map t.moveTo

def identifier? : Object → Option Object
  | .vertex v => some (.int (signedIndex v.index))
  | .edge e => some (.int (signedIndex e.index))
  | _ => none

/-! ### Reductions -/

def numbers (xs : List Object) : Except Error (List Scalar) :=
  (xs.filter fun x => !x.isNull).mapM fun x =>
    match x with
    | .scalar s => if s.isNumber then .ok s else .error (.execution (.notNumber x.inspect))
    | x => .error (.execution (.notNumber x.inspect))

def addNumbers (a b : Scalar) : Except Error Scalar :=
  match a, b with
  | .int m, .int n =>
    if Scalar.fits (m + n) then .ok (.int (m + n)) else .error (.execution .sumOverflow)
  | a, b =>
    .ok (.float ((a.toBinary64?.getD .zero).add (b.toBinary64?.getD .zero)))

def sum (xs : List Object) : Except Error (List Object) := do
  let ns ← numbers xs
  if ns.isEmpty then return []
  return [.scalar (← ns.foldlM addNumbers (.int 0))]

def mean (xs : List Object) : Except Error (List Object) := do
  let ns := (← numbers xs).filterMap Scalar.toBinary64?
  if ns.isEmpty then return []
  let total := ns.foldl Binary64.add Binary64.zero.neg
  return [.float (total.div (.ofInt ns.length))]

def least : List Object → Option Object
  | [] => none
  | x :: xs => some (xs.foldl (fun a b => if a.order b = .gt then b else a) x)

def greatest : List Object → Option Object
  | [] => none
  | x :: xs => some (xs.foldl (fun a b => if a.order b = .gt then a else b) x)

def reduce : Reduction → List Object → Except Error (List Object)
  | .count, xs => .ok [.int xs.length]
  | .sum, xs => sum xs
  | .mean, xs => mean xs
  | .min, xs => .ok (least xs).toList
  | .max, xs => .ok (greatest (xs.filter fun x => !x.isNull)).toList

def dedup (ts : List Traverser) : List Traverser :=
  let add (acc : List Object × List Traverser) (t : Traverser) : List Object × List Traverser :=
    if acc.1.any fun x => x == t.object then acc else (t.object :: acc.1, t :: acc.2)
  (ts.foldl add ([], [])).2.reverse

/-! ### Windows -/

def skip (parameters : Parameters) (n : Bound) : Process := fun ts => do
  return ts.drop (← Run.ofExcept (n.count parameters "SKIP"))

def limit (parameters : Parameters) (n : Bound) : Process := fun ts => do
  return ts.take (← Run.ofExcept (n.count parameters "LIMIT"))

def range (parameters : Parameters) (low high : Bound) : Process := fun ts => do
  let first ← Run.ofExcept (low.count parameters "range")
  let unbounded := match high with
    | .literal n => decide (n < 0)
    | .parameter _ => false
  if unbounded then return ts.drop first
  let last ← Run.ofExcept (high.count parameters "range")
  return (ts.drop first).take (last - first)

/-! ### Branches -/

def allLead (t : Traverser) : List Process → Run Bool
  | [] => return true
  | p :: ps => do if ← p.leads t then allLead t ps else return false

def someLeads (t : Traverser) : List Process → Run Bool
  | [] => return false
  | p :: ps => do if ← p.leads t then return true else someLeads t ps

def union (t : Traverser) : List Process → Run (List Traverser)
  | [] => return []
  | p :: ps => do
    let first ← p.on t
    let rest ← union t ps
    return first ++ rest

def coalesce (t : Traverser) : List Process → Run (List Traverser)
  | [] => return []
  | p :: ps => do
    let ts ← p.on t
    if ts.isEmpty then coalesce t ps else return ts

def choose (test yes no : Process) : Process :=
  eachRow fun t => do if ← test.leads t then yes.on t else no.on t

end Process

/-! ### Modulated steps -/

inductive Modulator where
  | by (p : Process)
  | byOrder (p : Process) (order : SortOrder)
  | fromLabel (label : String)
  | toLabel (label : String)

namespace Modulator

def process? : Modulator → Option Process
  | .by p => some p
  | byOrder p _ => some p
  | _ => none

def sortKey? : Modulator → Option (Process × SortOrder)
  | .by p => some (p, .asc)
  | byOrder p o => some (p, o)
  | _ => none

end Modulator

namespace Process

def keyObject (p : Option Process) (t : Traverser) : Run Object :=
  match p with
  | some p => p.firstOrNull [t]
  | none => return t.object

def projectFrom (ps : List Process) (t : Traverser) :
    Nat → List String → Run (List (String × Object))
  | _, [] => return []
  | i, key :: keys => do
    let x ← keyObject (ps[i % ps.length]?) t
    return (key, x) :: (← projectFrom ps t (i + 1) keys)

def project (keys : List String) (ms : List Modulator) : Process :=
  let ps := ms.filterMap Modulator.process?
  move fun t => return some (.map (Entries.ofList (← projectFrom ps t 0 keys)))

def addToGroup (key : Object) (t : Traverser) :
    List (Object × List Traverser) → List (Object × List Traverser)
  | [] => [(key, [t])]
  | (k, members) :: gs =>
    if k == key then (k, members ++ [t]) :: gs else (k, members) :: addToGroup key t gs

def groupMembers (key : Option Process) :
    List Traverser → List (Object × List Traverser) → Run (List (Object × List Traverser))
  | [], gs => return gs
  | t :: ts, gs => do groupMembers key ts (addToGroup (← keyObject key t) t gs)

def groupObject (p : Option Process) (members : List Traverser) : Run Object :=
  match p with
  | some p => p.firstOrNull members
  | none => return .list (members.map Traverser.object)

def groupObjects (p : Option Process) :
    List (Object × List Traverser) → Run (List (Object × Object))
  | [] => return []
  | (key, members) :: gs => do
    let x ← groupObject p members
    return (key, x) :: (← groupObjects p gs)

def group (ms : List Modulator) : Process := fun ts => do
  let ps := ms.filterMap Modulator.process?
  let gs ← groupMembers ps.head? ts []
  return [{ object := .groups (← groupObjects ps[1]? gs) }]

def sortKeys (ms : List Modulator) : List (Option Process × SortOrder) :=
  if ms.isEmpty then [(none, .asc)]
  else (ms.filterMap Modulator.sortKey?).map fun k => (some k.1, k.2)

def keyObjects (t : Traverser) : List (Option Process × SortOrder) → Run (List (Object × SortOrder))
  | [] => return []
  | (p, o) :: ks => do
    let x ← keyObject p t
    return (x, o) :: (← keyObjects t ks)

def withKeys (ks : List (Option Process × SortOrder)) :
    List Traverser → Run (List (List (Object × SortOrder) × Traverser))
  | [] => return []
  | t :: ts => do
    let key ← keyObjects t ks
    return (key, t) :: (← withKeys ks ts)

def orderKeys : List (Object × SortOrder) → List (Object × SortOrder) → Ordering
  | (x, o) :: xs, (y, _) :: ys =>
    (match o with
      | .asc => x.order y
      | .desc => y.order x).then (orderKeys xs ys)
  | _, _ => .eq

def order (ms : List Modulator) : Process := fun ts => do
  let keyed ← withKeys (sortKeys ms) ts
  return (Sorting.sort (fun a b => orderKeys a.1 b.1) keyed).map Prod.snd

/-! ### Changes -/

def defaultLabel : String := "vertex"

def addVertex (label : Option String) : Process :=
  move fun _ => do
    let (v, g) := (← Run.graph).addVertex (label.getD defaultLabel) []
    Run.setGraph g
    return some (.vertex v.id)

def vertexOf (x : Object) : Except Error VertexId :=
  match x with
  | .vertex v => .ok v
  | x => .error (.execution (.notVertex x.inspect))

def sourceLabel? (ms : List Modulator) : Option String :=
  ms.foldl (fun found m => match m with
    | .fromLabel l => some l
    | _ => found) none

def targetLabel? (ms : List Modulator) : Option String :=
  ms.foldl (fun found m => match m with
    | .toLabel l => some l
    | _ => found) none

def endOf (t : Traverser) (label : Option String) : Except Error VertexId :=
  vertexOf ((label.bind t.labelled?).getD t.object)

def addEdge (label : String) (ms : List Modulator) : Process :=
  move fun t => do
    let source ← Run.ofExcept (endOf t (sourceLabel? ms))
    let target ← Run.ofExcept (endOf t (targetLabel? ms))
    let (e, g) ← Run.ofExcept ((← Run.graph).addEdge label source target [])
    Run.setGraph g
    return some (.edge e.id)

def setProperty (key : String) (p : Process) : Process :=
  eachRow fun t => do
    let value ← match (← p.on t).head? with
      | some u => Run.ofExcept (u.object.toValue (← Run.graph))
      | none => pure Value.null
    let g ← Run.graph
    match t.object with
    | .vertex v => Run.setGraph (← Run.ofExcept (g.setVertexProperty v key value))
    | .edge e => Run.setGraph (← Run.ofExcept (g.setEdgeProperty e key value))
    | _ => throw (.execution (.notElement key))
    return [t]

end Process
end CypherTraversal
