import CypherTraversal.Traversal.Step

/-! # Restricted traversals

Some servers accept a part of the step library only. `Traversal.restrict` writes a traversal with
what they accept: property values are read through properties, and skipping is a range without an
end. It refuses text matches, maps as literals, skipping by a parameter, and groups that are not
keyed by a projection or a selection with folded rows. -/

namespace CypherTraversal

def restrictedFlavor : String := "cosmosdb"

def notRestricted (construct : String) : Error :=
  .notInFlavor construct restrictedFlavor

def Operand.checkRestricted : Operand → Except Error Unit
  | value v => if v.holdsMap then .error (notRestricted "map literal") else .ok ()
  | _ => .ok ()

def Predicate.checkRestricted (p : Predicate) : Except Error Unit :=
  match p with
  | .text .startsWith _ => .error (notRestricted "STARTS WITH")
  | .text .endsWith _ => .error (notRestricted "ENDS WITH")
  | .text .contains _ => .error (notRestricted "CONTAINS")
  | p => p.operands.forM Operand.checkRestricted

/-- The modulator that a group waits for. -/
inductive GroupPlace where
  | outside | key | rows
deriving DecidableEq, Repr

def isGroupKey : Traversal → Bool
  | .project _ :: _ => true
  | .select _ :: _ => true
  | _ => false

def isGroupRows : Traversal → Bool
  | [.fold] => true
  | _ => false

def GroupPlace.next (place : GroupPlace) (s : Step) : Except Error GroupPlace :=
  match s, place with
  | .group, _ => .ok .key
  | .by t, .key => if isGroupKey t then .ok .rows else .error (notRestricted "group() modulator")
  | .by t, .rows =>
    if isGroupRows t then .ok .outside else .error (notRestricted "group() modulator")
  | _, _ => .ok .outside

namespace Step

def checkRestricted (s : Step) : Except Error Unit :=
  match s.predicate? with
  | some p => p.checkRestricted
  | none => .ok ()

mutual

def restrict : Step → Except Error (List Step)
  | values key => .ok [properties key, value]
  | skip (.literal n) => .ok [range (.literal n) (.literal (-1))]
  | skip (.parameter _) => .error (notRestricted "SKIP with a parameter")
  | constant o => do
    o.checkRestricted
    return [constant o]
  | inject vs =>
    if vs.any Value.holdsMap then .error (notRestricted "map literal") else .ok [inject vs]
  | .filter t => do return [.filter (← restrictFrom .outside t)]
  | .not t => do return [.not (← restrictFrom .outside t)]
  | .and ts => do return [.and (← restrictEach ts)]
  | .or ts => do return [.or (← restrictEach ts)]
  | .by t => do return [.by (← restrictFrom .outside t)]
  | byOrder t o => do return [byOrder (← restrictFrom .outside t) o]
  | union ts => do return [union (← restrictEach ts)]
  | coalesce ts => do return [coalesce (← restrictEach ts)]
  | choose c y n => do
    let c ← restrictFrom .outside c
    let y ← restrictFrom .outside y
    let n ← restrictFrom .outside n
    return [choose c y n]
  | flatMap t => do return [flatMap (← restrictFrom .outside t)]
  | property key t => do return [property key (← restrictFrom .outside t)]
  | s => .ok [s]

def restrictFrom : GroupPlace → List Step → Except Error (List Step)
  | _, [] => .ok []
  | place, s :: ss => do
    s.checkRestricted
    let place ← place.next s
    let first ← restrict s
    let rest ← restrictFrom place ss
    return first ++ rest

def restrictEach : List (List Step) → Except Error (List (List Step))
  | [] => .ok []
  | t :: ts => do
    let first ← restrictFrom .outside t
    let rest ← restrictEach ts
    return first :: rest

end

end Step

def Traversal.restrict (t : Traversal) : Except Error Traversal :=
  Step.restrictFrom .outside t

end CypherTraversal
