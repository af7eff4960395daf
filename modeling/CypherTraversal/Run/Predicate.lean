import CypherTraversal.Run.Process
import CypherTraversal.Traversal.Bound

/-! # Testing predicates

Equality with null holds of null alone; every other comparison with an unknown answer does not
hold. Operands are looked up only where the answer depends on them. -/

namespace CypherTraversal

def holdsStretch (p : List Char) : List Char → Bool
  | [] => p.isEmpty
  | c :: cs => p.isPrefixOf (c :: cs) || holdsStretch p cs

def TextMatch.holds (m : TextMatch) (s p : String) : Bool :=
  match m with
  | .startsWith => p.toList.isPrefixOf s.toList
  | .endsWith => p.toList.isSuffixOf s.toList
  | .contains => holdsStretch p.toList s.toList

def TextMatch.matches (m : TextMatch) : Object → Object → Bool
  | .scalar (.str s), .scalar (.str p) => m.holds s p
  | _, _ => false

def Comparison.holds (c : Comparison) (a b : Object) : Bool :=
  match c with
  | .eq => if b.isNull then a.isNull else a.eq? b == some true
  | .ne => if b.isNull then !a.isNull else a.eq? b == some false
  | .lt => a.compare? b == some .lt
  | .le => a.compare? b == some .lt || a.compare? b == some .eq
  | .gt => a.compare? b == some .gt
  | .ge => a.compare? b == some .gt || a.compare? b == some .eq

def Object.isMember (x : Object) : Object → Bool
  | .list items => items.any fun y => x.eq? y == some true
  | _ => false

def Parameters.value (parameters : Parameters) (name : String) : Except Error Value :=
  match Entries.find? name parameters with
  | some v => .ok v
  | none => .error (.execution (.missingParameter name))

def Operand.resolve (parameters : Parameters) (t : Traverser) : Operand → Except Error Object
  | value v => .ok (.ofValue v)
  | parameter name => do return .ofValue (← Parameters.value parameters name)
  | label name => .ok ((t.labelled? name).getD .null)

def Predicate.test (parameters : Parameters) (t : Traverser) (x : Object) :
    Predicate → Except Error Bool
  | compare c o => do return c.holds x (← o.resolve parameters t)
  | between low high => do
    if Comparison.ge.holds x (← low.resolve parameters t) then
      return Comparison.lt.holds x (← high.resolve parameters t)
    else
      return false
  | within o => do return x.isMember (← o.resolve parameters t)
  | without o => do
    if x.isNull then return false else return !x.isMember (← o.resolve parameters t)
  | text m o => do return m.matches x (← o.resolve parameters t)

def Bound.count (parameters : Parameters) (clause : String) : Bound → Except Error Nat
  | literal n => (Value.int n).rowCount clause
  | parameter name => do (← Parameters.value parameters name).rowCount clause

end CypherTraversal
