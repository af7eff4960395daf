import CypherTraversal.Value.Basic

/-! # JSON documents

A document keeps the fields of an object as they were written, repeated ones included, and tells
integers from other numbers. As a value, an object keeps the last of its repeated fields, and an
integer outside the 64-bit range becomes a floating point number. -/

namespace CypherTraversal

inductive Json where
  | null
  | bool (b : Bool)
  | int (n : Int)
  | float (x : Binary64)
  | str (s : String)
  | array (items : List Json)
  | object (fields : List (String × Json))
deriving Repr, Inhabited

namespace Json

mutual

def toValue : Json → Value
  | null => .null
  | bool b => .bool b
  | int n => if Scalar.fits n then .int n else .float (.ofInt n)
  | float x => .float x
  | str s => .str s
  | array items => .list (itemValues items)
  | object fields => .map (Entries.ofList (fieldValues fields))

def itemValues : List Json → List Value
  | [] => []
  | x :: xs => toValue x :: itemValues xs

def fieldValues : List (String × Json) → List (String × Value)
  | [] => []
  | (k, x) :: xs => (k, toValue x) :: fieldValues xs

end

def ofScalar : Scalar → Json
  | .null => null
  | .bool b => bool b
  | .int n => int n
  | .float x => if x.isFinite then float x else null
  | .str s => str s

mutual

def ofValue : Value → Json
  | .scalar s => ofScalar s
  | .list items => array (ofItems items)
  | .map entries => object (ofEntries entries)

def ofItems : List Value → List Json
  | [] => []
  | x :: xs => ofValue x :: ofItems xs

def ofEntries : List (String × Value) → List (String × Json)
  | [] => []
  | (k, x) :: xs => (k, ofValue x) :: ofEntries xs

end

def field? (name : String) : Json → Option Json
  | object fields => (fields.reverse.find? fun p => p.1 == name).map Prod.snd
  | _ => none

end Json
end CypherTraversal
