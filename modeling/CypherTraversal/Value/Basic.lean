import CypherTraversal.Entries
import CypherTraversal.Value.Scalar

/-! # Values

Scalars, lists of values, and maps from text to values: what parameters, properties and results
are made of. -/

namespace CypherTraversal

inductive Value where
  | scalar (s : Scalar)
  | list (items : List Value)
  | map (entries : List (String × Value))
deriving Repr, Inhabited

abbrev Parameters := Entries Value

namespace Value

abbrev null : Value := .scalar .null
abbrev bool (b : Bool) : Value := .scalar (.bool b)
abbrev int (n : Int) : Value := .scalar (.int n)
abbrev float (x : Binary64) : Value := .scalar (.float x)
abbrev str (s : String) : Value := .scalar (.str s)

def isNull : Value → Bool
  | scalar s => s.isNull
  | _ => false

def isNumber : Value → Bool
  | scalar s => s.isNumber
  | _ => false

def isText : Value → Bool
  | scalar (.str _) => true
  | _ => false

def isMap : Value → Bool
  | map _ => true
  | _ => false

def toBool? : Value → Option Bool
  | scalar (.bool b) => some b
  | _ => none

def toInt? : Value → Option Int
  | scalar (.int n) => some n
  | _ => none

def toBinary64? : Value → Option Binary64
  | scalar s => s.toBinary64?
  | _ => none

def toText? : Value → Option String
  | scalar (.str s) => some s
  | _ => none

def toList? : Value → Option (List Value)
  | list items => some items
  | _ => none

def toEntries? : Value → Option (Entries Value)
  | map entries => some entries
  | _ => none

def typeName : Value → String
  | scalar s => s.typeName
  | list _ => "list"
  | map _ => "map"

/-! ### Sameness -/

mutual

def same : Value → Value → Bool
  | scalar a, scalar b => a.same b
  | list xs, list ys => sameItems xs ys
  | map xs, map ys => sameEntries xs ys
  | _, _ => false

def sameItems : List Value → List Value → Bool
  | [], [] => true
  | x :: xs, y :: ys => same x y && sameItems xs ys
  | _, _ => false

def sameEntries : List (String × Value) → List (String × Value) → Bool
  | [], [] => true
  | (k, x) :: xs, (l, y) :: ys => k == l && same x y && sameEntries xs ys
  | _, _ => false

end

instance : BEq Value := ⟨same⟩

/-! ### Text -/

mutual

def text : Value → String
  | scalar s => s.text
  | list items => "[" ++ ", ".intercalate (itemTexts items) ++ "]"
  | map entries => "\x7b" ++ ", ".intercalate (entryTexts entries) ++ "\x7d"

def itemTexts : List Value → List String
  | [] => []
  | x :: xs => text x :: itemTexts xs

def entryTexts : List (String × Value) → List String
  | [] => []
  | (k, x) :: xs => (k ++ ": " ++ text x) :: entryTexts xs

end

/-! ### Maps inside -/

mutual

def holdsMap : Value → Bool
  | scalar _ => false
  | list items => someHoldsMap items
  | map _ => true

def someHoldsMap : List Value → Bool
  | [] => false
  | x :: xs => holdsMap x || someHoldsMap xs

end

end Value
end CypherTraversal
