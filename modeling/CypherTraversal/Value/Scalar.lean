import CypherTraversal.Number.Text

/-! # Scalars

The values without parts: literals of a query, cells of a property, and the leaves of every list
and map. Equality and comparison are three-valued: a null on either side leaves them unknown.
Integers compare exactly with integers, and as floating point numbers with floating point
numbers. -/

namespace CypherTraversal

inductive Scalar where
  | null
  | bool (b : Bool)
  | int (n : Int)
  | float (x : Binary64)
  | str (s : String)
deriving Repr, Inhabited

namespace Scalar

def fits (n : Int) : Bool :=
  -0x8000000000000000 ≤ n && n ≤ 0x7fffffffffffffff

def isNull : Scalar → Bool
  | null => true
  | _ => false

def toBinary64? : Scalar → Option Binary64
  | int n => some (.ofInt n)
  | float x => some x
  | _ => none

def isNumber (s : Scalar) : Bool :=
  s.toBinary64?.isSome

def typeName : Scalar → String
  | null => "null"
  | bool _ => "boolean"
  | int _ => "integer"
  | float _ => "float"
  | str _ => "string"

def same : Scalar → Scalar → Bool
  | null, null => true
  | bool a, bool b => a == b
  | int a, int b => a == b
  | float a, float b => a.same b
  | str a, str b => a == b
  | _, _ => false

instance : BEq Scalar := ⟨same⟩

def eq? : Scalar → Scalar → Option Bool
  | null, _ => none
  | _, null => none
  | int a, int b => some (a == b)
  | a, b =>
    match a.toBinary64?, b.toBinary64? with
    | some x, some y => some (x.same y)
    | _, _ => some (a.same b)

def compare? : Scalar → Scalar → Option Ordering
  | int a, int b => some (compare a b)
  | str a, str b => some (compare a b)
  | bool a, bool b => some (compare a b)
  | a, b =>
    match a.toBinary64?, b.toBinary64? with
    | some x, some y => x.compare? y
    | _, _ => none

def rank : Scalar → Nat
  | str _ => 2
  | bool _ => 3
  | int _ => 4
  | float _ => 4
  | null => 5

def order : Scalar → Scalar → Ordering
  | float x, float y => x.totalOrder y
  | a, b =>
    match a.toBinary64?, b.toBinary64? with
    | some x, some y => (a.compare? b).getD (x.totalOrder y)
    | _, _ => if a.rank = b.rank then (a.compare? b).getD .eq else compare a.rank b.rank

def writeText (s : String) : String :=
  let escape (c : Char) : List Char :=
    if c == '\\' then ['\\', '\\'] else if c == '\'' then ['\\', '\''] else [c]
  String.ofList ('\'' :: (s.toList.flatMap escape ++ ['\'']))

def text : Scalar → String
  | null => "null"
  | bool b => toString b
  | int n => toString n
  | float x => x.toText .plain
  | str s => writeText s

end Scalar
end CypherTraversal
