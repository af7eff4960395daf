import CypherTraversal.Number.Power

/-! # Binary64 numbers

A floating point number is held by its 64 bits: a sign, and a magnitude in which eleven bits of
exponent stand above fifty-two bits of fraction. Order and equality are read off the bits, so
that two zeros are equal, a not-a-number is equal to nothing, and the total order still tells all
bit patterns apart. The sign of a not-a-number matters to the total order only. -/

namespace CypherTraversal

structure Binary64 where
  bits : UInt64
deriving DecidableEq, Repr, Inhabited

namespace Binary64

/-! ### Sign and magnitude -/

def signWeight : Nat := 0x8000000000000000

def infiniteMagnitude : Nat := 0x7ff0000000000000

def isNegative (x : Binary64) : Bool :=
  signWeight ≤ x.bits.toNat

def magnitude (x : Binary64) : Nat :=
  x.bits.toNat % signWeight

def make (negative : Bool) (magnitude : Nat) : Binary64 :=
  ⟨UInt64.ofNat (if negative then signWeight + magnitude else magnitude)⟩

def isNaN (x : Binary64) : Bool :=
  infiniteMagnitude < x.magnitude

def isInfinite (x : Binary64) : Bool :=
  x.magnitude == infiniteMagnitude

def isFinite (x : Binary64) : Bool :=
  x.magnitude < infiniteMagnitude

def isZero (x : Binary64) : Bool :=
  x.magnitude == 0

def zero : Binary64 := make false 0

def invalid : Binary64 := make true 0x7ff8000000000000

def nan : Binary64 := make false 0x7ff8000000000000

def infinity (negative : Bool) : Binary64 := make negative infiniteMagnitude

def neg (x : Binary64) : Binary64 :=
  make (!x.isNegative) x.magnitude

/-! ### Comparison -/

def signed (x : Binary64) : Int :=
  if x.isNegative then -(x.magnitude : Int) else x.magnitude

def place (x : Binary64) : Int :=
  if x.isNegative then -(x.magnitude : Int) - 1 else x.magnitude

def compare? (x y : Binary64) : Option Ordering :=
  if x.isNaN || y.isNaN then none else some (compare x.signed y.signed)

def same (x y : Binary64) : Bool :=
  x.compare? y == some .eq

def totalOrder (x y : Binary64) : Ordering :=
  compare x.place y.place

/-! ### Exact size

Every finite number is a multiple of the least positive one, 2 ^ (-1074). -/

def unitsOf (magnitude : Nat) : Nat :=
  let exponent := magnitude / twoTo 52
  let fraction := magnitude % twoTo 52
  if exponent = 0 then fraction else (twoTo 52 + fraction) * twoTo (exponent - 1)

def nearest (num den : Nat) : Nat :=
  let scaled := num * twoTo 1074
  let units := scaled / den
  let shift := if units < twoTo 53 then 0 else units.log2 - 52
  let step := den * twoTo shift
  let quotient := scaled / step
  let rest := scaled % step
  let up := step < 2 * rest || (2 * rest == step && quotient % 2 == 1)
  min infiniteMagnitude (shift * twoTo 52 + quotient + if up then 1 else 0)

def ofDecimal (negative : Bool) (digits : Nat) (exponent : Int) : Binary64 :=
  let leading := exponent + (Nat.toDigits 10 digits).length
  make negative <|
    if digits = 0 then 0
    else if leading < -400 then 0
    else if 400 < leading then infiniteMagnitude
    else if exponent < 0 then nearest digits (tenTo exponent.natAbs)
    else nearest (digits * tenTo exponent.natAbs) 1

def ofInt (n : Int) : Binary64 :=
  ofDecimal (n < 0) n.natAbs 0

/-! ### Arithmetic

A not-a-number operand passes through, the first one winning; an operation that has no result
gives `invalid`. -/

def ofFloat (x : Float) : Binary64 := ⟨x.toBits⟩

def toFloat (x : Binary64) : Float := Float.ofBits x.bits

def settle (x y : Binary64) (result : Float) : Binary64 :=
  if result.isNaN then
    if x.isNaN then x else if y.isNaN then y else invalid
  else ofFloat result

def add (x y : Binary64) : Binary64 := settle x y (x.toFloat + y.toFloat)

def sub (x y : Binary64) : Binary64 := settle x y (x.toFloat - y.toFloat)

def mul (x y : Binary64) : Binary64 := settle x y (x.toFloat * y.toFloat)

def div (x y : Binary64) : Binary64 := settle x y (x.toFloat / y.toFloat)

def isOddInteger (x : Binary64) : Bool :=
  x.isFinite && unitsOf x.magnitude % twoTo 1075 == twoTo 1074

def pow (x y : Binary64) : Binary64 :=
  let base := if x.isNaN && y.isOddInteger then make false x.magnitude else x
  settle base y (x.toFloat.pow y.toFloat)

def rem (x y : Binary64) : Binary64 :=
  if x.isNaN then x
  else if y.isNaN then y
  else if x.isInfinite || y.isZero then invalid
  else if y.isInfinite then x
  else make x.isNegative (nearest (unitsOf x.magnitude % unitsOf y.magnitude) (twoTo 1074))

end Binary64
end CypherTraversal
