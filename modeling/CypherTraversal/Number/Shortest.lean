import CypherTraversal.Number.Binary64

/-! # Shortest decimals

Every finite number other than zero owns an interval of reals that round to it; the ends belong
to it when its last bit is even. The shortest decimal of the number is the one with the fewest
digits in that interval, and among those the nearest to the number itself; where two are equally
near, a rule for ties picks one. On the grid of `k`-digit decimals only the two neighbours of the
number need a test: if any point of the grid lies in the interval, so does one of them. -/

namespace CypherTraversal

structure Decimal where
  digits : Nat
  exponent : Int
deriving DecidableEq, Repr, Inhabited

namespace Decimal

def strip : Nat → Decimal → Decimal
  | 0, d => d
  | fuel + 1, d =>
    if d.digits != 0 && d.digits % 10 == 0 then strip fuel ⟨d.digits / 10, d.exponent + 1⟩ else d

end Decimal

inductive Tie where
  | greater
  | even
deriving DecidableEq, Repr, Inhabited

def Tie.roundsUp (tie : Tie) (floor rest step : Nat) : Bool :=
  step < 2 * rest || (step == 2 * rest && (tie == .greater || floor % 2 == 1))

namespace Binary64

def roundingInterval (magnitude : Nat) : Nat × Nat × Nat :=
  let here := unitsOf magnitude
  (here + unitsOf (magnitude - 1), 2 * here, here + unitsOf (magnitude + 1))

def decimalWidth (magnitude : Nat) : Int :=
  let units := unitsOf magnitude
  let guess := (((units.log2 : Int) - 1074) * 30103).fdiv 100000
  let below (p : Int) : Bool :=
    if p < 0 then units * tenTo p.natAbs < twoTo 1074 else units < tenTo p.natAbs * twoTo 1074
  (([guess, guess + 1, guess + 2].find? below).getD (guess + 3))

def decimalOf? (tie : Tie) (magnitude k : Nat) : Option Decimal :=
  let (low, value, high) := roundingInterval magnitude
  let exponent := decimalWidth magnitude - k
  let scale := if exponent < 0 then tenTo exponent.natAbs else 1
  let step := twoTo 1075 * if exponent < 0 then 1 else tenTo exponent.natAbs
  let even := magnitude % 2 == 0
  let inside (c : Nat) : Bool :=
    let point := c * step
    if even then low * scale ≤ point && point ≤ high * scale
    else low * scale < point && point < high * scale
  let floor := value * scale / step
  let down := inside floor
  let up := inside (floor + 1)
  if up && (!down || tie.roundsUp floor (value * scale % step) step) then some ⟨floor + 1, exponent⟩
  else if down then some ⟨floor, exponent⟩
  else none

def shortest (tie : Tie) (magnitude : Nat) : Decimal :=
  let found := ((List.range 17).map (· + 1)).findSome? (decimalOf? tie magnitude)
  (found.getD ⟨0, 0⟩).strip 17

end Binary64
end CypherTraversal
