import CypherTraversal.Number.Shortest

/-! # Numbers as text

Finite numbers are written with their shortest decimal, positionally when the exponent of the
leading digit lies in the range of the style and with an exponent otherwise. A positional number
always shows a fraction. The same texts, and any other decimal text, are read back to the nearest
number. -/

namespace CypherTraversal

structure DecimalStyle where
  least : Int
  bound : Int
  tie : Tie
  plus : List Char

def DecimalStyle.plain : DecimalStyle := ⟨-4, 16, .greater, []⟩

def DecimalStyle.document : DecimalStyle := ⟨-5, 16, .even, ['+']⟩

namespace Decimal

def digitChars (d : Decimal) : List Char :=
  Nat.toDigits 10 d.digits

def leading (d : Decimal) : Int :=
  d.exponent + d.digitChars.length - 1

def placePoint (cs : List Char) (n : Nat) : List Char :=
  let whole := cs.take n ++ List.replicate (n - cs.length) '0'
  let rest := cs.drop n
  whole ++ '.' :: if rest.isEmpty then ['0'] else rest

def writeExponent (style : DecimalStyle) (e : Int) : List Char :=
  'e' :: ((if e < 0 then ['-'] else style.plus) ++ Nat.toDigits 10 e.natAbs)

def write (style : DecimalStyle) (d : Decimal) : List Char :=
  let cs := d.digitChars
  let e := d.leading
  if style.least ≤ e && e < style.bound then
    if 0 ≤ e then placePoint cs (e.natAbs + 1)
    else ['0', '.'] ++ List.replicate (e.natAbs - 1) '0' ++ cs
  else
    (match cs with
     | c :: r :: rest => c :: '.' :: r :: rest
     | _ => cs) ++ writeExponent style e

end Decimal

namespace Binary64

def toText (style : DecimalStyle) (x : Binary64) : String :=
  if x.isNaN then "NaN"
  else
    let sign := if x.isNegative then "-" else ""
    if x.isInfinite then sign ++ "inf"
    else if x.isZero then sign ++ "0.0"
    else sign ++ String.ofList ((shortest style.tie x.magnitude).write style)

def digitsValue (cs : List Char) : Nat :=
  cs.foldl (fun n c => 10 * n + (c.toNat - '0'.toNat)) 0

def readExponent? (cs : List Char) : Option Int :=
  let body := match cs with
    | '-' :: rest => rest
    | '+' :: rest => rest
    | rest => rest
  if body.isEmpty || !body.all Char.isDigit then none
  else if cs.head? == some '-' then some (-(digitsValue body : Int))
  else some (digitsValue body)

def readUnsigned? (negative : Bool) (cs : List Char) : Option Binary64 :=
  let whole := cs.takeWhile Char.isDigit
  let afterWhole := cs.dropWhile Char.isDigit
  let (fraction, afterFraction) := match afterWhole with
    | '.' :: rest => (rest.takeWhile Char.isDigit, rest.dropWhile Char.isDigit)
    | rest => ([], rest)
  let number (e : Int) : Option Binary64 :=
    some (ofDecimal negative (digitsValue (whole ++ fraction)) (e - fraction.length))
  if whole.isEmpty && fraction.isEmpty then none
  else match afterFraction with
    | [] => number 0
    | c :: rest => if c == 'e' || c == 'E' then (readExponent? rest).bind number else none

def ofText? (s : String) : Option Binary64 :=
  let (negative, body) := match s.toList with
    | '-' :: rest => (true, rest)
    | rest => (false, rest)
  if body == "NaN".toList then some (if negative then nan.neg else nan)
  else if body == "inf".toList then some (infinity negative)
  else readUnsigned? negative body

end Binary64
end CypherTraversal
