import CypherTraversal.Json.Basic

/-! # Reading documents

The reader follows the JSON grammar and refuses everything else: a trailing comma, a leading
zero, a control character inside a text, half of a surrogate pair, text after the document, and
containers nested more than 127 deep.

A number without fraction and exponent that fits 64 bits is an integer. Any other number keeps
the leading digits that fit 64 bits; they are multiplied or divided by the power of ten that is
left, in floating point. A number too large for the format is refused. -/

namespace CypherTraversal.Json

/-! ### Numbers -/

def takeDigits (significand : Nat) : List Char → Nat × Nat
  | [] => (significand, 0)
  | c :: cs =>
    let next := 10 * significand + (c.toNat - '0'.toNat)
    if next < twoTo 64 then
      let (result, taken) := takeDigits next cs
      (result, taken + 1)
    else (significand, 0)

def powerOfTen (n : Nat) : Binary64 :=
  .ofDecimal false 1 n

def scaleDown : Nat → Binary64 → Nat → Binary64
  | 0, x, _ => x
  | fuel + 1, x, e =>
    if x.isZero then x
    else if e ≤ 308 then x.div (powerOfTen e)
    else scaleDown fuel (x.div (powerOfTen 308)) (e - 308)

def scale? (significand : Nat) (exponent : Int) : Option Binary64 :=
  let x := Binary64.ofInt significand
  if x.isZero then some x
  else if exponent < 0 then some (scaleDown 4 x exponent.natAbs)
  else if 308 < exponent then none
  else
    let result := x.mul (powerOfTen exponent.natAbs)
    if result.isInfinite then none else some result

def spanDigits (cs : List Char) : List Char × List Char :=
  (cs.takeWhile Char.isDigit, cs.dropWhile Char.isDigit)

structure Numeral where
  whole : List Char
  fraction : List Char
  exponent : Option Int
deriving Repr, Inhabited

def fractionPart? : List Char → Option (List Char × List Char)
  | '.' :: cs =>
    let (digits, rest) := spanDigits cs
    if digits.isEmpty then none else some (digits, rest)
  | cs => some ([], cs)

def exponentPart? : List Char → Option (Option Int × List Char)
  | [] => some (none, [])
  | c :: cs =>
    if c == 'e' || c == 'E' then
      let (negative, rest) := match cs with
        | '+' :: rest => (false, rest)
        | '-' :: rest => (true, rest)
        | rest => (false, rest)
      let (digits, after) := spanDigits rest
      if digits.isEmpty then none
      else
        let e : Int := Binary64.digitsValue digits
        some (some (if negative then -e else e), after)
    else some (none, c :: cs)

def numeral? (cs : List Char) : Option (Numeral × List Char) := do
  let (whole, rest) := spanDigits cs
  if whole.isEmpty || (whole.head? == some '0' && 1 < whole.length) then none
  else
    let (fraction, rest) ← fractionPart? rest
    let (exponent, rest) ← exponentPart? rest
    pure ({ whole, fraction, exponent }, rest)

def Numeral.toJson? (negative : Bool) (n : Numeral) : Option Json :=
  let (significand, taken) := takeDigits 0 n.whole
  let beyond : Int := (n.whole.length - taken : Nat)
  let isWhole := n.fraction.isEmpty && n.exponent.isNone && beyond == 0
  if isWhole && !negative then some (int significand)
  else if isWhole && 0 < significand && significand ≤ twoTo 63 then
    some (int (-(significand : Int)))
  else do
    let (significand, taken) := takeDigits significand n.fraction
    let x ← scale? significand (beyond - taken + n.exponent.getD 0)
    pure (float (if negative then x.neg else x))

def number? (negative : Bool) (cs : List Char) : Option (Json × List Char) := do
  let (n, rest) ← numeral? cs
  pure (← n.toJson? negative, rest)

/-! ### Texts -/

def hexDigit? (c : Char) : Option Nat :=
  if c.isDigit then some (c.toNat - '0'.toNat)
  else if 'a' ≤ c && c ≤ 'f' then some (c.toNat - 'a'.toNat + 10)
  else if 'A' ≤ c && c ≤ 'F' then some (c.toNat - 'A'.toNat + 10)
  else none

def hex4? : List Char → Option (Nat × List Char)
  | a :: b :: c :: d :: rest => do
    let n := ((← hexDigit? a) * 16 + (← hexDigit? b)) * 256 + (← hexDigit? c) * 16 + (← hexDigit? d)
    pure (n, rest)
  | _ => none

def simpleEscape? (c : Char) : Option Char :=
  if c == '"' || c == '\\' || c == '/' then some c
  else if c == 'b' then some '\x08'
  else if c == 'f' then some '\x0c'
  else if c == 'n' then some '\n'
  else if c == 'r' then some '\r'
  else if c == 't' then some '\t'
  else none

def escape? : List Char → Option (Char × List Char)
  | 'u' :: cs => do
    let (n, rest) ← hex4? cs
    if 0xd800 ≤ n && n < 0xdc00 then
      match rest with
      | '\\' :: 'u' :: more => do
        let (m, rest) ← hex4? more
        if 0xdc00 ≤ m && m < 0xe000 then
          pure (Char.ofNat (0x10000 + (n - 0xd800) * 0x400 + (m - 0xdc00)), rest)
        else none
      | _ => none
    else if 0xdc00 ≤ n && n < 0xe000 then none
    else pure (Char.ofNat n, rest)
  | c :: cs => do
    let c ← simpleEscape? c
    pure (c, cs)
  | [] => none

def textAfterQuote? : Nat → List Char → Option (List Char × List Char)
  | 0, _ => none
  | _, [] => none
  | fuel + 1, c :: cs =>
    if c == '"' then some ([], cs)
    else if c == '\\' then do
      let (c, rest) ← escape? cs
      let (text, rest) ← textAfterQuote? fuel rest
      pure (c :: text, rest)
    else if c.toNat < 32 then none
    else do
      let (text, rest) ← textAfterQuote? fuel cs
      pure (c :: text, rest)

/-! ### Documents -/

def skipBlank (cs : List Char) : List Char :=
  cs.dropWhile fun c => c == ' ' || c == '\t' || c == '\n' || c == '\r'

def text? (cs : List Char) : Option (String × List Char) :=
  match cs with
  | '"' :: rest => do
    let (text, rest) ← textAfterQuote? (rest.length + 1) rest
    pure (String.ofList text, rest)
  | _ => none

mutual

def document? : Nat → Nat → List Char → Option (Json × List Char)
  | 0, _, _ => none
  | fuel + 1, room, cs =>
    match skipBlank cs with
    | 'n' :: 'u' :: 'l' :: 'l' :: rest => some (null, rest)
    | 't' :: 'r' :: 'u' :: 'e' :: rest => some (bool true, rest)
    | 'f' :: 'a' :: 'l' :: 's' :: 'e' :: rest => some (bool false, rest)
    | '-' :: rest => number? true rest
    | '[' :: rest =>
      if room = 0 then none
      else match skipBlank rest with
        | ']' :: rest => some (array [], rest)
        | rest => do
          let (items, rest) ← items? fuel (room - 1) rest
          pure (array items, rest)
    | '\x7b' :: rest =>
      if room = 0 then none
      else match skipBlank rest with
        | '\x7d' :: rest => some (object [], rest)
        | rest => do
          let (fields, rest) ← fields? fuel (room - 1) rest
          pure (object fields, rest)
    | '"' :: rest => do
      let (s, rest) ← text? ('"' :: rest)
      pure (str s, rest)
    | rest => number? false rest

def items? : Nat → Nat → List Char → Option (List Json × List Char)
  | 0, _, _ => none
  | fuel + 1, room, cs => do
    let (item, rest) ← document? fuel room cs
    match skipBlank rest with
    | ',' :: rest => do
      let (items, rest) ← items? fuel room rest
      pure (item :: items, rest)
    | ']' :: rest => pure ([item], rest)
    | _ => none

def fields? : Nat → Nat → List Char → Option (List (String × Json) × List Char)
  | 0, _, _ => none
  | fuel + 1, room, cs => do
    let (key, rest) ← text? (skipBlank cs)
    match skipBlank rest with
    | ':' :: rest => do
      let (value, rest) ← document? fuel room rest
      match skipBlank rest with
      | ',' :: rest => do
        let (fields, rest) ← fields? fuel room rest
        pure ((key, value) :: fields, rest)
      | '\x7d' :: rest => pure ([(key, value)], rest)
      | _ => none
    | _ => none

end

def depthLimit : Nat := 127

def read? (s : String) : Option Json := do
  let cs := s.toList
  let (j, rest) ← document? (2 * cs.length + 2) depthLimit cs
  if (skipBlank rest).isEmpty then pure j else none

end CypherTraversal.Json
