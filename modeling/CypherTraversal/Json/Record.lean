import CypherTraversal.Json.Reader

/-! # Reading records

A record is read for the sake of some of its fields. The other fields are passed over by the
grammar alone: their numbers may be of any size, their texts may hold half of a surrogate pair,
and their containers may be nested to any depth. -/

namespace CypherTraversal.Json

/-! ### Passing over documents -/

def skipNumeral? (cs : List Char) : Option (List Char) :=
  (numeral? cs).map Prod.snd

def skipText? : List Char → Option (List Char)
  | [] => none
  | '"' :: cs => some cs
  | '\\' :: 'u' :: a :: b :: c :: d :: cs =>
    if (hex4? [a, b, c, d]).isSome then skipText? cs else none
  | '\\' :: c :: cs => if (simpleEscape? c).isSome then skipText? cs else none
  | c :: cs => if c == '\\' || c.toNat < 32 then none else skipText? cs

def skipName? (cs : List Char) : Option (List Char) :=
  match skipBlank cs with
  | '"' :: rest => do
    match skipBlank (← skipText? rest) with
    | ':' :: rest => pure rest
    | _ => none
  | _ => none

mutual

def skip? : Nat → List Char → Option (List Char)
  | 0, _ => none
  | fuel + 1, cs =>
    match skipBlank cs with
    | 'n' :: 'u' :: 'l' :: 'l' :: rest => some rest
    | 't' :: 'r' :: 'u' :: 'e' :: rest => some rest
    | 'f' :: 'a' :: 'l' :: 's' :: 'e' :: rest => some rest
    | '-' :: rest => skipNumeral? rest
    | '"' :: rest => skipText? rest
    | '[' :: rest =>
      match skipBlank rest with
      | ']' :: rest => some rest
      | rest => skipItems? fuel rest
    | '\x7b' :: rest =>
      match skipBlank rest with
      | '\x7d' :: rest => some rest
      | rest => skipFields? fuel rest
    | rest => skipNumeral? rest

def skipItems? : Nat → List Char → Option (List Char)
  | 0, _ => none
  | fuel + 1, cs => do
    match skipBlank (← skip? fuel cs) with
    | ',' :: rest => skipItems? fuel rest
    | ']' :: rest => pure rest
    | _ => none

def skipFields? : Nat → List Char → Option (List Char)
  | 0, _ => none
  | fuel + 1, cs => do
    match skipBlank (← skip? fuel (← skipName? cs)) with
    | ',' :: rest => skipFields? fuel rest
    | '\x7d' :: rest => pure rest
    | _ => none

end

/-! ### Records -/

def content? (wanted : Bool) (fuel : Nat) (cs : List Char) : Option (Option Json × List Char) :=
  if wanted then (document? fuel (depthLimit - 1) cs).map fun p => (some p.1, p.2)
  else (skip? fuel cs).map fun rest => (none, rest)

def recordFields? (wanted : String → Bool) : Nat → List Char →
    Option (List (String × Json) × List Char)
  | 0, _ => none
  | fuel + 1, cs => do
    let (key, rest) ← text? (skipBlank cs)
    match skipBlank rest with
    | ':' :: rest => do
      let (content, rest) ← content? (wanted key) fuel rest
      let field := content.toList.map fun j => (key, j)
      match skipBlank rest with
      | ',' :: rest => do
        let (fields, rest) ← recordFields? wanted fuel rest
        pure (field ++ fields, rest)
      | '\x7d' :: rest => pure (field, rest)
      | _ => none
    | _ => none

def record? (wanted : String → Bool) (fuel : Nat) (cs : List Char) :
    Option (List (String × Json) × List Char) :=
  match skipBlank cs with
  | '\x7d' :: rest => some ([], rest)
  | rest => recordFields? wanted fuel rest

def readRecord? (wanted : String → Bool) (s : String) : Option Json :=
  match skipBlank s.toList with
  | '\x7b' :: rest => do
    let (fields, rest) ← record? wanted (2 * rest.length + 2) rest
    if (skipBlank rest).isEmpty then pure (object fields) else none
  | _ => read? s

end CypherTraversal.Json
