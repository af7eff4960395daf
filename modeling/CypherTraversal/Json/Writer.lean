import CypherTraversal.Json.Basic
import CypherTraversal.Text.Quoted

/-! # Writing documents

`compact` writes a document on one line without spaces; `pretty` puts each item and field on a
line of its own, two spaces deeper than what holds it. -/

namespace CypherTraversal.Json

def escapeChar (c : Char) : String :=
  if c == '"' then "\\\""
  else if c == '\\' then "\\\\"
  else if c == '\n' then "\\n"
  else if c == '\r' then "\\r"
  else if c == '\t' then "\\t"
  else if c.toNat == 8 then "\\b"
  else if c.toNat == 12 then "\\f"
  else if c.toNat < 16 then "\\u000" ++ Text.hex c.toNat
  else if c.toNat < 32 then "\\u00" ++ Text.hex c.toNat
  else c.toString

def writeText (s : String) : String :=
  "\"" ++ String.join (s.toList.map escapeChar) ++ "\""

def writeFloat (x : Binary64) : String :=
  if x.isFinite then x.toText .document else "null"

mutual

def compact : Json → String
  | null => "null"
  | bool b => toString b
  | int n => toString n
  | float x => writeFloat x
  | str s => writeText s
  | array items => "[" ++ ",".intercalate (compactItems items) ++ "]"
  | object fields => "\x7b" ++ ",".intercalate (compactFields fields) ++ "\x7d"

def compactItems : List Json → List String
  | [] => []
  | x :: xs => compact x :: compactItems xs

def compactFields : List (String × Json) → List String
  | [] => []
  | (k, x) :: xs => (writeText k ++ ":" ++ compact x) :: compactFields xs

end

def block (depth : Nat) (opening closing : String) (lines : List String) : String :=
  if lines.isEmpty then opening ++ closing
  else
    let indent (n : Nat) : String := String.ofList (List.replicate (2 * n) ' ')
    opening ++ "\n" ++ ",\n".intercalate (lines.map (indent (depth + 1) ++ ·)) ++ "\n" ++
      indent depth ++ closing

mutual

def prettyAt (depth : Nat) : Json → String
  | array items => block depth "[" "]" (prettyItems (depth + 1) items)
  | object fields => block depth "\x7b" "\x7d" (prettyFields (depth + 1) fields)
  | null => "null"
  | bool b => toString b
  | int n => toString n
  | float x => writeFloat x
  | str s => writeText s

def prettyItems (depth : Nat) : List Json → List String
  | [] => []
  | x :: xs => prettyAt depth x :: prettyItems depth xs

def prettyFields (depth : Nat) : List (String × Json) → List String
  | [] => []
  | (k, x) :: xs => (writeText k ++ ": " ++ prettyAt depth x) :: prettyFields depth xs

end

def pretty (j : Json) : String :=
  prettyAt 0 j

end CypherTraversal.Json
