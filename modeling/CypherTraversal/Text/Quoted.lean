import CypherTraversal.Text.Hidden

/-! # Quoted text

Two ways of quoting. `inspect` is used where a message shows an internal object: double quotes,
with hidden characters given by their code point. `quote` is the single-quoted literal of a
script: only the backslash, the quote and the three line characters are escaped. -/

namespace CypherTraversal.Text

def hex (n : Nat) : String :=
  String.ofList (Nat.toDigits 16 n)

def inspectChar (c : Char) : String :=
  if c == '\x00' then "\\0"
  else if c == '\t' then "\\t"
  else if c == '\r' then "\\r"
  else if c == '\n' then "\\n"
  else if c == '"' then "\\\""
  else if c == '\\' then "\\\\"
  else if isHidden c then "\\u\x7b" ++ hex c.toNat ++ "\x7d"
  else c.toString

def inspect (s : String) : String :=
  "\"" ++ String.join (s.toList.map inspectChar) ++ "\""

def quoteChar (c : Char) : List Char :=
  if c == '\\' then ['\\', '\\']
  else if c == '\'' then ['\\', '\'']
  else if c == '\n' then ['\\', 'n']
  else if c == '\r' then ['\\', 'r']
  else if c == '\t' then ['\\', 't']
  else [c]

def quote (s : String) : String :=
  String.ofList ('\'' :: (s.toList.flatMap quoteChar ++ ['\'']))

end CypherTraversal.Text
