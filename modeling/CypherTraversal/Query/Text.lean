import CypherTraversal.Query.Syntax
import CypherTraversal.Text.Name

/-! # Queries as text

An expression is written without parentheses, so the text shows the order of its parts and not
always how they are grouped. The text of an expression is the name of its column when a
projection gives none. -/

namespace CypherTraversal

open Text

def Comparison.symbol : Comparison → String
  | eq => "=" | ne => "<>" | lt => "<" | le => "<=" | gt => ">" | ge => ">="

def Arithmetic.symbol : Arithmetic → String
  | add => "+" | sub => "-" | mul => "*" | div => "/" | mod => "%" | pow => "^"

def TextMatch.symbol : TextMatch → String
  | startsWith => "STARTS WITH" | endsWith => "ENDS WITH" | contains => "CONTAINS"

def BinaryOp.symbol : BinaryOp → String
  | compare c => c.symbol
  | and => "AND"
  | or => "OR"
  | xor => "XOR"
  | arith a => a.symbol
  | text m => m.symbol
  | member => "IN"

def PathLength.text (l : PathLength) : String :=
  "*" ++ (l.min.map toString).getD "" ++
    if l.max = l.min then "" else ".." ++ (l.max.map toString).getD ""

def writeVariable (var : Option String) : String :=
  (var.map writeName).getD ""

def writeTypes (types : List String) : String :=
  if types.isEmpty then "" else ":" ++ "|".intercalate (types.map writeName)

def braced (parts : List String) : String :=
  "\x7b" ++ ", ".intercalate parts ++ "\x7d"

namespace Expr

mutual

def text : Expr → String
  | literal s => s.text
  | var name => writeName name
  | access base key => text base ++ "." ++ writeName key
  | param name => "$" ++ writeName name
  | binary l op r => text l ++ " " ++ op.symbol ++ " " ++ text r
  | unary .not e => "NOT " ++ text e
  | unary .negate e => "-" ++ text e
  | unary .isNull e => text e ++ " IS NULL"
  | unary .isNotNull e => text e ++ " IS NOT NULL"
  | call name args distinct =>
    name ++ "(" ++ (if distinct then "DISTINCT " else "") ++ ", ".intercalate (texts args) ++ ")"
  | list items => "[" ++ ", ".intercalate (texts items) ++ "]"
  | map entries => braced (entryTexts entries)
  | caseOf operand whens otherwise =>
    "CASE" ++ optionText " " operand ++ whensText whens ++ optionText " ELSE " otherwise ++ " END"
  | pattern ⟨path, elements⟩ =>
    (path.map fun p => writeName p ++ " = ").getD "" ++ elementsText elements
  | comprehension v source filter result =>
    "[" ++ writeName v ++ " IN " ++ text source ++ optionText " WHERE " filter ++
      optionText " | " result ++ "]"
  | star => "*"

def texts : List Expr → List String
  | [] => []
  | e :: es => text e :: texts es

def entryTexts : List (String × Expr) → List String
  | [] => []
  | (key, e) :: es => (writeName key ++ ": " ++ text e) :: entryTexts es

def optionText (lead : String) : Option Expr → String
  | none => ""
  | some e => lead ++ text e

def whensText : List (Expr × Expr) → String
  | [] => ""
  | (w, t) :: rest => " WHEN " ++ text w ++ " THEN " ++ text t ++ whensText rest

def elementsText : List (PatternElement Expr) → String
  | [] => ""
  | e :: es => elementText e ++ elementsText es

def elementText : PatternElement Expr → String
  | .node v labels properties =>
    "(" ++ writeVariable v ++ String.join (labels.map (":" ++ writeName ·)) ++
      propertiesText properties ++ ")"
  | .relationship v types direction properties length =>
    (if direction = .incoming then "<-[" else "-[") ++ writeVariable v ++ writeTypes types ++
      (length.map PathLength.text).getD "" ++ propertiesText properties ++
      (if direction = .outgoing then "]->" else "]-")

def propertiesText : Option (List (String × Expr)) → String
  | none => ""
  | some entries => " " ++ braced (entryTexts entries)

end

end Expr

def Pattern.text (p : Pattern Expr) : String :=
  (Expr.pattern p).text

def ProjectionItem.name (item : ProjectionItem) : String :=
  item.asName.getD item.expr.text

end CypherTraversal
