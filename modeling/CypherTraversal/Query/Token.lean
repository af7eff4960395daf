import CypherTraversal.Text.Name
import CypherTraversal.Value.Scalar

/-! # Tokens

Keywords, symbols, literals and names. A keyword has one canonical spelling, two of them have a
long one as well, and case does not matter. -/

namespace CypherTraversal

inductive Keyword where
  | MATCH | OPTIONAL | WHERE | RETURN | CREATE | DELETE | DETACH | SET | MERGE | REMOVE | WITH
  | UNWIND | ORDER | BY | SKIP | LIMIT | ASC | DESC | AS | DISTINCT | UNION | ALL | IN | CASE
  | WHEN | THEN | ELSE | END | AND | OR | XOR | NOT | TRUE | FALSE | NULL | IS | CONTAINS
  | STARTS | ENDS
deriving DecidableEq, Repr

namespace Keyword

def text : Keyword → String
  | MATCH => "MATCH" | OPTIONAL => "OPTIONAL" | WHERE => "WHERE" | RETURN => "RETURN"
  | CREATE => "CREATE" | DELETE => "DELETE" | DETACH => "DETACH" | SET => "SET"
  | MERGE => "MERGE" | REMOVE => "REMOVE" | WITH => "WITH" | UNWIND => "UNWIND"
  | ORDER => "ORDER" | BY => "BY" | SKIP => "SKIP" | LIMIT => "LIMIT" | ASC => "ASC"
  | DESC => "DESC" | AS => "AS" | DISTINCT => "DISTINCT" | UNION => "UNION" | ALL => "ALL"
  | IN => "IN" | CASE => "CASE" | WHEN => "WHEN" | THEN => "THEN" | ELSE => "ELSE"
  | END => "END" | AND => "AND" | OR => "OR" | XOR => "XOR" | NOT => "NOT" | TRUE => "TRUE"
  | FALSE => "FALSE" | NULL => "NULL" | IS => "IS" | CONTAINS => "CONTAINS"
  | STARTS => "STARTS" | ENDS => "ENDS"

def all : List Keyword :=
  [MATCH, OPTIONAL, WHERE, RETURN, CREATE, DELETE, DETACH, SET, MERGE, REMOVE, WITH, UNWIND,
    ORDER, BY, SKIP, LIMIT, ASC, DESC, AS, DISTINCT, UNION, ALL, IN, CASE, WHEN, THEN, ELSE, END,
    AND, OR, XOR, NOT, TRUE, FALSE, NULL, IS, CONTAINS, STARTS, ENDS]

def spellings : List (String × Keyword) :=
  ("ASCENDING", ASC) :: ("DESCENDING", DESC) :: all.map fun k => (k.text, k)

def ofWord? (word : String) : Option Keyword :=
  (spellings.find? fun p => Text.sameIgnoringCase p.1 word).map Prod.snd

end Keyword

inductive Symbol where
  | leftParen | rightParen | leftBracket | rightBracket | leftBrace | rightBrace
  | colon | comma | dot | pipe | doubleDot
  | equals | notEquals | less | lessEquals | greater | greaterEquals
  | plus | minus | star | slash | percent | caret
  | arrowRight
  | arrowLeft
  | doubleDash
  | dashArrow
  | arrowDash
deriving DecidableEq, Repr

def Symbol.spellings : List (String × Symbol) :=
  [("-->", .arrowRight), ("<--", .arrowLeft), ("..", .doubleDot), ("<>", .notEquals),
    ("!=", .notEquals), ("<=", .lessEquals), (">=", .greaterEquals), ("--", .doubleDash),
    ("->", .dashArrow), ("<-", .arrowDash), ("(", .leftParen), (")", .rightParen),
    ("[", .leftBracket), ("]", .rightBracket), ("\x7b", .leftBrace), ("\x7d", .rightBrace),
    (":", .colon), (",", .comma), (".", .dot), ("|", .pipe), ("=", .equals), ("<", .less),
    (">", .greater), ("+", .plus), ("-", .minus), ("*", .star), ("/", .slash), ("%", .percent),
    ("^", .caret)]

inductive Token where
  | keyword (k : Keyword)
  | symbol (s : Symbol)
  | integer (n : Nat)
  | float (x : Binary64)
  | string (s : String)
  | identifier (name : String)
  | quotedIdentifier (name : String)
  | parameter (name : String)
deriving DecidableEq, Repr

def Token.isLiteral : Token → Bool
  | integer _ | float _ | string _ | keyword .TRUE | keyword .FALSE | keyword .NULL => true
  | _ => false

structure PlacedToken where
  token : Token
  text : String
  start : Nat
  stop : Nat
deriving DecidableEq, Repr

end CypherTraversal
