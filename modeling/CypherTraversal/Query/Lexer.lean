import CypherTraversal.Error
import CypherTraversal.Query.Token

/-! # From text to tokens

`scan` reads the longest token, blank or comment at the front of a text and says how many
characters it took. `tokenize` walks the text, passing over the characters that a scan took, and
places each token by its bytes. It stops at the first character where nothing starts. -/

namespace CypherTraversal.Lexer

/-! ### Character classes -/

def isSpace (c : Char) : Bool :=
  c == ' ' || c == '\t' || c == '\r' || c == '\n' || c == '\x0c'

def isWordStart (c : Char) : Bool :=
  c.isAlpha || c == '_'

def isWordPart (c : Char) : Bool :=
  c.isAlphanum || c == '_'

/-! ### Pieces -/

/-- What stands at the front of a text. -/
inductive Piece where
  | token (t : Token)
  | gap
  | fault
deriving DecidableEq, Repr

def commentItems : List Char → Nat × Bool
  | [] => (0, false)
  | ['*'] => (0, false)
  | '*' :: '/' :: _ => (0, true)
  | '*' :: _ :: cs =>
    let (n, closed) := commentItems cs
    (n + 2, closed)
  | _ :: cs =>
    let (n, closed) := commentItems cs
    (n + 1, closed)

def stringItems (quote : Char) : List Char → Nat × Bool
  | [] => (0, false)
  | ['\\'] => (0, false)
  | '\\' :: c :: cs =>
    if c == '\n' then (0, false)
    else
      let (n, closed) := stringItems quote cs
      (n + 2, closed)
  | c :: cs =>
    if c == quote then (0, true)
    else
      let (n, closed) := stringItems quote cs
      (n + 1, closed)

def unescapeChar (c : Char) : Char :=
  if c == 'n' then '\n'
  else if c == 't' then '\t'
  else if c == 'r' then '\r'
  else if c == 'b' then '\x08'
  else if c == 'f' then '\x0c'
  else c

def unescape : List Char → List Char
  | [] => []
  | ['\\'] => []
  | '\\' :: c :: cs => unescapeChar c :: unescape cs
  | c :: cs => c :: unescape cs

def exponentLength : List Char → Nat
  | c :: cs =>
    if c == 'e' || c == 'E' then
      let (sign, body) := match cs with
        | '+' :: rest => (1, rest)
        | '-' :: rest => (1, rest)
        | rest => (0, rest)
      let digits := (body.takeWhile Char.isDigit).length
      if digits = 0 then 0 else 1 + sign + digits
    else 0
  | [] => 0

def fractionLength : List Char → Nat
  | '.' :: cs =>
    let digits := (cs.takeWhile Char.isDigit).length
    if digits = 0 then 0 else 1 + digits
  | _ => 0

def scanNumber (cs : List Char) : Piece × Nat :=
  let whole := (cs.takeWhile Char.isDigit).length
  let fraction := fractionLength (cs.drop whole)
  let n := whole + fraction
  let length := n + exponentLength (cs.drop n)
  if length = whole then
    let value := Binary64.digitsValue (cs.take whole)
    (if Scalar.fits value then .token (.integer value) else .fault, whole)
  else
    match Binary64.ofText? (String.ofList (cs.take length)) with
    | some x => (.token (.float x), length)
    | none => (.fault, length)

def backquote : Char := '\x60'

def backquoted (cs : List Char) : List Char × Bool :=
  let name := cs.takeWhile (· != backquote)
  (name, !name.isEmpty && name.length < cs.length)

def scanSymbol (cs : List Char) : Piece × Nat :=
  match Symbol.spellings.find? fun p => p.1.toList.isPrefixOf cs with
  | some (spelling, symbol) => (.token (.symbol symbol), spelling.length)
  | none => (.fault, 1)

def scan (c : Char) (cs : List Char) : Piece × Nat :=
  if isSpace c then (.gap, 1)
  else if c == '/' && cs.head? == some '/' then
    (.gap, 1 + (cs.takeWhile (· != '\n')).length)
  else if c == '/' && cs.head? == some '*' then
    let (n, closed) := commentItems cs.tail
    if closed then (.gap, n + 4) else (.fault, n + 2)
  else if c == '\'' || c == '"' then
    let (n, closed) := stringItems c cs
    if closed then (.token (.string (String.ofList (unescape (cs.take n)))), n + 2)
    else (.fault, n + 1)
  else if c == backquote then
    let (name, whole) := backquoted cs
    if whole then (.token (.quotedIdentifier (String.ofList name)), name.length + 2)
    else (.fault, name.length + 1)
  else if c == '$' then
    let word := cs.takeWhile isWordPart
    if cs.head? == some backquote then
      let (name, whole) := backquoted cs.tail
      if whole then (.token (.parameter (String.ofList name)), name.length + 3)
      else (.fault, if name.isEmpty then 1 else name.length + 2)
    else if word.isEmpty then (.fault, 1)
    else (.token (.parameter (String.ofList word)), word.length + 1)
  else if c.isDigit then scanNumber (c :: cs)
  else if isWordStart c then
    let word := String.ofList (c :: cs.takeWhile isWordPart)
    match Keyword.ofWord? word with
    | some k => (.token (.keyword k), word.length)
    | none => (.token (.identifier word), word.length)
  else scanSymbol (c :: cs)

/-! ### The walk -/

def byteLength : List Char → Nat
  | [] => 0
  | c :: cs => c.utf8Size + byteLength cs

def tokensFrom : (skip offset : Nat) → List Char → Except Error (List PlacedToken)
  | _, _, [] => .ok []
  | skip + 1, offset, c :: cs => tokensFrom skip (offset + c.utf8Size) cs
  | 0, offset, c :: cs =>
    match scan c cs with
    | (.gap, n) => tokensFrom (n - 1) (offset + c.utf8Size) cs
    | (.fault, n) => .error (.parse (.unreadable (String.ofList ((c :: cs).take n)) offset))
    | (.token token, n) => do
      let text := (c :: cs).take n
      let rest ← tokensFrom (n - 1) (offset + c.utf8Size) cs
      .ok ({ token, text := String.ofList text, start := offset,
             stop := offset + byteLength text } :: rest)

end Lexer

def tokenize (query : String) : Except Error (List PlacedToken) :=
  Lexer.tokensFrom 0 0 query.toList

end CypherTraversal
