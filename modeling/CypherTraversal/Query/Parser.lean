import CypherTraversal.Query.Lexer
import CypherTraversal.Query.Syntax

/-! # From tokens to queries

A recursive descent over the tokens, one function for each rule of the grammar. From loosest to
tightest the operators are OR, XOR, AND, NOT, the comparisons, the text matches with IN and
IS NULL, sums, products, powers and signs. Binary operators group to the left. Comparisons chain:
`a < b <= c` stands for `a < b AND b <= c`.

The functions recurse on fuel. `expression` and `pattern` give enough of it for the tokens that
are left: between two tokens there are never more calls than `callsPerToken`. -/

namespace CypherTraversal

abbrev Parser := StateT (List PlacedToken) (Except Error)

namespace Parser

/-! ### Single tokens -/

def unexpected (what : String) (tokens : List PlacedToken) : Error :=
  match tokens with
  | [] => .parse (.ended what)
  | t :: _ => .parse (.expected what t.text t.start)

def fail (what : String) : Parser α :=
  fun tokens => .error (unexpected what tokens)

def peek : Parser (Option Token) :=
  fun tokens => .ok (tokens.head?.map PlacedToken.token, tokens)

def peekSecond : Parser (Option Token) :=
  fun tokens => .ok (tokens.tail.head?.map PlacedToken.token, tokens)

def advance : Parser Unit :=
  fun tokens => .ok ((), tokens.tail)

def check (t : Token) : Parser Bool := do
  return (← peek) == some t

def eat (t : Token) : Parser Bool := do
  if ← check t then
    advance
    return true
  else
    return false

def expect (t : Token) (what : String) : Parser Unit := do
  if ← eat t then return () else fail what

def name : Parser String := fun tokens =>
  match tokens with
  | ⟨.identifier s, _, _, _⟩ :: rest => .ok (s, rest)
  | ⟨.quotedIdentifier s, _, _, _⟩ :: rest => .ok (s, rest)
  | ⟨.keyword _, text, _, _⟩ :: rest => .ok (text, rest)
  | _ => .error (unexpected "a name" tokens)

def varName? : Parser (Option String) := fun tokens =>
  match tokens with
  | ⟨.identifier s, _, _, _⟩ :: rest => .ok (some s, rest)
  | ⟨.quotedIdentifier s, _, _, _⟩ :: rest => .ok (some s, rest)
  | _ => .ok (none, tokens)

def varName : Parser String := do
  match ← varName? with
  | some s => return s
  | none => fail "a variable"

def varBefore? (t : Token) : Parser (Option String) := do
  if (← peekSecond) == some t then
    match ← varName? with
    | some s =>
      advance
      return some s
    | none => return none
  else
    return none

/-! ### Lists of names -/

def labels : Nat → Parser (List String)
  | 0 => pure []
  | n + 1 => do
    if ← eat (.symbol .colon) then
      let first ← name
      return first :: (← labels n)
    else
      return []

def moreTypes : Nat → Parser (List String)
  | 0 => pure []
  | n + 1 => do
    if ← eat (.symbol .pipe) then
      let _ ← eat (.symbol .colon)
      let first ← name
      return first :: (← moreTypes n)
    else
      return []

def types (fuel : Nat) : Parser (List String) := do
  if ← eat (.symbol .colon) then
    let first ← name
    return first :: (← moreTypes fuel)
  else
    return []

def accesses : Nat → Expr → Parser Expr
  | 0, e => pure e
  | n + 1, e => do
    if ← eat (.symbol .dot) then
      let key ← name
      accesses n (.access e key)
    else
      return e

/-! ### Relationships -/

def lengthBound : Parser (Option Nat) := do
  match ← peek with
  | some (.integer n) =>
    if n ≤ 0xffffffff then
      advance
      return some n
    else fail "a path length"
  | _ => return none

def pathLength : Parser (Option PathLength) := do
  if ← eat (.symbol .star) then
    let min ← lengthBound
    let max ← if ← eat (.symbol .doubleDot) then lengthBound else pure min
    return some { min, max }
  else
    return none

def startsRelationship (tokens : List PlacedToken) : Bool :=
  match tokens.map PlacedToken.token with
  | .symbol .arrowRight :: _ => true
  | .symbol .arrowLeft :: _ => true
  | .symbol .doubleDash :: _ => true
  | .symbol .minus :: .symbol .leftBracket :: _ => true
  | .symbol .arrowDash :: .symbol .leftBracket :: _ => true
  | _ => false

def bareRelationship (direction : Direction) : PatternElement Expr :=
  .relationship none [] direction none none

/-! ### Operators -/

inductive Level where
  | or | xor | and | sum | product | power
deriving DecidableEq, Repr

def Level.operator? : Level → Token → Option BinaryOp
  | or, .keyword .OR => some .or
  | xor, .keyword .XOR => some .xor
  | and, .keyword .AND => some .and
  | sum, .symbol .plus => some (.arith .add)
  | sum, .symbol .minus => some (.arith .sub)
  | product, .symbol .star => some (.arith .mul)
  | product, .symbol .slash => some (.arith .div)
  | product, .symbol .percent => some (.arith .mod)
  | power, .symbol .caret => some (.arith .pow)
  | _, _ => none

def comparison? : Token → Option Comparison
  | .symbol .equals => some .eq
  | .symbol .notEquals => some .ne
  | .symbol .less => some .lt
  | .symbol .lessEquals => some .le
  | .symbol .greater => some .gt
  | .symbol .greaterEquals => some .ge
  | _ => none

inductive Suffix where
  | operator (op : BinaryOp)
  | test (op : UnaryOp)
deriving DecidableEq, Repr

def suffix? : Parser (Option Suffix) := do
  match ← peek with
  | some (.keyword .STARTS) =>
    advance
    expect (.keyword .WITH) "WITH"
    return some (.operator (.text .startsWith))
  | some (.keyword .ENDS) =>
    advance
    expect (.keyword .WITH) "WITH"
    return some (.operator (.text .endsWith))
  | some (.keyword .CONTAINS) =>
    advance
    return some (.operator (.text .contains))
  | some (.keyword .IN) =>
    advance
    return some (.operator .member)
  | some (.keyword .IS) =>
    advance
    let negated ← eat (.keyword .NOT)
    expect (.keyword .NULL) "NULL"
    return some (.test (if negated then .isNotNull else .isNull))
  | _ => return none

def literal? : Token → Option Scalar
  | .integer n => some (.int n)
  | .float x => some (.float x)
  | .string s => some (.str s)
  | .keyword .TRUE => some (.bool true)
  | .keyword .FALSE => some (.bool false)
  | .keyword .NULL => some .null
  | _ => none

def negated? : Token → Option Scalar
  | .integer n => some (.int (-(n : Int)))
  | .float x => some (.float x.neg)
  | _ => none

def extendChain (chain : Option Expr) (link : Expr) : Expr :=
  match chain with
  | some e => .binary e .and link
  | none => link

/-! ### Expressions and patterns -/

/-- Whether `p` succeeds here with `test` true behind it; nothing is consumed. -/
def lookahead (p : Parser α) (test : List PlacedToken → Bool) : Parser Bool := fun tokens =>
  match p tokens with
  | .ok (_, rest) => .ok (test rest, tokens)
  | .error _ => .ok (false, tokens)

mutual

def binary : Nat → Level → Parser Expr
  | 0, _ => fail "an expression"
  | n + 1, level => do
    let left ← operand n level
    binaryRest n level left

def operand : Nat → Level → Parser Expr
  | 0, _ => fail "an expression"
  | n + 1, .or => binary n .xor
  | n + 1, .xor => binary n .and
  | n + 1, .and => negation n
  | n + 1, .sum => binary n .product
  | n + 1, .product => binary n .power
  | n + 1, .power => signed n

def binaryRest : Nat → Level → Expr → Parser Expr
  | 0, _, _ => fail "an expression"
  | n + 1, level, left => do
    match (← peek).bind level.operator? with
    | some op =>
      advance
      let right ← operand n level
      binaryRest n level (.binary left op right)
    | none => return left

def negation : Nat → Parser Expr
  | 0 => fail "an expression"
  | n + 1 => do
    if ← eat (.keyword .NOT) then
      let e ← negation n
      return .unary .not e
    else
      let first ← tested n
      comparisons n none first

def comparisons : Nat → Option Expr → Expr → Parser Expr
  | 0, _, _ => fail "an expression"
  | n + 1, chain, left => do
    match (← peek).bind comparison? with
    | some c =>
      advance
      let right ← tested n
      comparisons n (some (extendChain chain (.binary left (.compare c) right))) right
    | none => return chain.getD left

def tested : Nat → Parser Expr
  | 0 => fail "an expression"
  | n + 1 => do
    let left ← binary n .sum
    suffixes n left

def suffixes : Nat → Expr → Parser Expr
  | 0, _ => fail "an expression"
  | n + 1, left => do
    match ← suffix? with
    | some (.operator op) =>
      let right ← binary n .sum
      suffixes n (.binary left op right)
    | some (.test op) => suffixes n (.unary op left)
    | none => return left

def signed : Nat → Parser Expr
  | 0 => fail "an expression"
  | n + 1 => do
    if ← eat (.symbol .minus) then
      match (← peek).bind negated? with
      | some s =>
        advance
        return .literal s
      | none =>
        let e ← signed n
        return .unary .negate e
    else
      let _ ← eat (.symbol .plus)
      let e ← atom n
      accesses n e

def atom : Nat → Parser Expr
  | 0 => fail "an expression"
  | n + 1 => do
    let next ← peek
    match next.bind literal? with
    | some s =>
      advance
      return .literal s
    | none =>
      match next with
      | some (.parameter p) =>
        advance
        return .param p
      | some (.symbol .leftBracket) =>
        advance
        bracketed n
      | some (.symbol .leftBrace) =>
        let entries ← entries n
        return .map entries
      | some (.keyword .CASE) =>
        advance
        caseExpression n
      | some (.symbol .leftParen) =>
        if ← lookahead (node n) startsRelationship then
          let p ← patternFrom n
          return .pattern p
        else
          advance
          let e ← binary n .or
          expect (.symbol .rightParen) "`)`"
          return e
      | _ =>
        match ← varName? with
        | some v =>
          if ← eat (.symbol .leftParen) then arguments n v else return .var v
        | none => fail "an expression"

def arguments : Nat → String → Parser Expr
  | 0, _ => fail "an expression"
  | n + 1, name => do
    if ← eat (.symbol .star) then
      expect (.symbol .rightParen) "`)`"
      return .call name [.star] false
    else if ← check (.symbol .rightParen) then
      expect (.symbol .rightParen) "`)`"
      return .call name [] false
    else
      let distinct ← eat (.keyword .DISTINCT)
      let args ← expressions n
      expect (.symbol .rightParen) "`)`"
      return .call name args distinct

def expressions : Nat → Parser (List Expr)
  | 0 => fail "an expression"
  | n + 1 => do
    let first ← binary n .or
    if ← eat (.symbol .comma) then
      let rest ← expressions n
      return first :: rest
    else
      return [first]

def bracketed : Nat → Parser Expr
  | 0 => fail "an expression"
  | n + 1 => do
    match ← varBefore? (.keyword .IN) with
    | some v =>
      let source ← binary n .or
      let filter ← optional n (.keyword .WHERE)
      let result ← optional n (.symbol .pipe)
      expect (.symbol .rightBracket) "`]`"
      return .comprehension v source filter result
    | none =>
      if ← eat (.symbol .rightBracket) then
        return .list []
      else
        let items ← expressions n
        expect (.symbol .rightBracket) "`]`"
        return .list items

def optional : Nat → Token → Parser (Option Expr)
  | 0, _ => fail "an expression"
  | n + 1, t => do
    if ← eat t then
      let e ← binary n .or
      return some e
    else
      return none

def entries : Nat → Parser (List (String × Expr))
  | 0 => fail "an expression"
  | n + 1 => do
    expect (.symbol .leftBrace) "`\x7b`"
    if ← eat (.symbol .rightBrace) then
      return []
    else
      let es ← moreEntries n
      expect (.symbol .rightBrace) "`\x7d`"
      return es

def moreEntries : Nat → Parser (List (String × Expr))
  | 0 => fail "an expression"
  | n + 1 => do
    let key ← name
    expect (.symbol .colon) "`:`"
    let e ← binary n .or
    if ← eat (.symbol .comma) then
      let rest ← moreEntries n
      return (key, e) :: rest
    else
      return [(key, e)]

def caseExpression : Nat → Parser Expr
  | 0 => fail "an expression"
  | n + 1 => do
    let operand ← if ← check (.keyword .WHEN) then pure none else do
      let e ← binary n .or
      pure (some e)
    let branches ← whens n
    if branches.isEmpty then fail "WHEN"
    else
      let otherwise ← optional n (.keyword .ELSE)
      expect (.keyword .END) "END"
      return .caseOf operand branches otherwise

def whens : Nat → Parser (List (Expr × Expr))
  | 0 => fail "an expression"
  | n + 1 => do
    if ← eat (.keyword .WHEN) then
      let w ← binary n .or
      expect (.keyword .THEN) "THEN"
      let t ← binary n .or
      let rest ← whens n
      return (w, t) :: rest
    else
      return []

def patternFrom : Nat → Parser (Pattern Expr)
  | 0 => fail "`(`"
  | n + 1 => do
    let path ← varBefore? (.symbol .equals)
    let first ← node n
    let rest ← hops n
    return { path, elements := first :: rest }

def hops : Nat → Parser (List (PatternElement Expr))
  | 0 => fail "`(`"
  | n + 1 => do
    if startsRelationship (← get) then
      let r ← relationship n
      let target ← node n
      let rest ← hops n
      return r :: target :: rest
    else
      return []

def node : Nat → Parser (PatternElement Expr)
  | 0 => fail "`(`"
  | n + 1 => do
    expect (.symbol .leftParen) "`(`"
    let var ← varName?
    let labels ← labels n
    let properties ← properties n
    expect (.symbol .rightParen) "`)`"
    return .node var labels properties

def properties : Nat → Parser (Option (List (String × Expr)))
  | 0 => fail "an expression"
  | n + 1 => do
    if ← check (.symbol .leftBrace) then
      let es ← entries n
      return some es
    else
      return none

def relationship : Nat → Parser (PatternElement Expr)
  | 0 => fail "a relationship"
  | n + 1 => do
    let next ← peek
    advance
    match next with
    | some (.symbol .arrowRight) => return bareRelationship .outgoing
    | some (.symbol .doubleDash) => return bareRelationship .both
    | some (.symbol .arrowLeft) =>
      return bareRelationship (if ← eat (.symbol .greater) then .both else .incoming)
    | some (.symbol .minus) => relationshipDetail n .outgoing .both "`-` or `->`"
    | some (.symbol .arrowDash) => relationshipDetail n .both .incoming "`-`"
    | _ => fail "a relationship"

def relationshipDetail : Nat → Direction → Direction → String → Parser (PatternElement Expr)
  | 0, _, _, _ => fail "a relationship"
  | n + 1, arrow, dash, what => do
    expect (.symbol .leftBracket) "`[`"
    let var ← varName?
    let types ← types n
    let length ← pathLength
    let properties ← properties n
    expect (.symbol .rightBracket) "`]`"
    if ← eat (.symbol .dashArrow) then
      return .relationship var types arrow properties length
    else
      expect (.symbol .minus) what
      return .relationship var types dash properties length

end

def callsPerToken : Nat := 32

def fuelled (p : Nat → Parser α) : Parser α := do
  p (callsPerToken * ((← get).length + 1))

def expression : Parser Expr :=
  fuelled (binary · .or)

def expressionAfter? (t : Token) : Parser (Option Expr) := do
  if ← eat t then
    let e ← expression
    return some e
  else
    return none

def pattern : Parser (Pattern Expr) :=
  fuelled patternFrom

/-! ### Clauses -/

def commaSeparated (item : Parser α) : Nat → Parser (List α)
  | 0 => pure []
  | n + 1 => do
    let first ← item
    if ← eat (.symbol .comma) then
      let rest ← commaSeparated item n
      return first :: rest
    else
      return [first]

def items (item : Parser α) : Parser (List α) := do
  commaSeparated item ((← get).length + 1)

def projectionItem : Parser ProjectionItem := do
  if ← eat (.symbol .star) then
    return { expr := .star, asName := none }
  else
    let expr ← expression
    if ← eat (.keyword .AS) then
      let asName ← name
      return { expr, asName := some asName }
    else
      return { expr, asName := none }

def orderItem : Parser OrderItem := do
  let expr ← expression
  if ← eat (.keyword .DESC) then
    return { expr, ascending := false }
  else
    let _ ← eat (.keyword .ASC)
    return { expr, ascending := true }

def order : Parser (List OrderItem) := do
  if ← eat (.keyword .ORDER) then
    expect (.keyword .BY) "BY"
    items orderItem
  else
    return []

def window : Parser (Option Expr × Option Expr) := do
  match ← expressionAfter? (.keyword .SKIP) with
  | some skip => return (some skip, ← expressionAfter? (.keyword .LIMIT))
  | none =>
    match ← expressionAfter? (.keyword .LIMIT) with
    | some limit => return (← expressionAfter? (.keyword .SKIP), some limit)
    | none => return (none, none)

def projection (final : Bool) : Parser Projection := do
  let distinct ← eat (.keyword .DISTINCT)
  let items ← items projectionItem
  let order ← order
  let (skip, limit) ← window
  let filter ← if final then pure none else expressionAfter? (.keyword .WHERE)
  return { distinct, items, order, skip, limit, filter }

def setItem : Parser SetItem := do
  let var ← varName
  if ← eat (.symbol .dot) then
    let key ← name
    expect (.symbol .equals) "="
    return .property var key (← expression)
  else if ← check (.symbol .colon) then
    return .labels var (← fuelled labels)
  else
    expect (.symbol .equals) "="
    return .all var (← expression)

def reading (optional : Bool) : Parser Clause := do
  let patterns ← items pattern
  let filter ← expressionAfter? (.keyword .WHERE)
  return .read optional patterns filter

def deletion (detach : Bool) : Parser Clause := do
  expect (.keyword .DELETE) "DELETE"
  return .delete detach (← items expression)

def clause? : Parser (Option Clause) := do
  match ← peek with
  | some (.keyword .MATCH) =>
    advance
    some <$> reading false
  | some (.keyword .OPTIONAL) =>
    advance
    expect (.keyword .MATCH) "MATCH"
    some <$> reading true
  | some (.keyword .WITH) =>
    advance
    return some (.project false (← projection false))
  | some (.keyword .RETURN) =>
    advance
    return some (.project true (← projection true))
  | some (.keyword .UNWIND) =>
    advance
    let expr ← expression
    expect (.keyword .AS) "AS"
    return some (.unwind expr (← varName))
  | some (.keyword .CREATE) =>
    advance
    return some (.create (← items pattern))
  | some (.keyword .DETACH) =>
    advance
    some <$> deletion true
  | some (.keyword .DELETE) => some <$> deletion false
  | some (.keyword .SET) =>
    advance
    return some (.set (← items setItem))
  | _ => return none

def clausesFrom : Nat → Parser (List Clause)
  | 0 => pure []
  | n + 1 => do
    match ← clause? with
    | some c => return c :: (← clausesFrom n)
    | none => return []

def clauses : Parser (List Clause) := do
  let cs ← fuelled clausesFrom
  if cs.isEmpty then fail "a clause" else return cs

def unionParts : Nat → Parser (List UnionPart)
  | 0 => pure []
  | n + 1 => do
    if ← eat (.keyword .UNION) then
      let all ← eat (.keyword .ALL)
      let clauses ← clauses
      return { all, clauses } :: (← unionParts n)
    else
      return []

def query : Parser Query := do
  let clauses ← clauses
  let union ← fuelled unionParts
  if (← peek).isSome then fail "a clause or end of input" else return { clauses, union }

end Parser

def Query.ofTokens (tokens : List PlacedToken) : Except Error Query :=
  if tokens.isEmpty then .error (.parse .empty)
  else (Parser.query.run tokens).map Prod.fst

def Query.parse (text : String) : Except Error Query := do
  Query.ofTokens (← tokenize text)

end CypherTraversal
