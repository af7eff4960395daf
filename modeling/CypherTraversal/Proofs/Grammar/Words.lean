import CypherTraversal.Proofs.Query.Built

/-! # The words of an expression

An expression as the words that a lexer reads from its text, with parentheses where the precedence
of the operators asks for them, and a test whether its parts are already grouped that way. -/

namespace CypherTraversal

/-- A token up to its spelling: keywords in any case, names with or without quotes. -/
inductive Word where
  | symbol (s : Symbol)
  | keyword (k : Keyword)
  | integer (n : Nat)
  | float (x : Binary64)
  | string (s : String)
  | parameter (x : String)
  | name (x : String)
  | key (x : String)
deriving DecidableEq, Repr

def PlacedToken.Shows (t : PlacedToken) : Word → Prop
  | .symbol s => t.token = .symbol s
  | .keyword k => t.token = .keyword k
  | .integer n => t.token = .integer n
  | .float x => t.token = .float x
  | .string s => t.token = .string s
  | .parameter x => t.token = .parameter x
  | .name x => t.token = .identifier x ∨ t.token = .quotedIdentifier x
  | .key x => (t.token = .identifier x ∨ t.token = .quotedIdentifier x) ∨
    ∃ k, t.token = .keyword k ∧ t.text = x

/-- The tokens are spellings of the words. -/
def Shown (ts : List PlacedToken) (ws : List Word) : Prop :=
  List.Forall₂ PlacedToken.Shows ts ws

/-! ### Single parts -/

def Scalar.words : Scalar → List Word
  | null => [.keyword .NULL]
  | bool true => [.keyword .TRUE]
  | bool false => [.keyword .FALSE]
  | int n => if n < 0 then [.symbol .minus, .integer n.natAbs]
    else [.integer n.natAbs]
  | float x => if x.isNegative then [.symbol .minus, .float x.neg] else [.float x]
  | str s => [.string s]

def Comparison.word : Comparison → Word
  | eq => .symbol .equals
  | ne => .symbol .notEquals
  | lt => .symbol .less
  | le => .symbol .lessEquals
  | gt => .symbol .greater
  | ge => .symbol .greaterEquals

def Arithmetic.word : Arithmetic → Word
  | add => .symbol .plus
  | sub => .symbol .minus
  | mul => .symbol .star
  | div => .symbol .slash
  | mod => .symbol .percent
  | pow => .symbol .caret

def TextMatch.words : TextMatch → List Word
  | startsWith => [.keyword .STARTS, .keyword .WITH]
  | endsWith => [.keyword .ENDS, .keyword .WITH]
  | contains => [.keyword .CONTAINS]

def BinaryOp.words : BinaryOp → List Word
  | compare c => [c.word]
  | and => [.keyword .AND]
  | or => [.keyword .OR]
  | xor => [.keyword .XOR]
  | arith a => [a.word]
  | text m => m.words
  | member => [.keyword .IN]

def labelWords : List String → List Word
  | [] => []
  | l :: ls => .symbol .colon :: .key l :: labelWords ls

def moreTypeWords : List String → List Word
  | [] => []
  | l :: ls => .symbol .pipe :: .key l :: moreTypeWords ls

def typeWords : List String → List Word
  | [] => []
  | l :: ls => .symbol .colon :: .key l :: moreTypeWords ls

def variableWords (x? : Option String) : List Word :=
  (x?.map Word.name).toList

def boundWords (n : Option Nat) : List Word :=
  (n.map Word.integer).toList

def PathLength.words (l : PathLength) : List Word :=
  .symbol .star :: (boundWords l.min ++
    if l.max = l.min then [] else .symbol .doubleDot :: boundWords l.max)

def lengthWords (l? : Option PathLength) : List Word :=
  (l?.map PathLength.words).getD []

/-! ### Expressions -/

namespace Expr

def enclose (around : Bool) (ws : List Word) : List Word :=
  if around then .symbol .leftParen :: (ws ++ [.symbol .rightParen]) else ws

section Style

variable (style : Expr → Bool)

mutual

/-- The words of an expression; `style` says which parts stand in parentheses. -/
def words : Expr → List Word
  | literal s => s.words
  | var x => [.name x]
  | param x => [.parameter x]
  | access base key => enclose (style base) (words base) ++ [.symbol .dot, .key key]
  | binary l op r => enclose (style l) (words l) ++ (op.words ++ enclose (style r) (words r))
  | unary .not e => .keyword .NOT :: enclose (style e) (words e)
  | unary .negate e => .symbol .minus :: enclose (style e) (words e)
  | unary .isNull e => enclose (style e) (words e) ++ [.keyword .IS, .keyword .NULL]
  | unary .isNotNull e =>
    enclose (style e) (words e) ++ [.keyword .IS, .keyword .NOT, .keyword .NULL]
  | call f args distinct =>
    .name f :: .symbol .leftParen :: ((if distinct then [.keyword .DISTINCT] else []) ++
      (listWords args ++ [.symbol .rightParen]))
  | list items => .symbol .leftBracket :: (listWords items ++ [.symbol .rightBracket])
  | map entries => .symbol .leftBrace :: (entryWords entries ++ [.symbol .rightBrace])
  | caseOf operand whens otherwise =>
    .keyword .CASE :: (operandWords operand ++ (whenWords whens ++
      (optionWords (.keyword .ELSE) otherwise ++ [.keyword .END])))
  | pattern ⟨_, elements⟩ => elementsWords elements
  | comprehension x source filter result =>
    .symbol .leftBracket :: .name x :: .keyword .IN :: (enclose (style source) (words source) ++
      (optionWords (.keyword .WHERE) filter ++
        (optionWords (.symbol .pipe) result ++ [.symbol .rightBracket])))
  | star => [.symbol .star]

def listWords : List Expr → List Word
  | [] => []
  | e :: es => enclose (style e) (words e) ++ moreWords es

def moreWords : List Expr → List Word
  | [] => []
  | e :: es => .symbol .comma :: (enclose (style e) (words e) ++ moreWords es)

def entryWords : List (String × Expr) → List Word
  | [] => []
  | (key, e) :: es =>
    .key key :: .symbol .colon :: (enclose (style e) (words e) ++ moreEntryWords es)

def moreEntryWords : List (String × Expr) → List Word
  | [] => []
  | (key, e) :: es => .symbol .comma :: .key key :: .symbol .colon ::
    (enclose (style e) (words e) ++ moreEntryWords es)

def operandWords : Option Expr → List Word
  | none => []
  | some e => enclose (style e) (words e)

def optionWords (lead : Word) : Option Expr → List Word
  | none => []
  | some e => lead :: enclose (style e) (words e)

def whenWords : List (Expr × Expr) → List Word
  | [] => []
  | (w, t) :: ws => .keyword .WHEN :: (enclose (style w) (words w) ++
    (.keyword .THEN :: (enclose (style t) (words t) ++ whenWords ws)))

def elementsWords : List (PatternElement Expr) → List Word
  | [] => []
  | e :: es => elementWords e ++ elementsWords es

def elementWords : PatternElement Expr → List Word
  | .node x? labels properties =>
    .symbol .leftParen :: (variableWords x? ++ (labelWords labels ++
      (propertyWords properties ++ [.symbol .rightParen])))
  | .relationship x? types direction properties length =>
    .symbol (if direction = .incoming then .arrowDash else .minus) :: .symbol .leftBracket ::
      (variableWords x? ++ (typeWords types ++ (lengthWords length ++ (propertyWords properties ++
        [.symbol .rightBracket, .symbol (if direction = .outgoing then .dashArrow else .minus)]))))

def propertyWords : Option (List (String × Expr)) → List Word
  | none => []
  | some entries => .symbol .leftBrace :: (entryWords entries ++ [.symbol .rightBrace])

end

def part (e : Expr) : List Word :=
  enclose (style e) (words style e)

end Style

end Expr

/-! ### Ranks

From loosest to tightest: OR is 0, XOR 1, AND 2, NOT and the comparisons 3, an operand of a
comparison 4, the text matches, IN and IS NULL 5, sums 6, products 7, powers 8, signs 9, accesses
10, and what holds together on its own 11. -/

def BinaryOp.level : BinaryOp → Nat
  | or => 0
  | xor => 1
  | and => 2
  | compare _ => 4
  | text _ | member => 5
  | arith .add | arith .sub => 6
  | arith .mul | arith .div | arith .mod => 7
  | arith .pow => 8

def Scalar.isSigned : Scalar → Bool
  | int n => decide (n < 0)
  | float x => x.isNegative
  | _ => false

def Word.continuesNode : Word → Bool
  | symbol s => s ∈ [.colon, .leftBrace, .rightParen]
  | _ => false

namespace Expr

def rank : Expr → Nat
  | literal s => if s.isSigned then 9 else 11
  | access .. => 10
  | binary _ (.compare _) _ => 3
  | binary _ op _ => op.level
  | unary .not _ => 3
  | unary .isNull _ | unary .isNotNull _ => 5
  | unary .negate _ => 9
  | var _ | param _ | call .. | list _ | map _ | caseOf .. | pattern _ | comprehension .. => 11
  | star => 0

def endsInPattern : Expr → Bool
  | pattern _ => true
  | binary _ _ r => endsInPattern r
  | unary .not e | unary .negate e => endsInPattern e
  | _ => false

def startsNode : List Word → Bool
  | .name _ :: w :: _ => w.continuesNode
  | [] | [.name _] | .key _ :: _ => true
  | w :: _ => w.continuesNode

def startsMember : List Word → Bool
  | .name _ :: .keyword .IN :: _ | .name _ :: .key _ :: _ | .key _ :: _ => true
  | _ => false

def startsNumber : List Word → Bool
  | .integer _ :: _ | .float _ :: _ => true
  | _ => false

def startsBracket : List Word → Bool
  | .symbol .leftBracket :: _ => true
  | _ => false

section Grouping

variable (style : Expr → Bool)

def fits (k : Nat) (e : Expr) : Bool :=
  if style e then !startsNode (words style e) else k ≤ e.rank

mutual

def grouped : Expr → Bool
  | literal _ | var _ | param _ => true
  | access base _ => grouped base && fits style 10 base
  | binary l op r =>
    grouped l && fits style op.level l && grouped r && fits style (op.level + 1) r &&
      -- behind a minus sign and a bracket a pattern goes on
      !(op = .arith .sub && l.endsInPattern && startsBracket (part style r))
  | unary .not e => grouped e && fits style 3 e
  | unary .negate e =>
    -- two signs are one symbol, and a sign belongs to the number behind it
    grouped e && fits style 10 e && !startsNumber (part style e)
  | unary .isNull e | unary .isNotNull e => grouped e && fits style 5 e
  | call _ args _ => listGrouped args
  | list items => listGrouped items && !startsMember (listWords style items)
  | map entries => entriesGrouped entries
  | caseOf operand whens otherwise =>
    optionGrouped operand && whensGrouped whens && optionGrouped otherwise
  | pattern ⟨_, elements⟩ => elementsGrouped elements && 1 < elements.length
  | comprehension _ source filter result =>
    grouped source && fits style 0 source && optionGrouped filter && optionGrouped result
  | star => true

def listGrouped : List Expr → Bool
  | [] => true
  | e :: es => grouped e && fits style 0 e && listGrouped es

def entriesGrouped : List (String × Expr) → Bool
  | [] => true
  | (_, e) :: es => grouped e && fits style 0 e && entriesGrouped es

def optionGrouped : Option Expr → Bool
  | none => true
  | some e => grouped e && fits style 0 e

def whensGrouped : List (Expr × Expr) → Bool
  | [] => true
  | (w, t) :: ws =>
    grouped w && fits style 0 w && grouped t && fits style 0 t && whensGrouped ws

def elementsGrouped : List (PatternElement Expr) → Bool
  | [] => true
  | .node _ _ properties :: es => propertiesGrouped properties && elementsGrouped es
  | .relationship _ _ _ properties _ :: es => propertiesGrouped properties && elementsGrouped es

def propertiesGrouped : Option (List (String × Expr)) → Bool
  | none => true
  | some entries => entriesGrouped entries

end

end Grouping

end Expr

end CypherTraversal
