import CypherTraversal.Graph.Basic

/-! # Queries

A query is one or more single queries joined by UNION; a single query is a list of clauses.
Patterns are written over any type of expressions, because an expression may itself be a pattern.
Two expressions are the same when they are built alike from the same names and the same scalars;
a literal that is not a number is not the same as itself. -/

namespace CypherTraversal

/-! ### Operators -/

inductive Comparison where
  | eq | ne | lt | le | gt | ge
deriving DecidableEq, Repr, Inhabited

inductive Arithmetic where
  | add | sub | mul | div | mod | pow
deriving DecidableEq, Repr, Inhabited

inductive TextMatch where
  | startsWith | endsWith | contains
deriving DecidableEq, Repr, Inhabited

inductive BinaryOp where
  | compare (c : Comparison)
  | and
  | or
  | xor
  | arith (a : Arithmetic)
  | text (m : TextMatch)
  | member
deriving DecidableEq, Repr, Inhabited

inductive UnaryOp where
  | not | negate | isNull | isNotNull
deriving DecidableEq, Repr, Inhabited

/-! ### Patterns -/

structure PathLength where
  min : Option Nat
  max : Option Nat
deriving DecidableEq, Repr, Inhabited

/-- A node or a relationship; `ε` is the type of expressions. -/
inductive PatternElement (ε : Type) where
  | node (var : Option String) (labels : List String) (properties : Option (List (String × ε)))
  | relationship (var : Option String) (types : List String) (direction : Direction)
      (properties : Option (List (String × ε))) (length : Option PathLength)
deriving Repr, Inhabited

structure Pattern (ε : Type) where
  path : Option String
  elements : List (PatternElement ε)
deriving Repr, Inhabited

/-! ### Expressions -/

/-- Expressions, before their names are looked up. -/
inductive Expr where
  | literal (s : Scalar)
  | var (name : String)
  | access (base : Expr) (key : String)
  | param (name : String)
  | binary (left : Expr) (op : BinaryOp) (right : Expr)
  | unary (op : UnaryOp) (operand : Expr)
  | call (name : String) (args : List Expr) (distinct : Bool)
  | list (items : List Expr)
  | map (entries : List (String × Expr))
  | caseOf (operand : Option Expr) (whens : List (Expr × Expr)) (otherwise : Option Expr)
  | pattern (p : Pattern Expr)
  | comprehension (var : String) (source : Expr) (filter result : Option Expr)
  | star
deriving Repr, Inhabited

namespace Expr

mutual

def same : Expr → Expr → Bool
  | literal a, literal b => a == b
  | var a, var b => a == b
  | access a k, access b l => same a b && k == l
  | param a, param b => a == b
  | binary a o b, binary c p d => same a c && o == p && same b d
  | unary o a, unary p b => o == p && same a b
  | call f as d, call g bs e => f == g && sameList as bs && d == e
  | list as, list bs => sameList as bs
  | map as, map bs => sameEntries as bs
  | caseOf a ws e, caseOf b xs f => sameOption a b && sameWhens ws xs && sameOption e f
  | pattern ⟨v, es⟩, pattern ⟨w, fs⟩ => v == w && sameElements es fs
  | comprehension v s f r, comprehension w t g q =>
    v == w && same s t && sameOption f g && sameOption r q
  | star, star => true
  | _, _ => false
termination_by structural e => e

def sameList : List Expr → List Expr → Bool
  | [], [] => true
  | a :: as, b :: bs => same a b && sameList as bs
  | _, _ => false
termination_by structural e => e

def sameEntries : List (String × Expr) → List (String × Expr) → Bool
  | [], [] => true
  | (k, a) :: as, (l, b) :: bs => k == l && same a b && sameEntries as bs
  | _, _ => false
termination_by structural e => e

def sameOption : Option Expr → Option Expr → Bool
  | none, none => true
  | some a, some b => same a b
  | _, _ => false
termination_by structural e => e

def sameWhens : List (Expr × Expr) → List (Expr × Expr) → Bool
  | [], [] => true
  | (a, b) :: ws, (c, d) :: xs => same a c && same b d && sameWhens ws xs
  | _, _ => false
termination_by structural e => e

def sameElements : List (PatternElement Expr) → List (PatternElement Expr) → Bool
  | [], [] => true
  | a :: as, b :: bs => sameElement a b && sameElements as bs
  | _, _ => false
termination_by structural e => e

def sameElement : PatternElement Expr → PatternElement Expr → Bool
  | .node v ls ps, .node w ms qs => v == w && ls == ms && sameProperties ps qs
  | .relationship v ts d ps l, .relationship w us e qs m =>
    v == w && ts == us && d == e && sameProperties ps qs && l == m
  | _, _ => false
termination_by structural e => e

def sameProperties : Option (List (String × Expr)) → Option (List (String × Expr)) → Bool
  | none, none => true
  | some as, some bs => sameEntries as bs
  | _, _ => false
termination_by structural e => e

end

instance : BEq Expr := ⟨same⟩

end Expr

/-! ### Clauses -/

structure ProjectionItem where
  expr : Expr
  asName : Option String
deriving Repr, Inhabited

structure OrderItem where
  expr : Expr
  ascending : Bool
deriving Repr, Inhabited

structure Projection where
  distinct : Bool
  items : List ProjectionItem
  order : List OrderItem
  skip : Option Expr
  limit : Option Expr
  filter : Option Expr
deriving Repr, Inhabited

inductive SetItem where
  | property (entity key : String) (value : Expr)
  | labels (var : String) (labels : List String)
  | all (var : String) (value : Expr)
deriving Repr, Inhabited

inductive Clause where
  | read (optional : Bool) (patterns : List (Pattern Expr)) (filter : Option Expr)
  | project (final : Bool) (p : Projection)
  | unwind (expr : Expr) (var : String)
  | create (patterns : List (Pattern Expr))
  | delete (detach : Bool) (targets : List Expr)
  | set (items : List SetItem)
deriving Repr, Inhabited

def Clause.name : Clause → String
  | read false .. => "MATCH"
  | read true .. => "OPTIONAL MATCH"
  | project false _ => "WITH"
  | project true _ => "RETURN"
  | unwind .. => "UNWIND"
  | create _ => "CREATE"
  | delete .. => "DELETE"
  | set _ => "SET"

structure UnionPart where
  all : Bool
  clauses : List Clause
deriving Repr, Inhabited

structure Query where
  clauses : List Clause
  union : List UnionPart
deriving Repr, Inhabited

end CypherTraversal
