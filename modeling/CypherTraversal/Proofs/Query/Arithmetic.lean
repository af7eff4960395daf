import CypherTraversal.Resolved.Check

/-! # Exact integers

An integer term is made of 64-bit literals, negations and the five operations on integers. Its value
is taken among all integers, with quotients and remainders toward zero. The constant of the term is
this value where it can be worked out in 64 bits part by part; otherwise there is none, and the term
is refused. -/

namespace CypherTraversal

open Scalar

inductive IntegerOperation where
  | add | sub | mul | div | mod
deriving DecidableEq, Repr

namespace IntegerOperation

def toArithmetic : IntegerOperation → Arithmetic
  | add => .add
  | sub => .sub
  | mul => .mul
  | div => .div
  | mod => .mod

def exact : IntegerOperation → Int → Int → Int
  | add => (· + ·)
  | sub => (· - ·)
  | mul => (· * ·)
  | div => Int.tdiv
  | mod => Int.tmod

def isDefined : IntegerOperation → Int → Int → Bool
  | div, _, b => b != 0
  | mod, a, b => b != 0 && !(a == -0x8000000000000000 && b == -1)
  | _, _, _ => true

end IntegerOperation

/-- Constant arithmetic on integers. -/
inductive IntegerTerm where
  | literal (n : Int) (fits : Scalar.fits n)
  | negate (e : IntegerTerm)
  | apply (op : IntegerOperation) (l r : IntegerTerm)

variable (e : IntegerTerm)

namespace IntegerTerm

def toExpr : IntegerTerm → Expr
  | literal n _ => .literal (.int n)
  | negate e => .unary .negate e.toExpr
  | apply op l r => .binary l.toExpr (.arith op.toArithmetic) r.toExpr

def value : IntegerTerm → Int
  | literal n _ => n
  | negate e => -e.value
  | apply op l r => op.exact l.value r.value

/-- The term and all terms in it. -/
def parts : IntegerTerm → List IntegerTerm
  | literal n h => [literal n h]
  | negate e => negate e :: e.parts
  | apply op l r => apply op l r :: (l.parts ++ r.parts)

def isDefined : IntegerTerm → Bool
  | apply op l r => op.isDefined l.value r.value
  | _ => true

/-- Every part has a value, and it is one of 64 bits. -/
def isExact : Bool :=
  e.parts.all fun p => Scalar.fits p.value && p.isDefined

theorem isExact_apply (op : IntegerOperation) (l r : IntegerTerm) :
    (apply op l r).isExact = (fits (op.exact l.value r.value) &&
      op.isDefined l.value r.value && (l.isExact && r.isExact)) := by
  simp only [isExact, parts, List.all_cons, List.all_append, value, isDefined]

theorem isExact_negate : (negate e).isExact = (fits (-e.value) && e.isExact) := by
  simp only [isExact, parts, List.all_cons, value, isDefined, Bool.and_true]

theorem fits_value {e : IntegerTerm} (h : e.isExact) : fits e.value := by
  have hself : e ∈ e.parts := by cases e <;> exact List.mem_cons_self
  exact (Bool.and_eq_true_iff.mp (List.all_eq_true.mp h e hself)).1

end IntegerTerm

/-! ### One operation -/

theorem Scalar.fits_iff {n : Int} : fits n ↔ -0x8000000000000000 ≤ n ∧ n ≤ 0x7fffffffffffffff := by
  simp [fits]

section Division

variable {a b : Int} (ha : fits a) (hb : b ≠ 0)

include ha hb

/-- A quotient leaves the range only where the least number is divided by -1. -/
theorem fits_tdiv : fits (a.tdiv b) ↔ ¬(a = -0x8000000000000000 ∧ b = -1) := by
  rw [fits_iff] at ha ⊢
  have habs := Int.natAbs_tdiv a b
  by_cases hone : b = -1
  · subst hone
    rw [Int.tdiv_neg, Int.tdiv_one]
    omega
  · have hle : (a.tdiv b).natAbs ≤ a.natAbs := habs ▸ Nat.div_le_self _ _
    have hhalf : b ≠ 1 → (a.tdiv b).natAbs ≤ a.natAbs / 2 := fun hne => by
      rw [habs]
      exact Nat.div_le_div_left (by omega) (by decide)
    by_cases hpos : b = 1
    · subst hpos
      rw [Int.tdiv_one]
      omega
    · have := hhalf hpos
      omega

omit ha in
theorem fits_tmod (hfits : fits b) : fits (a.tmod b) := by
  rw [fits_iff] at hfits ⊢
  have habs : (a.tmod b).natAbs < b.natAbs := by
    rw [Int.natAbs_tmod]
    exact Nat.mod_lt _ (Int.natAbs_pos.mpr hb)
  omega

end Division

theorem IntegerOperation.ofInts?_eq (op : IntegerOperation) {a b : Int} (ha : fits a)
    (hb : fits b) :
    op.toArithmetic.ofInts? a b = if fits (op.exact a b) && op.isDefined a b then
      some (.int (op.exact a b)) else none := by
  cases op with
  | add | sub | mul => simp only [toArithmetic, Arithmetic.ofInts?, fitting, exact, isDefined,
      Bool.and_true]
  | div =>
    by_cases hzero : b = 0
    · simp [toArithmetic, Arithmetic.ofInts?, isDefined, hzero]
    · simp [toArithmetic, Arithmetic.ofInts?, fitting, exact, isDefined, hzero]
  | mod =>
    by_cases hzero : b = 0
    · simp [toArithmetic, Arithmetic.ofInts?, isDefined, hzero]
    · have hmod : fits (a.tmod b) := fits_tmod hzero hb
      by_cases hleast : a = -0x8000000000000000 ∧ b = -1
      · obtain ⟨rfl, rfl⟩ := hleast
        rfl
      · have hdiv := (fits_tdiv ha hzero).mpr hleast
        simpa [toArithmetic, Arithmetic.ofInts?, exact, isDefined, hzero, hmod, hdiv] using hleast

/-! ### Terms -/

namespace IntegerTerm

theorem constant?_toExpr :
    e.toExpr.constant? = if e.isExact then some (.int e.value) else none := by
  induction e with
  | literal n fits => simp [toExpr, Expr.constant?, isExact, parts, value, isDefined, fits]
  | negate e ih =>
    rw [toExpr, Expr.constant?, ih, isExact_negate]
    cases e.isExact
    · simp
    · simp [Value.negate?, fitting, value]
  | apply op l r ihl ihr =>
    rw [toExpr, Expr.constant?, ihl, ihr, isExact_apply]
    cases hl : l.isExact <;> cases hr : r.isExact
    case true.true =>
      have happly : op.toArithmetic.apply? (.int l.value) (.int r.value) =
          op.toArithmetic.ofInts? l.value r.value := by cases op <;> rfl
      simp only [if_true, happly, op.ofInts?_eq (fits_value hl) (fits_value hr), Bool.and_true,
        value]
    all_goals simp

theorem check_toExpr (scope : Scope) (clause : String) :
    e.toExpr.check scope clause = if e.isExact then .ok () else
      .error (.unsupported clause (.arithmetic e.toExpr.text)) := by
  -- a term without a constant is refused at its root; the parts of any other have constants too
  induction e with
  | literal n fits => simp [toExpr, Expr.check, isExact, parts, value, isDefined, fits]
  | negate e ih =>
    have hconstant := constant?_toExpr (negate e)
    rw [toExpr] at hconstant ⊢
    unfold Expr.check
    rw [hconstant]
    cases hexact : (negate e).isExact with
    | false => rfl
    | true =>
      rw [isExact_negate, Bool.and_eq_true] at hexact
      rw [ih, hexact.2]
      rfl
  | apply op l r ihl ihr =>
    have hconstant := constant?_toExpr (apply op l r)
    rw [toExpr] at hconstant ⊢
    unfold Expr.check
    rw [hconstant]
    cases hexact : (apply op l r).isExact with
    | false => rfl
    | true =>
      rw [isExact_apply, Bool.and_eq_true] at hexact
      obtain ⟨hl, hr⟩ := Bool.and_eq_true_iff.mp hexact.2
      rw [ihl, ihr, hl, hr]
      rfl

/-- **Integer arithmetic in constants is exact.** A term of 64-bit integers has the constant that it
has among all integers, if each of its parts has a value of 64 bits; otherwise it has no constant,
and it is refused. -/
theorem integer_constant_is_exact (e : IntegerTerm) (scope : Scope) (clause : String) :
    e.toExpr.constant? = (if e.isExact then some (.int e.value) else none) ∧
    e.toExpr.check scope clause = if e.isExact then .ok () else
      .error (.unsupported clause (.arithmetic e.toExpr.text)) :=
  ⟨constant?_toExpr e, check_toExpr e scope clause⟩

end IntegerTerm
end CypherTraversal
