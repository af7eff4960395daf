import CypherTraversal.Proofs.Graph.WellFormed
import CypherTraversal.Proofs.Run.Outcome
import CypherTraversal.Proofs.Value.Comparison
import Mathlib.Data.Fintype.Option

/-! # What conditions mean

The answer of a condition on a row is true, false or unknown. `Expr.Answers` gives it by rules, for
negations, conjunctions, disjunctions and exclusive disjunctions of tests on a property or a value
of the row. -/

namespace CypherTraversal

open Run LoweringContext

variable {ps : Parameters}

/-! ### Answers -/

namespace Truth

def either : Option Bool → Option Bool → Option Bool
  | some true, _ => some true
  | _, some true => some true
  | some false, some false => some false
  | _, _ => none

def exclusive : Option Bool → Option Bool → Option Bool
  | some a, some b => some (a != b)
  | _, _ => none

section
variable (a b : Option Bool)

theorem both_is_true : (both a b == some true) = (a == some true && b == some true) := by
  revert a b
  decide

theorem both_is_false : (both a b == some false) = (a == some false || b == some false) := by
  revert a b
  decide

theorem either_is_true : (either a b == some true) = (a == some true || b == some true) := by
  revert a b
  decide

theorem either_is_false : (either a b == some false) = (a == some false && b == some false) := by
  revert a b
  decide

theorem exclusive_is_true : (exclusive a b == some true) =
    (a == some true && b == some false || a == some false && b == some true) := by
  revert a b
  decide

theorem exclusive_is_false : (exclusive a b == some false) =
    (a == some true && b == some true || a == some false && b == some false) := by
  revert a b
  decide

theorem not_is (c : Bool) : (a.map not == some c) = (a == some !c) := by
  rcases a with _ | _ | _ <;> cases c <;> rfl

end
end Truth

def TextMatch.eval? (m : TextMatch) : Value → Value → Option Bool
  | .scalar .null, _ => none
  | _, .scalar .null => none
  | .scalar (.str s), .scalar (.str p) => some (m.holds s p)
  | _, _ => some false

namespace Expr

inductive OfRow (c : LoweringContext) (g : Graph) (row : String → Object) : Expr → Value → Prop
  | property {x : String} (hx : c.scope.isElement x) (key : String) :
    OfRow c g row (.access (.var x) key) ((g.property? key (row x)).getD .null)
  | plain {x : String} {v : Value} (hx : c.scope.has x) (hv : row x = .ofValue v) :
    OfRow c g row (.var x) v

def known? (ps : Parameters) : Expr → Option Value
  | .param name => Entries.find? name ps
  | e => e.constant?

/-- The three-valued meaning of a condition on a row of objects; unknown is none. -/
inductive Answers (c : LoweringContext) (g : Graph) (row : String → Object) :
    Expr → Option Bool → Prop
  | truth (b : Bool) : Answers c g row (.literal (.bool b)) (some b)
  | null : Answers c g row (.literal .null) none
  | parameter {name : String} {v : Value} (h : Entries.find? name c.parameters = some v) :
    Answers c g row (.param name) v.toBool?
  | plain {x : String} {v : Value} (hx : c.scope.has x) (hv : row x = .ofValue v) :
    Answers c g row (.var x) v.toBool?
  | isNull {u : Expr} {v : Value} (hu : OfRow c g row u v) :
    Answers c g row (.unary .isNull u) (some v.isNull)
  | isNotNull {u : Expr} {v : Value} (hu : OfRow c g row u v) :
    Answers c g row (.unary .isNotNull u) (some !v.isNull)
  | existence {x name : String} (hname : ScalarFunction.ofName? name = some .existence)
      (hx : c.scope.isElement x) (key : String) (distinct : Bool) :
    Answers c g row (.call name [.access (.var x) key] distinct)
      (some (g.property? key (row x)).isSome)
  | compare {u l : Expr} {v w : Value} (hu : OfRow c g row u v)
      (hl : l.known? c.parameters = some w) (cmp : Comparison) :
      Answers c g row (.binary u (.compare cmp) l) (cmp.eval? v w)
  | compareLeft {u l : Expr} {v w : Value} (hu : OfRow c g row u v)
      (hl : l.known? c.parameters = some w) (cmp : Comparison) :
      Answers c g row (.binary l (.compare cmp) u) (cmp.eval? w v)
  | text {u l : Expr} {v w : Value} (hu : OfRow c g row u v) (hl : l.known? c.parameters = some w)
      (m : TextMatch) : Answers c g row (.binary u (.text m) l) (m.eval? v w)
  | not {e : Expr} {a : Option Bool} (he : Answers c g row e a) :
    Answers c g row (.unary .not e) (a.map Bool.not)
  | and {e d : Expr} {a b : Option Bool} (he : Answers c g row e a) (hd : Answers c g row d b) :
    Answers c g row (.binary e .and d) (Truth.both a b)
  | or {e d : Expr} {a b : Option Bool} (he : Answers c g row e a) (hd : Answers c g row d b) :
    Answers c g row (.binary e .or d) (Truth.either a b)
  | xor {e d : Expr} {a b : Option Bool} (he : Answers c g row e a) (hd : Answers c g row d b) :
    Answers c g row (.binary e .xor d) (Truth.exclusive a b)

end Expr

/-- The traverser shows the row: variables select its objects, the current one is there. -/
structure LoweringContext.Shows (c : LoweringContext) (g : Graph) (row : String → Object)
    (t : Traverser) : Prop where
  select : ∀ x, c.scope.has x → (Process.select x [t]).outcome g = (.ok [t.moveTo (row x)], g)
  current : ∀ x, c.current = some x → t.object = row x
  noNulls : g.NoNulls

/-! ### Text matches -/

namespace TextMatch

variable (m : TextMatch) {a b : Value}

theorem eval?_null_left (ha : a.isNull) : m.eval? a b = none := by
  rw [Value.eq_null_of_isNull ha]
  rfl

theorem eval?_null_right (hb : b.isNull) : m.eval? a b = none := by
  rw [Value.eq_null_of_isNull hb]
  rcases a with (_ | _) | _ | _ <;> rfl

theorem eval?_known (ha : a.isNull = false) (hb : b.isNull = false) :
    ∃ r, m.eval? a b = some r := by
  unfold eval?
  split
  · cases ha
  · cases hb
  · exact ⟨_, rfl⟩
  · exact ⟨_, rfl⟩

end TextMatch

/-! ### Known values -/

namespace Expr

variable {c : LoweringContext} {e : Expr} {v : Value}

theorem known_cases (h : e.known? ps = some v) :
    (∃ name, e = .param name ∧ Entries.find? name ps = some v) ∨ e.constant? = some v := by
  unfold known? at h
  split at h
  · exact .inl ⟨_, rfl, h⟩
  · exact .inr h

theorem isNull_of_known (h : e.known? c.parameters = some v) : c.isNull e = v.isNull := by
  rcases known_cases h with ⟨name, rfl, h⟩ | h
  · exact congrArg (Option.any Value.isNull) h
  · unfold isNull
    split
    · cases h
    · exact congrArg (Option.any Value.isNull) h

theorem parameter_resolve {name : String} (h : Entries.find? name ps = some v) (t : Traverser) :
    (Operand.parameter name).resolve ps t = .ok (.ofValue v) := by
  rw [Operand.resolve, Parameters.value, h]
  rfl

theorem operand_of_known (h : e.known? ps = some v) :
    ∃ o, operand? e = some o ∧ ∀ t, o.resolve ps t = .ok (.ofValue v) := by
  rcases known_cases h with ⟨name, rfl, h⟩ | h
  · exact ⟨.parameter name, rfl, parameter_resolve h⟩
  · refine ⟨.value v, ?_, fun _ => rfl⟩
    unfold operand?
    split
    · cases h
    · rw [h]
      rfl

end Expr

namespace Expr.OfRow

variable {c : LoweringContext} {g : Graph} {row : String → Object} {u : Expr} {v w : Value}

theorem isNull (h : OfRow c g row u v) : c.isNull u = false := by
  cases h <;> rfl

theorem constant (h : OfRow c g row u v) : u.constant? = none := by
  cases h <;> rfl

theorem operand (h : OfRow c g row u v) : operand? u = none := by
  cases h <;> rfl

theorem unique (hv : OfRow c g row u v) (hw : OfRow c g row u w) : v = w := by
  cases hv with
  | property => cases hw; rfl
  | plain _ hv =>
    cases hw with
    | plain _ hw => exact Object.ofValue_inj (hv.symm.trans hw)

theorem eq_of_same {d : Expr} (hv : OfRow c g row u v) (hw : OfRow c g row d w)
    (h : (u == d) = true) : u = d := by
  replace h : u.same d = true := h
  cases hv with
  | property =>
    cases hw with
    | property =>
      obtain ⟨hx, hkey⟩ := Bool.and_eq_true_iff.mp h
      rw [show _ = _ from beq_iff_eq.mp hx, beq_iff_eq.mp hkey]
    | plain => cases h
  | plain =>
    cases hw with
    | property => cases h
    | plain => rw [show _ = _ from beq_iff_eq.mp h]

end Expr.OfRow

end CypherTraversal
