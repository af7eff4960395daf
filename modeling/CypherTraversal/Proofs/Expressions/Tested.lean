import CypherTraversal.Proofs.Expressions.Reading

/-! # Tests of the current variable

A property of the current variable is tested at the element itself. An expression without such a
test lowers the same at every place. In a sheltered one the tests are made while the row is
there. -/

namespace CypherTraversal

open List

variable {es : List Expr} {o operand : Option Expr} {ws : List (Expr × Expr)} (c : LoweringContext)

def LoweringContext.on (here : Option String) : LoweringContext :=
  { c with current := here }

namespace Expr

/-! ### Expressions -/

def isPropertyOf (here : Option String) : Expr → Bool
  | access (var name) _ => here == some name
  | _ => false

def comparesProperty (here : Option String) (l r : Expr) : Bool :=
  isPropertyOf here l && isKnown r || isKnown l && isPropertyOf here r

def testsSides (here : Option String) (l : Expr) (op : BinaryOp) (r : Expr) : Bool :=
  match op with
  | .compare _ => comparesProperty here l r
  | .text _ => isPropertyOf here l || isPropertyOf here r
  | .member => isPropertyOf here l
  | _ => false

def testsOperand (here : Option String) (op : UnaryOp) (e : Expr) : Bool :=
  match op with
  | .isNull | .isNotNull => isPropertyOf here e
  | _ => false

def testsArgument (here : Option String) (name : String) (args : List Expr) : Bool :=
  ScalarFunction.ofName? name == some .existence && args.head?.any (isPropertyOf here)

mutual

def tests (here : Option String) : Expr → Bool
  | access base _ => tests here base
  | binary l op r => tests here l || tests here r || testsSides here l op r
  | unary op e => tests here e || testsOperand here op e
  | call name args _ => testsAny here args || testsArgument here name args
  | list items => testsAny here items
  | map entries => testsEntries here entries
  | caseOf operand whens otherwise =>
    testsOption here operand || testsWhens here operand whens || testsOption here otherwise
  | literal _ | var _ | param _ | pattern _ | comprehension .. | star => false

def testsAny (here : Option String) : List Expr → Bool
  | [] => false
  | e :: es => tests here e || testsAny here es

def testsEntries (here : Option String) : List (String × Expr) → Bool
  | [] => false
  | (_, e) :: es => tests here e || testsEntries here es

def testsOption (here : Option String) : Option Expr → Bool
  | none => false
  | some e => tests here e

def testsWhens (here : Option String) (operand : Option Expr) : List (Expr × Expr) → Bool
  | [] => false
  | (w, t) :: rest =>
    tests here w || tests here t || operand.any (comparesProperty here · w) ||
      testsWhens here operand rest

end

def sheltersSides (here : Option String) (l : Expr) (op : BinaryOp) (r : Expr) : Bool :=
  match op with
  | .compare _ => isKnown r || !tests here l
  | .text _ => !isKnown l && isKnown r || !tests here l
  | .member => !tests here r
  | _ => true

mutual

/-- Properties of the variable `here` are tested only while the row is at it. -/
def sheltered (here : Option String) : Expr → Bool
  | access base _ => sheltered here base
  | binary l op r => sheltered here l && sheltered here r && sheltersSides here l op r
  | unary _ e => sheltered here e
  | call _ args _ => shelteredAll here args
  | list items => shelteredAll here items
  | map entries => shelteredEntries here entries
  | caseOf operand whens otherwise =>
    shelteredOption here operand && shelteredWhens here operand whens &&
      shelteredOption here otherwise
  | literal _ | var _ | param _ | pattern _ | comprehension .. | star => true

def shelteredAll (here : Option String) : List Expr → Bool
  | [] => true
  | e :: es => sheltered here e && shelteredAll here es

def shelteredEntries (here : Option String) : List (String × Expr) → Bool
  | [] => true
  | (_, e) :: es => sheltered here e && shelteredEntries here es

def shelteredOption (here : Option String) : Option Expr → Bool
  | none => true
  | some e => sheltered here e

def shelteredWhens (here : Option String) (operand : Option Expr) : List (Expr × Expr) → Bool
  | [] => true
  | (w, t) :: rest =>
    sheltered here w && sheltered here t && operand.all (fun o => isKnown w || !tests here o) &&
      shelteredWhens here operand rest

end

/-! ### Tests of the parts -/

variable {here : Option String} {e : Expr}

theorem comparesProperty_eq_false {l r : Expr} : l.comparesProperty here r = false ↔
    Compared (fun x => x.isPropertyOf here = false) (fun _ => True) l r := by
  rw [comparesProperty, compared_iff]
  cases l.isKnown <;> cases r.isKnown <;> simp

theorem testsAny_eq_false : testsAny here es = false ↔ ∀ e ∈ es, e.tests here = false :=
  iff_forall_mem rfl fun _ _ => Bool.or_eq_false_iff

theorem testsEntries_eq_false {es : List (String × Expr)} :
    testsEntries here es = false ↔ ∀ e ∈ es, e.2.tests here = false :=
  iff_forall_mem rfl fun _ _ => Bool.or_eq_false_iff

theorem testsOption_eq_false :
    testsOption here o = false ↔ ∀ e, o = some e → e.tests here = false := by
  cases o <;> simp [testsOption]

theorem testsWhens_eq_false :
    testsWhens here operand ws = false ↔ ∀ w ∈ ws, w.1.tests here = false ∧
      w.2.tests here = false ∧ ∀ o, operand = some o → o.comparesProperty here w.1 = false :=
  iff_forall_mem rfl fun _ _ => by cases operand <;> simp [testsWhens, and_assoc]

theorem tests_eq_false : e.tests here = false ↔ (∀ x ∈ e.parts, x.tests here = false) ∧
    e.Consults (fun x => x.isPropertyOf here = false) fun _ => True := by
  cases e with
  | binary l op r =>
    cases op <;> simp [tests, parts, Consults, testsSides, comparesProperty_eq_false, and_assoc]
  | unary op x => cases op <;> simp [tests, parts, Consults, testsOperand]
  | call name args distinct =>
    cases args <;> simp [tests, parts, Consults, testsAny_eq_false, testsArgument]
  | list items => simp [tests, parts, Consults, testsAny_eq_false]
  | map entries =>
    simp only [tests, parts, Consults, testsEntries_eq_false, forall_mem_map, and_true]
  | caseOf operand whens otherwise =>
    simp only [tests, Consults, forall_parts_caseOf, Bool.or_eq_false_iff, testsOption_eq_false,
      testsWhens_eq_false, comparesProperty_eq_false]
    grind
  | _ => simp [tests, parts, Consults]

theorem shelteredAll_iff : shelteredAll here es ↔ ∀ e ∈ es, e.sheltered here :=
  iff_forall_mem rfl fun _ _ => Bool.and_eq_true_iff

theorem shelteredEntries_iff {es : List (String × Expr)} :
    shelteredEntries here es ↔ ∀ e ∈ es, e.2.sheltered here :=
  iff_forall_mem rfl fun _ _ => Bool.and_eq_true_iff

theorem shelteredOption_iff : shelteredOption here o ↔ ∀ e, o = some e → e.sheltered here := by
  cases o <;> simp [shelteredOption]

theorem shelteredWhens_iff :
    shelteredWhens here operand ws ↔ ∀ w ∈ ws, w.1.sheltered here ∧ w.2.sheltered here ∧
      ∀ o, operand = some o → w.1.isKnown = false → o.tests here = false :=
  iff_forall_mem rfl fun _ _ => by
    cases operand <;> simp [shelteredWhens, and_assoc, or_iff_not_imp_left]

theorem sheltered_iff : e.sheltered here ↔ (∀ x ∈ e.parts, x.sheltered here) ∧
    e.Consults (fun _ => True) fun x => x.tests here = false := by
  cases e with
  | binary l op r =>
    cases op <;> simp [sheltered, parts, Consults, sheltersSides, and_assoc, compared_iff] <;> grind
  | unary op x => cases op <;> simp [sheltered, parts, Consults]
  | call name args distinct | list items => simp [sheltered, parts, Consults, shelteredAll_iff]
  | map entries =>
    simp only [sheltered, parts, Consults, shelteredEntries_iff, forall_mem_map, and_true]
  | caseOf operand whens otherwise =>
    simp only [sheltered, Consults, forall_parts_caseOf, Bool.and_eq_true, shelteredOption_iff,
      shelteredWhens_iff, compared_iff]
    grind
  | _ => simp [sheltered, parts, Consults]

/-! ### Without a variable -/

theorem tests_none (e : Expr) : e.tests none = false := by
  have hproperty (x : Expr) : x.isPropertyOf none = false := by
    unfold isPropertyOf
    split <;> rfl
  induction e using induction_parts with
  | step e ih => exact tests_eq_false.mpr ⟨ih, consults_of_parts fun x _ => ⟨hproperty x, trivial⟩⟩

theorem sheltered_none (e : Expr) : e.sheltered none := by
  induction e using induction_parts with
  | step e ih => exact sheltered_iff.mpr ⟨ih, consults_of_parts fun x _ => ⟨trivial, tests_none x⟩⟩

end Expr

/-! ### Readings without tests -/

theorem LoweringContext.onElement_on {here : Option String} {name : String} (h : here ≠ some name)
    (steps : Traversal) :
    (c.on here).onElement name steps = (c.on none).onElement name steps := by
  unfold onElement on
  rw [if_neg h, if_neg (by simp)]

theorem Expr.lower_on {here : Option String} (e : Expr) (he : e.tests here = false) :
    e.lower (c.on here) = e.lower (c.on none) := by
  have hL : LowersRelated (c.on here) (c.on none) (fun e => e.tests here = false)
      (fun e => e.isPropertyOf here = false) (fun _ => True) (fun _ => True) Eq Eq (fun _ => True)
      Eq := by
    refine lowersRelated_eq (fun _ => rfl) rfl (fun _ => rfl) (fun h => (tests_eq_false.mp h).1) ?_
    intro name key h
    exact c.onElement_on (beq_eq_false_iff_ne.mp h)
  refine (lower_related_of hL (fun e he => ?_) e he).eq
  obtain ⟨hparts, hconsults⟩ := tests_eq_false.mp he
  exact hconsults.mono (fun _ _ h => h) fun x hx _ => hparts x hx

end CypherTraversal
