import CypherTraversal.Proofs.Answers
import CypherTraversal.Resolved.Check

/-! # Parts of expressions

Whatever is done with an expression is done with its parts: they are checked and lowered with it,
and its names and parameters are theirs. Patterns and comprehensions, which are refused wherever
they stand, have no parts here. -/

namespace CypherTraversal

open List

variable (es : List (String × Expr)) (ws : List (Expr × Expr)) (o : Option Expr)

namespace Expr

variable {P : Expr → Prop} {s s' : Scope} {clause : String} {e : Expr}

def parts : Expr → List Expr
  | access base _ => [base]
  | binary l _ r => [l, r]
  | unary _ e => [e]
  | call _ args _ => args
  | list items => items
  | map entries => entries.map Prod.snd
  | caseOf operand whens otherwise =>
    operand.toList ++ whens.flatMap (fun w => [w.1, w.2]) ++ otherwise.toList
  | literal _ | var _ | param _ | pattern _ | comprehension .. | star => []

theorem forall_parts_caseOf {operand otherwise : Option Expr} {whens : List (Expr × Expr)} :
    (∀ x ∈ (caseOf operand whens otherwise).parts, P x) ↔ (∀ x, operand = some x → P x) ∧
      (∀ w ∈ whens, P w.1 ∧ P w.2) ∧ ∀ x, otherwise = some x → P x := by
  simp only [parts, forall_mem_append, forall_mem_flatMap, mem_cons, not_mem_nil, or_false,
    forall_eq_or_imp, forall_eq, Option.mem_toList, and_assoc]

theorem sizeOf_of_mem_parts {x : Expr} (h : x ∈ e.parts) : sizeOf x < sizeOf e := by
  cases e with
  | access base key =>
    obtain rfl := mem_singleton.mp h
    simp only [access.sizeOf_spec]
    omega
  | binary l op r =>
    simp only [binary.sizeOf_spec]
    rcases mem_pair.mp h with rfl | rfl <;> omega
  | unary op e =>
    obtain rfl := mem_singleton.mp h
    simp only [unary.sizeOf_spec]
    omega
  | call name args distinct =>
    have hx : sizeOf x < sizeOf args := sizeOf_lt_of_mem h
    simp only [call.sizeOf_spec]
    omega
  | list items =>
    have hx : sizeOf x < sizeOf items := sizeOf_lt_of_mem h
    simp only [list.sizeOf_spec]
    omega
  | map entries =>
    obtain ⟨⟨key, x⟩, he, rfl⟩ := mem_map.mp h
    have hx := sizeOf_lt_of_mem he
    simp only [map.sizeOf_spec, Prod.mk.sizeOf_spec] at hx ⊢
    omega
  | caseOf operand whens otherwise =>
    have hoption {o : Option Expr} (ho : x ∈ o.toList) : sizeOf x < sizeOf o := by
      obtain rfl := Option.mem_toList.mp ho
      simp
    simp only [caseOf.sizeOf_spec]
    rcases mem_append.mp h with h | h
    · rcases mem_append.mp h with h | h
      · have hx := hoption h
        omega
      · obtain ⟨⟨w, v⟩, hw, hx⟩ := mem_flatMap.mp h
        have hsize := sizeOf_lt_of_mem hw
        simp only [Prod.mk.sizeOf_spec] at hsize
        rcases mem_pair.mp hx with rfl | rfl <;> omega
    · have hx := hoption h
      omega
  | _ => cases h

theorem induction_parts (step : ∀ e : Expr, (∀ x ∈ e.parts, P x) → P e) (e : Expr) : P e :=
  step e fun x _ => induction_parts step x
termination_by sizeOf e
decreasing_by exact sizeOf_of_mem_parts ‹_›

/-! ### Names -/

mutual

def names : Expr → List String
  | var name => [name]
  | access base key => key :: names base
  | binary l _ r => names l ++ names r
  | unary _ e => names e
  | call _ args _ => namesAll args
  | list items => namesAll items
  | map entries => namesEntries entries
  | caseOf operand whens otherwise =>
    namesOption operand ++ namesWhens whens ++ namesOption otherwise
  | literal _ | param _ | pattern _ | comprehension .. | star => []

def namesAll : List Expr → List String
  | [] => []
  | e :: es => names e ++ namesAll es

def namesEntries : List (String × Expr) → List String
  | [] => []
  | (_, e) :: es => names e ++ namesEntries es

def namesOption : Option Expr → List String
  | none => []
  | some e => names e

def namesWhens : List (Expr × Expr) → List String
  | [] => []
  | (w, t) :: rest => names w ++ names t ++ namesWhens rest

end

theorem namesAll_eq (es : List Expr) : namesAll es = es.flatMap names :=
  eq_flatMap rfl (fun _ _ => rfl) es

theorem namesEntries_eq : namesEntries es = es.flatMap fun e => names e.2 :=
  eq_flatMap rfl (fun _ _ => rfl) es

theorem namesWhens_eq : namesWhens ws = ws.flatMap fun w => names w.1 ++ names w.2 :=
  eq_flatMap rfl (fun _ _ => rfl) ws

theorem namesOption_eq : namesOption o = o.toList.flatMap names := by
  cases o <;> simp [namesOption]

theorem names_part {ok : String → Bool} (h : ∀ n ∈ e.names, ok n) :
    ∀ x ∈ e.parts, ∀ n ∈ x.names, ok n := by
  have hparts : ∃ own, e.names = own ++ e.parts.flatMap names := by
    cases e with
    | access base key => exact ⟨[key], by simp [names, parts]⟩
    | var x => exact ⟨[x], rfl⟩
    | _ => exact ⟨[], by simp [names, parts, namesAll_eq, namesEntries_eq, namesOption_eq,
        namesWhens_eq, flatMap_map, flatMap_assoc]⟩
  obtain ⟨own, hown⟩ := hparts
  rw [hown] at h
  exact forall_mem_flatMap.mp (forall_mem_append.mp h).2

/-! ### Parameters -/

theorem allParameters_eq (es : List Expr) : allParameters es = es.flatMap parameters :=
  eq_flatMap rfl (fun _ _ => rfl) es

theorem entryParameters_eq : entryParameters es = es.flatMap fun e => parameters e.2 :=
  eq_flatMap rfl (fun _ _ => rfl) es

theorem whenParameters_eq :
    whenParameters ws = ws.flatMap fun w => parameters w.1 ++ parameters w.2 :=
  eq_flatMap rfl (fun _ _ => rfl) ws

theorem optionParameters_eq : optionParameters o = o.toList.flatMap parameters := by
  cases o <;> simp [optionParameters]

theorem parameters_part {x : Expr} (hx : x ∈ e.parts) : x.parameters ⊆ e.parameters := by
  have hparts : e.parts.flatMap parameters ⊆ e.parameters := by
    cases e with
    | param x => exact nil_subset _
    | _ => simp [parameters, parts, allParameters_eq, entryParameters_eq, optionParameters_eq,
        whenParameters_eq, flatMap_map, flatMap_assoc]
  exact fun n hn => hparts (mem_flatMap_of_mem hx hn)

/-! ### Checks -/

def checkSelf (s : Scope) (clause : String) : Expr → Except Error Unit
  | var x => if s.has x then .ok () else .error (.unbound x clause)
  | binary l (.arith a) r =>
    match constant? (binary l (.arith a) r) with
    | none => .error (.unsupported clause (.arithmetic (text (binary l (.arith a) r))))
    | some _ => .ok ()
  | unary .negate e =>
    match constant? (unary .negate e) with
    | none => .error (.unsupported clause (.arithmetic (text (unary .negate e))))
    | some _ => .ok ()
  | call name args distinct => checkCall clause name args distinct
  | pattern _ => .error (.unsupported clause .patternExpression)
  | comprehension .. => .error (.unsupported clause .comprehension)
  | star => .error (.unsupported clause .star)
  | _ => .ok ()

theorem checkSelf_eq (h : ∀ x, e ≠ var x) : e.checkSelf s clause = e.checkSelf s' clause := by
  unfold checkSelf
  split
  · exact absurd rfl (h _)
  all_goals rfl

theorem checkAll_congr {es : List Expr} (h : ∀ e ∈ es, e.check s clause = e.check s' clause) :
    checkAll s clause es = checkAll s' clause es := by
  induction es with
  | nil => rfl
  | cons e es ih =>
    obtain ⟨he, hes⟩ := forall_mem_cons.mp h
    rw [checkAll, checkAll, he, ih hes]

theorem checkEntries_eq : checkEntries s clause es = checkAll s clause (es.map Prod.snd) := by
  induction es with
  | nil => rfl
  | cons e es ih => rw [checkEntries, map_cons, checkAll, ih]

theorem checkWhens_eq :
    checkWhens s clause ws = checkAll s clause (ws.flatMap fun w => [w.1, w.2]) := by
  induction ws with
  | nil => rfl
  | cons w ws ih => simp only [checkWhens, flatMap_cons, cons_append, nil_append, checkAll, ih]

theorem checkOption_eq : checkOption s clause o = checkAll s clause o.toList := by
  cases o with
  | none => rfl
  | some e => exact bind_pure_unit.symm

theorem checkAll_append (es fs : List Expr) :
    checkAll s clause (es ++ fs) = checkAll s clause es >>= fun _ => checkAll s clause fs := by
  induction es with
  | nil => rfl
  | cons e es ih => simp only [cons_append, checkAll, ih, bind_assoc]

theorem check_eq (e : Expr) :
    e.check s clause = e.checkSelf s clause >>= fun _ => checkAll s clause e.parts := by
  have hself (x : Expr) : checkAll s clause [x] = x.check s clause := bind_pure_unit
  cases e with
  | access base key => exact (hself base).symm
  | binary l op r =>
    have hsides : checkAll s clause [l, r] = check s clause l >>= fun _ => check s clause r :=
      congrArg (_ >>= ·) (funext fun _ => hself r)
    rw [check.eq_def, parts, hsides]
    dsimp only
    cases op with
    | arith a =>
      rw [checkSelf]
      cases constant? (binary l (.arith a) r) <;> rfl
    | _ => rfl
  | unary op x =>
    rw [check.eq_def, parts, hself]
    dsimp only
    cases op with
    | negate =>
      rw [checkSelf]
      cases constant? (unary .negate x) <;> rfl
    | _ => rfl
  | map entries => exact checkEntries_eq entries
  | caseOf operand whens otherwise =>
    rw [check, parts, checkOption_eq, checkWhens_eq, checkOption_eq, checkAll_append,
      checkAll_append, bind_assoc]
    rfl
  | var x => exact bind_pure_unit.symm
  | _ => rfl

theorem checkAll_eq_ok : ∀ {es : List Expr}, checkAll s clause es = .ok () ↔
    ∀ e ∈ es, e.check s clause = .ok ()
  | [] => ⟨fun _ => forall_mem_nil _, fun _ => rfl⟩
  | e :: es => by
    rw [checkAll, bind_eq_ok, forall_mem_cons, ← checkAll_eq_ok]
    exact ⟨fun ⟨_, he, hes⟩ => ⟨he, hes⟩, fun ⟨he, hes⟩ => ⟨(), he, hes⟩⟩

theorem check_eq_ok : e.check s clause = .ok () ↔
    e.checkSelf s clause = .ok () ∧ ∀ x ∈ e.parts, x.check s clause = .ok () := by
  rw [check_eq, bind_eq_ok, ← checkAll_eq_ok]
  exact ⟨fun ⟨_, he, hes⟩ => ⟨he, hes⟩, fun ⟨he, hes⟩ => ⟨(), he, hes⟩⟩

theorem checkCall_eq_ok {name : String} {args : List Expr} {distinct : Bool}
    (h : checkCall clause name args distinct = .ok ()) :
    ∃ f, ScalarFunction.ofName? name = some f ∧ f.takes args.length := by
  unfold checkCall at h
  split at h
  · cases h
  · split at h
    · cases h
    · rename_i f hf
      split at h
      · cases h
      · rename_i htakes
        exact ⟨f, hf, by simpa using htakes⟩

end Expr

end CypherTraversal
