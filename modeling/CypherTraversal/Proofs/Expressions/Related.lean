import CypherTraversal.Proofs.Expressions.Parts
import CypherTraversal.Proofs.Resolved.Binding
import CypherTraversal.Traversal.OfExpr

/-! # Related lowerings

An expression lowered in two contexts gives related traversals, if the relation respects the ways
in which lowering puts traversals together. -/

namespace CypherTraversal

open List LoweringContext CypherTraversal.Expr Predicate

variable {p : Predicate} {o : Operand} {key name : String} {value' : Except Error Traversal}
  {fails fails' holds holds' : Except Error Condition} {c c' : LoweringContext}
  {Q T P : Expr → Prop} {E : Error → Prop} {K : Operand → Prop}
  {F V A : Traversal → Traversal → Prop} {W : Traversal → Prop} {e : Expr}
  {value : Except Error Traversal}

namespace Expr

theorem lower_expr (c : LoweringContext) (e : Expr) : (e.lower c).expr = e := by
  induction e using induction_parts with
  | step e ih =>
    cases e with
    | binary l op r =>
      have hl := ih l mem_cons_self
      have hr := ih r (mem_cons_of_mem _ mem_cons_self)
      cases op <;> exact congrArg₂ (fun a b => binary a _ b) hl hr
    | unary op x =>
      have hx := ih x mem_cons_self
      cases op <;> exact congrArg (unary _) hx
    | call name args distinct =>
      rw [lower, Lowered.ofCall]
      split <;> rfl
    | _ => rfl

theorem lowerAll_eq_map (c : LoweringContext) (es : List Expr) :
    lowerAll c es = es.map (lower c) :=
  eq_map rfl (fun _ _ => rfl) es

theorem lowerEntries_eq_map (c : LoweringContext) (es : List (String × Expr)) :
    lowerEntries c es = es.map fun e => lower c e.2 :=
  eq_map rfl (fun _ _ => rfl) es

theorem lowerWhens_eq_map (c : LoweringContext) (ws : List (Expr × Expr)) :
    lowerWhens c ws = ws.map fun w => (lower c w.1, lower c w.2) :=
  eq_map rfl (fun _ _ => rfl) ws

/-! ### What an expression tests -/

/-- The expression is an operand of the query itself: a constant or a parameter. -/
def isKnown (e : Expr) : Bool :=
  (LoweringContext.operand? e).isSome

@[mk_iff]
structure Compared (T P : Expr → Prop) (l r : Expr) : Prop where
  left : r.isKnown → T l
  right : l.isKnown → T r
  away : r.isKnown = false → P l

def Consults (T P : Expr → Prop) : Expr → Prop
  | binary l (.compare _) r => Compared T P l r
  | binary l (.text _) r => T l ∧ T r ∧ ((!l.isKnown && r.isKnown) = false → P l)
  | binary l .member r => T l ∧ P r
  | unary .isNull e | unary .isNotNull e => T e
  | call name args _ =>
    ScalarFunction.ofName? name = some .existence → ∀ a, args.head? = some a → T a
  | caseOf operand whens _ => ∀ o, operand = some o → ∀ w ∈ whens, Compared T P o w.1
  | _ => True

theorem Consults.mono {T' P' : Expr → Prop} (h : e.Consults T P)
    (hT : ∀ x ∈ e.parts, T x → T' x) (hP : ∀ x ∈ e.parts, P x → P' x) : e.Consults T' P' := by
  cases e with
  | binary l op r =>
    have hr := mem_cons_of_mem l (mem_singleton_self r)
    cases op with
    | compare cmp =>
      exact ⟨fun hk => hT l mem_cons_self (h.left hk), fun hk => hT r hr (h.right hk),
        fun hk => hP l mem_cons_self (h.away hk)⟩
    | text m =>
      exact ⟨hT l mem_cons_self h.1, hT r hr h.2.1, fun hk => hP l mem_cons_self (h.2.2 hk)⟩
    | member => exact ⟨hT l mem_cons_self h.1, hP r hr h.2⟩
    | _ => trivial
  | unary op x =>
    cases op with
    | isNull | isNotNull => exact hT x mem_cons_self h
    | _ => trivial
  | call name args distinct =>
    exact fun hname a ha => hT a (mem_of_mem_head? ha) (h hname a ha)
  | caseOf operand whens otherwise =>
    obtain ⟨hoperand, hwhens, -⟩ := forall_parts_caseOf.mp hT
    intro o ho w hw
    obtain ⟨hl, hr, haway⟩ := h o ho w hw
    exact ⟨fun hk => hoperand o ho (hl hk), fun hk => (hwhens w hw).1 (hr hk),
      fun hk => (forall_parts_caseOf.mp hP).1 o ho (haway hk)⟩
  | _ => trivial

theorem consults_of_parts (h : ∀ x ∈ e.parts, T x ∧ P x) : e.Consults T P := by
  have hall : e.Consults (fun _ => True) fun _ => True := by
    unfold Consults
    split <;> simp [compared_iff]
  exact hall.mono (fun x hx _ => (h x hx).1) fun x hx _ => (h x hx).2

end Expr

def Predicate.Over (K : Operand → Prop) (p : Predicate) : Prop :=
  ∀ o ∈ p.operands, K o

theorem Predicate.over_of_operands (hp : p.operands = [o]) (ho : K o) : p.Over K := by
  unfold Over
  rw [hp]
  exact forall_mem_singleton.mpr ho

theorem memberPredicate_over (negated : Bool) (ho : K o) :
    (Lowered.memberPredicate negated o).Over K := by
  cases negated <;> exact over_of_operands rfl ho

def Step.TestsElement (K : Operand → Prop) : Step → Prop
  | .has _ | .hasNot _ => True
  | .hasPredicate _ p => p.Over K
  | _ => False

def Expr.Fits (s : Scope) : Expr → Prop
  | var x => s.has x
  | binary l (.arith a) r => (constant? (binary l (.arith a) r)).isSome
  | unary .negate e => (constant? (unary .negate e)).isSome
  | call name args _ => ∃ f, ScalarFunction.ofName? name = some f ∧ f.takes args.length
  | pattern _ | comprehension .. | star => False
  | _ => True

/-! ### Relations -/

structure Traversal.Relates (K : Operand → Prop) (F V : Traversal → Traversal → Prop)
    (W : Traversal → Prop) (A : Traversal → Traversal → Prop) : Prop where
  known : ∀ v, K (.value v)
  scalar : ∀ s : Scalar, V (constantValue (.scalar s)) (constantValue (.scalar s))
  choose : ∀ {t t' f f' h h'}, F t t' → V f f' → V h h' → V [.choose t f h] [.choose t' f' h']
  coalesce : ∀ {fs fs'}, Forall₂ V fs fs' → V [.coalesce fs] [.coalesce fs']
  union : ∀ {fs fs'}, Forall₂ V fs fs' → V [.union fs, .fold] [.union fs', .fold]
  behind : ∀ {f f' h}, V f f' → W h → V (f ++ h) (f' ++ h)
  steps : ∀ {g h}, W g → W h → W (g ++ h)
  values : ∀ key, W [.values key]
  null : W (constantValue .null)
  lookup : ∀ {fs}, (∀ f ∈ fs, W f) → W [.coalesce fs]
  is : ∀ {p : Predicate}, p.Over K → W [.is p]
  id : W [.id]
  label : W [.label]
  fold : W [.fold]
  filter : ∀ {f f'}, V f f' → F [.filter f] [.filter f']
  not : ∀ {f f'}, F f f' → F [.not f] [.not f']
  or : ∀ {fs fs'}, Forall₂ F fs fs' → F [.or fs] [.or fs']
  both : ∀ {f f' h h'}, F f f' → F h h' → F (f ++ h) (f' ++ h')
  empty : ∀ {f f'}, F f f' → f.isEmpty = f'.isEmpty
  keep : ∀ {f f' h h' s} {p : Predicate}, V f f' → A h h' → s = .is notNullPredicate ∨ s = .unfold →
    p.operands = [.label compareLabel] →
      F [.filter (f ++ [.is notNullPredicate, .mark compareLabel] ++ h ++ [s, .wherePredicate p])]
        [.filter (f' ++ [.is notNullPredicate, .mark compareLabel] ++ h' ++ [s, .wherePredicate p])]

structure Expr.LowersRelated (c c' : LoweringContext) (Q T : Expr → Prop) (E : Error → Prop)
    (K : Operand → Prop) (F V : Traversal → Traversal → Prop) (W : Traversal → Prop)
    (A : Traversal → Traversal → Prop) : Prop extends Traversal.Relates K F V W A where
  isNull : ∀ e, c.isNull e = c'.isNull e
  clause : c.clause = c'.clause
  kind? : ∀ {x}, Q (.var x) → c.scope.kind? x = c'.scope.kind? x
  mismatch : ∀ expected found, E (.typeMismatch expected found)
  fits : ∀ {e : Expr}, Q e → e.Fits c.scope ∨ ∀ err, E err
  part : ∀ {e : Expr}, Q e → ∀ x ∈ e.parts, Q x
  constant : ∀ {e : Expr} {v}, Q e → e.constant? = some v → V (constantValue v) (constantValue v)
  var : ∀ {x}, Q (.var x) → V [.select x] [.select x]
  param : ∀ {x}, Q (.param x) →
    K (.parameter x) ∧ V [.constant (.parameter x)] [.constant (.parameter x)]
  key : ∀ {base key}, Q (.access base key) → W [.select key]
  project : ∀ {entries fs fs'}, Q (.map entries) → Forall₂ V fs fs' → fs.length = entries.length →
    V (.project (entries.map Prod.fst) :: fs.map .by)
      (.project (entries.map Prod.fst) :: fs'.map .by)
  element : ∀ {name key} {s : Step}, T (.access (.var name) key) → s.TestsElement K →
    F (c.onElement name [s]) (c'.onElement name [s])

/-! ### Conditions -/

inductive Condition.Related (F : Traversal → Traversal → Prop) : Condition → Condition → Prop
  | always : Related F .always .always
  | never : Related F .never .never
  | test {f k : Traversal} (h : F f k) : Related F (.test f) (.test k)

def Condition.branch (value : Except Error Traversal) (otherwise : Traversal) :
    Condition → Except Error Traversal
  | .always => value
  | .never => return otherwise
  | .test filter => return [.choose filter (← value) otherwise]

namespace Condition.Related

variable {cs ds : List Condition}

theorem decided (b : Bool) : Related F (if b then .always else .never)
    (if b then .always else .never) := by
  cases b with
  | false => exact .never
  | true => exact .always

theorem pair {a b a' b' : Condition} (h : a.Related F b) (h' : a'.Related F b') :
    Forall₂ (Related F) [a, a'] [b, b'] :=
  .cons h (.cons h' .nil)

variable (hR : Traversal.Relates K F V W A)

include hR

theorem allSteps (h : Forall₂ (Related F) cs ds) :
    Option.Rel (fun f k => F f k ∨ f = [] ∧ k = []) (allSteps cs) (allSteps ds) := by
  induction h with
  | nil => exact .some (.inr ⟨rfl, rfl⟩)
  | @cons c d cs ds hcd _ ih =>
    cases hcd with
    | always => exact ih
    | never => exact .none
    | test hf =>
      rw [Condition.allSteps, Condition.allSteps]
      generalize Condition.allSteps cs = x at ih
      generalize Condition.allSteps ds = y at ih
      cases ih with
      | none => exact .none
      | some hrest =>
        refine .some (.inl ?_)
        rcases hrest with hrest | ⟨rfl, rfl⟩
        · exact hR.both hf hrest
        · simpa only [append_nil] using hf

theorem all (h : Forall₂ (Related F) cs ds) : (all cs).Related F (all ds) := by
  have hsteps := allSteps hR h
  unfold Condition.all
  generalize Condition.allSteps cs = x at hsteps
  generalize Condition.allSteps ds = y at hsteps
  cases hsteps with
  | none => exact .never
  | @some f k hf =>
    rcases hf with hf | ⟨rfl, rfl⟩
    · have hempty := hR.empty hf
      cases f with
      | nil =>
        cases k with
        | nil => exact .always
        | cons r k => cases hempty
      | cons s f =>
        cases k with
        | nil => cases hempty
        | cons r k => exact .test hf
    · exact .always

omit hR in
theorem anyTests (h : Forall₂ (Related F) cs ds) :
    Option.Rel (Forall₂ F) (anyTests cs) (anyTests ds) := by
  induction h with
  | nil => exact .some .nil
  | @cons c d cs ds hcd _ ih =>
    cases hcd with
    | always => exact .none
    | never => exact ih
    | test hf =>
      rw [Condition.anyTests, Condition.anyTests]
      generalize Condition.anyTests cs = x at ih
      generalize Condition.anyTests ds = y at ih
      cases ih with
      | none => exact .none
      | some hrest => exact .some (.cons hf hrest)

theorem any (h : Forall₂ (Related F) cs ds) : (any cs).Related F (any ds) := by
  have htests := anyTests h
  unfold Condition.any
  generalize Condition.anyTests cs = x at htests
  generalize Condition.anyTests ds = y at htests
  cases htests with
  | none => exact .always
  | some hfs =>
    cases hfs with
    | nil => exact .never
    | cons hf hrest =>
      cases hrest with
      | nil => exact .test hf
      | cons hf' hrest => exact .test (hR.or (.cons hf (.cons hf' hrest)))

end Condition.Related

/-! ### Readings -/

structure HalfRange.Related (Q : Expr → Prop) (E : Error → Prop) (K : Operand → Prop)
    (F : Traversal → Traversal → Prop) (a b : HalfRange) : Prop where
  subject : a.subject = b.subject
  limit : a.limit = b.limit
  fits : Q a.limit
  against : ∀ p : Predicate, p.Over K → Meet E F (a.against p) (b.against p)

structure Lowered.Related (Q : Expr → Prop) (E : Error → Prop) (K : Operand → Prop)
    (F V : Traversal → Traversal → Prop) (l k : Lowered) : Prop where
  expr : l.expr = k.expr
  fits : Q l.expr
  value : Meet E V l.value k.value
  holds : Meet E (Condition.Related F) l.holds k.holds
  fails : Meet E (Condition.Related F) l.fails k.fails
  lower? : Option.Rel (HalfRange.Related Q E K F) l.lower? k.lower?
  upper? : Option.Rel (HalfRange.Related Q E K F) l.upper? k.upper?

theorem LoweringContext.elementProperty?_eq_some (h : c.elementProperty? e = some (name, key)) :
    e = .access (.var name) key ∧ c.scope.isElement name := by
  unfold elementProperty? at h
  split at h
  · split at h
    · rename_i hname
      cases h
      exact ⟨rfl, hname⟩
    · cases h
  · cases h

variable (hL : LowersRelated c c' Q T E K F V W A)

include hL

namespace Expr.LowersRelated

theorem operand? (he : Q e) (ho : LoweringContext.operand? e = some o) : K o := by
  unfold LoweringContext.operand? at ho
  split at ho
  · cases ho
    exact (hL.param he).1
  · obtain ⟨v, -, rfl⟩ := Option.map_eq_some_iff.mp ho
    exact hL.known v

theorem refused (he : Q e) (hfits : ¬e.Fits c.scope) (err : Error) : E err :=
  (hL.fits he).resolve_left hfits err

theorem elementProperty? (he : Q e) : c.elementProperty? e = c'.elementProperty? e := by
  unfold LoweringContext.elementProperty?
  split
  · rename_i name key
    have hname : Q (.var name) := hL.part he _ mem_cons_self
    unfold Scope.isElement
    rw [hL.kind? hname]
  · rfl

end Expr.LowersRelated

namespace Lowered.Related

open Condition.Related (pair decided)

variable {l l' r r' : Lowered}

theorem allOf {cs ds : List Condition} (h : Forall₂ (Condition.Related F) cs ds) :
    (Condition.all cs).Related F (Condition.all ds) :=
  .all hL.toRelates h

theorem anyOf {cs ds : List Condition} (h : Forall₂ (Condition.Related F) cs ds) :
    (Condition.any cs).Related F (Condition.any ds) :=
  .any hL.toRelates h

theorem filterIs {f f' : Traversal} (hf : V f f') {v : Value}
    (hp : p.operands = [.value v]) : F [.filter (f ++ [.is p])] [.filter (f' ++ [.is p])] :=
  hL.filter (hL.behind hf (hL.is (over_of_operands hp (hL.known v))))

theorem valueIs (b : Bool) (h : Meet E V value value') :
    Meet E (Condition.Related F) (valueIs b value) (valueIs b value') :=
  h.bind fun _ _ hf => .ok (.test (filterIs hL hf rfl))

theorem ofValue (he : Q e) (h : Meet E V value value') :
    (ofValue e value).Related Q E K F V (ofValue e value') :=
  ⟨rfl, he, h, valueIs hL true h, valueIs hL false h, .none, .none⟩

theorem truthValue (hholds : Meet E (Condition.Related F) holds holds')
    (hfails : Meet E (Condition.Related F) fails fails') :
    Meet E V (truthValue holds fails) (truthValue holds' fails') := by
  refine hholds.bind fun t t' ht => hfails.bind fun f f' hf => ?_
  cases ht with
  | always => exact .ok (hL.scalar _)
  | never =>
    cases hf with
    | always | never => exact .ok (hL.scalar _)
    | test hf => exact .ok (hL.choose hf (hL.scalar _) (hL.scalar _))
  | test ht =>
    cases hf with
    | always | never => exact .ok (hL.choose ht (hL.scalar _) (hL.scalar _))
    | test hf =>
      exact .ok (hL.choose ht (hL.scalar _) (hL.choose hf (hL.scalar _) (hL.scalar _)))

theorem ofConditions (he : Q e) (hholds : Meet E (Condition.Related F) holds holds')
    (hfails : Meet E (Condition.Related F) fails fails') :
    (ofConditions e holds fails).Related Q E K F V (ofConditions e holds' fails') :=
  ⟨rfl, he, truthValue hL hholds hfails, hholds, hfails, .none, .none⟩

theorem ofLiteral (s : Scalar) (he : Q (.literal s)) :
    (ofLiteral s).Related Q E K F V (ofLiteral s) := by
  have hvalue := Meet.ok (E := E) (hL.scalar s)
  cases s with
  | bool a => exact ⟨rfl, he, hvalue, .ok (decided _), .ok (decided _), .none, .none⟩
  | null => exact ⟨rfl, he, hvalue, .ok .never, .ok .never, .none, .none⟩
  | int | float | str =>
    exact ⟨rfl, he, hvalue, .error (hL.mismatch _ _), .error (hL.mismatch _ _), .none, .none⟩

theorem ofParameter (he : Q (.param name)) :
    (ofParameter c name).Related Q E K F V (ofParameter c' name) := by
  have hvalue := Meet.ok (E := E) (hL.param he).2
  have hcondition (b : Bool) : Meet E (Condition.Related F)
      (if c.isNull (.param name) then .ok .never
        else Lowered.valueIs b (.ok [.constant (.parameter name)]))
      (if c'.isNull (.param name) then .ok .never
        else Lowered.valueIs b (.ok [.constant (.parameter name)])) := by
    rw [← hL.isNull]
    split
    · exact .ok .never
    · exact valueIs hL b hvalue
  exact ⟨rfl, he, hvalue, hcondition true, hcondition false, .none, .none⟩

theorem ofVariable (he : Q (.var name)) :
    (ofVariable c name).Related Q E K F V (ofVariable c' name) := by
  refine ofValue hL he ?_
  rw [Scope.has_eq, Scope.has_eq, ← hL.kind? he, ← hL.clause]
  split
  · exact .ok (hL.var he)
  · rename_i hnone
    rw [← Scope.has_eq] at hnone
    exact .error (hL.refused he hnone _)

theorem orConstant (he : Q e) (h : e.constant? = none → Meet E V value value') :
    Meet E V (orConstant e value) (orConstant e value') := by
  unfold Lowered.orConstant
  split
  · rename_i hv
    exact .ok (hL.constant he hv)
  · rename_i hnone
    exact h hnone

theorem baseKind (he : Q e) : Meet E (· = ·) (baseKind c e) (baseKind c' e) := by
  cases e with
  | var x =>
    rw [Lowered.baseKind, Lowered.baseKind, ← hL.kind? he, ← hL.clause]
    cases hk : c.scope.kind? x with
    | some k => exact .ok rfl
    | none =>
      refine .error (hL.refused he (fun hhas => ?_) _)
      rw [Fits, Scope.has_eq, hk] at hhas
      cases hhas
  | _ => exact .ok rfl

/-! ### Tests -/

theorem checkText (h : l.expr = l'.expr) :
    Meet E (fun _ _ => True) (checkText l) (checkText l') := by
  unfold Lowered.checkText
  rw [← h]
  split
  · split
    · exact .ok trivial
    · exact .error (hL.mismatch _ _)
  · exact .ok trivial

theorem againstRow (hl : Meet E A l.value l'.value) (hr : r.Related Q E K F V r')
    {p : Operand → Predicate} (hp : ∀ o, (p o).operands = [o]) :
    Meet E F (againstRow l r p) (againstRow l' r' p) :=
  hr.value.bind fun _ _ hright => hl.bind fun _ _ hleft =>
    .ok (hL.keep hright hleft (.inl rfl) (hp _))

section Sides

variable (hl : l.Related Q E K F V l')

include hl

theorem access (he : Q (.access l.expr key)) : Meet E V (access c l key) (access c' l' key) := by
  have hlookup (lookup : List Traversal) (h : ∀ f ∈ lookup, W f) : Meet E V
      (do return (← l.value) ++ [.coalesce lookup])
      (do return (← l'.value) ++ [.coalesce lookup]) :=
    hl.value.bind fun _ _ hf => .ok (hL.behind hf (hL.lookup h))
  unfold Lowered.access
  rw [← hl.expr]
  refine (baseKind hL hl.fits).bind ?_
  rintro kind _ rfl
  cases kind with
  | node | relationship => exact hlookup _ (by simp [hL.values, hL.null])
  | map => exact hlookup _ (by simp [hL.key he, hL.null])
  | value => exact hlookup _ (by simp [hL.values, hL.key he, hL.null])
  | scalar | list | aggregate => exact .error (hL.mismatch _ _)

theorem nullTest (hT : T l.expr) (wantNull : Bool) :
    Meet E (Condition.Related F) (nullTest c l wantNull) (nullTest c' l' wantNull) := by
  unfold Lowered.nullTest
  rw [← hl.expr, ← hL.elementProperty? hl.fits]
  split
  · rename_i hproperty
    rw [(elementProperty?_eq_some hproperty).1] at hT
    refine .ok (.test (hL.element hT ?_))
    cases wantNull <;> trivial
  · split
    · exact .ok (decided _)
    · refine hl.value.bind fun _ _ hf => .ok (.test ?_)
      cases wantNull <;> exact filterIs hL hf rfl

theorem against (hT : T l.expr) (hp : p.Over K) : Meet E F (against c l p) (against c' l' p) := by
  unfold Lowered.against
  rw [← hl.expr, ← hL.elementProperty? hl.fits]
  split
  · rename_i hproperty
    rw [(elementProperty?_eq_some hproperty).1] at hT
    exact .ok (hL.element hT hp)
  · have hnotNull := hL.is (p := notNullPredicate) (over_of_operands rfl (hL.known _))
    exact hl.value.bind fun _ _ hf =>
      .ok (hL.filter (hL.behind hf (hL.steps hnotNull (hL.is hp))))

theorem constantMember (hT : T l.expr) (hr : r.expr = r'.expr)
    (v : Value) (negated : Bool) : Meet E (Condition.Related F) (constantMember c l r v negated)
      (constantMember c' l' r' v negated) := by
  unfold Lowered.constantMember
  rw [← hl.expr, ← hr]
  split
  · split
    · exact .ok .never
    · dsimp only
      split
      · exact .ok (decided _)
      · exact (against hL hl hT (memberPredicate_over negated (hL.known _))).bind fun _ _ hf =>
          .ok (.test hf)
  · exact .error (hL.mismatch _ _)

theorem rowMember (hT : T l.expr) (hr : Meet E A r.value r'.value) (negated : Bool) :
    Meet E (Condition.Related F) (rowMember c l r negated) (rowMember c' l' r' negated) := by
  refine hl.value.bind fun _ _ hleft => hr.bind fun _ _ hright => ?_
  have hpositive := hL.keep (p := .compare .eq (.label compareLabel)) hleft hright (.inr rfl) rfl
  split
  · exact (nullTest hL hl hT false).bind fun _ _ ha =>
      .ok (allOf hL (pair ha (.test (hL.not hpositive))))
  · exact .ok (.test hpositive)

/-! ### Operators -/

theorem ofUnary (op : UnaryOp) (he : Q (.unary op l.expr))
    (h : (Expr.unary op l.expr).Consults T P) :
    (ofUnary c op l).Related Q E K F V (ofUnary c' op l') := by
  unfold Lowered.ofUnary
  rw [← hl.expr, ← hL.clause]
  cases op with
  | not => exact ofConditions hL he hl.fails hl.holds
  | isNull => exact ofConditions hL he (nullTest hL hl h true) (nullTest hL hl h false)
  | isNotNull => exact ofConditions hL he (nullTest hL hl h false) (nullTest hL hl h true)
  | negate =>
    refine ofValue hL he (orConstant hL he fun hnone => .error (hL.refused he (fun hfits => ?_) _))
    rw [Fits, hnone] at hfits
    cases hfits

variable (hr : r.Related Q E K F V r')

include hr

theorem comparison (cmp : Comparison)
    (h : Compared T P l.expr r.expr) (haway : P l.expr → Meet E A l.value l'.value) :
    Meet E (Condition.Related F) (comparison c l cmp r) (comparison c' l' cmp r') := by
  have hknown {l : Lowered} (hl : Q l.expr) {o : Operand}
      (ho : operand? l.expr = some o) (cmp : Comparison) :
      (Predicate.compare cmp o).Over K :=
    over_of_operands rfl (hL.operand? hl ho)
  unfold Lowered.comparison
  rw [← hl.expr, ← hr.expr, ← hL.isNull, ← hL.isNull]
  split
  · exact .ok .never
  · split
    · exact .ok (decided _)
    · split
      · rename_i ho _
        have hT := h.right (by rw [isKnown, ho]; rfl)
        exact (against hL hr hT (hknown hl.fits ho _)).map fun _ _ hf => .test hf
      · rename_i ho
        have hT := h.left (by rw [isKnown, ho]; rfl)
        exact (against hL hl hT (hknown hr.fits ho _)).map fun _ _ hf => .test hf
      · rename_i hnone
        have hleft := haway (h.away (by rw [isKnown, hnone]; rfl))
        exact (againstRow hL hleft hr fun _ => rfl).map fun _ _ hf => .test hf

theorem halfRange (h : Compared T P l.expr r.expr) (cmp op : Comparison) :
    Option.Rel (HalfRange.Related Q E K F)
      (halfRange c cmp l op r) (halfRange c' cmp l' op r') := by
  unfold Lowered.halfRange
  simp only [← hl.expr, ← hr.expr]
  split
  · rename_i hknown
    have hT := h.right (Bool.and_eq_true_iff.mp (Bool.and_eq_true_iff.mp hknown).1).2
    exact .some ⟨rfl, rfl, hl.fits, fun _ hp => against hL hr hT hp⟩
  · split
    · rename_i hknown
      have hT := h.left (Bool.and_eq_true_iff.mp hknown).2
      exact .some ⟨rfl, rfl, hr.fits, fun _ hp => against hL hl hT hp⟩
    · exact .none

theorem range? : Meet E (Option.Rel (Condition.Related F)) (range? c l r) (range? c' l' r') := by
  have hlow := hl.lower?
  have hhigh := hr.upper?
  unfold Lowered.range?
  generalize l.lower? = low at hlow
  generalize l'.lower? = low' at hlow
  generalize r.upper? = high at hhigh
  generalize r'.upper? = high' at hhigh
  cases hlow with
  | none => exact .ok .none
  | @some low low' hlow =>
    cases hhigh with
    | none => exact .ok .none
    | @some high high' hhigh =>
      dsimp only
      rw [← hlow.subject, ← hhigh.subject, ← hlow.limit, ← hhigh.limit, ← hL.isNull, ← hL.isNull]
      split
      · exact .ok .none
      · split
        · exact .ok (.some .never)
        · split
          · rename_i a b ha hb
            have hp : (Predicate.between a b).Over K := forall_mem_cons.mpr
              ⟨hL.operand? hlow.fits ha, forall_mem_singleton.mpr (hL.operand? hhigh.fits hb)⟩
            exact (hlow.against _ hp).bind fun _ _ hf => .ok (.some (.test hf))
          · exact .ok .none

theorem conjunction : Meet E (Condition.Related F) (conjunction c l r) (conjunction c' l' r') := by
  refine (range? hL hl hr).bind fun _ _ ho => ?_
  cases ho with
  | some h => exact .ok h
  | none =>
    exact hl.holds.bind fun _ _ ha => hr.holds.bind fun _ _ hb => .ok (allOf hL (pair ha hb))

theorem exclusive (same : Bool) :
    Meet E (Condition.Related F) (exclusive l r same) (exclusive l' r' same) := by
  refine hl.holds.bind fun _ _ ha => hl.fails.bind fun _ _ hna => hr.holds.bind fun _ _ hb =>
    hr.fails.bind fun _ _ hnb => .ok ?_
  split
  · exact anyOf hL (pair (allOf hL (pair ha hb)) (allOf hL (pair hna hnb)))
  · exact anyOf hL (pair (allOf hL (pair ha hnb)) (allOf hL (pair hna hb)))

theorem textMatch (m : TextMatch) (h : (Expr.binary l.expr (.text m) r.expr).Consults T P)
    (haway : P l.expr → Meet E A l.value l'.value) (negated : Bool) :
    Meet E (Condition.Related F) (textMatch c l m r negated) (textMatch c' l' m r' negated) := by
  have hanswer (f f' : Traversal) (hf : F f f') : Meet E (Condition.Related F)
      (if negated then do
          let a ← Lowered.nullTest c l false
          let b ← Lowered.nullTest c r false
          return .all [a, b, .test [.not f]]
        else return .test f)
      (if negated then do
          let a ← Lowered.nullTest c' l' false
          let b ← Lowered.nullTest c' r' false
          return .all [a, b, .test [.not f']]
        else return .test f') := by
    split
    · refine (nullTest hL hl h.1 false).bind fun a _ ha =>
        (nullTest hL hr h.2.1 false).bind fun b _ hb => .ok ?_
      exact allOf hL (.cons ha (pair hb (.test (hL.not hf))))
    · exact .ok (.test hf)
  unfold Lowered.textMatch
  rw [← hl.expr, ← hr.expr, ← hL.isNull, ← hL.isNull]
  split
  · exact .ok .never
  · refine (checkText hL hl.expr).bind fun _ _ _ => (checkText hL hr.expr).bind fun _ _ _ => ?_
    dsimp only
    split
    · rename_i ho
      have hp : (Predicate.text m _).Over K :=
        over_of_operands rfl (hL.operand? hr.fits ho)
      exact (against hL hl h.1 hp).bind hanswer
    · rename_i hunknown
      have hleft := haway (h.2.2 (by
        unfold isKnown
        cases hl : operand? l.expr with
        | some o => rfl
        | none =>
          cases hr : operand? r.expr with
          | none => rfl
          | some o => exact absurd hr (hunknown o hl)))
      exact (againstRow hL hleft hr fun _ => rfl).bind hanswer

theorem member (hT : T l.expr) (haway : Meet E A r.value r'.value) (negated : Bool) :
    Meet E (Condition.Related F) (member c l r negated) (member c' l' r' negated) := by
  unfold Lowered.member
  rw [← hl.expr, ← hr.expr, ← hL.isNull, ← hL.isNull]
  split
  · exact .ok .never
  · split
    · exact constantMember hL hl hT hr.expr _ negated
    · rename_i name _ hname
      have hparameter := (hL.param (hname ▸ hr.fits)).1
      exact (against hL hl hT (memberPredicate_over negated hparameter)).map fun _ _ hf => .test hf
    · exact rowMember hL hl hT haway negated

theorem ofBinary (op : BinaryOp)
    (he : Q (.binary l.expr op r.expr)) (h : (Expr.binary l.expr op r.expr).Consults T P)
    (hleft : P l.expr → Meet E A l.value l'.value) (hright : P r.expr → Meet E A r.value r'.value) :
    (ofBinary c l op r).Related Q E K F V (ofBinary c' l' op r') := by
  unfold Lowered.ofBinary
  rw [← hl.expr, ← hr.expr, ← hL.clause]
  cases op with
  | compare cmp =>
    exact { ofConditions hL he (comparison hL hl hr cmp h hleft)
      (comparison hL hl hr cmp.negate h hleft) with
      lower? := halfRange hL hl hr h _ _
      upper? := halfRange hL hl hr h _ _ }
  | and =>
    exact ofConditions hL he (conjunction hL hl hr)
      (hl.fails.bind fun _ _ ha => hr.fails.bind fun _ _ hb => .ok (anyOf hL (pair ha hb)))
  | or =>
    exact ofConditions hL he
      (hl.holds.bind fun _ _ ha => hr.holds.bind fun _ _ hb => .ok (anyOf hL (pair ha hb)))
      (hl.fails.bind fun _ _ ha => hr.fails.bind fun _ _ hb => .ok (allOf hL (pair ha hb)))
  | xor => exact ofConditions hL he (exclusive hL hl hr false) (exclusive hL hl hr true)
  | text m =>
    exact ofConditions hL he (textMatch hL hl hr m h hleft false)
      (textMatch hL hl hr m h hleft true)
  | member =>
    exact ofConditions hL he (member hL hl hr h.1 (hright h.2) false)
      (member hL hl hr h.1 (hright h.2) true)
  | arith a =>
    refine ofValue hL he (orConstant hL he fun hnone => .error (hL.refused he (fun hfits => ?_) _))
    rw [Fits, hnone] at hfits
    cases hfits

end Sides

/-! ### Calls, lists, maps and branches -/

section Parts

variable {args args' : List Lowered} (hargs : Forall₂ (Lowered.Related Q E K F V) args args')

include hargs

theorem ofCall {es : List Expr} {distinct : Bool} (he : Q (.call name es distinct))
    (hlength : args.length = es.length)
    (hT : ScalarFunction.ofName? name = some .existence → ∀ a, args.head? = some a → T a.expr) :
    (ofCall c (.call name es distinct) name args).Related Q E K F V
      (ofCall c' (.call name es distinct) name args') := by
  have hfirst (n : String) : Meet E (fun a b => a.Related Q E K F V b ∧ args.head? = some a)
      (firstArgument n args) (firstArgument n args') := by
    cases hargs with
    | nil =>
      refine .error (hL.refused he (fun hfits => ?_) _)
      obtain ⟨f, -, htakes⟩ := hfits
      rw [← hlength] at htakes
      cases f <;> cases htakes
    | cons ha _ => exact .ok ⟨ha, rfl⟩
  -- the value of the first argument with steps behind it
  have hvalue {steps : Traversal} (hsteps : W steps) : Meet E V
      (do return (← (← firstArgument name args).value) ++ steps)
      (do return (← (← firstArgument name args').value) ++ steps) :=
    (hfirst name).bind fun _ _ ha => ha.1.value.bind fun _ _ hf => .ok (hL.behind hf hsteps)
  have hbranches := Meet.mapM (hargs.imp fun _ _ ha => ha.value.bind
    (S := V) (f := fun f => .ok (f ++ [.is notNullPredicate]))
    (k := fun k => .ok (k ++ [.is notNullPredicate])) fun _ _ hf =>
      .ok (hL.behind hf (hL.is (over_of_operands rfl (hL.known _)))))
  unfold Lowered.ofCall
  rw [← hL.clause]
  split
  · rename_i hname
    exact ofConditions hL he
      ((hfirst _).bind fun a _ ha => nullTest hL ha.1 (hT hname a ha.2) false)
      ((hfirst _).bind fun a _ ha => nullTest hL ha.1 (hT hname a ha.2) true)
  · exact ofValue hL he (hvalue hL.id)
  · exact ofValue hL he (hvalue hL.label)
  · exact ofValue hL he (hvalue (hL.steps hL.label hL.fold))
  · exact ofValue hL he (hbranches.bind fun _ _ hfs =>
      .ok (hL.coalesce (rel_append hfs.2 (.cons (hL.scalar .null) .nil))))
  · rename_i hnone
    refine ofValue hL he (.error (hL.refused he (fun hfits => ?_) _))
    obtain ⟨f, hf, -⟩ := hfits
    rw [hnone] at hf
    cases hf

theorem listValue : Meet E V (listValue args) (listValue args') :=
  (Meet.mapM (hargs.imp fun _ _ ha => ha.value)).bind fun _ _ hfs => .ok (hL.union hfs.2)

theorem mapValue {entries : List (String × Expr)} (he : Q (.map entries))
    (hlength : args.length = entries.length) :
    Meet E V (mapValue (entries.map Prod.fst) args) (mapValue (entries.map Prod.fst) args') := by
  have hbys := Meet.mapM (hargs.imp fun _ _ ha => ha.value.bind
    (S := fun s s' => ∃ f k, s = Step.by f ∧ s' = Step.by k ∧ V f k)
    (f := fun f => .ok (.by f)) (k := fun k => .ok (.by k))
    fun f k hf => .ok ⟨f, k, rfl, rfl, hf⟩)
  refine hbys.bind fun steps steps' hsteps => .ok ?_
  obtain ⟨hsame, hsteps⟩ := hsteps
  obtain ⟨fs, ks, rfl, rfl, hfs⟩ : ∃ fs ks, steps = fs.map .by ∧ steps' = ks.map .by ∧
      Forall₂ V fs ks := by
    clear hsame
    induction hsteps with
    | nil => exact ⟨[], [], rfl, rfl, .nil⟩
    | cons hs _ ih =>
      obtain ⟨f, k, rfl, rfl, hf⟩ := hs
      obtain ⟨fs, ks, rfl, rfl, hfs⟩ := ih
      exact ⟨f :: fs, k :: ks, rfl, rfl, .cons hf hfs⟩
  rw [length_map] at hsame
  exact hL.project he hfs (hsame.trans hlength)

end Parts

theorem branches {operand operand' : Option Lowered}
    (hoperand : Option.Rel (Lowered.Related Q E K F V) operand operand')
    {otherwise otherwise' : Except Error Traversal} (hotherwise : Meet E V otherwise otherwise')
    {whens whens' : List (Lowered × Lowered)}
    (hwhens : Forall₂ (fun w w' => w.1.Related Q E K F V w'.1 ∧ w.2.Related Q E K F V w'.2 ∧
      ∀ o, operand = some o → Compared T P o.expr w.1.expr) whens whens')
    (haway : ∀ o o', operand = some o → operand' = some o' → P o.expr → Meet E A o.value o'.value) :
    Meet E V (branches c operand otherwise whens) (branches c' operand' otherwise' whens') := by
  induction hwhens with
  | nil => exact hotherwise
  | @cons w w' whens whens' hw _ ih =>
    obtain ⟨htest, hvalue, hcompared⟩ := hw
    refine ih.bind fun result result' hresult => ?_
    have hbranch : ∀ d d' : Condition, d.Related F d' →
        Meet E V (d.branch w.2.value result) (d'.branch w'.2.value result') := by
      intro d d' hd
      cases hd with
      | always => exact hvalue.value
      | never => exact .ok hresult
      | test hf => exact hvalue.value.bind fun _ _ hv => .ok (hL.choose hf hv hresult)
    cases hoperand with
    | none => exact htest.holds.bind hbranch
    | some ho =>
      exact (comparison hL ho htest .eq (hcompared _ rfl) (haway _ _ rfl rfl)).bind hbranch

end Lowered.Related

omit hL

/-! ### Expressions -/

namespace Expr

open Lowered.Related (ofValue orConstant listValue mapValue branches)

theorem lower_related {ι : Type} {c c' : ι → LoweringContext} {Q T P : ι → Expr → Prop}
    {F V : ι → Traversal → Traversal → Prop} {W : ι → Traversal → Prop} {σ : ι → ι}
    (hL : ∀ i, LowersRelated (c i) (c' i) (Q i) (T i) E K (F i) (V i) (W i) (V (σ i)))
    (hconsults : ∀ i e, Q i e → e.Consults (T i) (P i))
    (hnext : ∀ i e, P i e → Q (σ i) e ∧ e.lower (c i) = e.lower (c (σ i)) ∧
      e.lower (c' i) = e.lower (c' (σ i))) (e : Expr) (i : ι) (he : Q i e) :
    (e.lower (c i)).Related (Q i) E K (F i) (V i) (e.lower (c' i)) := by
  induction e using induction_parts generalizing i with
  | step e ih =>
    have hparts : ∀ x ∈ e.parts, (x.lower (c i)).Related (Q i) E K (F i) (V i) (x.lower (c' i)) :=
      fun x hx => ih x hx i ((hL i).part he x hx)
    have haway : ∀ x ∈ e.parts, P i (x.lower (c i)).expr →
        Meet E (V (σ i)) (x.lower (c i)).value (x.lower (c' i)).value := by
      intro x hx hP
      rw [lower_expr] at hP
      obtain ⟨hq, h, h'⟩ := hnext i x hP
      rw [h, h']
      exact (ih x hx (σ i) hq).value
    have hconsults := hconsults i e he
    cases e with
    | literal s => exact .ofLiteral (hL i) s he
    | var name => exact .ofVariable (hL i) he
    | param name => exact .ofParameter (hL i) he
    | access base key =>
      refine ofValue (hL i) he (Lowered.Related.access (hL i) (hparts base mem_cons_self) ?_)
      rwa [lower_expr]
    | binary l op r =>
      have hr := mem_cons_of_mem l (mem_singleton_self r)
      refine .ofBinary (hL i) (hparts l mem_cons_self) (hparts r hr) op ?_ ?_
        (haway l mem_cons_self) (haway r hr)
      · rwa [lower_expr, lower_expr]
      · rwa [lower_expr, lower_expr]
    | unary op x =>
      refine .ofUnary (hL i) (P := P i) (hparts x mem_cons_self) op ?_ ?_
      · rwa [lower_expr]
      · rwa [lower_expr]
    | call name args distinct =>
      rw [lower, lower, lowerAll_eq_map, lowerAll_eq_map]
      refine .ofCall (hL i) (forall₂_map_same hparts) he (length_map _) fun hname a ha => ?_
      rw [head?_map] at ha
      obtain ⟨x, hx, rfl⟩ := Option.map_eq_some_iff.mp ha
      rw [lower_expr]
      exact hconsults hname x hx
    | list items =>
      rw [lower, lower, lowerAll_eq_map, lowerAll_eq_map]
      exact ofValue (hL i) he (orConstant (hL i) he fun _ =>
        listValue (hL i) (forall₂_map_same hparts))
    | map entries =>
      rw [lower, lower, lowerEntries_eq_map, lowerEntries_eq_map]
      refine ofValue (hL i) he (orConstant (hL i) he fun _ =>
        mapValue (hL i) (forall₂_map_same fun e he => ?_) he (length_map _))
      exact hparts e.2 (mem_map_of_mem he)
    | caseOf operand whens otherwise =>
      have hwhen {w : Expr × Expr} (hw : w ∈ whens) {x : Expr} (hx : x ∈ [w.1, w.2]) :=
        hparts x (mem_append_left _ (mem_append_right _ (mem_flatMap_of_mem hw hx)))
      rw [lower, lower, lowerWhens_eq_map, lowerWhens_eq_map]
      refine ofValue (hL i) he (branches (hL i) (P := P i) ?_ ?_ (forall₂_map_same fun w hw =>
        ⟨hwhen hw mem_cons_self, hwhen hw (mem_cons_of_mem _ mem_cons_self), fun o ho => ?_⟩)
        fun o o' ho ho' => ?_)
      · cases operand with
        | none => exact .none
        | some o => exact .some (hparts o mem_cons_self)
      · cases otherwise with
        | none => exact .ok ((hL i).scalar .null)
        | some e => exact (hparts e (mem_append_right _ mem_cons_self)).value
      · cases operand with
        | none => cases ho
        | some x =>
          cases ho
          rw [lower_expr, lower_expr]
          exact hconsults x rfl w hw
      · cases operand with
        | none => cases ho
        | some x =>
          cases ho
          cases ho'
          exact haway x mem_cons_self
    | pattern | comprehension | star =>
      rw [lower, lower, (hL i).clause]
      exact ofValue (hL i) he (.error ((hL i).refused he (fun hfits => hfits) _))

theorem lower_related_of (hL : LowersRelated c c' Q T E K F V W V)
    (hconsults : ∀ e, Q e → e.Consults T Q) (e : Expr) (he : Q e) :
    (e.lower c).Related Q E K F V (e.lower c') :=
  lower_related (ι := Unit) (σ := id) (P := fun _ => Q) (fun _ => hL) (fun _ => hconsults)
    (fun _ _ h => ⟨h, rfl, rfl⟩) e () he

end Expr

/-! ### Equal readings -/

theorem Traversal.relates_eq : Relates (fun _ => True) Eq Eq (fun _ => True) Eq where
  known _ := trivial
  scalar _ := rfl
  choose := by
    rintro _ _ _ _ _ _ rfl rfl rfl
    rfl
  coalesce h := by
    rw [forall₂_eq_eq_eq] at h
    rw [h]
  union h := by
    rw [forall₂_eq_eq_eq] at h
    rw [h]
  behind hf _ := by rw [hf]
  steps _ _ := trivial
  values _ := trivial
  null := trivial
  lookup _ := trivial
  is _ := trivial
  id := trivial
  label := trivial
  fold := trivial
  filter hf := by rw [hf]
  not hf := by rw [hf]
  or h := by
    rw [forall₂_eq_eq_eq] at h
    rw [h]
  both hf hh := by rw [hf, hh]
  empty hf := by rw [hf]
  keep hf hh _ _ := by rw [hf, hh]

theorem Condition.Related.eq {d d' : Condition} (h : d.Related Eq d') : d = d' := by
  cases h with
  | test hf => rw [hf]
  | _ => rfl

namespace Lowered.Related

variable {l l' : Lowered} (h : l.Related Q E (fun _ => True) Eq Eq l')

theorem halfRange_eq {a b : Option HalfRange}
    (h : Option.Rel (HalfRange.Related Q E (fun _ => True) Eq) a b) : a = b := by
  cases h with
  | none => rfl
  | @some a b h =>
    obtain ⟨_, _, _⟩ := a
    obtain ⟨_, _, _⟩ := b
    obtain ⟨rfl, rfl, -, hagainst⟩ := h
    cases funext fun p => (hagainst p fun _ _ => trivial).eq fun _ _ h => h
    rfl

include h

theorem eq : l = l' := by
  have hvalue := h.value.eq fun _ _ h => h
  have hholds := h.holds.eq fun _ _ h => h.eq
  have hfails := h.fails.eq fun _ _ h => h.eq
  have hlower := halfRange_eq h.lower?
  have hupper := halfRange_eq h.upper?
  obtain ⟨_, _, _, _, _, _⟩ := l
  obtain ⟨_, _, _, _, _, _⟩ := l'
  cases h.expr
  cases hvalue
  cases hholds
  cases hfails
  cases hlower
  cases hupper
  rfl

end Lowered.Related

namespace Expr

theorem lowersRelated_eq (hnull : ∀ e, c.isNull e = c'.isNull e) (hclause : c.clause = c'.clause)
    (hkind : ∀ {x}, Q (.var x) → c.scope.kind? x = c'.scope.kind? x)
    (hpart : ∀ {e : Expr}, Q e → ∀ x ∈ e.parts, Q x)
    (helement : ∀ {name key}, T (.access (.var name) key) →
      ∀ steps, c.onElement name steps = c'.onElement name steps) :
    LowersRelated c c' Q T (fun _ => True) (fun _ => True) Eq Eq (fun _ => True) Eq where
  toRelates := Traversal.relates_eq
  isNull := hnull
  clause := hclause
  kind? := hkind
  mismatch _ _ := trivial
  fits _ := .inr fun _ => trivial
  part := hpart
  constant _ _ := rfl
  var _ := rfl
  param _ := ⟨trivial, rfl⟩
  key _ := trivial
  project _ h _ := by
    rw [forall₂_eq_eq_eq] at h
    rw [h]
  element hT _ := helement hT _

end Expr

end CypherTraversal
