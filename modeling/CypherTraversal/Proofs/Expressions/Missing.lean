import CypherTraversal.Proofs.Bindings.Paths
import CypherTraversal.Proofs.Conditions.Exclusive
import CypherTraversal.Proofs.Expressions.Accesses

/-! # Values that lead nowhere

From a row the value of an expression leads to one object, null included, with one exception: what
has no identifier, or no type, is dropped where these are asked for. Such a call leads nowhere, and
neither does what is read of it, or a CASE that comes to it. A list leaves out these items. -/

namespace CypherTraversal

open Run List Traversal Lowered CypherTraversal.Expr

variable {back : Traversal} {o : Operand} {fs : List Traversal} {c : LoweringContext}
  {ps : Parameters} {g g' : Graph} {t : Traverser} {us : List Traverser} {e a : Expr}
  {f front : Traversal} {s : Step} {d : Condition} {operand otherwise r : Option Expr}
  {whens : List (Expr × Expr)} {items : List Expr} {value : Except Error Traversal}

namespace Expr

/-! ### Branches -/

def whenTest (operand : Option Expr) (w : Expr) : Expr :=
  match operand with
  | some o => .binary o (.compare .eq) w
  | none => w

def Takes (c : LoweringContext) (g : Graph) (t : Traverser) (operand : Option Expr) (w : Expr) :
    Prop :=
  ∃ d, ((whenTest operand w).lower c).holds = .ok d ∧ d.Keeps c.parameters g t

inductive Chooses (c : LoweringContext) (g : Graph) (t : Traverser)
    (operand otherwise : Option Expr) : List (Expr × Expr) → Option Expr → Prop
  | first {w v : Expr} {rest : List (Expr × Expr)} (h : Takes c g t operand w) :
    Chooses c g t operand otherwise ((w, v) :: rest) (some v)
  | next {w v : Expr} {rest : List (Expr × Expr)} {r : Option Expr} (h : ¬Takes c g t operand w)
    (hrest : Chooses c g t operand otherwise rest r) :
    Chooses c g t operand otherwise ((w, v) :: rest) r
  | last : Chooses c g t operand otherwise [] otherwise

theorem Chooses.unique {r r' : Option Expr} (h : Chooses c g t operand otherwise whens r)
    (h' : Chooses c g t operand otherwise whens r') : r = r' := by
  induction h with
  | first htakes =>
    cases h' with
    | first => rfl
    | next hnot => exact absurd htakes hnot
  | next hnot _ ih =>
    cases h' with
    | first htakes => exact absurd htakes hnot
    | next _ hrest => exact ih hrest
  | last =>
    cases h'
    rfl

theorem Chooses.of_parts {P : Expr → Prop} (h : Chooses c g t operand otherwise whens r)
    (hwhens : ∀ w ∈ whens, P w.1 ∧ P w.2) (hotherwise : ∀ x, otherwise = some x → P x) :
    ∀ x, r = some x → P x := by
  induction h with
  | first =>
    rintro x ⟨⟩
    exact (hwhens _ mem_cons_self).2
  | next _ _ ih => exact ih fun w hw => hwhens w (mem_cons_of_mem _ hw)
  | last => exact hotherwise

/-! ### Misses -/

/-- The expression leads nowhere on the row, not even to null. -/
inductive Misses (c : LoweringContext) (g : Graph) (t : Traverser) : Expr → Prop
  | id {name : String} {a : Expr} {args : List Expr} {distinct : Bool}
    (hname : ScalarFunction.ofName? name = some .id)
    (h : ∀ x, a.ReadsAs c g t x → Process.identifier? x = none) :
    Misses c g t (call name (a :: args) distinct)
  | type {name : String} {a : Expr} {args : List Expr} {distinct : Bool}
    (hname : ScalarFunction.ofName? name = some .type)
    (h : ∀ x, a.ReadsAs c g t x → g.label? x = none) :
    Misses c g t (call name (a :: args) distinct)
  | access {base : Expr} {key : String} (h : Misses c g t base) : Misses c g t (access base key)
  | case {operand otherwise : Option Expr} {whens : List (Expr × Expr)} {v : Expr}
    (hv : Chooses c g t operand otherwise whens (some v)) (h : Misses c g t v) :
    Misses c g t (caseOf operand whens otherwise)

end Expr

/-! ### Rows of steps -/

theorem Lowered.orConstant_eq_ok (h : orConstant e value = .ok f) :
    (∃ v, f = constantValue v) ∨ value = .ok f := by
  unfold orConstant at h
  split at h
  · cases h
    exact .inl ⟨_, rfl⟩
  · exact .inr h

theorem Lowered.firstArgument_eq_ok {name : String} {args : List Expr}
    (h : (firstArgument name (lowerAll c args) >>= fun a => a.value >>= fun front =>
      pure (front ++ back)) = .ok f) :
    ∃ a rest front, args = a :: rest ∧ (a.lower c).value = .ok front ∧ f = front ++ back := by
  cases args with
  | nil => cases h
  | cons a rest =>
    obtain ⟨_, ha, h⟩ := bind_eq_ok.mp h
    cases ha
    obtain ⟨front, hfront, h⟩ := bind_eq_ok.mp h
    cases h
    exact ⟨a, rest, front, rfl, hfront, rfl⟩

theorem rows_of_constant
    (hrun : (run ps [.constant o] [t]).outcome g = (.ok us, g')) : us ≠ [] := by
  rw [constant_outcome] at hrun
  obtain ⟨y, -, rfl⟩ := map_eq_ok.mp (congrArg Prod.fst hrun)
  exact cons_ne_nil _ _

theorem rows_of_coalesce
    (hrun : (run ps [.coalesce (fs ++ [[.constant o]])] [t]).outcome g = (.ok us, g')) :
    us ≠ [] := by
  rw [run_step rfl, Process.eachRow_one] at hrun
  induction fs generalizing g with
  | nil =>
    obtain ⟨ts, m, hts, hrun⟩ := of_outcome_bind hrun
    rw [if_neg (by simpa using rows_of_constant hts)] at hrun
    cases hrun
    exact rows_of_constant hts
  | cons f fs ih =>
    obtain ⟨ts, m, hts, hrun⟩ := of_outcome_bind hrun
    split at hrun
    · exact ih hrun
    · rename_i hne
      cases hrun
      simpa using hne

theorem rows_of_project {keys : List String}
    (hrun : (run ps (.project keys :: fs.map .by) [t]).outcome g = (.ok us, g')) :
    us ≠ [] := by
  rw [run_modulated rfl (Step.modulate_by ps fs)] at hrun
  obtain ⟨ws, m, hws, hrun⟩ := of_outcome_bind hrun
  rw [Process.project, Process.move, Process.eachRow_one] at hws
  obtain ⟨y, m', hy, hws⟩ := of_outcome_bind hws
  obtain ⟨z, m', -, hy⟩ := of_outcome_bind hy
  cases hy
  cases hws
  cases hrun
  exact cons_ne_nil _ _

theorem Condition.rows_of_branch {k : Traversal} (hd : d.Filters fun _ => true)
    (hf : d.branch value k = .ok f) (hrun : (f.run ps [t]).outcome g = (.ok us, g')) :
    (d.Keeps ps g t ∧ ∃ h, value = .ok h ∧ (h.run ps [t]).outcome g = (.ok us, g')) ∨
      ¬d.Keeps ps g t ∧ (k.run ps [t]).outcome g = (.ok us, g') := by
  cases d with
  | always => exact .inl ⟨rfl, f, hf, hrun⟩
  | never =>
    cases hf
    exact .inr ⟨Condition.not_keeps_never, hrun⟩
  | test e =>
    obtain ⟨h, hh, hf⟩ := bind_eq_ok.mp hf
    cases hf
    rw [run_step (p := .choose (e.run ps) (h.run ps) (k.run ps)) rfl, Process.choose,
      Process.eachRow_one] at hrun
    obtain ⟨b, m, hleads, hrun⟩ := of_outcome_bind hrun
    obtain ⟨ws, m', hws, hleads⟩ := of_outcome_bind hleads
    cases hleads
    have hends : (Condition.test e).Ends ps g t := ⟨ws, m, hws⟩
    obtain ⟨b, hb, hkeeps⟩ := hends.decided hd
    cases hws.symm.trans hb
    rw [← hkeeps]
    cases b with
    | true => exact .inl ⟨rfl, h, hh, hrun⟩
    | false => exact .inr ⟨Bool.false_ne_true, hrun⟩

theorem Expr.readsAs_iff {x : Object} (hf : (e.lower c).value = .ok f)
    (hrun : (f.run c.parameters [t]).outcome g = (.ok us, g')) :
    e.ReadsAs c g t x ↔ us.map Traverser.object = [x] := by
  have hobjects : f.objects c.parameters t g = .ok (us.map Traverser.object) := by
    rw [objects, hrun]
    rfl
  constructor
  · rintro ⟨f', hf', hx⟩
    cases hf.symm.trans hf'
    exact Except.ok.inj (hobjects.symm.trans hx)
  · exact fun h => ⟨f, hf, h ▸ hobjects⟩

theorem rows_behind_value {b : Traverser → Bool} {F : Traverser → Traverser}
    (hback : back.Passes c.parameters g b F) (hfront : (a.lower c).value = .ok front)
    (hrun : ((front ++ back : Traversal).run c.parameters [t]).outcome g = (.ok us, g')) :
    ∃ ws, (front.run c.parameters [t]).outcome g = (.ok ws, g) ∧ us = (ws.filter b).map F := by
  rw [run_append hback.starts] at hrun
  obtain ⟨ws, m, hws, hus⟩ := of_outcome_bind hrun
  obtain rfl := graph_of_value hfront hws
  rw [hback.outcome] at hus
  cases hus
  exact ⟨ws, hws, rfl⟩

theorem rows_of_lookup {m : Graph → Object → Option Object}
    (hs : Step.stage c.parameters s = .process (.moveIn fun g t => m g t.object))
    (hfront : (a.lower c).value = .ok front)
    (hrun : ((front ++ [s] : Traversal).run c.parameters [t]).outcome g = (.ok us, g')) :
    us = [] ↔ ∀ x, a.ReadsAs c g t x → m g x = none := by
  obtain ⟨ws, hws, rfl⟩ := rows_behind_value (.moveIn hs) hfront hrun
  simp only [readsAs_iff hfront hws]
  obtain rfl | ⟨w, rfl, -⟩ := rows_of_value hfront hws
  · simp
  · simp

namespace Expr

/-! ### Expressions -/

theorem rows_of_branches
    (hf : branches c (lowerOption c operand)
      (((lowerOption c otherwise).map Lowered.value).getD (.ok (constantValue .null)))
      (lowerWhens c whens) = .ok f)
    (hrun : (f.run c.parameters [t]).outcome g = (.ok us, g')) :
    ∃ r k, Chooses c g t operand otherwise whens r ∧
      ((lowerOption c r).map Lowered.value).getD (.ok (constantValue .null)) = .ok k ∧
      (k.run c.parameters [t]).outcome g = (.ok us, g') := by
  induction whens generalizing f with
  | nil => exact ⟨otherwise, f, .last, hf, hrun⟩
  | cons branch whens ih =>
    obtain ⟨w, v⟩ := branch
    obtain ⟨rest, hrest, hf⟩ := bind_eq_ok.mp hf
    obtain ⟨d, htest, hbranch⟩ : ∃ d, ((whenTest operand w).lower c).holds = .ok d ∧
        d.branch (v.lower c).value rest = .ok f := by
      cases operand <;> exact bind_eq_ok.mp hf
    obtain ⟨hkeeps, k, hk, hrun⟩ | ⟨hnot, hrun⟩ :=
      Condition.rows_of_branch (filters_of_holds htest) hbranch hrun
    · exact ⟨some v, k, .first ⟨d, htest, hkeeps⟩, hk, hrun⟩
    · obtain ⟨r, k, hr, hk⟩ := ih hrest hrun
      refine ⟨r, k, .next ?_ hr, hk⟩
      rintro ⟨d', hd', hkeeps⟩
      cases htest.symm.trans hd'
      exact hnot hkeeps

theorem rows_of_truthValue (he : e.asks) (hf : (e.lower c).value = .ok f)
    (hrun : (f.run c.parameters [t]).outcome g = (.ok us, g')) : us ≠ [] := by
  rw [value_of_asks he] at hf
  obtain ⟨yes, hyes, hno⟩ := bind_eq_ok.mp hf
  obtain ⟨no, hno, -⟩ := bind_eq_ok.mp hno
  rw [hyes, hno, truthValue_eq] at hf
  obtain ⟨rest, hrest, hf⟩ := bind_eq_ok.mp hf
  obtain ⟨-, k, hk, hrun⟩ | ⟨-, hrun⟩ :=
    Condition.rows_of_branch (filters_of_holds hyes) hf hrun
  · cases hk
    exact rows_of_constant hrun
  · obtain ⟨-, k, hk, hrun⟩ | ⟨-, hrun⟩ :=
      Condition.rows_of_branch (filters_of_fails hno) hrest hrun
    · cases hk
      exact rows_of_constant hrun
    · exact rows_of_constant hrun

theorem access_nothing_iff {base : Expr} {key : String}
    (ih : ∀ {f us}, (base.lower c).value = .ok f →
      (f.run c.parameters [t]).outcome g = (.ok us, g) → (us = [] ↔ base.Misses c g t))
    (hf : ((access base key).lower c).value = .ok f)
    (hrun : (f.run c.parameters [t]).outcome g = (.ok us, g')) :
    us = [] ↔ (access base key).Misses c g t := by
  obtain ⟨k, hk, -⟩ := bind_eq_ok.mp hf
  rw [lower_expr] at hk
  obtain ⟨front, back, hfront, rfl, hback⟩ := access_passes hk hf
  obtain ⟨ws, hws, rfl⟩ := rows_behind_value (hback c.parameters g) hfront hrun
  have hmisses : (access base key).Misses c g t ↔ base.Misses c g t :=
    ⟨fun h => by cases h; assumption, .access⟩
  rw [hmisses, ← ih hfront hws, filter_true, map_eq_nil_iff]

theorem call_nothing_iff {name : String} {args : List Expr} {distinct : Bool}
    (hf : ((call name args distinct).lower c).value = .ok f)
    (hrun : (f.run c.parameters [t]).outcome g = (.ok us, g')) :
    us = [] ↔ (call name args distinct).Misses c g t := by
  have hcall := hf
  rw [lower, ofCall] at hf
  split at hf
  case h_1 hname =>
    have hasks : (call name args distinct).asks := beq_iff_eq.mpr hname
    refine iff_of_false (rows_of_truthValue hasks hcall hrun) ?_
    rintro (h | h) <;> cases hname.symm.trans h
  case h_2 hname =>
    obtain ⟨a, args, front, rfl, hfront, rfl⟩ := firstArgument_eq_ok hf
    rw [rows_of_lookup rfl hfront hrun]
    refine ⟨.id hname, ?_⟩
    rintro (⟨-, h⟩ | ⟨h, -⟩)
    · exact h
    · cases hname.symm.trans h
  case h_3 hname =>
    obtain ⟨a, args, front, rfl, hfront, rfl⟩ := firstArgument_eq_ok hf
    rw [rows_of_lookup (m := fun g x => (g.label? x).map .str) rfl hfront hrun]
    simp only [Option.map_eq_none_iff]
    refine ⟨.type hname, ?_⟩
    rintro (⟨h, -⟩ | ⟨-, h⟩)
    · cases hname.symm.trans h
    · exact h
  case h_4 hname =>
    obtain ⟨a, args, front, rfl, hfront, rfl⟩ := firstArgument_eq_ok hf
    obtain ⟨items, rfl⟩ := rows_of_fold (k := front ++ [.label]) (by simpa using hrun)
    refine iff_of_false (cons_ne_nil _ _) ?_
    rintro (h | h) <;> cases hname.symm.trans h
  case h_5 hname =>
    obtain ⟨fs, -, hf⟩ := bind_eq_ok.mp hf
    cases hf
    refine iff_of_false (rows_of_coalesce hrun) ?_
    rintro (h | h) <;> cases hname.symm.trans h
  case h_6 => cases hf

theorem caseOf_nothing_iff
    (ih : ∀ x, Chooses c g t operand otherwise whens (some x) → ∀ {f us g'},
      (x.lower c).value = .ok f → (f.run c.parameters [t]).outcome g = (.ok us, g') →
        (us = [] ↔ x.Misses c g t))
    (hf : ((caseOf operand whens otherwise).lower c).value = .ok f)
    (hrun : (f.run c.parameters [t]).outcome g = (.ok us, g')) :
    us = [] ↔ (caseOf operand whens otherwise).Misses c g t := by
  obtain ⟨r, k, hr, hk, hrun⟩ := rows_of_branches hf hrun
  cases r with
  | none =>
    cases hk
    refine iff_of_false (rows_of_constant hrun) ?_
    rintro (_ | _ | _ | ⟨hv, h⟩)
    cases hr.unique hv
  | some v =>
    rw [ih v hr hk hrun]
    refine ⟨.case hr, ?_⟩
    rintro (_ | _ | _ | ⟨hv, h⟩)
    cases hr.unique hv
    exact h

theorem nothing_iff_misses (hvars : ∀ x, c.scope.has x → (t.place.selected x).isSome)
    (hf : (e.lower c).value = .ok f)
    (hrun : (f.run c.parameters [t]).outcome g = (.ok us, g')) : us = [] ↔ e.Misses c g t := by
  induction e using induction_parts generalizing f us g' with
  | step e ih =>
    -- most expressions lead to a row, and none of these misses
    have hsure (hus : us ≠ []) (hnot : ¬e.Misses c g t) : us = [] ↔ e.Misses c g t :=
      iff_of_false hus hnot
    cases e with
    | literal s | param name =>
      cases hf
      exact hsure (rows_of_constant hrun) (by rintro ⟨⟩)
    | var name =>
      change (if c.scope.has name then _ else _) = Except.ok f at hf
      split at hf
      · rename_i hname
        cases hf
        obtain ⟨x, hx⟩ := Option.isSome_iff_exists.mp (hvars name hname)
        cases hrun.symm.trans (select_outcome hx g)
        exact hsure (cons_ne_nil _ _) (by rintro ⟨⟩)
      · cases hf
    | access base key => exact access_nothing_iff (ih base mem_cons_self) hf hrun
    | binary l op r =>
      cases op with
      | arith a =>
        obtain ⟨v, rfl⟩ | hf := orConstant_eq_ok hf
        · exact hsure (rows_of_constant hrun) (by rintro ⟨⟩)
        · cases hf
      | _ => exact hsure (rows_of_truthValue rfl hf hrun) (by rintro ⟨⟩)
    | unary op x =>
      cases op with
      | negate =>
        obtain ⟨v, rfl⟩ | hf := orConstant_eq_ok hf
        · exact hsure (rows_of_constant hrun) (by rintro ⟨⟩)
        · cases hf
      | _ => exact hsure (rows_of_truthValue rfl hf hrun) (by rintro ⟨⟩)
    | call name args distinct => exact call_nothing_iff hf hrun
    | list items =>
      obtain ⟨v, rfl⟩ | hf := orConstant_eq_ok hf
      · exact hsure (rows_of_constant hrun) (by rintro ⟨⟩)
      · obtain ⟨fs, -, hf⟩ := bind_eq_ok.mp hf
        cases hf
        obtain ⟨items, rfl⟩ := rows_of_fold (k := [.union fs]) hrun
        exact hsure (cons_ne_nil _ _) (by rintro ⟨⟩)
    | map entries =>
      obtain ⟨v, rfl⟩ | hf := orConstant_eq_ok hf
      · exact hsure (rows_of_constant hrun) (by rintro ⟨⟩)
      · obtain ⟨steps, hsteps, hf⟩ := bind_eq_ok.mp hf
        cases hf
        obtain ⟨fs, -, rfl⟩ := mapM_by hsteps
        exact hsure (rows_of_project hrun) (by rintro ⟨⟩)
    | caseOf operand whens otherwise =>
      obtain ⟨-, hwhens, hotherwise⟩ := forall_parts_caseOf.mp @ih
      exact caseOf_nothing_iff (fun x hx => hx.of_parts hwhens hotherwise x rfl) hf hrun
    | pattern p | comprehension v s f r | star => cases hf

/-! ### Lists -/

theorem not_misses_of_constant {v : Value} (he : e.constant? = some v) : ¬e.Misses c g t := by
  intro h
  cases h <;> cases he

theorem constants_length {vs : List Value} (h : constants? items = some vs) :
    vs.length = items.length ∧ ∀ i ∈ items, ¬i.Misses c g t := by
  have hvalues := constants?_eq_some h
  refine ⟨hvalues.length_eq.symm, fun i hi => ?_⟩
  obtain ⟨v, -, hv⟩ := mem_of_forall₂ hvalues.flip hi
  exact not_misses_of_constant hv

theorem rows_of_union (hvars : ∀ x, c.scope.has x → (t.place.selected x).isSome)
    (hfs : Forall₂ (fun i f => (i.lower c).value = .ok f) items fs)
    (hrun : (Process.union t (Step.runEach c.parameters fs)).outcome g = (.ok us, g')) :
    us.length ≤ items.length ∧ (us.length = items.length ↔ ∀ i ∈ items, ¬i.Misses c g t) := by
  induction hfs generalizing us g' with
  | nil =>
    cases hrun
    exact ⟨Nat.le_refl 0, iff_of_true rfl nofun⟩
  | @cons i f items fs hf _ ih =>
    obtain ⟨first, m, rest, hfirst, hrest, rfl⟩ := of_outcome_both hrun
    obtain rfl := graph_of_value hf hfirst
    obtain ⟨hle, heq⟩ := ih hrest
    have hmisses := nothing_iff_misses hvars hf hfirst
    rw [length_append, length_cons, forall_mem_cons, ← hmisses, ← heq]
    obtain rfl | ⟨w, rfl, -⟩ := rows_of_value hf hfirst
    · simp only [length_nil, not_true_eq_false, false_and, iff_false]
      omega
    · simp only [length_singleton, cons_ne_nil, not_false_eq_true, true_and]
      omega

theorem rows_of_list (hrun : (run ps [.union fs, .fold] [t]).outcome g = (.ok us, g')) :
    ∃ ws, (Process.union t (Step.runEach ps fs)).outcome g = (.ok ws, g') ∧
      us.map Traverser.object = [.list (ws.map Traverser.object)] := by
  change (run ps ([.union fs] ++ [.fold]) [t]).outcome g = _ at hrun
  obtain ⟨ws, m, hws, hrun⟩ := of_outcome_bind hrun
  rw [Process.eachRow_one] at hws
  cases hrun
  exact ⟨ws, hws, rfl⟩

end Expr

/-- **Values are single unless they miss.** On a row where all variables in scope can be selected,
the value of an expression leads to one row, or to none exactly if the expression misses: if it
comes to the identifier or to the type of what has none. A list has at most as many items as were
written, and all of them exactly if none of these misses. -/
theorem value_is_single_unless_missed {c : LoweringContext} {g g' : Graph} {t : Traverser}
    {e : Expr} {f : Traversal} {us : List Traverser}
    (hvars : ∀ x, c.scope.has x → (t.place.selected x).isSome)
    (hf : (e.lower c).value = .ok f)
    (hrun : (f.run c.parameters [t]).outcome g = (.ok us, g')) :
    (e.Misses c g t → us = []) ∧ (¬e.Misses c g t → ∃ u, us = [u]) ∧
    ∀ items, e = .list items → ∃ ys, us.map Traverser.object = [.list ys] ∧
      ys.length ≤ items.length ∧
      (ys.length = items.length ↔ ∀ i ∈ items, ¬i.Misses c g t) := by
  have hmisses := nothing_iff_misses hvars hf hrun
  refine ⟨hmisses.mpr, fun hnot => ?_, ?_⟩
  · obtain rfl | ⟨u, rfl, -⟩ := rows_of_value hf hrun
    · exact absurd (hmisses.mp rfl) hnot
    · exact ⟨u, rfl⟩
  · rintro items rfl
    rw [lower, ofValue, orConstant, constant?] at hf
    cases hconstant : constants? items with
    | some vs =>
      rw [hconstant] at hf
      cases hf
      cases hrun.symm.trans constant_outcome
      obtain ⟨hlength, hitems⟩ := constants_length hconstant
      refine ⟨Object.ofItems vs, rfl, ?_⟩
      rw [Object.length_ofItems, hlength]
      exact ⟨Nat.le_refl _, iff_of_true rfl hitems⟩
    | none =>
      rw [hconstant] at hf
      obtain ⟨fs, hfs, hsteps⟩ := bind_eq_ok.mp hf
      cases hsteps
      obtain ⟨ws, hws, hus⟩ := rows_of_list hrun
      rw [lowerAll_eq_map, mapM_map] at hfs
      refine ⟨_, hus, ?_⟩
      rw [length_map]
      exact rows_of_union hvars (mapM_eq_ok.mp hfs) hws

theorem identifier_and_null_are_listed :
    let c : LoweringContext :=
      { scope := { bindings := [⟨"n", .node⟩] }, parameters := [], current := none,
        clause := "RETURN" }
    let t : Traverser := { object := .null, path := [("n", .vertex ⟨1⟩)] }
    let items : List Expr := [.call "id" [.var "n"] false, .access (.var "n") "height"]
    (∀ x, c.scope.has x → (t.place.selected x).isSome) ∧ (∀ i ∈ items, ¬i.Misses c .modern t) ∧
      ∃ f us ys, ((Expr.list items).lower c).value = .ok f ∧
        (f.run c.parameters [t]).outcome .modern = (.ok us, .modern) ∧
        us.map Traverser.object = [.list ys] ∧ ys.length = 2 := by
  intro c t items
  have hvars : ∀ x, c.scope.has x → (t.place.selected x).isSome := by
    intro x hx
    obtain ⟨b, hb⟩ := Option.isSome_iff_exists.mp hx
    obtain rfl := mem_singleton.mp (mem_of_find?_eq_some hb)
    obtain rfl : "n" = x := by simpa using find?_some hb
    rfl
  have hitems : ∀ i ∈ items, ¬i.Misses c .modern t := by
    refine forall_mem_cons.mpr ⟨?_, forall_mem_cons.mpr ⟨?_, nofun⟩⟩
    · rintro (⟨-, h⟩ | ⟨hname, -⟩)
      · cases h (.vertex ⟨1⟩) ⟨_, rfl, rfl⟩
      · cases hname
    · rintro (_ | _ | ⟨⟨⟩⟩)
  obtain ⟨-, -, hlist⟩ := value_is_single_unless_missed (g := .modern) hvars
    (e := .list items) rfl rfl
  obtain ⟨ys, hys, -, hlength⟩ := hlist items rfl
  exact ⟨hvars, hitems, _, _, ys, rfl, rfl, hys, hlength.mpr hitems⟩

theorem list_is_short_of_identifier :
    ((Session.submit ⟨.native, true, .empty "g"⟩ "RETURN [id(1), 2] AS l" []).1.toOption.map
      fun table => table.rows.map fun row => (row.find? "l").map Value.text) =
        some [some "[2]"] := by
  decide +kernel

end CypherTraversal
