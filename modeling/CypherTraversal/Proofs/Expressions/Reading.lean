import CypherTraversal.Proofs.Expressions.Composed
import CypherTraversal.Proofs.Run.Reading

/-! # Traversals of expressions only read

Whatever an expression is read as, its steps change nothing, and they write down no keys but those
of the maps in the expression. As a condition its steps do nothing but let rows pass. -/

namespace CypherTraversal

open Run List

variable {a v : Value} {op : Arithmetic} {ok : String → Bool}

/-! ### Keys of the maps in an expression -/

namespace Expr

mutual

def allKeys (ok : String → Bool) : Expr → Bool
  | access base _ => allKeys ok base
  | binary l _ r => allKeys ok l && allKeys ok r
  | unary _ e => allKeys ok e
  | call _ args _ => itemKeys ok args
  | list items => itemKeys ok items
  | map entries => entryKeys ok entries
  | caseOf operand whens otherwise =>
    optionKeys ok operand && whenKeys ok whens && optionKeys ok otherwise
  | literal _ | var _ | param _ | pattern _ | comprehension .. | star => true

def itemKeys (ok : String → Bool) : List Expr → Bool
  | [] => true
  | e :: es => allKeys ok e && itemKeys ok es

def entryKeys (ok : String → Bool) : List (String × Expr) → Bool
  | [] => true
  | (k, e) :: es => ok k && allKeys ok e && entryKeys ok es

def optionKeys (ok : String → Bool) : Option Expr → Bool
  | none => true
  | some e => allKeys ok e

def whenKeys (ok : String → Bool) : List (Expr × Expr) → Bool
  | [] => true
  | (w, t) :: rest => allKeys ok w && allKeys ok t && whenKeys ok rest

end

variable {e : Expr} {es : List (String × Expr)}

theorem itemKeys_iff {es : List Expr} : itemKeys ok es ↔ ∀ e ∈ es, e.allKeys ok :=
  iff_forall_mem rfl fun _ _ => Bool.and_eq_true_iff

theorem entryKeys_iff : entryKeys ok es ↔ ∀ e ∈ es, ok e.1 ∧ e.2.allKeys ok :=
  iff_forall_mem rfl fun _ _ => by simp [entryKeys]

theorem whenKeys_iff {ws : List (Expr × Expr)} :
    whenKeys ok ws ↔ ∀ w ∈ ws, w.1.allKeys ok ∧ w.2.allKeys ok :=
  iff_forall_mem rfl fun _ _ => by simp [whenKeys]

theorem optionKeys_iff {o : Option Expr} : optionKeys ok o ↔ ∀ x, o = some x → x.allKeys ok := by
  cases o <;> simp [optionKeys]

def mapKeys : Expr → List String
  | map entries => entries.map Prod.fst
  | _ => []

theorem allKeys_iff : e.allKeys ok ↔ (∀ k ∈ e.mapKeys, ok k) ∧ ∀ x ∈ e.parts, x.allKeys ok := by
  cases e with
  | call | list => simp [allKeys, mapKeys, parts, itemKeys_iff]
  | map entries =>
    rw [allKeys, entryKeys_iff, mapKeys, parts, forall_mem_map, forall_mem_map, ← forall₂_and]
  | caseOf operand whens otherwise =>
    rw [forall_parts_caseOf, allKeys, Bool.and_eq_true, Bool.and_eq_true, optionKeys_iff,
      whenKeys_iff, optionKeys_iff, and_assoc]
    exact (and_iff_right (forall_mem_nil _)).symm
  | _ => simp [allKeys, mapKeys, parts]

theorem allKeys_part (h : e.allKeys ok) : ∀ x ∈ e.parts, x.allKeys ok :=
  (allKeys_iff.mp h).2

theorem keys_of_entryKeys (h : entryKeys ok es) : (es.map Prod.fst).all ok := by
  rw [all_map, all_eq_true]
  exact fun e he => (entryKeys_iff.mp h e he).1

theorem keys_of_caseOf {operand otherwise : Option Expr} {whens : List (Expr × Expr)}
    (h : (caseOf operand whens otherwise).allKeys ok) :
    optionKeys ok operand ∧ whenKeys ok whens ∧ optionKeys ok otherwise := by
  rw [allKeys, Bool.and_eq_true, Bool.and_eq_true, and_assoc] at h
  exact h

section

variable (hok : ∀ k, ok k)

include hok

theorem allKeys_of_forall (e : Expr) : e.allKeys ok := by
  induction e using induction_parts with
  | step e ih => exact allKeys_iff.mpr ⟨fun k _ => hok k, ih⟩

theorem entryKeys_of_forall (es : List (String × Expr)) : entryKeys ok es :=
  entryKeys_iff.mpr fun e _ => ⟨hok e.1, e.2.allKeys_of_forall hok⟩

theorem optionKeys_of_forall (o : Option Expr) : optionKeys ok o :=
  optionKeys_iff.mpr fun x _ => x.allKeys_of_forall hok

theorem whenKeys_of_forall (ws : List (Expr × Expr)) : whenKeys ok ws :=
  whenKeys_iff.mpr fun w _ => ⟨w.1.allKeys_of_forall hok, w.2.allKeys_of_forall hok⟩

end

end Expr

theorem fitting_eq_some {n : Int} (h : fitting n = some v) : v = .int n := by
  unfold fitting at h
  split at h
  · cases h
    rfl
  · cases h

theorem Arithmetic.ofInts?_eq_some {a b : Int} (h : op.ofInts? a b = some v) : ∃ n, v = .int n := by
  cases op with
  | add | sub | mul => exact ⟨_, fitting_eq_some h⟩
  | div =>
    rw [ofInts?] at h
    split at h
    · cases h
    · exact ⟨_, fitting_eq_some h⟩
  | mod =>
    rw [ofInts?] at h
    split at h
    · cases h
    · cases h
      exact ⟨_, rfl⟩
  | pow => cases h

theorem Arithmetic.apply?_allKeys {b : Value} (ha : a.allKeys ok)
    (hb : b.allKeys ok) (hv : op.apply? a b = some v) : v.allKeys ok := by
  unfold Arithmetic.apply? at hv
  split at hv
  · cases hv
    rfl
  · split at hv
    · cases hv
      rfl
    · cases hv
      rw [Value.allKeys_list_iff] at ha hb ⊢
      exact forall_mem_append.mpr ⟨ha, hb⟩
    · split at hv
      · obtain ⟨n, rfl⟩ := ofInts?_eq_some hv
        rfl
      · obtain ⟨x, -, hv⟩ := Option.bind_eq_some_iff.mp hv
        obtain ⟨y, -, hv⟩ := Option.bind_eq_some_iff.mp hv
        cases hv
        rfl

theorem Value.negate?_allKeys (hv : a.negate? = some v) : v.allKeys ok := by
  unfold Value.negate? at hv
  split at hv
  · cases hv
    rfl
  · rw [fitting_eq_some hv]
    rfl
  · cases hv
    rfl
  · cases hv

namespace Expr

theorem constants?_eq_some {es : List Expr} {vs : List Value} (h : constants? es = some vs) :
    Forall₂ (fun e v => e.constant? = some v) es vs := by
  induction es generalizing vs with
  | nil =>
    cases h
    exact .nil
  | cons e es ih =>
    rw [constants?] at h
    split at h
    · rename_i hv hvs
      cases h
      exact .cons hv (ih hvs)
    · cases h

theorem constantEntries?_eq_some {es : List (String × Expr)} {vs : List (String × Value)}
    (h : constantEntries? es = some vs) :
    Forall₂ (fun e v => e.1 = v.1 ∧ e.2.constant? = some v.2) es vs := by
  induction es generalizing vs with
  | nil =>
    cases h
    exact .nil
  | cons e es ih =>
    rw [constantEntries?] at h
    split at h
    · rename_i hv hvs
      cases h
      exact .cons ⟨rfl, hv⟩ (ih hvs)
    · cases h

theorem constant?_allKeys (e : Expr) {v : Value} (h : e.allKeys ok) (hv : e.constant? = some v) :
    v.allKeys ok := by
  induction e using induction_parts generalizing v with
  | step e ih =>
    cases e with
    | literal s =>
      cases hv
      rfl
    | list items =>
      obtain ⟨vs, hvs, rfl⟩ := Option.map_eq_some_iff.mp hv
      refine Value.allKeys_list_iff.mpr fun w hw => ?_
      obtain ⟨x, hx, hxw⟩ := mem_of_forall₂ (constants?_eq_some hvs) hw
      exact ih x hx (allKeys_part h x hx) hxw
    | map entries =>
      obtain ⟨vs, hvs, rfl⟩ := Option.map_eq_some_iff.mp hv
      refine Value.allKeys_map_iff.mpr fun w hw => ?_
      obtain ⟨x, hx, hkey, hxw⟩ :=
        mem_of_forall₂ (constantEntries?_eq_some hvs) (Entries.mem_ofList hw)
      obtain ⟨hok, hkeys⟩ := entryKeys_iff.mp h x hx
      exact ⟨hkey ▸ hok, ih x.2 (mem_map_of_mem hx) hkeys hxw⟩
    | unary op x =>
      cases op with
      | negate =>
        obtain ⟨w, -, hv⟩ := Option.bind_eq_some_iff.mp hv
        exact Value.negate?_allKeys hv
      | _ => cases hv
    | binary l op r =>
      cases op with
      | arith a =>
        rw [constant?] at hv
        split at hv
        · rename_i hx hy
          have hparts := allKeys_part h
          exact Arithmetic.apply?_allKeys
            (ih l mem_cons_self (hparts l mem_cons_self) hx)
            (ih r (mem_cons_of_mem _ mem_cons_self) (hparts r (mem_cons_of_mem _ mem_cons_self)) hy)
            hv
        · cases hv
      | _ => cases hv
    | _ => cases hv

end Expr

variable {operand : Option Expr} (c : LoweringContext)

/-! ### Classes -/

def Condition.Filters (ok : String → Bool) (c : Condition) : Prop :=
  c.filter.Filters ok

theorem Condition.Filters.never : Filters ok .never :=
  .single rfl (.inside rfl rfl (.single (.leaf rfl rfl)))

theorem Condition.In.filters {d : Condition} (hd : d.In (Traversal.Filters ok)) : d.Filters ok :=
  hd.filter .nil Condition.Filters.never

theorem constantValue_readsOnly {v : Value} (hv : v.allKeys ok) :
    Traversal.ReadsOnly ok (constantValue v) :=
  .single (.leaf rfl hv)

theorem Step.TestsElement.filters {K : Operand → Prop} {s : Step} (hs : s.TestsElement K) :
    Traversal.Filters ok [s] := by
  cases s
  case has | hasNot | hasPredicate => exact .single rfl (.leaf rfl rfl)
  all_goals cases hs

theorem Expr.readsWithin (ok : String → Bool) (c : LoweringContext) :
    LowersWithin c (fun e => e.allKeys ok) (fun _ => True) (fun _ => True)
      (Traversal.Filters ok) (Traversal.ReadsOnly ok) where
  known _ := trivial
  scalar _ := constantValue_readsOnly rfl
  values _ := .single (.leaf rfl rfl)
  notNull := .single (.leaf rfl rfl)
  append := .append
  choose htest hyes hno := .single (.choose rfl htest.readsOnly hyes hno)
  coalesces hfs := .single (.insideEach rfl rfl hfs)
  is _ := .single (.leaf rfl rfl)
  id := .single (.leaf rfl rfl)
  label := .single (.leaf rfl rfl)
  fold := .single (.leaf rfl rfl)
  unfold := .single (.leaf rfl rfl)
  union hfs := .single (.insideEach rfl rfl hfs)
  mark := .single (.leaf rfl rfl)
  compares _ := .single (.leaf rfl rfl)
  element hs := hs.filters
  elsewhere hselect hs := .single rfl (.inside rfl rfl (hselect.append hs.filters.readsOnly))
  filter hf := .single rfl (.inside rfl rfl hf)
  not hf := .single rfl (.inside rfl rfl hf.readsOnly)
  or hfs := .single rfl (.insideEach rfl rfl fun f hf => (hfs f hf).readsOnly)
  both := .append
  mismatch _ _ := trivial
  fits _ := .inr fun _ => trivial
  constant he hv := constantValue_readsOnly (constant?_allKeys _ he hv)
  var _ := .single (.leaf rfl rfl)
  param _ := ⟨trivial, .single (.leaf rfl rfl)⟩
  key _ := .single (.leaf rfl rfl)
  part := allKeys_part
  project h _ _ hms := by
    refine .cons (.leaf rfl (keys_of_entryKeys h)) (.of_forall fun m hm => ?_)
    obtain ⟨f, rfl, hf⟩ := hms m hm
    exact .inside rfl rfl hf

/-! ### Readings of expressions -/

structure Lowered.ReadsOnly (ok : String → Bool) (l : Lowered) : Prop where
  value : Gives (Traversal.ReadsOnly ok) l.value
  holds : Gives (Condition.Filters ok) l.holds
  fails : Gives (Condition.Filters ok) l.fails

theorem Lowered.ReadsOnly.firstArgument {name : String} {args : List Lowered}
    (hargs : ∀ a ∈ args, a.ReadsOnly ok) : Gives (ReadsOnly ok) (firstArgument name args) := by
  cases args with
  | nil => exact .error _
  | cons a args => exact .ok (forall_mem_cons.mp hargs).1

namespace Expr

theorem lower_readsOnly (e : Expr) (h : e.allKeys ok) : (e.lower c).ReadsOnly ok := by
  have hwithin := lower_within (readsWithin ok c) e h
  exact ⟨hwithin.value.gives, hwithin.holds.gives.mono fun _ hd => hd.filters,
    hwithin.fails.gives.mono fun _ hd => hd.filters⟩

theorem lowerAll_readsOnly (es : List Expr) (h : itemKeys ok es) :
    ∀ l ∈ lowerAll c es, l.ReadsOnly ok := by
  rw [lowerAll_eq_map]
  exact forall_mem_map.mpr fun e he => lower_readsOnly c e (itemKeys_iff.mp h e he)

theorem lowerEntries_readsOnly (es : List (String × Expr)) (h : entryKeys ok es) :
    ∀ l ∈ lowerEntries c es, l.ReadsOnly ok := by
  rw [lowerEntries_eq_map]
  exact forall_mem_map.mpr fun e he => lower_readsOnly c e.2 (entryKeys_iff.mp h e he).2

theorem branches_ends {V : Traversal → Prop} {c : LoweringContext}
    (hchoose : ∀ {test yes no : Traversal}, test.Filters ok → V yes → V no →
      V [.choose test yes no])
    (hoperand : optionKeys ok operand) {whens : List (Expr × Expr)}
    (hwhens : whenKeys ok whens) {otherwise : Except Error Traversal}
    (hotherwise : Ends (fun _ => True) V otherwise)
    (hvalues : ∀ w ∈ whens, Ends (fun _ => True) V (w.2.lower c).value) :
    Ends (fun _ => True) V
      (Lowered.branches c (lowerOption c operand) otherwise (lowerWhens c whens)) := by
  have hL := readsWithin ok c
  rw [lowerWhens_eq_map]
  have hwhen (w : Expr × Expr) (hw : w ∈ whens) :=
    lower_within hL w.1 (whenKeys_iff.mp hwhens w hw).1
  refine Lowered.branches_ends hchoose hotherwise
    (fun _ => forall_mem_map.mpr fun w hw => (hwhen w hw).holds)
    (fun o ho => forall_mem_map.mpr fun w hw => ?_) (forall_mem_map.mpr hvalues)
  cases operand with
  | none => cases ho
  | some e =>
    cases ho
    exact comparison_within hL (lower_within hL e hoperand) .eq (hwhen w hw)

end Expr

end CypherTraversal
