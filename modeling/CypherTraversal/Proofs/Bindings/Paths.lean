import CypherTraversal.Proofs.Bindings.Values

/-! # Paths of values

The rows to which the value of an expression leads are on the path of the row from which it is read,
or on the empty path. An expression keeps to the path if it goes through no list that is made from
the row, and through no labels of a node (`Expr.keepsPath`); and it leaves the path if it is such a
list, whichever way it is found (`Expr.losesPath`). -/

namespace CypherTraversal

open Run Traverser List Traversal Lowered

variable {c : LoweringContext} {e : Expr} {fs : List Traversal} {us : List Traverser}
  {ok : String → Bool} {ps : Parameters} {f : Traversal} {keys : List String}
  {test yes no : Traversal}

/-! ### Values that stay on the path -/

namespace Expr

mutual

/-- No part of the expression is collected. -/
def rowwise : Expr → Bool
  | access base _ => rowwise base
  | binary l _ r => rowwise l && rowwise r
  | unary _ e => rowwise e
  | call name args _ => ScalarFunction.ofName? name != some .labels && rowwiseAll args
  | list items => (constant? (list items)).isSome
  | map entries => rowwiseEntries entries
  | caseOf operand whens otherwise =>
    rowwiseOption operand && rowwiseWhens whens && rowwiseOption otherwise
  | literal _ | var _ | param _ | pattern _ | comprehension .. | star => true

def rowwiseAll : List Expr → Bool
  | [] => true
  | e :: es => rowwise e && rowwiseAll es

def rowwiseEntries : List (String × Expr) → Bool
  | [] => true
  | (_, e) :: es => rowwise e && rowwiseEntries es

def rowwiseOption : Option Expr → Bool
  | none => true
  | some e => rowwise e

def rowwiseWhens : List (Expr × Expr) → Bool
  | [] => true
  | (w, t) :: rest => rowwise w && rowwise t && rowwiseWhens rest

end

mutual

/-- The value is on the path of the row: nothing it is read from was collected. -/
def keepsPath : Expr → Bool
  | access base _ => keepsPath base
  | call name args _ =>
    match ScalarFunction.ofName? name with
    | some .labels => false
    | some .existence => true
    | _ => keepsPathAll args
  | list items => (constant? (list items)).isSome
  | caseOf _ whens otherwise => keepsPathWhens whens && keepsPathOption otherwise
  | literal _ | var _ | param _ | binary .. | unary .. | map _ | pattern _ | comprehension ..
  | star => true

def keepsPathAll : List Expr → Bool
  | [] => true
  | e :: es => keepsPath e && keepsPathAll es

def keepsPathOption : Option Expr → Bool
  | none => true
  | some e => keepsPath e

def keepsPathWhens : List (Expr × Expr) → Bool
  | [] => true
  | (_, t) :: rest => keepsPath t && keepsPathWhens rest

end

variable {es : List Expr} {ws : List (Expr × Expr)}

theorem rowwiseAll_iff : rowwiseAll es ↔ ∀ e ∈ es, e.rowwise :=
  iff_forall_mem rfl fun _ _ => Bool.and_eq_true_iff

theorem keepsPathAll_iff : keepsPathAll es ↔ ∀ e ∈ es, e.keepsPath :=
  iff_forall_mem rfl fun _ _ => Bool.and_eq_true_iff

theorem rowwiseWhens_iff : rowwiseWhens ws ↔ ∀ w ∈ ws, w.1.rowwise ∧ w.2.rowwise :=
  iff_forall_mem rfl fun _ _ => by simp [rowwiseWhens]

theorem keepsPathWhens_iff : keepsPathWhens ws ↔ ∀ w ∈ ws, w.2.keepsPath :=
  iff_forall_mem rfl fun _ _ => Bool.and_eq_true_iff

theorem keepsPath_of_rowwise (e : Expr) (h : e.rowwise) : e.keepsPath := by
  induction e using induction_parts with
  | step e ih =>
    cases e with
    | access base key => exact ih base mem_cons_self h
    | call name args distinct =>
      obtain ⟨hname, hargs⟩ := Bool.and_eq_true_iff.mp h
      rw [keepsPath]
      split
      · rename_i hlabels
        rw [hlabels] at hname
        cases hname
      · rfl
      · exact keepsPathAll_iff.mpr fun a ha => ih a ha (rowwiseAll_iff.mp hargs a ha)
    | list items => exact h
    | caseOf operand whens otherwise =>
      obtain ⟨-, ihwhens, ihotherwise⟩ := forall_parts_caseOf.mp ih
      obtain ⟨h, hotherwise⟩ := Bool.and_eq_true_iff.mp h
      have hwhens := rowwiseWhens_iff.mp (Bool.and_eq_true_iff.mp h).2
      refine Bool.and_eq_true_iff.mpr
        ⟨keepsPathWhens_iff.mpr fun w hw => (ihwhens w hw).2 (hwhens w hw).2, ?_⟩
      cases otherwise with
      | none => rfl
      | some e => exact ihotherwise e rfl hotherwise
    | _ => rfl

end Expr

/-! ### Classes of values -/

structure Traversal.ComposesValues (ok : String → Bool) (C : Traversal → Prop) : Prop
    extends Composes (Traversal.Filters ok) C where
  value : ∀ {v : Value}, v.allKeys ok → C (constantValue v)
  select : ∀ name, C [.select name]
  parameter : ∀ name, C [.constant (.parameter name)]
  id : C [.id]
  label : C [.label]
  project : ∀ {keys : List String} {fs : List Traversal}, keys.all ok →
    (∀ f ∈ fs, f.ReadsOnly ok) → C (.project keys :: fs.map .by)

structure Traversal.ComposesLists (ok : String → Bool) (C : Traversal → Prop) : Prop where
  list : ∀ {fs : List Traversal}, (∀ f ∈ fs, f.ReadsOnly ok) → C ([.union fs] ++ [.fold])
  labels : ∀ {f : Traversal}, f.ReadsOnly ok → C f → C ((f ++ [.label]) ++ [.fold])

variable {C : Traversal → Prop}

namespace Lowered

variable (hC : ComposesValues ok C)

include hC

theorem mapValue_composes (hkeys : keys.all ok) {entries : List Lowered}
    (hentries : ∀ e ∈ entries, e.ReadsOnly ok) :
    Ends (fun _ => True) C (mapValue keys entries) := by
  refine Gives.ends fun f hf => ?_
  obtain ⟨steps, hsteps, hf⟩ := bind_eq_ok.mp hf
  obtain ⟨fs, hfs, rfl⟩ := mapM_by hsteps
  cases hf
  exact hC.project hkeys (Gives.mapM (fun e he => (hentries e he).value) fs hfs)

theorem ofCall_composes {name : String} {args : List Lowered} (hreads : ∀ a ∈ args, a.ReadsOnly ok)
    (hholds : Ends (fun _ => True) (Condition.In (Filters ok)) (ofCall c e name args).holds)
    (hfails : Ends (fun _ => True) (Condition.In (Filters ok)) (ofCall c e name args).fails)
    (hlabels : ScalarFunction.ofName? name = some .labels → ComposesLists ok C)
    (hargs : ScalarFunction.ofName? name ≠ some .existence →
      ∀ a ∈ args, Ends (fun _ => True) C a.value) :
    Ends (fun _ => True) C (ofCall c e name args).value := by
  have hfirst {h : Traversal} (hname : ScalarFunction.ofName? name ≠ some .existence)
      (hh : ∀ f : Traversal, f.ReadsOnly ok → C f → C (f ++ h)) :
      Ends (fun _ => True) C (do return (← (← firstArgument name args).value) ++ h) := by
    cases args with
    | nil => trivial
    | cons a args =>
      have hboth : Gives (fun f : Traversal => f.ReadsOnly ok ∧ C f) a.value := fun f hf =>
        ⟨(hreads a mem_cons_self).value f hf, (hargs hname a mem_cons_self).gives f hf⟩
      exact hboth.ends.bind fun f hf => hh f hf.1 hf.2
  unfold ofCall at hholds hfails ⊢
  split
  · rename_i hexistence
    rw [hexistence] at hholds hfails
    exact hC.truthValue hholds hfails
  · rename_i hid
    exact hfirst (by simp [hid]) fun f _ hf => hC.append hf hC.id
  · rename_i htype
    exact hfirst (by simp [htype]) fun f _ hf => hC.append hf hC.label
  · rename_i hname
    refine hfirst (by simp [hname]) fun f hf hvalue => ?_
    rw [show f ++ [.label, .fold] = (f ++ [.label]) ++ [.fold] by simp]
    exact (hlabels hname).labels hf hvalue
  · rename_i hcoalesce
    exact hC.toComposes.coalesce (hargs (by simp [hcoalesce]))
  · trivial

end Lowered

namespace Expr

theorem lower_composes (hC : ComposesValues ok C) (c : LoweringContext) (e : Expr)
    (h : e.allKeys ok) (hkeeps : ComposesLists ok C ∨ e.keepsPath) :
    Ends (fun _ => True) C (e.lower c).value := by
  induction e using induction_parts with
  | step e ih =>
    have hreads := lower_within (readsWithin ok c) e h
    cases e with
    | literal s => exact hC.scalar s
    | var name =>
      rw [lower, ofVariable, ofValue]
      split
      · exact hC.select name
      · trivial
    | param name => exact hC.parameter name
    | access base key =>
      exact hC.toComposes.access (Gives.ends fun _ _ => trivial) (fun _ _ => trivial)
        (hC.select key) (ih base mem_cons_self h hkeeps)
    | binary l op r =>
      cases op with
      | arith a =>
        refine orConstant_ends (fun v hv => hC.value ?_) fun _ => trivial
        rw [lower_expr, lower_expr] at hv
        exact constant?_allKeys _ h hv
      | _ => exact hC.truthValue hreads.holds hreads.fails
    | unary op x =>
      cases op with
      | negate =>
        refine orConstant_ends (fun v hv => hC.value ?_) fun _ => trivial
        rw [lower_expr] at hv
        exact constant?_allKeys _ h hv
      | _ => exact hC.truthValue hreads.holds hreads.fails
    | call name args distinct =>
      refine ofCall_composes hC (lowerAll_readsOnly c args h) hreads.holds hreads.fails
        (fun hlabels => ?_) fun hexistence => ?_
      · exact hkeeps.resolve_right fun hkeeps => by simp [keepsPath, hlabels] at hkeeps
      · rw [lowerAll_eq_map]
        refine forall_mem_map.mpr fun a ha => ih a ha (itemKeys_iff.mp h a ha)
          (hkeeps.imp_right fun hkeeps => keepsPathAll_iff.mp ?_ a ha)
        rw [keepsPath] at hkeeps
        split at hkeeps
        · cases hkeeps
        · contradiction
        · exact hkeeps
    | list items =>
      refine orConstant_ends (fun v hv => hC.value (constant?_allKeys _ h hv)) fun hnone => ?_
      have hlists := hkeeps.resolve_right fun hkeeps => by
        rw [keepsPath, hnone] at hkeeps
        cases hkeeps
      exact (Ends.mapM fun i hi => (lowerAll_readsOnly c items h i hi).value.ends).bind
        fun fs hfs => hlists.list hfs
    | map entries =>
      exact orConstant_ends (fun _ hv => hC.value (constant?_allKeys _ h hv)) fun _ =>
        mapValue_composes hC (keys_of_entryKeys h) (lowerEntries_readsOnly c entries h)
    | caseOf operand whens otherwise =>
      obtain ⟨-, ihwhens, ihotherwise⟩ := forall_parts_caseOf.mp ih
      obtain ⟨hoperand, hwhens, hotherwise⟩ := keys_of_caseOf h
      refine branches_ends hC.choose hoperand hwhens ?_ fun w hw => (ihwhens w hw).2
        (whenKeys_iff.mp hwhens w hw).2 (hkeeps.imp_right fun hkeeps =>
          keepsPathWhens_iff.mp (Bool.and_eq_true_iff.mp hkeeps).1 w hw)
      cases otherwise with
      | none => exact hC.scalar .null
      | some e =>
        exact ihotherwise e rfl hotherwise
          (hkeeps.imp_right fun hkeeps => (Bool.and_eq_true_iff.mp hkeeps).2)
    | pattern | comprehension | star => trivial

end Expr

/-! ### Paths -/

def Traverser.On (ok : String → Bool) (P : List (String × Object) → Prop) (t : Traverser) : Prop :=
  t.AllKeys ok ∧ P t.path

abbrev Traversal.Stays (ok : String → Bool) (ps : Parameters) (P : List (String × Object) → Prop)
    (f : Traversal) : Prop :=
  f.Takes ok ps (On ok P) (On ok P)

variable {P : List (String × Object) → Prop}

namespace Traversal.Stays

theorem filters (hps : ∀ p ∈ ps, p.2.allKeys ok) (hf : f.Filters ok) : f.Stays ok ps P :=
  hf.carries (fun _ hg => hg) hps fun _ ht => ht.1

section Reading

variable (hps : ∀ p ∈ ps, p.2.allKeys ok)

include hps

theorem of_path (hf : f.ReadsOnly ok) (hpath : f.Takes ok ps (On ok P) fun t => P t.path) :
    f.Stays ok ps P := by
  have hreads : (f.run ps).Carries (Graph.AllKeys ok) Error.Benign (On ok P) (AllKeys ok) :=
    (hf.reads (fun _ hg => hg) hps).mono (fun _ ht => ht.1) fun _ ht => ht
  exact ⟨hpath.starts, hreads.and hpath.carries⟩

theorem moveIn {s : Step} {m : Graph → Traverser → Option Object}
    (hs : Step.stage ps s = .process (.moveIn m)) (hreads : s.ReadsOnly ok) : Stays ok ps P [s] :=
  of_path hps (.single hreads) (.step hs (.moveIn fun _ _ _ ht _ _ => ht.2))

theorem constant {o : Operand} (ho : (Step.constant o).readsOnly ok) :
    Stays ok ps P [.constant o] := by
  refine of_path hps (.single (.leaf rfl ho)) (.step rfl (.move fun t ht => ?_))
  exact (Ensures.ofExcept (fun _ _ => trivial) (o.resolve_benign ps t)).bind fun _ _ =>
    .pure fun _ _ => ht.2

theorem unfold : Stays ok ps P [.unfold] :=
  of_path hps (.single (.leaf rfl rfl)) (.step rfl (.eachRow fun _ ht => .pure
    (forall_mem_map.mpr fun _ _ => ht.2)))

theorem project (hkeys : keys.all ok) (hfs : ∀ f ∈ fs, f.ReadsOnly ok) :
    Stays ok ps P (.project keys :: fs.map .by) := by
  have hreads : Traversal.ReadsOnly ok (.project keys :: fs.map .by) :=
    .cons (.leaf rfl hkeys) (.of_forall (forall_mem_map.mpr fun f hf =>
      .inside rfl rfl (hfs f hf)))
  refine of_path hps hreads (.modulated rfl (Step.modulate_by ps fs) ?_)
  exact .project (fun t ht j key _ => keyObject_by hps hfs ht.1 _) fun t ht _ _ _ => ht.2

theorem choose (htest : test.ReadsOnly ok) (hyes : yes.Stays ok ps P) (hno : no.Stays ok ps P) :
    Stays ok ps P [.choose test yes no] :=
  .step rfl (.choose (htest.reads (fun _ hg => hg) hps) (fun _ ht => ht.1) hyes.carries hno.carries)

theorem fold (hP : P []) (hf : f.ReadsOnly ok) (hstarts : f.Starts ps) :
    Stays ok ps P (f ++ [.fold]) := by
  have hfold : Traversal.ReadsOnly ok [.fold] := .single (.leaf rfl rfl)
  have hbrings : f.Takes ok ps (On ok P) (AllKeys ok) :=
    ⟨hstarts, (hf.reads (fun _ hg => hg) hps).mono (fun _ ht => ht.1) fun _ ht => ht⟩
  refine of_path hps (hf.append hfold) (hbrings.append (.step rfl (.collect ?_ nofun)))
  intro ts _ ys hys y _
  exact hP

end Reading

end Traversal.Stays

theorem Traversal.Stays.composes (hps : ∀ p ∈ ps, p.2.allKeys ok) :
    ComposesValues ok (Stays ok ps P) where
  scalar _ := .constant hps rfl
  value hv := .constant hps hv
  select _ := .moveIn hps rfl (.leaf rfl rfl)
  values _ := .moveIn hps rfl (.leaf rfl rfl)
  notNull := .filters hps (.single rfl (.leaf rfl rfl))
  append := .append
  choose htest := .choose hps htest.readsOnly
  coalesces hfs := .coalesce fun f hf => (hfs f hf).carries
  parameter _ := .constant hps rfl
  id := .moveIn hps rfl (.leaf rfl rfl)
  label := .moveIn hps rfl (.leaf rfl rfl)
  project hkeys hfs := .project hps hkeys hfs

theorem Traversal.Stays.composesLists (hps : ∀ p ∈ ps, p.2.allKeys ok) (hP : P []) :
    ComposesLists ok (Stays ok ps P) where
  list hfs := .fold hps hP (.single (.insideEach rfl rfl hfs)) rfl
  labels hf hstays := .fold hps hP (hf.append (.single (.leaf rfl rfl)))
    (hstays.starts.append (.of_process rfl))

namespace Expr

theorem lower_stays (hps : ∀ p ∈ ps, p.2.allKeys ok) (c : LoweringContext) (e : Expr)
    (he : e.allKeys ok) (hkeeps : P [] ∨ e.keepsPath) :
    Gives (Stays ok ps P) (e.lower c).value :=
  (lower_composes (Stays.composes hps) c e he (hkeeps.imp_left (Stays.composesLists hps))).gives

theorem path_of_value {t : Traverser} {g g' : Graph} (ht : P t.path) (he : P [] ∨ e.keepsPath)
    (hf : (e.lower c).value = .ok f) (hrun : (f.run ps [t]).outcome g = (.ok us, g')) :
    ∀ u ∈ us, P u.path := by
  have hstays : f.Stays (fun _ => true) ps P :=
    e.lower_stays (fun p _ => p.2.allKeys_of_forall fun _ => rfl) c
      (e.allKeys_of_forall fun _ => rfl) he f hf
  have hon : ∀ s ∈ [t], s.On (fun _ => true) P :=
    forall_mem_singleton.mpr ⟨.of_forall (fun _ => rfl) t, ht⟩
  have hus := (hstays.carries [t] hon).of_ok (.of_forall (fun _ => rfl) g) hrun
  exact fun u hu => (hus.2 u hu).2

end Expr

/-! ### No rows -/

structure Traversal.Idle (ps : Parameters) (f : Traversal) : Prop where
  starts : f.Starts ps
  idle : ∀ g, (f.run ps []).outcome g = (.ok [], g)

theorem Traversal.Idle.composes : ComposesValues ok (Idle ps) where
  scalar _ := ⟨rfl, fun _ => rfl⟩
  value _ := ⟨rfl, fun _ => rfl⟩
  select _ := ⟨rfl, fun _ => rfl⟩
  values _ := ⟨rfl, fun _ => rfl⟩
  notNull := ⟨rfl, fun _ => rfl⟩
  append hf hh := by
    refine ⟨hf.starts.append hh.starts, fun g => ?_⟩
    exact (outcome_append hh.starts (hf.idle g)).trans (hh.idle g)
  choose _ _ _ := ⟨rfl, fun _ => rfl⟩
  coalesces _ := ⟨rfl, fun _ => rfl⟩
  parameter _ := ⟨rfl, fun _ => rfl⟩
  id := ⟨rfl, fun _ => rfl⟩
  label := ⟨rfl, fun _ => rfl⟩
  project {keys fs} _ _ := by
    refine ⟨rfl, fun g => ?_⟩
    rw [run_modulated rfl (Step.modulate_by ps fs)]
    rfl

theorem Expr.value_idle (he : e.keepsPath) (hf : (e.lower c).value = .ok f) : f.Idle ps :=
  (lower_composes Idle.composes c e (e.allKeys_of_forall fun _ => rfl) (.inr he)).gives f hf

variable {t : Traverser} {e : Expr} {g g' : Graph}

/-! ### Values that leave the path -/

namespace Expr

mutual

/-- The value is off the path of the row, or null: all it can be was collected. -/
def losesPath : Expr → Bool
  | literal s => s.isNull
  | list items => (constant? (list items)).isNone
  | call name args _ =>
    match ScalarFunction.ofName? name with
    | some .labels => true
    | some .coalesce => losesPathAll args
    | _ => false
  | caseOf _ whens otherwise => losesPathWhens whens && losesPathOption otherwise
  | var _ | param _ | access .. | binary .. | unary .. | map _ | pattern _ | comprehension ..
  | star => false

def losesPathAll : List Expr → Bool
  | [] => true
  | e :: es => losesPath e && losesPathAll es

def losesPathOption : Option Expr → Bool
  | none => true
  | some e => losesPath e

def losesPathWhens : List (Expr × Expr) → Bool
  | [] => true
  | (_, t) :: rest => losesPath t && losesPathWhens rest

end

end Expr

/-- A row that was collected: at null, or at a list and without labels. -/
def Traverser.Lost (t : Traverser) : Prop :=
  t.object = .null ∨ t.path = [] ∧ ∃ items, t.object = .list items

abbrev Traversal.Loses (ps : Parameters) (f : Traversal) : Prop :=
  f.Brings ps (fun _ => True) Lost

namespace Traversal.Loses

theorem null : Loses ps (constantValue .null) :=
  .step rfl (.move fun _ _ => .pure fun _ hy => .inl (Option.some.inj hy).symm)

theorem fold (hf : f.Starts ps) : Loses ps (f ++ [.fold]) := by
  refine hf.brings.append (.step rfl (.collect ?_ fun _ _ _ => trivial))
  intro ts _ ys hys y hy
  cases hys
  exact .inr ⟨rfl, _, mem_singleton.mp hy⟩

theorem choose (hyes : yes.Loses ps) (hno : no.Loses ps) : Loses ps [.choose test yes no] := by
  have htest : (test.run ps).Carries (fun _ => True) (fun _ => True) (fun _ => True)
      fun _ => True :=
    fun _ _ => Ensures.trivial.imp fun _ _ _ _ => trivial
  exact .step rfl (.choose htest (fun _ _ => trivial) hyes.carries hno.carries)

theorem is (hf : f.Loses ps) (p : Predicate) : Loses ps (f ++ [.is p]) :=
  hf.append (.step rfl (.keep fun _ _ => Ensures.trivial))

end Traversal.Loses

namespace Expr

theorem value_starts (hf : (e.lower c).value = .ok f) : f.Starts ps := by
  have hstays : f.Stays (fun _ => true) ps fun _ => True :=
    e.lower_stays (fun p _ => p.2.allKeys_of_forall fun _ => rfl) c
      (e.allKeys_of_forall fun _ => rfl) (.inl trivial) f hf
  exact hstays.starts

theorem lower_loses (c : LoweringContext) (e : Expr) (h : e.losesPath) :
    Ends (fun _ => True) (Loses ps) (e.lower c).value := by
  induction e using induction_parts with
  | step e ih =>
    cases e with
    | literal s =>
      cases s with
      | null => exact Loses.null
      | _ => cases h
    | list items =>
      rw [losesPath, Option.isNone_iff_eq_none] at h
      change Ends _ _ (orConstant (list items) _)
      rw [orConstant, h]
      exact (Gives.ends fun _ _ => trivial).bind (Q := fun _ => True) fun fs _ =>
        Loses.fold (f := [.union fs]) rfl
    | call name args distinct =>
      rw [losesPath] at h
      rw [lower, ofCall]
      split at h
      · rename_i hname
        rw [hname]
        cases args with
        | nil => trivial
        | cons a args =>
          refine (Gives.ends fun f hf => value_starts hf).bind (Q := Starts ps) fun f hf => ?_
          rw [show f ++ [.label, .fold] = (f ++ [.label]) ++ [.fold] by simp]
          exact Loses.fold (hf.append (.of_process rfl))
      · rename_i hname
        rw [hname, lowerAll_eq_map]
        have hargs : ∀ a ∈ args, a.losesPath :=
          (iff_forall_mem rfl fun _ _ => Bool.and_eq_true_iff).mp h
        have hbranches := Ends.mapM (f := fun a : Lowered => do
            return (← a.value) ++ [Step.is notNullPredicate]) <| forall_mem_map.mpr fun a ha =>
          (ih a ha (hargs a ha)).bind (R := Loses ps) fun _ hf => hf.is notNullPredicate
        refine hbranches.bind fun fs hfs => Carries.coalesce fun f hf => ?_
        exact (forall_mem_append.mpr ⟨hfs, forall_mem_singleton.mpr Loses.null⟩ f hf).carries
      · cases h
    | caseOf operand whens otherwise =>
      obtain ⟨-, ihwhens, ihotherwise⟩ := forall_parts_caseOf.mp ih
      obtain ⟨hwhens, hotherwise⟩ := Bool.and_eq_true_iff.mp h
      have hwhens : ∀ w ∈ whens, w.2.losesPath :=
        (iff_forall_mem rfl fun _ _ => Bool.and_eq_true_iff).mp hwhens
      have hkeys (k : String) : (fun _ => true) k = true := rfl
      refine branches_ends (fun _ => .choose) (optionKeys_of_forall hkeys operand)
        (whenKeys_of_forall hkeys whens) ?_ fun w hw => (ihwhens w hw).2 (hwhens w hw)
      cases otherwise with
      | none => exact Loses.null
      | some e => exact ihotherwise e rfl hotherwise
    | _ => cases h

theorem lost_of_value (he : e.losesPath) (hf : (e.lower c).value = .ok f)
    (hrun : (f.run ps [t]).outcome g = (.ok us, g')) : ∀ u ∈ us, u.Lost :=
  ((((lower_loses c e he).gives f hf).carries [t] fun _ _ => trivial).of_ok trivial hrun).2

end Expr

/-! ### Lists that are collected -/

/-- The value is collected from the row by a fold, which starts a new path. -/
def Expr.folds : Expr → Bool
  | list items => (constant? (list items)).isNone
  | call name _ _ => ScalarFunction.ofName? name == some .labels
  | _ => false

theorem Expr.value_of_folds (h : e.folds) (hf : (e.lower c).value = .ok f) :
    ∃ k : Traversal, f = k ++ [.fold] := by
  cases e with
  | list items =>
    rw [folds, Option.isNone_iff_eq_none] at h
    change orConstant (list items) _ = _ at hf
    rw [orConstant, h] at hf
    obtain ⟨fs, -, hf⟩ := bind_eq_ok.mp hf
    cases hf
    exact ⟨[.union fs], rfl⟩
  | call name args distinct =>
    rw [folds, beq_iff_eq] at h
    rw [lower, ofCall, h] at hf
    obtain ⟨a, -, hf⟩ := bind_eq_ok.mp hf
    obtain ⟨k, -, hf⟩ := bind_eq_ok.mp hf
    cases hf
    exact ⟨k ++ [.label], by simp⟩
  | _ => cases h

theorem rows_of_fold {k : Traversal} {ts : List Traverser}
    (h : (run ps (k ++ [.fold]) ts).outcome g = (.ok us, g')) :
    ∃ items, us = [{ object := .list items }] := by
  have hstarts : Starts ps [.fold] := rfl
  rw [run_append hstarts, Process.andThen, outcome_bind] at h
  split at h
  · cases h
    exact ⟨_, rfl⟩
  · cases h

end CypherTraversal
