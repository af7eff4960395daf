import CypherTraversal.Proofs.Expressions.Related

/-! # Classes of lowered expressions

The relations between lowerings, used for classes: a relation of a traversal to itself. -/

namespace CypherTraversal

open List Traversal Condition

/-! ### Classes -/

structure Traversal.Composes (F V : Traversal → Prop) : Prop where
  scalar : ∀ s : Scalar, V (constantValue (.scalar s))
  values : ∀ key, V [.values key]
  notNull : V [.is notNullPredicate]
  append : ∀ {f h : Traversal}, V f → V h → V (f ++ h)
  choose : ∀ {test yes no : Traversal}, F test → V yes → V no → V [.choose test yes no]
  coalesces : ∀ {fs : List Traversal}, (∀ f ∈ fs, V f) → V [.coalesce fs]

structure Traversal.ComposesTests (K : Operand → Prop) (F V : Traversal → Prop) : Prop
    extends Composes F V where
  known : ∀ v, K (.value v)
  is : ∀ {p : Predicate}, p.Over K → V [.is p]
  id : V [.id]
  label : V [.label]
  fold : V [.fold]
  unfold : V [.unfold]
  union : ∀ {fs : List Traversal}, (∀ f ∈ fs, V f) → V [.union fs]
  mark : V [.mark compareLabel]
  compares : ∀ {p : Predicate}, p.operands = [.label compareLabel] → V [.wherePredicate p]
  element : ∀ {s : Step}, s.TestsElement K → F [s]
  elsewhere : ∀ {name : String} {s : Step}, V [.select name] → s.TestsElement K →
    F [.filter [.select name, s]]
  filter : ∀ {f : Traversal}, V f → F [.filter f]
  not : ∀ {f : Traversal}, F f → F [.not f]
  or : ∀ {fs : List Traversal}, (∀ f ∈ fs, F f) → F [.or fs]
  both : ∀ {f h : Traversal}, F f → F h → F (f ++ h)

structure Expr.LowersWithin (c : LoweringContext) (Q : Expr → Prop) (E : Error → Prop)
    (K : Operand → Prop) (F V : Traversal → Prop) : Prop extends Traversal.ComposesTests K F V where
  mismatch : ∀ expected found, E (.typeMismatch expected found)
  fits : ∀ {e : Expr}, Q e → e.Fits c.scope ∨ ∀ err, E err
  constant : ∀ {e : Expr} {v : Value}, Q e → e.constant? = some v → V (constantValue v)
  var : ∀ {x : String}, Q (.var x) → V [.select x]
  param : ∀ {x : String}, Q (.param x) → K (.parameter x) ∧ V [.constant (.parameter x)]
  key : ∀ {base : Expr} {key : String}, Q (.access base key) → V [.select key]
  part : ∀ {e : Expr}, Q e → ∀ x ∈ e.parts, Q x
  project : ∀ {entries : List (String × Expr)}, Q (.map entries) → ∀ {ms : List Step},
    ms.length = entries.length → (∀ m ∈ ms, ∃ f, m = .by f ∧ V f) →
      V (.project (entries.map Prod.fst) :: ms)

/-! ### Conditions -/

def Condition.In (F : Traversal → Prop) : Condition → Prop
  | .test f => F f
  | _ => True

theorem Condition.In.filter {F : Traversal → Prop} (halways : F Condition.always.filter)
    (hnever : F Condition.never.filter) {d : Condition} (hd : d.In F) : F d.filter := by
  cases d with
  | always => exact halways
  | never => exact hnever
  | test f => exact hd

/-! ### Values -/

variable {c : LoweringContext} {Q : Expr → Prop} {E : Error → Prop} {K : Operand → Prop}
  {F V : Traversal → Prop} {e : Expr}

namespace Traversal.Composes

variable (hV : Composes F V)

include hV

theorem truthValue {holds fails : Except Error Condition}
    (hholds : Ends E (In F) holds) (hfails : Ends E (In F) fails) :
    Ends E V (Lowered.truthValue holds fails) := by
  have hchoose {t no : Traversal} (ht : F t) (hno : V no) (s : Scalar) :
      V [.choose t (constantValue (.scalar s)) no] :=
    hV.choose ht (hV.scalar s) hno
  refine hholds.bind fun h hh => hfails.bind fun f hf => ?_
  cases h with
  | always => exact hV.scalar _
  | never =>
    cases f with
    | always | never => exact hV.scalar _
    | test f => exact hchoose hf (hV.scalar _) _
  | test t =>
    cases f with
    | always | never => exact hchoose hh (hV.scalar _) _
    | test f => exact hchoose hh (hchoose hf (hV.scalar _) _) _

theorem access {base : Lowered} {key : String} (hkind : Ends E (fun _ => True)
    (Lowered.baseKind c base.expr)) (hmismatch : ∀ expected found, E (.typeMismatch expected found))
    (hselect : V [.select key]) (hbase : Ends E V base.value) :
    Ends E V (Lowered.access c base key) := by
  have hnull : V (constantValue .null) := hV.scalar .null
  have hlookup (lookup : List Traversal) (h : ∀ f ∈ lookup, V f) :
      Ends E V (do return (← base.value) ++ [.coalesce lookup]) :=
    hbase.bind fun _ hf => hV.append hf (hV.coalesces h)
  refine hkind.bind fun kind _ => ?_
  cases kind with
  | node | relationship => exact hlookup _ (by simp [hV.values, hnull])
  | map => exact hlookup _ (by simp [hselect, hnull])
  | value => exact hlookup _ (by simp [hV.values, hselect, hnull])
  | scalar | list | aggregate => exact hmismatch _ _

theorem coalesce {args : List Lowered} (hargs : ∀ a ∈ args, Ends E V a.value) :
    Ends E V (Lowered.coalesce args) := by
  have hbranches := Ends.mapM (f := fun a : Lowered => do
      return (← a.value) ++ [.is notNullPredicate]) fun a ha =>
    (hargs a ha).bind (R := V) fun _ hf => hV.append hf hV.notNull
  refine hbranches.bind fun fs hfs => hV.coalesces ?_
  exact forall_mem_append.mpr ⟨hfs, forall_mem_singleton.mpr (hV.scalar _)⟩

end Traversal.Composes

theorem Lowered.orConstant_ends (hconstant : ∀ v, e.constant? = some v → V (constantValue v))
    {value : Except Error Traversal} (hvalue : e.constant? = none → Ends E V value) :
    Ends E V (orConstant e value) := by
  unfold orConstant
  split
  · rename_i v hv
    exact hconstant v hv
  · rename_i hnone
    exact hvalue hnone

theorem Lowered.branches_ends
    (hchoose : ∀ {test yes no : Traversal}, F test → V yes → V no → V [.choose test yes no])
    {operand : Option Lowered} {otherwise : Except Error Traversal}
    (hotherwise : Ends E V otherwise) {whens : List (Lowered × Lowered)}
    (hholds : operand = none → ∀ w ∈ whens, Ends E (In F) w.1.holds)
    (hequal : ∀ o, operand = some o → ∀ w ∈ whens, Ends E (In F) (comparison c o .eq w.1))
    (hvalues : ∀ w ∈ whens, Ends E V w.2.value) :
    Ends E V (branches c operand otherwise whens) := by
  induction whens with
  | nil => exact hotherwise
  | cons w whens ih =>
    obtain ⟨hvalue, hvalues⟩ := forall_mem_cons.mp hvalues
    have hrest := ih (fun h v hv => hholds h v (mem_cons_of_mem w hv))
      (fun o h v hv => hequal o h v (mem_cons_of_mem w hv)) hvalues
    refine hrest.bind fun result hresult => ?_
    have hbranch (d : Condition) (hd : d.In F) : Ends E V (d.branch w.2.value result) := by
      cases d with
      | always => exact hvalue
      | never => exact hresult
      | test f => exact hvalue.bind fun _ hf => hchoose hd hf hresult
    cases operand with
    | none => exact (hholds rfl w mem_cons_self).bind hbranch
    | some o => exact (hequal o rfl w mem_cons_self).bind hbranch

/-! ### Readings -/

def Traversal.Both (P : Traversal → Prop) (f k : Traversal) : Prop :=
  f = k ∧ P f

theorem Traversal.forall₂_both {P : Traversal → Prop} {fs ks : List Traversal}
    (h : Forall₂ (Both P) fs ks) : fs = ks ∧ ∀ f ∈ fs, P f := by
  induction h with
  | nil => exact ⟨rfl, forall_mem_nil _⟩
  | cons hf _ ih =>
    obtain ⟨rfl, hf⟩ := hf
    obtain ⟨rfl, hfs⟩ := ih
    exact ⟨rfl, forall_mem_cons.mpr ⟨hf, hfs⟩⟩

theorem Condition.Related.inClass {d d' : Condition} (h : d.Related (Both F) d') : d.In F := by
  cases h with
  | test hf => exact hf.2
  | _ => trivial

def Lowered.Within (Q : Expr → Prop) (E : Error → Prop) (K : Operand → Prop)
    (F V : Traversal → Prop) (l : Lowered) : Prop :=
  l.Related Q E K (Traversal.Both F) (Traversal.Both V) l

namespace Lowered.Within

variable {l : Lowered} (hl : l.Within Q E K F V)

include hl

theorem value : Ends E V l.value :=
  Meet.ends (Related.value hl) fun _ _ h => h.2

theorem holds : Ends E (In F) l.holds :=
  Meet.ends (Related.holds hl) fun _ _ h => h.inClass

theorem fails : Ends E (In F) l.fails :=
  Meet.ends (Related.fails hl) fun _ _ h => h.inClass

end Lowered.Within

namespace Expr

variable (hL : LowersWithin c Q E K F V)

include hL

theorem LowersWithin.related :
    LowersRelated c c Q Q E K (Both F) (Both V) V (Both V) where
  known := hL.known
  scalar s := ⟨rfl, hL.scalar s⟩
  choose := by
    rintro _ _ _ _ _ _ ⟨rfl, ht⟩ ⟨rfl, hf⟩ ⟨rfl, hh⟩
    exact ⟨rfl, hL.choose ht hf hh⟩
  coalesce h :=
    have ⟨heq, hfs⟩ := forall₂_both h
    ⟨by rw [heq], hL.coalesces hfs⟩
  union h :=
    have ⟨heq, hfs⟩ := forall₂_both h
    ⟨by rw [heq], hL.append (hL.union hfs) hL.fold⟩
  behind hf hh := ⟨by rw [hf.1], hL.append hf.2 hh⟩
  steps := hL.append
  values := hL.values
  null := hL.scalar .null
  lookup := hL.coalesces
  is := hL.is
  id := hL.id
  label := hL.label
  fold := hL.fold
  filter hf := ⟨by rw [hf.1], hL.filter hf.2⟩
  not hf := ⟨by rw [hf.1], hL.not hf.2⟩
  or h :=
    have ⟨heq, hfs⟩ := forall₂_both h
    ⟨by rw [heq], hL.or hfs⟩
  both hf hh := ⟨by rw [hf.1, hh.1], hL.both hf.2 hh.2⟩
  empty hf := by rw [hf.1]
  keep := by
    rintro _ _ _ _ s p ⟨rfl, hf⟩ ⟨rfl, hh⟩ hs hp
    have hmark := hL.append hL.notNull hL.mark
    have hfirst : V [s] := by
      rcases hs with rfl | rfl
      · exact hL.notNull
      · exact hL.unfold
    exact ⟨rfl, hL.filter (hL.append (hL.append (hL.append hf hmark) hh)
      (hL.append hfirst (hL.compares hp)))⟩
  isNull _ := rfl
  clause := rfl
  kind? _ := rfl
  mismatch := hL.mismatch
  fits := hL.fits
  part := hL.part
  constant he hv := ⟨rfl, hL.constant he hv⟩
  var he := ⟨rfl, hL.var he⟩
  param he := ⟨(hL.param he).1, rfl, (hL.param he).2⟩
  key := hL.key
  project := by
    intro entries fs fs' he h hlength
    obtain ⟨rfl, hfs⟩ := forall₂_both h
    refine ⟨rfl, hL.project he ((length_map _).trans hlength) (forall_mem_map.mpr fun f hf => ?_)⟩
    exact ⟨f, rfl, hfs f hf⟩
  element := by
    intro name key s he hs
    refine ⟨rfl, ?_⟩
    unfold LoweringContext.onElement
    split
    · exact hL.element hs
    · exact hL.elsewhere (hL.var (hL.part he _ mem_cons_self)) hs

theorem comparison_within {l r : Lowered} (hl : l.Within Q E K F V) (cmp : Comparison)
    (hr : r.Within Q E K F V) : Ends E (In F) (Lowered.comparison c l cmp r) := by
  have hcompared : Compared Q Q l.expr r.expr :=
    ⟨fun _ => hl.fits, fun _ => hr.fits, fun _ => hl.fits⟩
  exact (Lowered.Related.comparison hL.related hl hr cmp hcompared fun _ =>
    Lowered.Related.value hl).ends fun _ _ h => h.inClass

theorem lower_within (e : Expr) (he : Q e) : (e.lower c).Within Q E K F V :=
  lower_related_of hL.related
    (fun _ he => consults_of_parts fun x hx => ⟨hL.part he x hx, hL.part he x hx⟩) e he

end Expr

end CypherTraversal
