import CypherTraversal.Proofs.Lowering.Reading
import CypherTraversal.Proofs.Relabelled.Names

/-! # Rows under other labels

The labels on the path of a row can be renamed. What names only labels that a renaming keeps does
not notice it. The steps of an expression select the variables and the keys that the expression
names, and mark and look up the label of comparisons; there are no other labels in them. -/

namespace CypherTraversal

open Run LowerClause List Lowered LoweringContext CypherTraversal.Expr

variable {ps : Parameters} {p : Predicate} {o : Operand}

def Traverser.relabel (ρ : String → String) (t : Traverser) : Traverser :=
  { t with path := t.path.map fun e => (ρ e.1, e.2) }

namespace Traverser

variable {ρ : String → String}

theorem labelled?_relabel (hρ : Function.Injective ρ) (t : Traverser) (l : String) :
    (t.relabel ρ).labelled? (ρ l) = t.labelled? l := by
  unfold labelled? relabel
  generalize t.path = path
  induction path with
  | nil => rfl
  | cons e path ih =>
    have hkey : (ρ l == ρ e.1) = (l == e.1) := by
      rw [Bool.eq_iff_iff, beq_iff_eq, beq_iff_eq, hρ.eq_iff]
    show lookup (ρ l) ((ρ e.1, e.2) :: _) = lookup l ((e.1, e.2) :: path)
    rw [lookup_cons, lookup_cons, hkey, ih]

theorem labelled?_relabel_of_eq (hρ : Function.Injective ρ) (t : Traverser) {l : String}
    (hl : ρ l = l) : (t.relabel ρ).labelled? l = t.labelled? l := by
  rw [← labelled?_relabel hρ t l, hl]

end Traverser

/-! ### Steps that name labels -/

def Operand.labelPasses (ok : String → Bool) : Operand → Bool
  | label name => ok name
  | _ => true

def Step.labelsPass (ok : String → Bool) : Step → Bool
  | mark l | select l => ok l
  | constant o => o.labelPasses ok
  | is p | wherePredicate p | hasPredicate _ p => p.operands.all (Operand.labelPasses ok)
  | addVertex _ | addEdge _ | property .. | fromLabel _ | toLabel _ => false
  | _ => true

abbrev Traversal.LabelsPass (ok : String → Bool) (f : Traversal) : Prop :=
  f.Every fun s => s.labelsPass ok

theorem Predicate.test_relabel {ρ : String → String} {ok : String → Bool}
    (hok : ∀ l, ok l → ρ l = l) (hρ : Function.Injective ρ)
    (hp : p.operands.all (Operand.labelPasses ok)) (t : Traverser) (x : Object) :
    p.test ps (t.relabel ρ) x = p.test ps t x := by
  have hreads : p.ReadsLabels ok := fun n hn => all_eq_true.mp hp _ hn
  exact test_like hreads (fun n hn => t.labelled?_relabel_of_eq hρ (hok n hn)) x

theorem Operand.resolve_relabel {ρ : String → String} {ok : String → Bool}
    (hok : ∀ l, ok l → ρ l = l) (hρ : Function.Injective ρ) (ho : o.labelPasses ok)
    (t : Traverser) : o.resolve ps (t.relabel ρ) = o.resolve ps t := by
  cases o with
  | value v | parameter name => rfl
  | label name => rw [resolve, resolve, t.labelled?_relabel_of_eq hρ (hok name ho)]

/-! ### Labels in the traversals of expressions -/

section Labels

variable {ok : String → Bool}

theorem Predicate.Fixed.labelsPass (hp : p.Fixed) : p.operands.all (Operand.labelPasses ok) := by
  refine all_eq_true.mpr fun o ho => ?_
  cases o with
  | label n => exact absurd ho (hp n)
  | value v | parameter name => rfl

theorem Predicate.fixed_of_operand? {e : Expr} (hp : p.operands = [o])
    (ho : operand? e = some o) : p.Fixed :=
  .single hp (operand?_ne_label ho)

/-! ### Classes -/

def Vocabulary.labelled (ok : String → Bool) : Vocabulary where
  operand o := o.labelPasses ok
  constant o := o.labelPasses ok
  bound _ := True
  label l := ok l
  key _ := True
  writes := False

abbrev Condition.LabelsPass (ok : String → Bool) (d : Condition) : Prop :=
  d.filter.LabelsPass ok

theorem Condition.LabelsPass.never : LabelsPass ok .never :=
  .single (.inside rfl rfl (.single (.leaf rfl rfl)))

namespace Traversal.LabelsPass

theorem ofConstant (v : Value) : LabelsPass ok (constantValue v) :=
  .single (.leaf rfl rfl)

theorem select {name : String} (hname : ok name) : LabelsPass ok [.select name] :=
  .single (.leaf rfl hname)

theorem closed : ClosedUnderLowering (.labelled ok) (LabelsPass ok) := .every fun s hs => by
  cases s
  case constant | mark | select => exact hs
  case is | hasPredicate => exact all_eq_true.mpr hs
  case wherePredicate p =>
    obtain ⟨l, hp, hl⟩ := hs
    simp only [Step.labelsPass, hp, all_cons, all_nil, Bool.and_true]
    exact hl
  case addVertex | addEdge | fromLabel | toLabel | property => cases hs
  all_goals rfl

end Traversal.LabelsPass

theorem LowersInto.labelled (hcompare : ok compareLabel) :
    LowersInto (.labelled ok) (fun _ e => ∀ n ∈ e.names, ok n) (fun _ => True)
      (Traversal.LabelsPass ok) (Traversal.LabelsPass ok) where
  toClosedUnderLowering := Traversal.LabelsPass.closed
  filters := id
  within _ := {
    toComposesTests := Traversal.LabelsPass.closed.composesTests (fun _ => rfl) (fun _ => rfl)
      hcompare
    mismatch := fun _ _ => trivial
    fits := fun _ => .inr fun _ => trivial
    constant := fun _ _ => .ofConstant _
    var := fun h => .select (h _ mem_cons_self)
    param := fun _ => ⟨rfl, .single (.leaf rfl rfl)⟩
    key := fun h => .select (h _ mem_cons_self)
    part := names_part
    project := fun _ _ hlength hms => Traversal.LabelsPass.closed.project (fun _ _ => trivial)
      (hlength.trans (length_map _).symm) hms }

/-! ### Readings -/

structure Lowered.LabelsPass (ok : String → Bool) (l : Lowered) : Prop where
  value : Gives (Traversal.LabelsPass ok) l.value
  holds : Gives (Condition.LabelsPass ok) l.holds

theorem Expr.lower_labelsPass (hcompare : ok compareLabel) (c : LoweringContext) (e : Expr)
    (he : ∀ n ∈ e.names, ok n) : (e.lower c).LabelsPass ok := by
  have hwithin : (e.lower c).Within _ _ _ _ _ := (LowersInto.labelled hcompare).lowered he
  exact ⟨hwithin.value.gives,
    hwithin.holds.gives.mono fun _ hd => hd.filter .nil Condition.LabelsPass.never⟩

end Labels

/-! ### Answers in pairs -/

section Pairs

variable {ε α α' β β' : Type}

def Pairs (R : α → β → Prop) (x : Except ε α) (y : Except ε β) : Prop :=
  ∀ a b, x = .ok a → y = .ok b → R a b

namespace Pairs

variable {R : α → β → Prop} {S : α' → β' → Prop} {x : Except ε α} {y : Except ε β}

theorem ok {a : α} {b : β} (h : R a b) : Pairs R (.ok a : Except ε α) (.ok b : Except ε β) := by
  rintro _ _ ⟨⟩ ⟨⟩
  exact h

theorem error (e : ε) (y : Except ε β) : Pairs R (.error e) y := by
  rintro _ _ ⟨⟩

theorem bind {f : α → Except ε α'} {k : β → Except ε β'} (h : Pairs R x y)
    (hf : ∀ a b, R a b → Pairs S (f a) (k b)) : Pairs S (x >>= f) (y >>= k) := by
  intro a' b' ha hb
  obtain ⟨a, hx, ha⟩ := bind_eq_ok.mp ha
  obtain ⟨b, hy, hb⟩ := bind_eq_ok.mp hb
  exact hf a b (h a b hx hy) a' b' ha hb

theorem map {f : α → α'} {k : β → β'} (h : Pairs R x y) (hf : ∀ a b, R a b → S (f a) (k b)) :
    Pairs S (f <$> x) (k <$> y) := by
  intro a' b' ha hb
  obtain ⟨a, hx, rfl⟩ := map_eq_ok.mp ha
  obtain ⟨b, hy, rfl⟩ := map_eq_ok.mp hb
  exact hf a b (h a b hx hy)

theorem same {Q : α → Prop} {R : α → α → Prop} (hx : Gives Q x) (h : ∀ a, Q a → R a a) :
    Pairs R x x := by
  intro a b ha hb
  cases ha.symm.trans hb
  exact h a (hx a ha)

theorem mapM {f : α → Except ε α'} {k : β → Except ε β'} {xs : List α} {ys : List β}
    (h : Forall₂ (fun a b => Pairs S (f a) (k b)) xs ys) :
    Pairs (Forall₂ S) (xs.mapM f) (ys.mapM k) := by
  induction h with
  | nil => exact .ok .nil
  | cons hab _ ih =>
    rw [mapM_cons, mapM_cons]
    exact hab.bind fun _ _ hr => ih.bind fun _ _ hrs => .ok (.cons hr hrs)

end Pairs

end Pairs

/-! ### Rows -/

def Bond.relabelled (ρ : String → String) (g : Graph) : Bond :=
  .keyed (I := fun h => h = g ∧ h.AllKeys isNoElement) (fun _ h => h.2) (· = ·)
    (F := Traverser.relabel ρ) (fun _ => rfl) rfl

variable {ρ : String → String} {ps : Parameters} {g : Graph}

theorem Object.find?_of_not_passing {ok : String → Bool} {entries : List (String × Object)}
    (h : (map entries).allKeys ok) {key : String} (hkey : ok key = false) :
    Entries.find? key entries = none := by
  refine Option.eq_none_iff_forall_ne_some.mpr fun x hx => ?_
  rw [(allKeys_map_iff.mp h _ (Graph.mem_of_find? hx)).1] at hkey
  cases hkey

theorem Step.bonded_of_labelsPass (hρ : RenamesElements ρ)
    (hps : ∀ p ∈ ps, p.2.allKeys isNoElement) {s : Step} (hreads : s.readsOnly isNoElement)
    (hlabels : s.labelsPass isNoElement) : s.Bonded (.relabelled ρ g) ps ps := by
  have answers {α : Type} {Q : α → Prop} {r : Except Error α} (hQ : Gives Q r) :
      (Bond.relabelled ρ g).Answers Q r r :=
    ⟨rfl, fun _ _ => rfl, hQ⟩
  cases s
  case inject vs => exact fun g v hv => allKeys_of_inject hreads hv
  case hasPredicate key p | is p | wherePredicate p =>
    rintro g u _ ⟨-, rfl⟩ x
    rw [Predicate.test_relabel hρ.keeps hρ.injective hlabels]
    exact answers fun _ _ => trivial
  case mark l =>
    rintro g u _ ⟨hu, rfl⟩
    refine ⟨hu.mark l, ?_⟩
    nth_rewrite 1 [← hρ.keeps l hlabels]
    rfl
  case select l =>
    rintro g u _ ⟨hu, rfl⟩
    exact ⟨(u.labelled?_relabel_of_eq hρ.injective (hρ.keeps l hlabels)).symm,
      fun y hy => hu.labelled? hy⟩
  case constant o =>
    rintro g u _ ⟨hu, rfl⟩
    rw [Operand.resolve_relabel hρ.keeps hρ.injective hlabels]
    exact answers (o.resolve_allKeys hps hreads hu)
  case project keys => exact fun g es hkeys hes => allKeys_of_project hreads hkeys hes
  case reduce r => exact fun g xs hxs => answers (Process.reduce_allKeys r hxs)
  case skip | limit => exact answers fun _ _ => trivial
  case range => exact ⟨answers fun _ _ => trivial, answers fun _ _ => trivial⟩
  case addVertex | addEdge | property => cases hlabels
  all_goals trivial

/-! ### Traversals -/

structure Traversal.Relabelled (ρ : String → String) (ps : Parameters) (g : Graph)
    (f k : Traversal) : Prop where
  starts : f.Starts ps ∧ k.Starts ps
  rows : (f.run ps).Lockstep (.relabelled ρ g) (k.run ps)

namespace Traversal.Relabelled

variable {f k f' k' : Traversal}

theorem append (hf : f.Relabelled ρ ps g k) (hf' : f'.Relabelled ρ ps g k') :
    Relabelled ρ ps g (f ++ f') (k ++ k') := by
  refine ⟨⟨hf.starts.1.append hf'.starts.1, hf.starts.2.append hf'.starts.2⟩, ?_⟩
  rw [run_append hf'.starts.1, run_append hf'.starts.2]
  exact hf.rows.andThen hf'.rows

theorem step {s r : Step} {p q : Process} (hs : Step.stage ps s = .process p)
    (hr : Step.stage ps r = .process q) (h : p.Lockstep (.relabelled ρ g) q) :
    Relabelled ρ ps g [s] [r] := by
  refine ⟨⟨.of_process hs, .of_process hr⟩, ?_⟩
  rw [run_step hs, run_step hr]
  exact h

theorem nil : Relabelled ρ ps g [] [] :=
  ⟨⟨rfl, rfl⟩, .same⟩

theorem flatten {fs ks : List Traversal} (h : Forall₂ (Relabelled ρ ps g) fs ks) :
    Relabelled ρ ps g fs.flatten ks.flatten := by
  induction h with
  | nil => exact nil
  | cons hf _ ih => exact hf.append ih

theorem filter (h : f.Relabelled ρ ps g k) : Relabelled ρ ps g [.filter f] [.filter k] :=
  step rfl rfl (.keep fun _ _ _ hg hrow => h.rows.leads hg hrow)

theorem mark (n : String) : Relabelled ρ ps g [.mark n] [.mark (ρ n)] := by
  refine step rfl rfl (.pick fun h us vs hrows => ?_)
  refine rel_map ?_ hrows
  rintro u _ ⟨hu, rfl⟩
  exact ⟨hu.mark n, rfl⟩

section Renaming

variable (hρ : RenamesElements ρ)

include hρ

theorem select (n : String) : Relabelled ρ ps g [.select n] [.select (ρ n)] := by
  refine step rfl rfl (.moveIn ?_)
  rintro h t _ - ⟨ht, rfl⟩
  have hlabelled : (t.relabel ρ).labelled? (ρ n) = t.labelled? n :=
    t.labelled?_relabel hρ.injective n
  have hobject : (t.relabel ρ).object = t.object := rfl
  have hpath : ∀ x, t.labelled? n = some x → x.allKeys isNoElement := fun _ hx => ht.labelled? hx
  rw [hlabelled, hobject]
  cases hx : t.object with
  | map entries =>
    have hkeys := ht.object
    rw [hx] at hkeys
    cases hn : isNoElement n with
    | true =>
      rw [hρ.keeps n hn]
      refine ⟨rfl, fun x hsome => ?_⟩
      rcases Option.or_eq_some_iff.mp hsome with hentry | ⟨-, hlabel⟩
      · exact Object.allKeys_find? hkeys hentry
      · exact hpath x hlabel
    | false =>
      show ((Entries.find? n entries).or (t.labelled? n) =
        (Entries.find? (ρ n) entries).or (t.labelled? n)) ∧
          ∀ x, (Entries.find? n entries).or (t.labelled? n) = some x → x.allKeys isNoElement
      rw [Object.find?_of_not_passing hkeys hn,
        Object.find?_of_not_passing hkeys (hρ.elements n hn)]
      exact ⟨rfl, hpath⟩
  | _ => exact ⟨rfl, hpath⟩

theorem isLabelled (n : String) : Relabelled ρ ps g [.wherePredicate (.compare .eq (.label n))]
    [.wherePredicate (.compare .eq (.label (ρ n)))] := by
  refine step rfl rfl (.keep ?_)
  rintro h t _ hg ⟨-, rfl⟩
  have hresolve : (Operand.label (ρ n)).resolve ps (t.relabel ρ) =
      (Operand.label n).resolve ps t := by
    rw [Operand.resolve, Operand.resolve, t.labelled?_relabel hρ.injective]
  have htest : (Predicate.compare .eq (.label n)).test ps t t.object =
      (Predicate.compare .eq (.label (ρ n))).test ps (t.relabel ρ) t.object := by
    rw [Predicate.test, Predicate.test, hresolve]
  exact (Run.Lockstep.answer hg ⟨htest, fun _ _ => rfl, fun _ _ => trivial⟩).mono
    fun _ _ _ _ hab => hab.1

variable (hps : ∀ p ∈ ps, p.2.allKeys isNoElement)

include hps

theorem of_labelsPass (hstarts : f.Starts ps) (hreads : f.ReadsOnly isNoElement)
    (hlabels : f.LabelsPass isNoElement) : f.Relabelled ρ ps g f := by
  have hplaced {t : Traversal} : t.Placed fun e => (Bond.relabelled ρ g).error e e :=
    .inr fun _ => rfl
  refine ⟨⟨hstarts, hstarts⟩, run_lockstep f (fun s hs => ⟨?_, fun _ _ => hplaced⟩) hplaced⟩
  exact Step.bonded_of_labelsPass hρ hps (hreads s hs) (hlabels s hs)

theorem of_filters (hf : f.Filters isNoElement) (hlabels : f.LabelsPass isNoElement) :
    f.Relabelled ρ ps g f := by
  have hcarries : f.Carries ps (fun _ => False) Error.Benign (Traverser.AllKeys isNoElement)
      (Traverser.AllKeys isNoElement) :=
    hf.carries (fun _ hh => hh.elim) hps fun _ ht => ht
  exact of_labelsPass hρ hps hcarries.starts hf.readsOnly hlabels

end Renaming

end Traversal.Relabelled

/-! ### Scopes -/

def Binding.rename (ρ : String → String) (b : Binding) : Binding :=
  { b with name := ρ b.name }

def Scope.Renamed (ρ : String → String) (s s' : Scope) : Prop :=
  s'.bindings = s.bindings.map (Binding.rename ρ)

namespace Scope.Renamed

variable {s s' : Scope} (hρ : RenamesElements ρ) (hs : s.Renamed ρ s')

include hρ hs

theorem kind? (n : String) : s'.kind? (ρ n) = s.kind? n := by
  unfold Scope.kind? Scope.find?
  rw [hs]
  generalize s.bindings = bs
  induction bs with
  | nil => rfl
  | cons b bs ih =>
    rw [map_cons, find?_cons, find?_cons]
    by_cases hb : b.name = n
    · have hb' : (b.rename ρ).name = ρ n := congrArg ρ hb
      rw [decide_eq_true hb, decide_eq_true hb']
      rfl
    · have hb' : (b.rename ρ).name ≠ ρ n := fun h => hb (hρ.injective h)
      rw [decide_eq_false hb, decide_eq_false hb']
      exact ih

theorem has (n : String) : s'.has (ρ n) = s.has n := by
  rw [Scope.has_eq, Scope.has_eq, hs.kind? hρ]

theorem agrees {env env' : Env} (henv : env.parameters = env'.parameters)
    (current : Option String) (clause : String) :
    (env.context s current clause).Agrees isNoElement (env'.context s' (current.map ρ) clause) where
  kind? n hn := by
    have hkind := hs.kind? hρ n
    rw [hρ.keeps n hn] at hkind
    exact hkind.symm
  current n hn := by
    show current = some n ↔ current.map ρ = some n
    rw [Option.map_eq_some_iff]
    constructor
    · intro h
      exact ⟨n, h, hρ.keeps n hn⟩
    · rintro ⟨m, h, hm⟩
      rw [h, (hρ.eq_iff hn m).mp hm]
  isNull e := by simp only [LoweringContext.isNull, Env.context, henv]
  clause := rfl

end Scope.Renamed

/-! ### Patterns -/

def ResolvedNode.rename (ρ : String → String) (n : ResolvedNode) : ResolvedNode :=
  { n with name := ρ n.name }

def ResolvedRelationship.rename (ρ : String → String) (r : ResolvedRelationship) :
    ResolvedRelationship :=
  { r with name := ρ r.name }

def ResolvedPattern.rename (ρ : String → String) (p : ResolvedPattern) : ResolvedPattern :=
  { start := p.start.rename ρ, hops := p.hops.map (Prod.map (·.rename ρ) (·.rename ρ)) }

theorem ResolvedPattern.lastName_rename (p : ResolvedPattern) :
    (p.rename ρ).lastName = ρ p.lastName := by
  unfold lastName rename
  rw [getLast?_map]
  cases p.hops.getLast? <;> rfl

theorem LowerClause.lastOf_rename (current : Option String) (patterns : List ResolvedPattern) :
    lastOf (current.map ρ) (patterns.map (ResolvedPattern.rename ρ)) =
      (lastOf current patterns).map ρ := by
  unfold lastOf
  rw [getLast?_map]
  cases patterns.getLast? with
  | none => rfl
  | some p => exact congrArg some p.lastName_rename

/-! ### Comparisons of properties -/

namespace Lowered

variable {c : LoweringContext} {base : Expr} {key : String} {l r : Lowered} (cmp : Comparison)

theorem comparison_null_right (hnull : c.isNull r.expr) : comparison c l cmp r = .ok .never := by
  rw [comparison, hnull, Bool.or_true]
  rfl

variable (hl : l.expr = .access base key)

include hl

theorem comparison_access_known {o : Operand} (hnull : c.isNull r.expr = false)
    (ho : operand? r.expr = some o) :
    comparison c l cmp r = Condition.test <$> against c l (.compare cmp o) := by
  have hl' : c.isNull (.access base key) = false := rfl
  rw [comparison, hl, hl', hnull, ho]
  cases r.expr.constant? <;> rfl

theorem comparison_access_unknown (hnull : c.isNull r.expr = false) (ho : operand? r.expr = none) :
    comparison c l cmp r = Condition.test <$> againstRow l r (.compare cmp) := by
  have hl' : c.isNull (.access base key) = false := rfl
  rw [comparison, hl, hl', hnull, ho]
  cases r.expr.constant? <;> rfl

end Lowered

section Properties

open Traversal (Relabelled)

variable {c c' : LoweringContext} (hρ : RenamesElements ρ)
  (hps : ∀ p ∈ ps, p.2.allKeys isNoElement)
  (hs : c.scope.Renamed ρ c'.scope) {x key : String} (hkey : isNoElement key)

include hρ hps hs hkey

theorem property_relabelled : Pairs (Relabelled ρ ps g) ((Expr.access (.var x) key).lower c).value
    ((Expr.access (.var (ρ x)) key).lower c').value := by
  have hbase : Pairs (Relabelled ρ ps g) (ofVariable c x).value
      (ofVariable c' (ρ x)).value := by
    show Pairs _ (if c.scope.has x then _ else _) (if c'.scope.has (ρ x) then _ else _)
    rw [hs.has hρ x]
    split
    · exact .ok (.select hρ x)
    · exact .error _ _
  have hlookup (lookup : List Traversal) (hreads : ∀ f ∈ lookup, f.ReadsOnly isNoElement)
      (hlabels : ∀ f ∈ lookup, f.LabelsPass isNoElement) : Pairs (Relabelled ρ ps g)
        (do return (← (ofVariable c x).value) ++ [.coalesce lookup])
        (do return (← (ofVariable c' (ρ x)).value) ++ [.coalesce lookup]) :=
    hbase.bind fun _ _ hf => .ok (hf.append (.of_labelsPass hρ hps rfl
      (.single (.insideEach rfl rfl hreads)) (.single (.insideEach rfl rfl hlabels))))
  have hkind : Pairs (· = ·) (baseKind c (.var x)) (baseKind c' (.var (ρ x))) := by
    rw [baseKind, baseKind, hs.kind? hρ x]
    cases c.scope.kind? x with
    | none => exact .error _ _
    | some k => exact .ok rfl
  have hnull : Traversal.ReadsOnly isNoElement (constantValue .null) := constantValue_readsOnly rfl
  have hnull' : Traversal.LabelsPass isNoElement (constantValue .null) := .ofConstant _
  have hvalues : Traversal.ReadsOnly isNoElement [.values key] := .single (.leaf rfl rfl)
  have hvalues' : Traversal.LabelsPass isNoElement [.values key] := .single (.leaf rfl rfl)
  have hselect : Traversal.ReadsOnly isNoElement [.select key] := .single (.leaf rfl rfl)
  have hselect' : Traversal.LabelsPass isNoElement [.select key] := .select hkey
  refine hkind.bind fun k _ hk => ?_
  subst hk
  cases k
  case node | relationship =>
    exact hlookup [[.values key], constantValue .null] (by simp [*]) (by simp [*])
  case map => exact hlookup [[.select key], constantValue .null] (by simp [*]) (by simp [*])
  case value =>
    exact hlookup [[.values key], [.select key], constantValue .null] (by simp [*]) (by simp [*])
  all_goals exact .error _ _

theorem againstRow_relabelled {e : Expr} (hnames : ∀ n ∈ e.names, isNoElement n)
    (hkeys : e.allKeys isNoElement) (cmp : Comparison) :
    Pairs (Relabelled ρ ps g)
      (againstRow ((Expr.access (.var x) key).lower c) (e.lower c) (.compare cmp))
      (againstRow ((Expr.access (.var (ρ x)) key).lower c') (e.lower c) (.compare cmp)) := by
  have hcompare : isNoElement compareLabel := rfl
  have hlabels := lower_labelsPass hcompare c e hnames
  have hreads := lower_readsOnly c e hkeys
  have hvalue : Gives (fun f => f.Relabelled ρ ps g f) (e.lower c).value := fun f hf =>
    .of_labelsPass hρ hps (value_starts hf) (hreads.value f hf) (hlabels.value f hf)
  have hmarked : Relabelled ρ ps g [.is notNullPredicate, .mark compareLabel]
      [.is notNullPredicate, .mark compareLabel] :=
    .of_labelsPass hρ hps rfl (.cons (.leaf rfl rfl) (.single (.leaf rfl rfl)))
      (.cons (.leaf rfl rfl) (Traversal.LabelsPass.closed.alone rfl hcompare))
  have hcompared : Relabelled ρ ps g
      [.is notNullPredicate, .wherePredicate (.compare cmp (.label compareLabel))]
      [.is notNullPredicate, .wherePredicate (.compare cmp (.label compareLabel))] :=
    .of_labelsPass hρ hps rfl (.cons (.leaf rfl rfl) (.single (.leaf rfl rfl)))
      (.cons (.leaf rfl rfl) (Traversal.LabelsPass.closed.alone rfl ⟨_, rfl, hcompare⟩))
  exact (Pairs.same hvalue fun _ hf => hf).bind fun _ _ hright =>
    (property_relabelled hρ hps hs hkey).bind fun _ _ hleft =>
      .ok (.filter (((hright.append hmarked).append hleft).append hcompared))

variable (hcurrent : c.current = some x) (hcurrent' : c'.current = some (ρ x))

include hcurrent hcurrent'

theorem against_relabelled {p : Predicate} (hp : p.Fixed) :
    Pairs (Relabelled ρ ps g) (against c ((Expr.access (.var x) key).lower c) p)
      (against c' ((Expr.access (.var (ρ x)) key).lower c') p) := by
  have helement : c'.scope.isElement (ρ x) = c.scope.isElement x := by
    unfold Scope.isElement
    rw [hs.kind? hρ]
  rw [against, against, lower_expr, lower_expr, elementProperty?, elementProperty?, helement]
  cases c.scope.isElement x with
  | true =>
    have hdirect : Relabelled ρ ps g [.hasPredicate key p] [.hasPredicate key p] :=
      .of_filters hρ hps (.single rfl (.leaf rfl rfl)) (.single (.leaf rfl hp.labelsPass))
    refine .ok ?_
    rwa [onElement, onElement, if_pos hcurrent, if_pos hcurrent']
  | false =>
    have htested : Relabelled ρ ps g [.is notNullPredicate, .is p] [.is notNullPredicate, .is p] :=
      .of_labelsPass hρ hps rfl (.cons (.leaf rfl rfl) (.single (.leaf rfl rfl)))
        (.cons (.leaf rfl rfl) (.single (.leaf rfl hp.labelsPass)))
    exact (property_relabelled hρ hps hs hkey).bind fun _ _ hf =>
      .ok (.filter (hf.append htested))

variable (hagrees : c.Agrees isNoElement c')

include hagrees

theorem comparison_relabelled {e : Expr} (hnames : ∀ n ∈ e.names, isNoElement n)
    (hkeys : e.allKeys isNoElement) :
    Pairs (fun d d' => d.filter.Relabelled ρ ps g d'.filter)
      (comparison c ((Expr.access (.var x) key).lower c) .eq (e.lower c))
      (comparison c' ((Expr.access (.var (ρ x)) key).lower c') .eq (e.lower c')) := by
  have hisNull := hagrees.isNull e
  rw [← lower_agrees hagrees e hnames]
  cases hnull : c.isNull e with
  | true =>
    rw [comparison_null_right .eq (by rwa [lower_expr]),
      comparison_null_right .eq (by rwa [lower_expr, ← hisNull])]
    exact .ok (.of_filters hρ hps Condition.Filters.never Condition.LabelsPass.never)
  | false =>
    rw [hnull] at hisNull
    cases ho : operand? e with
    | some o =>
      rw [comparison_access_known .eq rfl (by rwa [lower_expr])
          (by rw [lower_expr, ho]),
        comparison_access_known .eq rfl (by rw [lower_expr, ← hisNull]) (by rw [lower_expr, ho])]
      have hfixed : (Predicate.compare .eq o).Fixed :=
        Predicate.fixed_of_operand? rfl ho
      exact (against_relabelled hρ hps hs hkey hcurrent hcurrent' hfixed).map fun _ _ h => h
    | none =>
      rw [comparison_access_unknown .eq rfl (by rwa [lower_expr])
          (by rw [lower_expr, ho]),
        comparison_access_unknown .eq rfl (by rw [lower_expr, ← hisNull]) (by rw [lower_expr, ho])]
      exact (againstRow_relabelled hρ hps hs hkey hnames hkeys .eq).map fun _ _ h => h

end Properties

/-! ### Matches -/

namespace LowerClause

open Traversal (Relabelled)

variable {env env' : Env} {s s' : Scope} (hρ : RenamesElements ρ)
  (hps : ∀ p ∈ ps, p.2.allKeys isNoElement)
  (henv : env.parameters = env'.parameters) (hs : s.Renamed ρ s')

include hρ hps henv hs

theorem constraints_relabelled (x : String) {entries : List (String × Expr)}
    (h : propertiesPass isNoElement entries) :
    Pairs (Relabelled ρ ps g)
      (constraints env s x entries) (constraints env' s' (ρ x) entries) := by
  refine .bind (.mapM (forall₂_same.mpr fun p hp => ?_)) fun _ _ hfs =>
    .ok (Traversal.Relabelled.flatten hfs)
  obtain ⟨hkey, hvalue⟩ := Bool.and_eq_true_iff.mp (all_eq_true.mp h p hp)
  obtain ⟨hnames, hkeys⟩ := namesPass_iff.mp hvalue
  exact (comparison_relabelled hρ hps hs hkey rfl rfl (hs.agrees hρ henv (some x) "MATCH")
    hnames hkeys).bind fun _ _ hd => .ok hd

theorem matchNode_relabelled {n : ResolvedNode} (hn : propertiesPass isNoElement n.properties)
    (start : Bool) :
    Pairs (Relabelled ρ ps g) (matchNode env s n start) (matchNode env' s' (n.rename ρ) start) := by
  obtain ⟨name, labels, properties, bound⟩ := n
  refine (constraints_relabelled hρ hps henv hs name hn).bind fun f k hf =>
    .ok (.append (.append (.append ?_ ?_) ?_) hf)
  · cases start <;> cases bound
    · exact .nil
    · exact .isLabelled hρ name
    · exact .of_labelsPass hρ hps rfl (.single (.leaf rfl rfl)) (.single (.leaf rfl rfl))
    · exact .select hρ name
  · refine .of_filters hρ hps (labels_filter labels) ?_
    split
    · exact .nil
    · exact .single (.leaf rfl rfl)
  · cases bound
    · exact .mark name
    · exact .nil

theorem matchRelationship_relabelled {r : ResolvedRelationship}
    (hr : propertiesPass isNoElement r.properties) :
    Pairs (Relabelled ρ ps g) (matchRelationship env s r)
      (matchRelationship env' s' (r.rename ρ)) := by
  obtain ⟨name, types, direction, properties, bound⟩ := r
  have hedges : Relabelled ρ ps g [.edges direction types] [.edges direction types] :=
    .of_labelsPass hρ hps rfl (.single (.leaf rfl rfl)) (.single (.leaf rfl rfl))
  have hendpoint : Relabelled ρ ps g [.endpoint (arrival direction)]
      [.endpoint (arrival direction)] :=
    .of_labelsPass hρ hps rfl (.single (.leaf rfl rfl)) (.single (.leaf rfl rfl))
  refine (constraints_relabelled hρ hps henv hs name hr).bind fun f k hf =>
    .ok (.append (.append (hedges.append ?_) hf) hendpoint)
  cases bound
  · exact .mark name
  · exact .isLabelled hρ name

theorem matchPattern_relabelled {p : ResolvedPattern} (hp : p.PropertiesPass isNoElement) :
    Pairs (Relabelled ρ ps g) (matchPattern env s p) (matchPattern env' s' (p.rename ρ)) := by
  refine (matchNode_relabelled (g := g) hρ hps henv hs hp.start true).bind fun _ _ hstart => ?_
  refine Pairs.bind (.mapM ?_) fun _ _ hhops => .ok (hstart.append (.flatten hhops))
  refine forall₂_map_right_iff.mpr (forall₂_same.mpr fun hop hhop => ?_)
  obtain ⟨hr, hn⟩ := hp.hops hop hhop
  exact (matchRelationship_relabelled hρ hps henv hs hr).bind fun _ _ hf =>
    (matchNode_relabelled hρ hps henv hs hn false).bind fun _ _ hf' => .ok (hf.append hf')

omit henv hs in
theorem filterOf_relabelled (c : LoweringContext) {filter : Option Expr}
    (hfilter : filter.all (namesPass isNoElement)) :
    Gives (fun f => f.Relabelled ρ ps g f) (filterOf c filter) := by
  cases filter with
  | none => exact .ok .nil
  | some e =>
    obtain ⟨hnames, hkeys⟩ := namesPass_iff.mp hfilter
    have hcompare : isNoElement compareLabel := rfl
    intro f hf
    obtain ⟨d, hd, hf⟩ := bind_eq_ok.mp hf
    cases hf
    exact .of_filters hρ hps ((lower_readsOnly c e hkeys).holds d hd)
      ((lower_labelsPass hcompare c e hnames).holds d hd)

end LowerClause

theorem LowerClause.filterOf_agrees {ok : String → Bool} {c c' : LoweringContext}
    (h : c.Agrees ok c') {filter : Option Expr} (hfilter : filter.all (namesPass ok)) :
    filterOf c filter = filterOf c' filter := by
  cases filter with
  | none => rfl
  | some e => rw [filterOf, filterOf, lower_agrees h e (namesPass_iff.mp hfilter).1]

end CypherTraversal
