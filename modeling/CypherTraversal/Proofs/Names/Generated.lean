import CypherTraversal.Proofs.Names.Written

/-! # Generated names stay apart

The elements of patterns that have no name are numbered through the whole query. A scope only ever
holds names that are written, texts of columns and names with numbers that have been given out, so
the next number is new to it. -/

namespace CypherTraversal

open Text LowerClause List PatternElement Query

variable {name : String} {cs : List Clause} {bs : List ElementBinding} {i : Nat}
  {rs : List ResolvedClause} {s : Scope} {vars : List (Option String)} {ws : List (Pattern Expr)}
  {x : String}

/-! ### Elements of patterns -/

def Clause.elements (c : Clause) : List (PatternElement Expr) :=
  c.patterns.flatMap Pattern.elements

def Query.elements (q : Query) : List (PatternElement Expr) :=
  q.singles.flatten.flatMap Clause.elements

def ResolvedClause.elements (r : ResolvedClause) : List ElementBinding :=
  match r.body with
  | .read ps _ => ps.flatMap ResolvedPattern.bindings
  | .create ps => ps.flatMap ResolvedPattern.bindings
  | .project _ | .unwind .. => []

def ResolvedQuery.elements (r : ResolvedQuery) : List ElementBinding :=
  r.branches.flatten.flatMap ResolvedClause.elements

theorem Expr.mem_elementVars {es : List (PatternElement Expr)}
    (h : some x ∈ es.map var?) : x ∈ elementVars es := by
  induction es with
  | nil => cases h
  | cons e es ih =>
    rcases mem_cons.mp h with hx | hx
    · cases e <;> exact mem_append_left _ (Option.mem_toList.mpr hx.symm)
    · cases e <;> exact mem_append_right _ (mem_append_right _ (ih hx))

theorem Clause.mem_written {c : Clause} (h : some x ∈ c.elements.map var?) : x ∈ c.written := by
  have hpatterns : x ∈ c.patterns.flatMap Pattern.vars := by
    obtain ⟨e, he, hx⟩ := mem_map.mp h
    obtain ⟨p, hp, he⟩ := mem_flatMap.mp he
    refine mem_flatMap.mpr ⟨p, hp, mem_append_right _ (Expr.mem_elementVars ?_)⟩
    exact mem_map.mpr ⟨e, he, hx⟩
  cases c with
  | read optional ps filter => exact mem_append_left _ hpatterns
  | create ps => exact hpatterns
  | _ => cases hpatterns

/-! ### Numbers -/

inductive Named : Nat → List (Option String) → List ElementBinding → Nat → Prop
  | nil (n : Nat) : Named n [] [] n
  | written {n m : Nat} {x : String} {kind : Kind} {bound : Bool} {vars : List (Option String)}
      {bs : List ElementBinding} (rest : Named n vars bs m) :
    Named n (some x :: vars) ((⟨x, kind⟩, bound) :: bs) m
  | unnamed {n m : Nat} {kind : Kind} {vars : List (Option String)} {bs : List ElementBinding}
      (rest : Named (n + 1) vars bs m) :
    Named n (none :: vars) ((⟨elementName n, kind⟩, false) :: bs) m

namespace Named

variable {n k m : Nat} {vars vars' : List (Option String)} {bs bs' : List ElementBinding}

theorem append (h : Named n vars bs k) (h' : Named k vars' bs' m) :
    Named n (vars ++ vars') (bs ++ bs') m := by
  induction h with
  | nil n => exact h'
  | written _ ih => exact .written (ih h')
  | unnamed _ ih => exact .unnamed (ih h')

theorem length_eq (h : Named n vars bs m) : bs.length = vars.length := by
  induction h with
  | nil n => rfl
  | written _ ih | unnamed _ ih => exact congrArg (· + 1) ih

theorem getElem?_written (h : Named n vars bs m) (hi : vars[i]? = some (some x)) :
    ∃ kind bound, bs[i]? = some (⟨x, kind⟩, bound) := by
  induction h generalizing i with
  | nil n => cases hi
  | written _ ih =>
    cases i with
    | zero =>
      cases hi
      exact ⟨_, _, rfl⟩
    | succ i => exact ih hi
  | unnamed _ ih =>
    cases i with
    | zero => cases hi
    | succ i => exact ih hi

theorem getElem?_unnamed (h : Named n vars bs m) (hi : vars[i]? = some none) :
    ∃ kind, bs[i]? = some (⟨elementName (n + (vars.take i).count none), kind⟩, false) := by
  induction h generalizing i with
  | nil n => cases hi
  | written _ ih =>
    cases i with
    | zero => cases hi
    | succ i => exact ih hi
  | @unnamed n _ _ vars _ _ ih =>
    cases i with
    | zero => exact ⟨_, rfl⟩
    | succ i =>
      obtain ⟨kind, hb⟩ := ih hi
      have hnumber : n + ((vars.take i).count none + 1) = n + 1 + (vars.take i).count none := by
        omega
      refine ⟨kind, ?_⟩
      rw [take_succ_cons, count_cons_self, hnumber]
      exact hb

end Named

theorem count_take_lt {j : Nat} (hi : vars[i]? = some none) (hij : i < j) :
    (vars.take i).count none < (vars.take j).count none := by
  obtain ⟨hlen, hget⟩ := List.getElem?_eq_some_iff.mp hi
  have hnext : (vars.take (i + 1)).count none = (vars.take i).count none + 1 := by
    rw [take_succ_eq_append_getElem hlen, hget, count_append, count_singleton_self]
  have hmore : (vars.take (i + 1)).count none ≤ (vars.take j).count none :=
    (take_sublist_take_left hij).count_le none
  omega

/-! ### Scopes -/

def Scope.NumberedBelow (s : Scope) (n : Nat) : Prop :=
  ∀ k, elementName k ∈ s.names → k < n

namespace Scope.NumberedBelow

variable {s s' : Scope} {n m : Nat}

theorem bind {kind : Kind} (hs : s.NumberedBelow n) (hnm : n ≤ m) (hnew : s.kind? x = none)
    (hx : ∀ k, elementName k = x → k < m) : (s.bind x kind).NumberedBelow m := by
  intro k hk
  unfold names at hk
  rw [bind_bindings hnew, map_append] at hk
  rcases mem_append.mp hk with hk | hk
  · exact Nat.lt_of_lt_of_le (hs k hk) hnm
  · exact hx k (mem_singleton.mp hk)

end Scope.NumberedBelow

theorem isGenerated_elementName (n : Nat) : isGenerated (elementName n) := by
  unfold isGenerated elementName elementLead
  rw [String.toList_append, String.toList_append, append_assoc]
  exact isPrefixOf_iff_prefix.mpr (prefix_append _ _)

theorem elementName_ne (hx : isGenerated x = false) (n : Nat) : elementName n ≠ x := by
  rintro rfl
  rw [isGenerated_elementName] at hx
  cases hx

namespace Resolve

variable {st st' : State}

theorem nameOr_none (h : nameOr none st = .ok (name, st')) :
    name = elementName st.unnamed ∧ st'.unnamed = st.unnamed + 1 := by
  cases h
  exact ⟨rfl, rfl⟩

theorem nameOr_some (h : nameOr (some x) st = .ok (name, st')) : name = x ∧ st' = st := by
  cases h
  exact ⟨rfl, rfl⟩

theorem mapM_nameOr_cons {b : ElementBinding}
    (h : vars.mapM nameOr st = .ok (elementNames (b :: bs), st')) :
    ∃ var rest st₁, vars = var :: rest ∧ nameOr var st = .ok (b.1.name, st₁) ∧
      rest.mapM nameOr st₁ = .ok (elementNames bs, st') := by
  cases vars with
  | nil => cases h
  | cons var rest =>
    rw [mapM_cons] at h
    obtain ⟨name, st₁, hname, h⟩ := run_bind_eq_ok.mp h
    obtain ⟨names, st₂, hrest, h⟩ := run_bind_eq_ok.mp h
    cases h
    exact ⟨var, rest, st₁, rfl, hname, hrest⟩

theorem mapM_nameOr_nil (h : vars.mapM nameOr st = .ok ([], st')) : vars = [] ∧ st' = st := by
  cases vars with
  | nil =>
    cases h
    exact ⟨rfl, rfl⟩
  | cons var rest =>
    rw [mapM_cons] at h
    obtain ⟨_, _, -, h⟩ := run_bind_eq_ok.mp h
    obtain ⟨_, _, -, h⟩ := run_bind_eq_ok.mp h
    cases h

theorem named_of_binds {s' : Scope} (hbinds : s.Binds bs s')
    (hnames : vars.mapM nameOr st = .ok (elementNames bs, st'))
    (hbelow : s.NumberedBelow st.unnamed) (hvars : ∀ x, some x ∈ vars → isGenerated x = false) :
    Named st.unnamed vars bs st'.unnamed ∧ s'.NumberedBelow st'.unnamed := by
  induction hbinds generalizing vars st with
  | nil s =>
    obtain ⟨rfl, rfl⟩ := mapM_nameOr_nil hnames
    exact ⟨.nil _, hbelow⟩
  | @known s s' b bs hknown _ ih =>
    obtain ⟨var, rest, st₁, rfl, hname, hrest⟩ := mapM_nameOr_cons hnames
    have hvars' : ∀ x, some x ∈ rest → isGenerated x = false :=
      fun x hx => hvars x (mem_cons_of_mem _ hx)
    obtain ⟨name, kind⟩ := b
    cases var with
    | none =>
      -- a name that was bound before is not the next one
      obtain ⟨rfl, -⟩ := nameOr_none hname
      exact absurd (hbelow _ (Scope.mem_names_of_kind? hknown)) (Nat.lt_irrefl _)
    | some x =>
      obtain ⟨rfl, rfl⟩ := nameOr_some hname
      obtain ⟨hnamed, hbelow'⟩ := ih hrest hbelow hvars'
      exact ⟨.written hnamed, hbelow'⟩
  | @fresh s s' b bs hnew _ ih =>
    obtain ⟨var, rest, st₁, rfl, hname, hrest⟩ := mapM_nameOr_cons hnames
    have hvars' : ∀ x, some x ∈ rest → isGenerated x = false :=
      fun x hx => hvars x (mem_cons_of_mem _ hx)
    obtain ⟨name, kind⟩ := b
    cases var with
    | none =>
      obtain ⟨rfl, hcount⟩ := nameOr_none hname
      have hscope : (s.bind (elementName st.unnamed) kind).NumberedBelow st₁.unnamed := by
        rw [hcount]
        refine hbelow.bind (Nat.le_succ _) hnew fun k hk => ?_
        rw [elementName_injective hk]
        exact Nat.lt_succ_self _
      obtain ⟨hnamed, hbelow'⟩ := ih hrest hscope hvars'
      rw [hcount] at hnamed
      exact ⟨.unnamed hnamed, hbelow'⟩
    | some x =>
      obtain ⟨rfl, rfl⟩ := nameOr_some hname
      have hscope : (s.bind name kind).NumberedBelow st₁.unnamed :=
        hbelow.bind (Nat.le_refl _) hnew fun k hk =>
          absurd hk (elementName_ne (hvars name mem_cons_self) k)
      obtain ⟨hnamed, hbelow'⟩ := ih hrest hscope hvars'
      exact ⟨.written hnamed, hbelow'⟩

/-! ### Clauses -/

structure Numbers (st st' : State) (c : Clause) (r : ResolvedClause) : Prop where
  named : Named st.unnamed (c.elements.map PatternElement.var?) r.elements st'.unnamed
  scopeOut : ∀ s, st'.scopes[r.scopeOut]? = some s → s.NumberedBelow st'.unnamed

theorem patterns_number {clause : String} {check : ResolvedPattern → Except Error Unit}
    {scope : Scope} (hws : ∀ w ∈ ws, w.Alternates) {ps : List ResolvedPattern}
    {parameters parameters' : List String}
    (hps : patterns clause check s ws parameters st = .ok ((ps, scope, parameters'), st'))
    (hbelow : s.NumberedBelow st.unnamed) (hvars : ∀ x, some x ∈ (ws.flatMap Pattern.elements).map
      var? → isGenerated x = false) :
    Named st.unnamed ((ws.flatMap Pattern.elements).map var?)
        (ps.flatMap ResolvedPattern.bindings) st'.unnamed ∧
      ∀ s', (st'.scopes ++ [scope])[st'.scopes.length]? = some s' →
        s'.NumberedBelow st'.unnamed := by
  obtain ⟨-, hbinds, hnames, -⟩ := patterns_eq_ok hws hps
  obtain ⟨hnamed, hbelow'⟩ := named_of_binds hbinds hnames hbelow hvars
  refine ⟨hnamed, fun s' hs' => ?_⟩
  rw [getElem?_concat_length] at hs'
  cases hs'
  exact hbelow'

section Clauses

variable {c : Clause} {scopeIn : ScopeId} {s : Scope} {r : ResolvedClause}
  (hs : st.scopes[scopeIn]? = some s)

include hs

theorem project_numbers {final : Bool} {w : Projection}
    (hwritten : ∀ x ∈ w.written, isGenerated x = false)
    (h : project final w scopeIn st = .ok (r, st')) : Numbers st st' (.project final w) r := by
  have hresolved := project_eq_ok hs h
  obtain ⟨expanded, acc, sorted, order, skip, limit, -, -, -, -, -, -, rfl, rfl⟩ := project_run hs h
  refine ⟨.nil _, fun s' hs' k hk => ?_⟩
  cases hresolved with
  | project body _ _ hout hbindings _ hitems _ _ =>
    rw [hout] at hs'
    cases hs'
    unfold Scope.names at hk
    rw [hbindings, map_map] at hk
    obtain ⟨i, hi, hname⟩ := mem_map.mp hk
    obtain ⟨item, hstands, hreads⟩ := hitems i hi
    have hplain : isGenerated i.name = false := by
      refine isGenerated_item hreads fun x hx => ?_
      obtain hitem | ⟨y, rfl⟩ := hstands
      · refine hwritten x (mem_append_left _ (mem_flatMap.mpr ⟨item, hitem, ?_⟩))
        exact mem_append_right _ (Option.mem_toList.mpr hx)
      · cases hx
    exact absurd hname.symm (elementName_ne hplain k)

variable (hbelow : s.NumberedBelow st.unnamed)

include hbelow

theorem read_numbers (hws : ∀ w ∈ ws, w.Alternates) {filter : Option Expr}
    (hwritten : ∀ x ∈ (Clause.read false ws filter).written, isGenerated x = false)
    (h : read ws filter scopeIn st = .ok (r, st')) : Numbers st st' (.read false ws filter) r := by
  obtain ⟨ps, scope, parameters, st₁, hps, -, rfl, rfl⟩ := read_iff.mp h
  rw [scope_of_getElem? hs] at hps
  obtain ⟨hnamed, hout⟩ := patterns_number hws hps hbelow
    fun x hx => hwritten x (Clause.mem_written hx)
  exact ⟨hnamed, hout⟩

theorem create_numbers (hws : ∀ w ∈ ws, w.Alternates)
    (hwritten : ∀ x ∈ (Clause.create ws).written, isGenerated x = false)
    (h : create ws scopeIn st = .ok (r, st')) : Numbers st st' (.create ws) r := by
  obtain ⟨ps, scope, parameters, st₁, hps, rfl, rfl⟩ := create_run hs h
  obtain ⟨hnamed, hout⟩ := patterns_number hws hps hbelow
    fun x hx => hwritten x (Clause.mem_written hx)
  exact ⟨hnamed, hout⟩

theorem unwind_numbers {e : Expr}
    (hwritten : ∀ y ∈ (Clause.unwind e x).written, isGenerated y = false)
    (h : unwind e x scopeIn st = .ok (r, st')) : Numbers st st' (.unwind e x) r := by
  have hx : isGenerated x = false :=
    hwritten x (mem_append_right _ (mem_singleton_self x))
  obtain ⟨-, hnew, rfl, rfl⟩ := unwind_run hs h
  refine ⟨.nil _, fun s' hs' => ?_⟩
  rw [getElem?_concat_length] at hs'
  cases hs'
  exact Scope.NumberedBelow.bind (s := { s with parent := some scopeIn }) hbelow (Nat.le_refl _)
    hnew fun k hk => absurd hk (elementName_ne hx k)

theorem clause_numbers (hc : ∀ w ∈ c.patterns, w.Alternates)
    (hwritten : ∀ x ∈ c.written, isGenerated x = false)
    (h : clause scopeIn c st = .ok (r, st')) : Numbers st st' c r := by
  cases c with
  | read optional ws filter =>
    cases optional with
    | false => exact read_numbers hs hbelow hc hwritten h
    | true => cases h
  | project final w => exact project_numbers hs hwritten h
  | unwind e x => exact unwind_numbers hs hbelow hwritten h
  | create ws => exact create_numbers hs hbelow hc hwritten h
  | delete detach targets | set items => cases h

end Clauses

theorem clausesFrom_named (hcs : ∀ c ∈ cs, ∀ w ∈ c.patterns, w.Alternates)
    (hwritten : ∀ c ∈ cs, ∀ x ∈ c.written, isGenerated x = false) {scopeIn : ScopeId}
    (hs : st.scopes[scopeIn]? = some s) (hbelow : s.NumberedBelow st.unnamed)
    (h : clausesFrom scopeIn cs st = .ok (rs, st')) :
    Named st.unnamed ((cs.flatMap Clause.elements).map var?)
      (rs.flatMap ResolvedClause.elements) st'.unnamed := by
  induction cs generalizing scopeIn s st rs with
  | nil =>
    cases h
    exact .nil _
  | cons c cs ih =>
    obtain ⟨hc, hcs⟩ := forall_mem_cons.mp hcs
    obtain ⟨hx, hxs⟩ := forall_mem_cons.mp hwritten
    obtain ⟨r, st₁, hr, h⟩ := run_bind_eq_ok.mp h
    obtain ⟨rs, st₂, hrs, h⟩ := run_bind_eq_ok.mp h
    cases h
    obtain ⟨-, -, ⟨s', hs'⟩, -⟩ := clause_checked hs hr
    obtain ⟨hnamed, hout⟩ := clause_numbers hs hbelow hc hx hr
    rw [flatMap_cons, flatMap_cons, map_append]
    exact hnamed.append (ih hcs hxs hs' (hout s' hs') hrs)

theorem branch_named (hcs : ∀ c ∈ cs, ∀ w ∈ c.patterns, w.Alternates)
    (hwritten : ∀ c ∈ cs, ∀ x ∈ c.written, isGenerated x = false)
    (h : branch cs st = .ok (rs, st')) :
    Named st.unnamed ((cs.flatMap Clause.elements).map var?)
      (rs.flatMap ResolvedClause.elements) st'.unnamed := by
  obtain ⟨-, hclauses⟩ := branch_run h
  have hempty (n : Nat) : Scope.NumberedBelow {} n := fun k hk => by cases hk
  have hnamed := clausesFrom_named hcs hwritten getElem?_concat_length (hempty _) hclauses
  exact hnamed

theorem unionBranches_named {columns : List String} {parts : List UnionPart}
    (hparts : ∀ part ∈ parts, ∀ c ∈ part.clauses, ∀ w ∈ c.patterns, w.Alternates)
    (hwritten : ∀ part ∈ parts, ∀ c ∈ part.clauses, ∀ x ∈ c.written, isGenerated x = false)
    {branches : List (List ResolvedClause)}
    (h : parts.mapM (unionBranch columns) st = .ok (branches, st')) :
    Named st.unnamed
      (((parts.map UnionPart.clauses).flatten.flatMap Clause.elements).map var?)
      (branches.flatten.flatMap ResolvedClause.elements) st'.unnamed := by
  induction parts generalizing st branches with
  | nil =>
    cases h
    exact .nil _
  | cons part parts ih =>
    obtain ⟨hpart, hparts⟩ := forall_mem_cons.mp hparts
    obtain ⟨hx, hxs⟩ := forall_mem_cons.mp hwritten
    rw [mapM_cons] at h
    obtain ⟨rs, st₁, hrs, h⟩ := run_bind_eq_ok.mp h
    obtain ⟨branches, st₂, hbranches, h⟩ := run_bind_eq_ok.mp h
    cases h
    rw [map_cons, flatten_cons, flatMap_append, flatten_cons, flatMap_append, map_append]
    exact (branch_named hpart hx (branch_of_unionBranch hrs)).append (ih hparts hxs hbranches)

end Resolve

theorem Query.elements_named {text : String} {q : Query} (hq : parse text = .ok q)
    (hwritten : ∀ x ∈ q.written, isGenerated x = false) {r : ResolvedQuery}
    (h : q.resolve = .ok r) :
    ∃ m, Named 0 (q.elements.map var?) r.elements m := by
  have hclauses : ∀ cs ∈ q.singles, ∀ c ∈ cs, ∀ x ∈ c.written, isGenerated x = false :=
    fun cs hcs c hc x hx => hwritten x (mem_flatMap.mpr ⟨c, mem_flatten.mpr ⟨cs, hcs, hc⟩, hx⟩)
  obtain ⟨hfirst, hunion⟩ := forall_mem_cons.mp (patterns_alternate hq)
  obtain ⟨hx, hxs⟩ := forall_mem_cons.mp hclauses
  rw [forall_mem_map] at hunion hxs
  obtain ⟨first, st, rest, st', hbranch, hrest, hbranches, -⟩ := resolve_eq_ok h
  refine ⟨st'.unnamed, ?_⟩
  unfold elements singles ResolvedQuery.elements
  rw [hbranches, flatten_cons, flatMap_append, flatten_cons, flatMap_append, map_append]
  exact (Resolve.branch_named hfirst hx hbranch).append
    (Resolve.unionBranches_named hunion hxs hrest)

/-! ### Names that stay apart -/

/-- The label is one that lowering makes up. -/
def IsOwnLabel (x : String) : Prop :=
  (∃ n, x = argumentColumn n) ∨ x = rowLabel ∨ x = compareLabel

theorem IsOwnLabel.generated (h : IsOwnLabel x) : isGenerated x := by
  obtain ⟨n, rfl⟩ | rfl | rfl := h
  · unfold isGenerated argumentColumn
    rw [String.toList_append, String.toList_append, append_assoc]
    exact isPrefixOf_iff_prefix.mpr (prefix_append _ _)
  · decide
  · decide

theorem not_isOwnLabel_elementName (n : Nat) : ¬ IsOwnLabel (elementName n) := by
  have hlabel {x : String} (hx : isNoElement x) : elementName n ≠ x := by
    rintro rfl
    rw [isNoElement_elementName] at hx
    cases hx
  rintro (⟨k, hk⟩ | hk | hk)
  · exact hlabel (isNoElement_argumentColumn k) hk
  · exact hlabel (by decide) hk
  · exact hlabel (by decide) hk

/-- **Generated names stay apart.** Unless a name between backquotes starts with two blanks, every
element of a pattern that has no name is bound under a new one: it was not bound before, no variable
or alias of the query is called like it, and no other element and no label either. A variable or an
alias is never called like anything that is generated. -/
theorem generated_names_apart {text : String} {tokens : List PlacedToken} {q : Query}
    {r : ResolvedQuery} (htokens : tokenize text = .ok tokens)
    (hquoted : QuotesNoneGenerated tokens) (hq : Query.parse text = .ok q)
    (hr : q.resolve = .ok r) :
    r.elements.length = q.elements.length ∧
      (∀ (i : Nat) (x : String), (q.elements.map PatternElement.var?)[i]? = some (some x) →
        ∃ kind bound, r.elements[i]? = some (⟨x, kind⟩, bound)) ∧
      (∀ i : Nat, (q.elements.map PatternElement.var?)[i]? = some none →
        ∃ n kind, r.elements[i]? = some (⟨elementName n, kind⟩, false) ∧
          elementName n ∉ q.written ∧ ¬ IsOwnLabel (elementName n) ∧
          ∀ (j : Nat) (b : ElementBinding), r.elements[j]? = some b → b.1.name = elementName n →
            j = i) ∧
      ∀ x ∈ q.written, (∀ n, elementName n ≠ x) ∧ ¬ IsOwnLabel x := by
  have hwritten := written_not_generated htokens hquoted hq
  have happart : ∀ x ∈ q.written, (∀ n, elementName n ≠ x) ∧ ¬ IsOwnLabel x := by
    intro x hx
    refine ⟨elementName_ne (hwritten x hx), fun hlabel => ?_⟩
    have hplain := hwritten x hx
    rw [hlabel.generated] at hplain
    cases hplain
  obtain ⟨m, hnamed⟩ := elements_named hq hwritten hr
  refine ⟨hnamed.length_eq.trans (List.length_map _), fun i x hi => hnamed.getElem?_written hi,
    fun i hi => ?_, happart⟩
  obtain ⟨kind, hb⟩ := hnamed.getElem?_unnamed hi
  refine ⟨_, kind, hb, fun hx => (happart _ hx).1 _ rfl, not_isOwnLabel_elementName _,
    fun j b hj hname => ?_⟩
  -- the other element has a name that is written, or a number of its own
  cases hvar : (q.elements.map var?)[j]? with
  | none =>
    rw [List.getElem?_eq_none_iff, ← hnamed.length_eq, ← List.getElem?_eq_none_iff, hj] at hvar
    cases hvar
  | some var =>
    cases var with
    | some x =>
      obtain ⟨kind', bound, hb'⟩ := hnamed.getElem?_written hvar
      rw [hj] at hb'
      cases hb'
      have hx : x ∈ q.written := by
        obtain ⟨e, he, hx⟩ := List.mem_map.mp (List.mem_of_getElem? hvar)
        obtain ⟨c, hc, he⟩ := List.mem_flatMap.mp he
        exact List.mem_flatMap.mpr ⟨c, hc, Clause.mem_written (List.mem_map.mpr ⟨e, he, hx⟩)⟩
      exact absurd hname.symm ((happart x hx).1 _)
    | none =>
      obtain ⟨kind', hb'⟩ := hnamed.getElem?_unnamed hvar
      rw [hj] at hb'
      cases hb'
      have hcount := elementName_injective hname
      rcases Nat.lt_trichotomy i j with hij | hij | hij
      · have := count_take_lt hi hij
        omega
      · exact hij.symm
      · have := count_take_lt hvar hij
        omega

def unnamedHops : String :=
  "MATCH (a)-->()-[`a b`]-() WITH a, count(*) AS `n n` MATCH (a)--() RETURN a " ++
    "UNION MATCH (), (a) RETURN a"

theorem unnamedHops_names_apart :
    ∃ q r, Query.parse unnamedHops = .ok q ∧ q.resolve = .ok r ∧ r.elements.length = 10 ∧
      (∃ n kind, r.elements[8]? = some (⟨elementName n, kind⟩, false) ∧ elementName n ∉ q.written) ∧
      ∀ x ∈ q.written, (∀ n, elementName n ≠ x) ∧ ¬ IsOwnLabel x := by
  obtain ⟨tokens, htokens, hquoted, q, hq, r, hr, hvar, hlength⟩ :
      ∃ tokens, tokenize unnamedHops = .ok tokens ∧ QuotesNoneGenerated tokens ∧
      ∃ q, parse unnamedHops = .ok q ∧ ∃ r, q.resolve = .ok r ∧
      (q.elements.map var?)[8]? = some none ∧ r.elements.length = 10 := by
    decide +kernel
  obtain ⟨-, -, hunnamed, hwritten⟩ := generated_names_apart htokens hquoted hq hr
  obtain ⟨n, kind, hb, hfresh, -⟩ := hunnamed 8 hvar
  exact ⟨q, r, hq, hr, hlength, ⟨n, kind, hb, hfresh⟩, hwritten⟩

/-- A name between backquotes can be the one that is generated next: the node without a name is then
taken for the one that has it. -/
theorem quoted_name_is_taken :
    ∃ q r, Query.parse "MATCH (`  UNNAMED0`), () RETURN count(*) AS n" = .ok q ∧
      q.resolve = .ok r ∧ q.elements.map PatternElement.var? = [some "  UNNAMED0", none] ∧
      r.elements = [(⟨"  UNNAMED0", .node⟩, false), (⟨"  UNNAMED0", .node⟩, true)] := by
  obtain ⟨q, hq, r, hr, hvars, helements⟩ :
      ∃ q, parse "MATCH (`  UNNAMED0`), () RETURN count(*) AS n" = .ok q ∧
      ∃ r, q.resolve = .ok r ∧ q.elements.map var? = [some "  UNNAMED0", none] ∧
      r.elements = [(⟨"  UNNAMED0", .node⟩, false), (⟨"  UNNAMED0", .node⟩, true)] := by
    decide +kernel
  exact ⟨q, r, hq, hr, hvars, helements⟩

end CypherTraversal
