import CypherTraversal.Proofs.Expressions.Parts
import CypherTraversal.Proofs.Resolved.Clauses

/-! # Resolved queries are checked

The names that a resolved query uses are bound in the scope where they are used, and its
parameters are listed. -/

namespace CypherTraversal

open List Resolve CypherTraversal.Expr

variable {e : Expr} {scope' sorted : Scope} {parameters parameters' : List String}
  {acc acc' : Items} {scopes scopes' : ScopeTable} {cs : List Clause} {final : Bool}
  {input s scope : Scope} {names' : List String} {p : ResolvedPattern} {p' : PatternState}
  {q : Query} {r : ResolvedQuery} {rs : List ResolvedClause} {ws : List (Pattern Expr)} {x : String}

theorem mem_addNames {names new : List String} : x ∈ addNames names new ↔ x ∈ names ∨ x ∈ new := by
  unfold addNames
  induction new generalizing names with
  | nil => simp
  | cons n new ih =>
    rw [foldl_cons, ih, mem_cons]
    split
    · rename_i hn
      have hn : n ∈ names := by simpa using hn
      constructor
      · rintro (h | h)
        · exact .inl h
        · exact .inr (.inr h)
      · rintro (h | rfl | h)
        · exact .inl h
        · exact .inl hn
        · exact .inr h
    · rw [mem_append, mem_singleton, or_assoc]

theorem subset_addNames_left (names new : List String) : names ⊆ addNames names new :=
  fun _ h => mem_addNames.mpr (.inl h)

theorem subset_addNames_right (names new : List String) : new ⊆ addNames names new :=
  fun _ h => mem_addNames.mpr (.inr h)

/-! ### Scopes -/

namespace Scope

variable {s s' : Scope}

theorem has_iff : s.has x ↔ ∃ k, s.kind? x = some k := by
  rw [has_eq, Option.isSome_iff_exists]

def Within (s s' : Scope) : Prop :=
  ∀ ⦃x k⦄, s.kind? x = some k → s'.kind? x = some k

theorem Within.refl : s.Within s := fun _ _ h => h

theorem Within.trans {m : Scope} (h : s.Within m) (h' : m.Within s') : s.Within s' :=
  fun _ _ hx => h' (h hx)

theorem Within.has (h : s.Within s') (hx : s.has x) : s'.has x := by
  obtain ⟨k, hk⟩ := has_iff.mp hx
  exact has_iff.mpr ⟨k, h hk⟩

end Scope

namespace Expr

structure Checked (s : Scope) (names : List String) (e : Expr) : Prop where
  passes : ∃ clause, e.check s clause = .ok ()
  parameters : e.parameters ⊆ names

variable {s s' : Scope} {names names' : List String} {clause : String}

theorem checkEntries_eq_ok {es : List (String × Expr)} (h : checkEntries s clause es = .ok ()) :
    ∀ e ∈ es, e.2.check s clause = .ok () := by
  rw [checkEntries_eq, checkAll_eq_ok] at h
  exact forall_mem_map.mp h

theorem check_mono (hs : s.Within s') (e : Expr) (h : e.check s clause = .ok ()) :
    e.check s' clause = .ok () := by
  induction e using induction_parts with
  | step e ih =>
    obtain ⟨hself, hparts⟩ := check_eq_ok.mp h
    refine check_eq_ok.mpr ⟨?_, fun x hx => ih x hx (hparts x hx)⟩
    cases e with
    | var x =>
      rw [checkSelf] at hself ⊢
      split at hself
      · rename_i hx
        rw [if_pos (hs.has hx)]
      · cases hself
    | _ => exact (checkSelf_eq fun _ h => by cases h).trans hself

theorem Checked.mono (hs : s.Within s') (hnames : names ⊆ names')
    (h : e.Checked s names) : e.Checked s' names' := by
  obtain ⟨⟨clause, h⟩, hparameters⟩ := h
  exact ⟨⟨clause, check_mono hs e h⟩, List.Subset.trans hparameters hnames⟩

theorem subset_entryParameters {entries : List (String × Expr)} {e : String × Expr}
    (he : e ∈ entries) : e.2.parameters ⊆ entryParameters entries := by
  rw [entryParameters_eq]
  exact fun _ hn => mem_flatMap_of_mem he hn

end Expr

/-! ### Patterns -/

structure ElementAll (N : String → Prop) (Q : Expr → Prop) (name : String)
    (properties : List (String × Expr)) : Prop where
  name : N name
  properties : ∀ e ∈ properties, Q e.2

theorem ElementAll.mono {N N' : String → Prop} {Q Q' : Expr → Prop} {name : String}
    {properties : List (String × Expr)} (hN : ∀ x, N x → N' x) (hQ : ∀ e, Q e → Q' e)
    (h : ElementAll N Q name properties) : ElementAll N' Q' name properties :=
  ⟨hN name h.name, fun e he => hQ _ (h.properties e he)⟩

section Patterns

variable {N N' : Kind → String → Prop} {Q Q' : Expr → Prop}

abbrev ResolvedNode.All (N : Kind → String → Prop) (Q : Expr → Prop) (n : ResolvedNode) : Prop :=
  ElementAll (N .node) Q n.name n.properties

abbrev ResolvedRelationship.All (N : Kind → String → Prop) (Q : Expr → Prop)
    (r : ResolvedRelationship) : Prop :=
  ElementAll (N .relationship) Q r.name r.properties

structure ResolvedPattern.All (N : Kind → String → Prop) (Q : Expr → Prop) (p : ResolvedPattern) :
    Prop where
  start : p.start.All N Q
  hops : ∀ h ∈ p.hops, h.1.All N Q ∧ h.2.All N Q

variable (hN : ∀ k x, N k x → N' k x) (hQ : ∀ e, Q e → Q' e)

include hN hQ

theorem ResolvedPattern.All.mono (h : p.All N Q) : p.All N' Q' :=
  ⟨h.start.mono (hN .node) hQ, fun hop hhop =>
    (h.hops hop hhop).imp (.mono (hN .relationship) hQ) (.mono (hN .node) hQ)⟩

end Patterns

abbrev Scope.gives (s : Scope) (k : Kind) (x : String) : Prop :=
  s.kind? x = some k

abbrev ResolvedPattern.Checked (s : Scope) (names : List String) (p : ResolvedPattern) : Prop :=
  p.All s.gives (Expr.Checked s names)

theorem ResolvedPattern.Checked.mono {s s' : Scope} {names : List String} (hs : s.Within s')
    (hnames : names ⊆ names') (h : p.Checked s names) : p.Checked s' names' :=
  All.mono (fun _ _ hx => hs hx) (fun _ he => he.mono hs hnames) h

namespace Resolve

variable {st st' : State}

structure PatternState.Checked (p : PatternState) : Prop where
  start : ∀ n, p.start = some n → n.All p.scope.gives (Expr.Checked p.scope p.parameters)
  hops : ∀ h ∈ p.hops, h.1.All p.scope.gives (Expr.Checked p.scope p.parameters) ∧
    h.2.All p.scope.gives (Expr.Checked p.scope p.parameters)
  pending : ∀ r, p.pending = some r → r.All p.scope.gives (Expr.Checked p.scope p.parameters)

theorem addElement_checked {clause : String} {p : PatternState} {e : PatternElement Expr}
    (hp : p.Checked) (h : addElement clause p e st = .ok (p', st')) :
    p'.Checked ∧ p.scope.Within p'.scope ∧ p.parameters ⊆ p'.parameters ∧
      st'.scopes = st.scopes := by
  obtain ⟨-, name, bound, scope, hname, hbind, hcheck, rfl⟩ := addElement_iff.mp h
  obtain ⟨-, hscopes⟩ := nameOr_eq_ok hname
  have hbinds := bindElement_binds hbind
  have hkind : scope.kind? name = some e.kind := hbinds.kind?_of_mem (mem_singleton_self _)
  have hwithin : p.scope.Within scope := fun _ _ => hbinds.kind?_mono
  have hmore := subset_addNames_left p.parameters (entryParameters e.properties)
  have hproperties : ∀ x ∈ e.properties,
      x.2.Checked scope (addNames p.parameters (entryParameters e.properties)) :=
    fun x hx => ⟨⟨clause, checkEntries_eq_ok hcheck x hx⟩,
      List.Subset.trans (subset_entryParameters hx) (subset_addNames_right _ _)⟩
  have hmono {k : Kind} {name : String} {properties : List (String × Expr)}
      (h : ElementAll (p.scope.gives k) (Checked p.scope p.parameters) name properties) :
      ElementAll (scope.gives k) (Checked scope
        (addNames p.parameters (entryParameters e.properties))) name properties :=
    h.mono (fun _ hx => hwithin hx) fun _ he => he.mono hwithin hmore
  have hstart := fun n hn => hmono (hp.start n hn)
  have hhops := fun h hh => (hp.hops h hh).imp hmono hmono
  cases e with
  | node var labels properties =>
    unfold PatternState.put
    dsimp only
    split
    · rename_i r hr
      exact ⟨⟨hstart, forall_mem_append.mpr ⟨hhops, forall_mem_singleton.mpr
        ⟨hmono (hp.pending r hr), hkind, hproperties⟩⟩, nofun⟩, hwithin, hmore, hscopes⟩
    · refine ⟨⟨?_, hhops, fun r hr => hmono (hp.pending r hr)⟩, hwithin, hmore, hscopes⟩
      rintro n ⟨⟩
      exact ⟨hkind, hproperties⟩
  | relationship var types direction properties length =>
    refine ⟨⟨hstart, hhops, ?_⟩, hwithin, hmore, hscopes⟩
    rintro r ⟨⟩
    exact ⟨hkind, hproperties⟩

theorem addElements_checked {clause : String} {es : List (PatternElement Expr)} {p : PatternState}
    (hp : p.Checked) (h : (es.foldlM (addElement clause) p) st = .ok (p', st')) :
    p'.Checked ∧ p.scope.Within p'.scope ∧ p.parameters ⊆ p'.parameters ∧
      st'.scopes = st.scopes := by
  induction es generalizing p st with
  | nil =>
    cases h
    exact ⟨hp, .refl, List.Subset.refl _, rfl⟩
  | cons e es ih =>
    obtain ⟨p₁, st₁, h₁, h⟩ := run_bind_eq_ok.mp h
    obtain ⟨hp₁, hwithin, hmore, hscopes⟩ := addElement_checked hp h₁
    obtain ⟨hp', hwithin', hmore', hscopes'⟩ := ih hp₁ h
    exact ⟨hp', hwithin.trans hwithin', List.Subset.trans hmore hmore', hscopes'.trans hscopes⟩

theorem pattern_checked {clause : String} {w : Pattern Expr}
    (h : pattern clause scope parameters w st = .ok ((p, scope', parameters'), st')) :
    p.Checked scope' parameters' ∧ scope.Within scope' ∧ parameters ⊆ parameters' ∧
      st'.scopes = st.scopes := by
  obtain ⟨-, hfold⟩ := pattern_iff.mp h
  have hempty : PatternState.Checked { scope, parameters } := ⟨nofun, forall_mem_nil _, nofun⟩
  obtain ⟨hresult, hrest⟩ := addElements_checked hempty hfold
  exact ⟨⟨hresult.start p.start rfl, hresult.hops⟩, hrest⟩

theorem patterns_checked {clause : String} {check : ResolvedPattern → Except Error Unit}
    {ps : List ResolvedPattern}
    (h : patterns clause check scope ws parameters st = .ok ((ps, scope', parameters'), st')) :
    (∀ p ∈ ps, p.Checked scope' parameters' ∧ check p = .ok ()) ∧ scope.Within scope' ∧
      parameters ⊆ parameters' ∧ st'.scopes = st.scopes := by
  induction ws generalizing scope parameters ps st with
  | nil =>
    cases h
    exact ⟨forall_mem_nil _, .refl, List.Subset.refl _, rfl⟩
  | cons w ws ih =>
    obtain ⟨p, qs, scope₁, parameters₁, st₁, rfl, hp, hcheck, hqs⟩ := patterns_cons_iff.mp h
    obtain ⟨hchecked, hwithin, hmore, hscopes⟩ := pattern_checked hp
    obtain ⟨hrest, hwithin', hmore', hscopes'⟩ := ih hqs
    exact ⟨forall_mem_cons.mpr ⟨⟨hchecked.mono hwithin' hmore', hcheck⟩, hrest⟩,
      hwithin.trans hwithin', List.Subset.trans hmore hmore', hscopes'.trans hscopes⟩

theorem types_of_checkNew (h : checkNew p = .ok ()) : ∀ hop ∈ p.hops, hop.1.types ≠ [] := by
  obtain ⟨_, -, hhops⟩ := bind_eq_ok.mp h
  intro hop hhop hnone
  have hnew := forM_eq_ok.mp hhops hop hhop
  unfold checkNewRelationship at hnew
  rw [hnone] at hnew
  split at hnew
  · cases hnew
  · cases hnew

end Resolve

/-! ### Projections -/

def ItemValue.All (Q : Expr → Prop) : ItemValue → Prop
  | .expr e => Q e
  | .aggregate a => ∀ e, a.argument = some e → Q e

abbrev ItemValue.Checked (s : Scope) (names : List String) : ItemValue → Prop :=
  All (Expr.Checked s names)

def Expr.IsBound (e : Expr) : Prop :=
  (∃ x, e = .literal x) ∨ ∃ name, e = .param name

structure ResolvedProjection.Checked (input sorted output : Scope) (parameters : List String)
    (p : ResolvedProjection) : Prop where
  names : p.names.Nodup
  items : ∀ i ∈ p.items, i.value.Checked input parameters
  order : ∀ o ∈ p.order, o.column = none → o.expr.Checked sorted parameters
  skip : ∀ e, p.skip = some e → e.IsBound ∧ e.parameters ⊆ parameters
  limit : ∀ e, p.limit = some e → e.IsBound ∧ e.parameters ⊆ parameters
  filter : ∀ e, p.filter = some e → e.Checked output parameters

theorem ItemValue.Checked.mono {names : List String} (hnames : names ⊆ names') {v : ItemValue}
    (h : v.Checked s names) : v.Checked s names' := by
  cases v with
  | expr e => exact Expr.Checked.mono .refl hnames h
  | aggregate a => exact fun e he => (h e he).mono .refl hnames

theorem ResolvedProjection.Checked.mono {output : Scope} {names : List String}
    (hnames : names ⊆ names') {p : ResolvedProjection} (h : p.Checked input sorted output names) :
    p.Checked input sorted output names' where
  names := h.names
  items i hi := (h.items i hi).mono hnames
  order o ho hcolumn := (h.order o ho hcolumn).mono .refl hnames
  skip e he := ⟨(h.skip e he).1, List.Subset.trans (h.skip e he).2 hnames⟩
  limit e he := ⟨(h.limit e he).1, List.Subset.trans (h.limit e he).2 hnames⟩
  filter e he := (h.filter e he).mono .refl hnames

namespace Resolve

theorem itemValue_all {clause : String} {Q : Expr → Prop}
    (hQ : ∀ x, x = e ∨ x ∈ e.parts → x.check s clause = .ok () → Q x) :
    Gives (ItemValue.All Q) (itemValue s clause e) := by
  have hexpr : Gives (ItemValue.All Q) (do e.check s clause; return .expr e) := by
    intro v hv
    obtain ⟨_, hcheck, hv⟩ := bind_eq_ok.mp hv
    cases hv
    exact hQ e (.inl rfl) hcheck
  unfold itemValue
  split
  · split
    · split
      · split
        · exact .ok nofun
        · exact .error _
      · intro v hv
        obtain ⟨_, hcheck, hv⟩ := bind_eq_ok.mp hv
        cases hv
        rintro x ⟨⟩
        exact hQ _ (.inr mem_cons_self) hcheck
      · exact .error _
    · exact hexpr
  · exact hexpr

theorem itemValue_checked {clause : String} :
    Gives (ItemValue.Checked s e.parameters) (itemValue s clause e) := by
  refine itemValue_all fun x hx hcheck => ⟨⟨clause, hcheck⟩, ?_⟩
  rcases hx with rfl | hx
  · exact List.Subset.refl _
  · exact parameters_part hx

theorem orderItem_checked {clause : String} {items : List ResolvedItem} {o : OrderItem} :
    Gives (fun r : ResolvedOrder => r.column = none → r.expr.Checked sorted o.expr.parameters)
      (orderItem input sorted clause items o) := by
  unfold orderItem
  dsimp only
  split
  · intro r hr
    obtain ⟨_, hcheck, hr⟩ := bind_eq_ok.mp hr
    cases hr
    exact fun _ => ⟨⟨"ORDER BY", hcheck⟩, List.Subset.refl _⟩
  · rename_i hcolumn
    refine .ok fun hnone => absurd ?_ hcolumn
    exact Option.isNone_iff_eq_none.mpr hnone

theorem boundParameters_eq_ok {keyword : String} {e : Option Expr} {names : List String}
    (h : boundParameters keyword e = .ok names) :
    ∀ b, e = some b → b.IsBound ∧ b.parameters ⊆ names := by
  rintro b rfl
  unfold boundParameters at h
  split at h
  · cases ‹some b = none›
  · rename_i heq
    cases heq
    exact ⟨.inl ⟨_, rfl⟩, nil_subset _⟩
  · rename_i heq
    cases heq
    cases h
    exact ⟨.inr ⟨_, rfl⟩, List.Subset.refl _⟩
  · cases h

theorem checkOption_eq_ok {clause : String} {e : Option Expr}
    (h : checkOption s clause e = .ok ()) :
    ∀ b, e = some b → b.Checked s (optionParameters e) := by
  rintro b rfl
  exact ⟨⟨clause, h⟩, List.Subset.refl _⟩

theorem addItems_parameters {items : List ProjectionItem}
    (h : addItems input final items acc = .ok acc') :
    acc.parameters ⊆ acc'.parameters ∧ ∀ item ∈ items, item.expr.parameters ⊆ acc'.parameters := by
  unfold addItems at h
  induction items generalizing acc with
  | nil =>
    cases h
    exact ⟨List.Subset.refl _, forall_mem_nil _⟩
  | cons item items ih =>
    obtain ⟨acc₁, h₁, h⟩ := bind_eq_ok.mp h
    obtain ⟨hacc, hitems⟩ := ih h
    have hparameters : acc₁.parameters = addNames acc.parameters item.expr.parameters := by
      obtain ⟨-, value, -, rfl⟩ := addItem_eq_ok h₁
      split <;> rfl
    rw [hparameters] at hacc
    exact ⟨List.Subset.trans (subset_addNames_left _ _) hacc, forall_mem_cons.mpr
      ⟨List.Subset.trans (subset_addNames_right _ _) hacc, hitems⟩⟩

end Resolve

/-! ### Clauses -/

def ResolvedClause.Checked (scopes : ScopeTable) (names : List String) (r : ResolvedClause) :
    Prop :=
  match r.body with
  | .read ps filter => ∃ s, scopes[r.scopeOut]? = some s ∧ (∀ p ∈ ps, p.Checked s names) ∧
      ∀ e, filter = some e → e.Checked s names
  | .create ps => ∃ s, scopes[r.scopeOut]? = some s ∧
      ∀ p ∈ ps, p.Checked s names ∧ ∀ hop ∈ p.hops, hop.1.types ≠ []
  | .unwind e _ => ∃ s, scopes[r.scopeIn]? = some s ∧ e.Checked s names
  | .project p => ∃ input sorted output, scopes[r.scopeIn]? = some input ∧
      scopes[p.orderScope]? = some sorted ∧ scopes[r.scopeOut]? = some output ∧
      p.Checked input sorted output names

theorem ResolvedClause.Checked.mono (hmore : scopes <+: scopes')
    {names : List String} (hnames : names ⊆ names') {r : ResolvedClause}
    (h : r.Checked scopes names) : r.Checked scopes' names' := by
  obtain ⟨more, rfl⟩ := hmore
  unfold Checked at h ⊢
  split at h
  · obtain ⟨s, hs, hpatterns, hfilter⟩ := h
    exact ⟨s, getElem?_mono hs more, fun p hp => (hpatterns p hp).mono .refl hnames,
      fun e he => (hfilter e he).mono .refl hnames⟩
  · obtain ⟨s, hs, hpatterns⟩ := h
    exact ⟨s, getElem?_mono hs more,
      fun p hp => ⟨(hpatterns p hp).1.mono .refl hnames, (hpatterns p hp).2⟩⟩
  · obtain ⟨s, hs, he⟩ := h
    exact ⟨s, getElem?_mono hs more, he.mono .refl hnames⟩
  · obtain ⟨input, sorted, output, hinput, hsorted, houtput, hchecked⟩ := h
    exact ⟨input, sorted, output, getElem?_mono hinput more,
      getElem?_mono hsorted more, getElem?_mono houtput more, hchecked.mono hnames⟩

def Clause.concludes : Clause → Bool
  | .project .. | .create _ => true
  | _ => false

def ResolvedClause.concludes (r : ResolvedClause) : Bool :=
  match r.body with
  | .project _ | .create _ => true
  | _ => false

namespace Resolve

variable {st st' : State}

structure Leaves (st st' : State) (scopeIn : ScopeId) (c : Clause) (r : ResolvedClause) : Prop where
  grows : st.scopes <+: st'.scopes
  scopeIn_eq : r.scopeIn = scopeIn
  scopeOut : ∃ s, st'.scopes[r.scopeOut]? = some s
  checked : r.Checked st'.scopes r.parameters
  concludes : r.concludes = c.concludes

section Clauses

variable {scopeIn : ScopeId} {s : Scope} {r : ResolvedClause} (hs : st.scopes[scopeIn]? = some s)

include hs

omit hs in
theorem read_checked {filter : Option Expr} (h : read ws filter scopeIn st = .ok (r, st')) :
    Leaves st st' scopeIn (.read false ws filter) r := by
  obtain ⟨ps, scope, parameters, st₁, hps, hfilter, rfl, rfl⟩ := read_iff.mp h
  obtain ⟨hchecked, -, -, hscopes⟩ := patterns_checked hps
  refine ⟨hscopes ▸ prefix_append _ _, rfl, ⟨scope, getElem?_concat_length⟩,
    ⟨scope, getElem?_concat_length, fun p hp => ?_, fun e he => ?_⟩, rfl⟩
  · exact (hchecked p hp).1.mono .refl (subset_addNames_left _ _)
  · exact (checkOption_eq_ok hfilter e he).mono .refl (subset_addNames_right _ _)

theorem create_checked (h : create ws scopeIn st = .ok (r, st')) :
    Leaves st st' scopeIn (.create ws) r := by
  obtain ⟨ps, scope, parameters, st₁, hps, rfl, rfl⟩ := create_run hs h
  obtain ⟨hchecked, -, -, hscopes⟩ := patterns_checked hps
  refine ⟨hscopes ▸ prefix_append _ _, rfl, ⟨scope, getElem?_concat_length⟩,
    ⟨scope, getElem?_concat_length, fun p hp => ?_⟩, rfl⟩
  exact ⟨(hchecked p hp).1, types_of_checkNew (hchecked p hp).2⟩

theorem unwind_checked (h : unwind e x scopeIn st = .ok (r, st')) :
    Leaves st st' scopeIn (.unwind e x) r := by
  obtain ⟨hchecked, -, rfl, rfl⟩ := unwind_run hs h
  have he : e.Checked s (addNames [] e.parameters) :=
    Checked.mono (s := { s with parent := some scopeIn }) (fun _ _ hx => hx)
      (subset_addNames_right _ _) ⟨⟨"UNWIND", hchecked⟩, List.Subset.refl _⟩
  exact ⟨prefix_append _ _, rfl, ⟨_, getElem?_concat_length⟩, ⟨s, getElem?_mono hs _, he⟩, rfl⟩

theorem project_checked {w : Projection} (h : project final w scopeIn st = .ok (r, st')) :
    Leaves st st' scopeIn (.project final w) r := by
  obtain ⟨expanded, acc, sorted, order, skip, limit, -, hacc, hsorts, hskips, hlimits, hfilters,
    rfl, rfl⟩ := project_run hs h
  have hempty : Items.Sound s final (· ∈ expanded) { output := Scope.childOf scopeIn } :=
    ⟨rfl, nodup_nil, forall_mem_nil _⟩
  have hsound := addItems_sound (fun _ hitem => hitem) hempty hacc
  obtain ⟨-, hparameters⟩ := addItems_parameters hacc
  -- the parameters of the items, the sort keys, the bounds and the filter, one added to the other
  have hmore {x : String} {a b c d e : List String} :
      x ∈ addNames (addNames (addNames (addNames a b) c) d) e ↔
        x ∈ a ∨ x ∈ b ∨ x ∈ c ∨ x ∈ d ∨ x ∈ e := by
    simp only [mem_addNames, or_assoc]
  refine ⟨append_assoc .. ▸ prefix_append _ _, rfl, ⟨_, getElem?_concat_length⟩,
    ⟨s, sorted, acc.output, getElem?_mono (getElem?_mono hs _) _,
      getElem?_mono getElem?_concat_length _, getElem?_concat_length, hsound.distinct,
      fun i hi => ?_, fun o ho hcolumn => ?_, fun e he => ?_, fun e he => ?_, fun e he => ?_⟩, rfl⟩
  · obtain ⟨item, hitem, hreads⟩ := hsound.items i hi
    exact (itemValue_checked i.value hreads.value).mono
      fun x hx => hmore.mpr (.inl (hparameters item hitem hx))
  · obtain ⟨w, hw, hsort⟩ := mem_of_forall₂ (mapM_eq_ok.mp hsorts) ho
    exact (orderItem_checked o hsort hcolumn).mono .refl
      fun x hx => hmore.mpr (.inr (.inl (mem_flatMap.mpr ⟨w, hw, hx⟩)))
  · exact (boundParameters_eq_ok hskips e he).imp_right
      fun hbound x hx => hmore.mpr (.inr (.inr (.inl (hbound hx))))
  · exact (boundParameters_eq_ok hlimits e he).imp_right
      fun hbound x hx => hmore.mpr (.inr (.inr (.inr (.inl (hbound hx)))))
  · exact (checkOption_eq_ok hfilters e he).mono .refl
      fun x hx => hmore.mpr (.inr (.inr (.inr (.inr hx))))

theorem clause_checked {c : Clause} (h : clause scopeIn c st = .ok (r, st')) :
    Leaves st st' scopeIn c r := by
  cases c with
  | read optional ws filter =>
    cases optional with
    | false => exact read_checked h
    | true => cases h
  | project final w => exact project_checked hs h
  | unwind e x => exact unwind_checked hs h
  | create ws => exact create_checked hs h
  | delete detach targets | set items => cases h

end Clauses

theorem clausesFrom_each {scopeIn : ScopeId} (hs : st.scopes[scopeIn]? = some s)
    (h : clausesFrom scopeIn cs st = .ok (rs, st')) :
    st.scopes <+: st'.scopes ∧ Chained scopeIn rs ∧ Forall₂ (fun c r => ∃ id s st₁ st₂,
      st₁.scopes[id]? = some s ∧ clause id c st₁ = .ok (r, st₂) ∧ st₂.scopes <+: st'.scopes)
        cs rs := by
  induction cs generalizing scopeIn s st rs with
  | nil =>
    cases h
    exact ⟨prefix_rfl, .nil scopeIn, .nil⟩
  | cons c cs ih =>
    obtain ⟨r, st₁, hr, h⟩ := run_bind_eq_ok.mp h
    obtain ⟨rs, st₂, hrs, h⟩ := run_bind_eq_ok.mp h
    cases h
    obtain ⟨hgrows, rfl, ⟨s', hs'⟩, -⟩ := clause_checked hs hr
    obtain ⟨hgrows', hchained, hall⟩ := ih hs' hrs
    exact ⟨hgrows.trans hgrows', .cons hchained, .cons ⟨_, s, st, st₁, hs, hr, hgrows'⟩ hall⟩

theorem branch_eq_ok (hcs : ∀ c ∈ cs, ∀ w ∈ c.patterns, w.Alternates)
    (h : branch cs st = .ok (rs, st')) : BranchResolved st'.scopes cs rs := by
  obtain ⟨hvalid, hclauses⟩ := branch_run h
  obtain ⟨⟨more, hmore⟩, hchained, heach⟩ := clausesFrom_each getElem?_concat_length hclauses
  have hall : Forall₂ (ClauseResolved st'.scopes) cs rs := by
    refine ((forall₂_and_left _ _).mpr ⟨hcs, heach⟩).imp ?_
    rintro c r ⟨hc, id, s, st₁, st₂, hs, hr, hgrows⟩
    exact (clause_eq_ok hc hs hr).mono hgrows
  refine ⟨_, ?_, hchained, hall, isReturn_of_forall₂ hall (checkClauses_eq_ok hvalid)⟩
  rw [← hmore]
  exact getElem?_mono getElem?_concat_length more

def Concludes (rs : List ResolvedClause) : Prop :=
  ∃ first last, rs = first ++ [last] ∧ last.concludes

structure BranchChecked (scopes : ScopeTable) (rs : List ResolvedClause) : Prop where
  clauses : ∀ r ∈ rs, r.Checked scopes r.parameters
  concludes : Concludes rs

theorem BranchChecked.mono (hmore : scopes <+: scopes')
    (h : BranchChecked scopes rs) : BranchChecked scopes' rs :=
  ⟨fun r hr => (h.clauses r hr).mono hmore (List.Subset.refl _), h.concludes⟩

theorem checkClauses_last (h : checkClauses cs = .ok ()) : ∃ first last, cs = first ++ [last] ∧
      ((∃ w, last = .project true w) ∨ ∃ ws, last = .create ws) := by
  obtain ⟨⟨⟩, -, h⟩ := bind_eq_ok.mp h
  dsimp only at h
  split at h
  · cases h
  · split at h
    · exact ⟨cs.dropLast, _, (dropLast_append_getLast? _ ‹_›).symm, .inl ⟨_, rfl⟩⟩
    · exact ⟨cs.dropLast, _, (dropLast_append_getLast? _ ‹_›).symm, .inr ⟨_, rfl⟩⟩
    · cases h
    · cases h

theorem checkClauses_concludes (h : checkClauses cs = .ok ()) :
    ∃ first last, cs = first ++ [last] ∧ last.concludes := by
  obtain ⟨first, last, hcs, ⟨w, rfl⟩ | ⟨ws, rfl⟩⟩ := checkClauses_last h
  · exact ⟨first, _, hcs, rfl⟩
  · exact ⟨first, _, hcs, rfl⟩

theorem branch_checked (h : branch cs st = .ok (rs, st')) :
    st.scopes <+: st'.scopes ∧ BranchChecked st'.scopes rs := by
  obtain ⟨hvalid, hclauses⟩ := branch_run h
  obtain ⟨hgrows, -, heach⟩ := clausesFrom_each getElem?_concat_length hclauses
  have hall : Forall₂ (fun c r => r.Checked st'.scopes r.parameters ∧ r.concludes = c.concludes)
      cs rs := by
    refine heach.imp ?_
    rintro c r ⟨id, s, st₁, st₂, hs, hr, hmore⟩
    obtain ⟨-, -, -, hchecked, hconcludes⟩ := clause_checked hs hr
    exact ⟨hchecked.mono hmore (List.Subset.refl _), hconcludes⟩
  obtain ⟨hchecked, hall⟩ := forall₂_and_right.mp hall
  refine ⟨(prefix_append _ _).trans hgrows, hchecked, ?_⟩
  obtain ⟨first, last, rfl, hlast⟩ := checkClauses_concludes hvalid
  obtain ⟨before, r, rfl, -, hr⟩ := forall₂_concat hall
  exact ⟨before, r, rfl, hr.trans hlast⟩

theorem unionBranches_from {columns : List String} {parts : List UnionPart}
    {branches : List (List ResolvedClause)}
    (h : parts.mapM (unionBranch columns) st = .ok (branches, st')) :
    st.scopes <+: st'.scopes ∧ Forall₂ (fun part rs => ∃ st₁ st₂,
      unionBranch columns part st₁ = .ok (rs, st₂) ∧ st₂.scopes <+: st'.scopes) parts branches :=
  run_mapM_eq_ok (R := fun a b => a.scopes <+: b.scopes) (fun _ => prefix_rfl) .trans
    (fun h => (branch_checked (branch_of_unionBranch h)).1) h

end Resolve

theorem Query.resolve_from (h : q.resolve = .ok r) :
    Forall₂ (fun cs rs => ∃ st st', branch cs st = .ok (rs, st') ∧
      st'.scopes <+: r.scopes) q.singles r.branches := by
  obtain ⟨first, st, rest, st', hbranch, hrest, hbranches, hscopes, -⟩ := Query.resolve_eq_ok h
  obtain ⟨hgrows, hrests⟩ := unionBranches_from hrest
  rw [hbranches, hscopes]
  refine .cons ⟨{}, st, hbranch, hgrows⟩ (forall₂_map_left_iff.mpr (hrests.imp ?_))
  exact fun _ _ ⟨st₁, st₂, h, hmore⟩ => ⟨st₁, st₂, branch_of_unionBranch h, hmore⟩

theorem Query.resolve_columns (h : q.resolve = .ok r) :
    ∃ first rest, r.branches = first :: rest ∧ r.columns = columnsOf first ∧
      ∀ rs ∈ rest, columnsOf rs = r.columns ∧ r.columns ≠ [] := by
  obtain ⟨first, st, rest, st', -, hrest, hbranches, -, hcolumns, -⟩ := Query.resolve_eq_ok h
  refine ⟨first, rest, hbranches, hcolumns, fun rs hrs => ?_⟩
  obtain ⟨part, -, st₁, st₂, hpart, -⟩ := mem_of_forall₂ (unionBranches_from hrest).2 hrs
  rw [hcolumns]
  exact unionBranch_columns hpart

theorem Query.resolve_each (h : q.resolve = .ok r) :
    Forall₂ (Forall₂ fun c d => ∃ id s st st', st.scopes[id]? = some s ∧
      clause id c st = .ok (d, st')) q.singles r.branches := by
  refine (Query.resolve_from h).imp ?_
  rintro cs rs ⟨st, st', hbranch, -⟩
  refine (clausesFrom_each getElem?_concat_length (branch_run hbranch).2).2.2.imp ?_
  exact fun c d ⟨id, s, st₁, st₂, hs, hd, _⟩ => ⟨id, s, st₁, st₂, hs, hd⟩

theorem Query.resolve_branches {text : String} (hq : Query.parse text = .ok q)
    (h : q.resolve = .ok r) : Forall₂ (BranchResolved r.scopes) q.singles r.branches := by
  refine forall₂_iff_get.mpr ⟨(resolve_from h).length_eq, fun i hi hi' => ?_⟩
  obtain ⟨st, st', hbranch, hmore⟩ := (forall₂_iff_get.mp (resolve_from h)).2 i hi hi'
  exact (branch_eq_ok (patterns_alternate hq _ (get_mem _ _)) hbranch).mono hmore

theorem Query.resolve_branchChecked (h : q.resolve = .ok r) :
    ∀ rs ∈ r.branches, BranchChecked r.scopes rs := by
  intro rs hrs
  obtain ⟨cs, -, st, st', hbranch, hmore⟩ := mem_of_forall₂ (Query.resolve_from h) hrs
  exact (branch_checked hbranch).2.mono hmore

theorem Query.resolve_checked (h : q.resolve = .ok r) :
    ∀ rs ∈ r.branches, ∀ c ∈ rs, c.Checked r.scopes r.parameters := by
  intro rs hrs c hc
  refine ((q.resolve_branchChecked h rs hrs).clauses c hc).mono prefix_rfl fun x hx => ?_
  exact mem_addNames.mpr (.inr (mem_flatMap.mpr ⟨c, mem_flatten_of_mem hrs hc, hx⟩))

end CypherTraversal
