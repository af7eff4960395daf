import CypherTraversal.Proofs.Relabelled.Clauses

/-! # Single queries further along

A single query of a union is resolved after the ones before it: there are scopes already, and names
have been generated. Its clauses then have their scopes further along and higher numbers in their
generated names; otherwise they are those of the query on its own. -/

namespace CypherTraversal

open Run LowerClause List CypherTraversal.Expr Scope

variable {acc : Items} {final : Bool} {item : ProjectionItem} {items : List ProjectionItem}
  {k n : Nat} {os : List OrderItem} {s s' : Scope} {ws : List (Pattern Expr)} {ρ : String → String}
  {p p' : PatternState}

/-! ### Expressions in scopes that agree -/

namespace Expr

theorem check_agrees {ok : String → Bool} (hs : ∀ n, ok n → s.kind? n = s'.kind? n)
    (clause : String) (e : Expr) (h : ∀ n ∈ e.names, ok n) :
    e.check s clause = e.check s' clause := by
  induction e using induction_parts with
  | step e ih =>
    have hself : e.checkSelf s clause = e.checkSelf s' clause := by
      cases e with
      | var x => rw [checkSelf, checkSelf, s.has_eq, s'.has_eq, hs x (h x mem_cons_self)]
      | _ => exact checkSelf_eq fun _ h => by cases h
    rw [check_eq, check_eq, hself, checkAll_congr fun x hx => ih x hx (names_part h x hx)]

end Expr

namespace Resolve

section Agree

variable {s s' : Scope} {ok : String → Bool} (hs : ∀ n, ok n → s.kind? n = s'.kind? n)

include hs

theorem itemValue_agrees (clause : String) {e : Expr} (he : ∀ n ∈ e.names, ok n) :
    itemValue s clause e = itemValue s' clause e := by
  have hcheck := check_agrees hs clause e he
  unfold itemValue
  split
  · rename_i name args distinct
    cases AggregateFunction.ofName? name with
    | none => simp only [hcheck]
    | some f =>
      have hargs : ∀ arg, args = [arg] → arg.check s clause = arg.check s' clause := by
        rintro arg rfl
        refine check_agrees hs clause arg fun n hn => he n ?_
        rw [Expr.names, namesAll, namesAll, append_nil]
        exact hn
      dsimp only
      split
      · rfl
      · rename_i arg _
        rw [hargs arg rfl]
      · rfl
  · rw [hcheck]

theorem itemKind_agrees {v : ItemValue} (hv : v.namesPass ok) : itemKind s v = itemKind s' v := by
  cases v with
  | aggregate a => rfl
  | expr e =>
    have hnames := (namesPass_iff.mp hv).1
    show e.kindIn s = e.kindIn s'
    cases e
    case var x => rw [kindIn, kindIn, hs x (hnames x mem_cons_self)]
    case access base key =>
      cases base
      case var x =>
        rw [kindIn, kindIn, isElement, isElement, hs x (hnames x (mem_cons_of_mem _ mem_cons_self))]
      all_goals rfl
    all_goals rfl

end Agree

end Resolve

/-! ### Renamed scopes -/

theorem isGenerated_of_element {name : String} (h : isNoElement name = false) :
    isGenerated name = true := by
  cases hname : isGenerated name with
  | true => rfl
  | false =>
    rw [isNoElement_of_not_generated hname] at h
    cases h

theorem RenamesElements.isGenerated_eq (hρ : RenamesElements ρ) (n : String) :
    isGenerated (ρ n) = isGenerated n := by
  cases hn : isNoElement n with
  | true => rw [hρ.keeps n hn]
  | false => rw [isGenerated_of_element hn, isGenerated_of_element (hρ.elements n hn)]

namespace Scope.Renamed

variable {s s' t t' : Scope} (hρ : RenamesElements ρ) (hs : s.Renamed ρ s')

include hρ hs

theorem bind (x : String) (k : Kind) : (s.bind x k).Renamed ρ (s'.bind (ρ x) k) := by
  show rebind (ρ x) k s'.bindings = (rebind x k s.bindings).map (Binding.rename ρ)
  rw [hs]
  generalize s.bindings = bs
  induction bs with
  | nil => rfl
  | cons b bs ih =>
    rw [map_cons, rebind, rebind]
    by_cases hb : b.name = x
    · have hb' : (b.rename ρ).name = ρ x := congrArg ρ hb
      rw [if_pos hb, if_pos hb']
      rfl
    · have hb' : (b.rename ρ).name ≠ ρ x := fun h => hb (hρ.injective h)
      rw [if_neg hb, if_neg hb', ih]
      rfl

theorem extendedBy (ht : t.Renamed ρ t') : (s.extendedBy t).Renamed ρ (s'.extendedBy t') := by
  unfold Scope.extendedBy
  rw [ht]
  generalize t.bindings = bs
  induction bs generalizing s s' with
  | nil => exact hs
  | cons b bs ih =>
    refine ih ?_
    show (if s.has b.name then s else _).Renamed ρ (if s'.has (ρ b.name) then s' else _)
    rw [hs.has hρ]
    split
    · exact hs
    · exact hs.bind hρ b.name b.kind

theorem kind?_of_passing {n : String} (hn : isNoElement n) : s.kind? n = s'.kind? n := by
  have hkind := hs.kind? hρ n
  rw [hρ.keeps n hn] at hkind
  exact hkind.symm

theorem visible : s'.names.filter (fun n => !isGenerated n) =
    s.names.filter fun n => !isGenerated n := by
  unfold Scope.names
  rw [hs, map_map]
  generalize s.bindings = bs
  induction bs with
  | nil => rfl
  | cons b bs ih =>
    rw [map_cons, map_cons, filter_cons, filter_cons, ih]
    show (if !isGenerated (ρ b.name) then ρ b.name :: _ else _) = _
    rw [hρ.isGenerated_eq]
    cases hb : isGenerated b.name with
    | true => rfl
    | false => rw [hρ.keeps b.name (isNoElement_of_not_generated hb)]

end Scope.Renamed

/-! ### States further along -/

namespace Resolve

structure State.Shifted (ρ : String → String) (k n : Nat) (st st' : State) : Prop where
  unnamed : st'.unnamed = st.unnamed + n
  length : st'.scopes.length = st.scopes.length + k
  scopes : ScopeTable.Renamed ρ k st.scopes st'.scopes

def Follows {α β : Type} (ρ : String → String) (k n : Nat) (R : α → β → Prop) (x : Resolve α)
    (y : Resolve β) : Prop :=
  ∀ st st' : State, st.Shifted ρ k n st' →
    Pairs (fun a b => R a.1 b.1 ∧ a.2.Shifted ρ k n b.2) (x st) (y st')

namespace Follows

variable {α α' β β' : Type} {k n : Nat} {R : α → β → Prop} {S : α' → β' → Prop} {x : Resolve α}
  {y : Resolve β}

theorem pure {a : α} {b : β} (h : R a b) : Follows ρ k n R (pure a) (pure b) :=
  fun _ _ hst => .ok ⟨h, hst⟩

theorem throw (e : Error) (y : Resolve β) : Follows ρ k n R (throw e) y :=
  fun _ _ _ => .error e _

theorem bind {f : α → Resolve α'} {f' : β → Resolve β'} (h : Follows ρ k n R x y)
    (hf : ∀ a b, R a b → Follows ρ k n S (f a) (f' b)) : Follows ρ k n S (x >>= f) (y >>= f') :=
  fun st st' hst => (h st st' hst).bind fun a b hab => hf a.1 b.1 hab.1 a.2 b.2 hab.2

theorem lift {x : Except Error α} {y : Except Error β} (h : Pairs R x y) :
    Follows ρ k n R (liftM x : Resolve α) (liftM y : Resolve β) := by
  rintro st st' hst ⟨a, m⟩ ⟨b, m'⟩ ha hb
  obtain ⟨hx, rfl⟩ := liftM_eq_ok.mp ha
  obtain ⟨hy, rfl⟩ := liftM_eq_ok.mp hb
  exact ⟨h a b hx hy, hst⟩

theorem check {x y : Except Error Unit} : Follows ρ k n (fun _ _ => True)
    (liftM x : Resolve Unit) (liftM y : Resolve Unit) :=
  lift fun _ _ _ _ => trivial

theorem foldlM {γ : Type} {f : α → γ → Resolve α} {f' : β → γ → Resolve β} {cs : List γ}
    (hf : ∀ c ∈ cs, ∀ a b, R a b → Follows ρ k n R (f a c) (f' b c)) {a : α} {b : β} (h : R a b) :
    Follows ρ k n R (cs.foldlM f a) (cs.foldlM f' b) := by
  induction cs generalizing a b with
  | nil => exact pure h
  | cons c cs ih =>
    obtain ⟨hc, hcs⟩ := forall_mem_cons.mp hf
    exact (hc a b h).bind fun _ _ h' => ih hcs h'

end Follows

theorem pushScope_follows (hs : s.Renamed ρ s') :
    Follows ρ k n (fun id id' => id' = id + k) (pushScope s) (pushScope s') := by
  intro st st' hst
  refine .ok ⟨hst.length, hst.unnamed, ?_, fun id => ?_⟩
  · show (st'.scopes ++ [s']).length = (st.scopes ++ [s]).length + k
    rw [length_append, length_append, hst.length]
    exact Nat.add_right_comm _ _ _
  · show (ScopeTable.scope (st.scopes ++ [s]) id).Renamed ρ
      (ScopeTable.scope (st'.scopes ++ [s']) (id + k))
    have hlength := hst.length
    unfold ScopeTable.scope
    rw [getD_eq_getElem?_getD, getD_eq_getElem?_getD]
    rcases Nat.lt_trichotomy id st.scopes.length with hid | rfl | hid
    · rw [getElem?_append_left hid, getElem?_append_left (by omega)]
      have hold := hst.scopes id
      unfold ScopeTable.scope at hold
      rwa [getD_eq_getElem?_getD, getD_eq_getElem?_getD] at hold
    · rw [← hlength, getElem?_concat_length, getElem?_concat_length]
      exact hs
    · rw [getElem?_eq_none, getElem?_eq_none]
      · rfl
      · rw [length_append, length_singleton]
        omega
      · rw [length_append, length_singleton]
        omega

theorem scopeAt_follows (id : ScopeId) :
    Follows ρ k n (Renamed ρ) (scopeAt id) (scopeAt (id + k)) :=
  fun _ _ hst => .ok ⟨hst.scopes id, hst⟩

theorem derivedFrom_follows (id : ScopeId) :
    Follows ρ k n (Renamed ρ) (derivedFrom id) (derivedFrom (id + k)) :=
  (scopeAt_follows id).bind fun _ _ hs => .pure hs

/-! ### Patterns -/

structure PatternState.Renamed (ρ : String → String) (p p' : PatternState) : Prop where
  scope : p.scope.Renamed ρ p'.scope
  parameters : p'.parameters = p.parameters
  start : p'.start = p.start.map (ResolvedNode.rename ρ)
  hops : p'.hops = p.hops.map (Prod.map (ResolvedRelationship.rename ρ) (ResolvedNode.rename ρ))
  pending : p'.pending = p.pending.map (ResolvedRelationship.rename ρ)
  startPasses : ∀ m ∈ p.start, propertiesPass isNoElement m.properties
  hopsPass : ∀ h ∈ p.hops,
    propertiesPass isNoElement h.1.properties ∧ propertiesPass isNoElement h.2.properties
  pendingPasses : ∀ r ∈ p.pending, propertiesPass isNoElement r.properties

theorem passes_none {α : Type} {P : α → Prop} : ∀ a ∈ (none : Option α), P a :=
  fun a ha => absurd ha (Option.not_mem_none a)

section Patterns

variable {k n : Nat} (hρ : RenamesElements ρ)
  (hshift : ∀ i, ρ (elementName i) = elementName (i + n))

include hρ

theorem bindElement_renamed (hs : s.Renamed ρ s') (x : String) (kind : Kind) :
    Pairs (fun a b => b.1 = a.1 ∧ a.2.Renamed ρ b.2) (bindElement s x kind)
      (bindElement s' (ρ x) kind) := by
  unfold bindElement
  rw [hs.kind? hρ]
  cases s.kind? x with
  | none => exact .ok ⟨rfl, hs.bind hρ x kind⟩
  | some j =>
    dsimp only
    split
    · exact .ok ⟨rfl, hs⟩
    · exact .error _ _

omit hρ in
theorem checkProperties_renamed (clause : String) (properties : List (String × Expr))
    (h : p.Renamed ρ p') :
    Pairs (PatternState.Renamed ρ) (checkProperties clause properties p)
      (checkProperties clause properties p') := by
  refine Pairs.bind (R := fun _ _ => True) (fun _ _ _ _ => trivial) fun _ _ _ => .ok ?_
  exact { h with parameters := congrArg (addNames · _) h.parameters }

include hshift

theorem nameOr_follows {var : Option String} (hvar : var.all isNoElement) :
    Follows ρ k n (fun a b => b = ρ a) (nameOr var) (nameOr var) := by
  intro st st' hst
  cases var with
  | some x => exact .ok ⟨(hρ.keeps x hvar).symm, hst⟩
  | none =>
    refine .ok ⟨?_, ?_, hst.length, hst.scopes⟩
    · show elementName st'.unnamed = ρ (elementName st.unnamed)
      rw [hshift, hst.unnamed]
    · show st'.unnamed + 1 = st.unnamed + 1 + n
      rw [hst.unnamed]
      exact Nat.add_right_comm _ _ _

theorem addElement_follows (clause : String) (hp : p.Renamed ρ p') {e : PatternElement Expr}
    (he : e.namesPass isNoElement) :
    Follows ρ k n (PatternState.Renamed ρ) (addElement clause p e) (addElement clause p' e) := by
  obtain ⟨hvar, hproperties⟩ :
      e.var?.all isNoElement ∧ propertiesPass isNoElement e.properties := by
    cases e <;> exact Bool.and_eq_true_iff.mp he
  rw [addElement_eq, addElement_eq]
  split
  · exact fun _ _ _ => .error _ _
  · refine (nameOr_follows hρ hshift hvar).bind fun name _ hname => ?_
    subst hname
    refine Follows.bind (.lift (bindElement_renamed hρ hp.scope name e.kind)) ?_
    rintro ⟨bound, scope⟩ ⟨_, scope'⟩ ⟨rfl, hscope⟩
    refine Follows.bind (.lift (checkProperties_renamed clause _ { hp with scope := hscope })) ?_
    intro q q' hq
    refine .pure ?_
    cases e with
    | node var labels properties =>
      unfold PatternState.put
      rw [hq.pending]
      cases hpending : q.pending with
      | none =>
        refine { hq with
          start := rfl, startPasses := ?_, pending := rfl, pendingPasses := passes_none }
        rintro _ ⟨⟩
        exact hproperties
      | some r =>
        refine { hq with
          pending := rfl, pendingPasses := passes_none, hops := ?_, hopsPass := ?_ }
        · show q'.hops ++ _ = (q.hops ++ _).map _
          rw [hq.hops, map_append]
          rfl
        · exact forall_mem_append.mpr ⟨hq.hopsPass, forall_mem_singleton.mpr
            ⟨hq.pendingPasses r hpending, hproperties⟩⟩
    | relationship var types direction properties length =>
      refine { hq with pending := rfl, pendingPasses := ?_ }
      rintro _ ⟨⟩
      exact hproperties

structure PatternsRenamed (ρ : String → String) (a b : List ResolvedPattern × Scope × List String) :
    Prop where
  patterns : b.1 = a.1.map (ResolvedPattern.rename ρ)
  scope : a.2.1.Renamed ρ b.2.1
  parameters : b.2.2 = a.2.2
  passes : ∀ p ∈ a.1, p.PropertiesPass isNoElement

theorem pattern_follows (clause : String) (hs : s.Renamed ρ s') (parameters : List String)
    {w : Pattern Expr} (hw : w.elements.all (PatternElement.namesPass isNoElement)) :
    Follows ρ k n (fun a b => PatternsRenamed ρ ([a.1], a.2) ([b.1], b.2))
      (pattern clause s parameters w) (pattern clause s' parameters w) := by
  unfold pattern
  split
  · exact .throw _ _
  · have hempty : PatternState.Renamed ρ { scope := s, parameters } { scope := s', parameters } :=
      ⟨hs, rfl, rfl, rfl, rfl, passes_none, forall_mem_nil _, passes_none⟩
    refine (Follows.foldlM (fun e he p p' hp => addElement_follows hρ hshift clause (e := e) hp
      (all_eq_true.mp hw e he)) hempty).bind fun q q' hq => ?_
    rw [hq.start, hq.pending]
    cases hstart : q.start with
    | none => exact .throw _ _
    | some start =>
      cases q.pending with
      | some r => exact .throw _ _
      | none =>
        refine .pure ⟨?_, hq.scope, hq.parameters, forall_mem_singleton.mpr
          ⟨hq.startPasses start hstart, hq.hopsPass⟩⟩
        rw [hq.hops]
        rfl

theorem patterns_follow (clause : String) (check : ResolvedPattern → Except Error Unit)
    (hs : s.Renamed ρ s')
    (hws : ws.all fun w => w.elements.all (PatternElement.namesPass isNoElement))
    (parameters : List String) :
    Follows ρ k n (PatternsRenamed ρ) (patterns clause check s ws parameters)
      (patterns clause check s' ws parameters) := by
  induction ws generalizing s s' parameters with
  | nil => exact .pure ⟨rfl, hs, rfl, forall_mem_nil _⟩
  | cons w ws ih =>
    obtain ⟨hw, hrest⟩ := Bool.and_eq_true_iff.mp hws
    refine (pattern_follows hρ hshift clause hs parameters hw).bind ?_
    rintro ⟨r, scope, parameters⟩ ⟨r', scope', parameters'⟩ ⟨hr, hscope, hparameters, hpass⟩
    obtain rfl : parameters' = parameters := hparameters
    refine Follows.bind .check fun _ _ _ => (ih hscope hrest parameters').bind ?_
    rintro ⟨rs, scope, parameters⟩ ⟨rs', scope', parameters'⟩ ⟨hrs, hscope, hparameters, hpasses⟩
    exact .pure ⟨congrArg₂ List.cons (singleton_inj.mp hr) hrs, hscope, hparameters,
      forall_mem_cons.mpr ⟨forall_mem_singleton.mp hpass, hpasses⟩⟩

end Patterns

/-! ### Projections -/

structure ItemPasses (ok : String → Bool) (item : ProjectionItem) : Prop where
  expr : item.expr.namesPass ok
  asName : item.asName.all ok

theorem expandStar_renamed (hρ : RenamesElements ρ) (hs : s.Renamed ρ s') (clause : String)
    (items : List ProjectionItem) : expandStar s clause items = expandStar s' clause items := by
  unfold expandStar
  rw [hs.visible hρ]

theorem expandStar_passes (s : Scope) (clause : String)
    (hitems : ∀ item ∈ items, ItemPasses isNoElement item) :
    Gives (fun items => ∀ item ∈ items, ItemPasses isNoElement item)
      (expandStar s clause items) := by
  intro expanded hexpanded item hitem
  rcases expandStar_gives s clause items expanded hexpanded item hitem with h | ⟨x, hx, rfl⟩
  · exact hitems item h
  · have hvisible := isNoElement_of_not_generated hx
    exact ⟨namesPass_iff.mpr ⟨forall_mem_singleton.mpr hvisible, rfl⟩, rfl⟩

theorem itemValue_passes {ok : String → Bool} {clause : String} {e : Expr} (he : e.namesPass ok) :
    Gives (fun v => v.namesPass ok) (itemValue s clause e) := by
  intro v hv
  have hall : v.All fun x => x.namesPass ok := by
    refine itemValue_all (fun x hx _ => ?_) v hv
    rcases hx with rfl | hx
    · exact he
    · obtain ⟨hnames, hkeys⟩ := namesPass_iff.mp he
      exact namesPass_iff.mpr ⟨names_part hnames x hx, allKeys_part hkeys x hx⟩
  cases v with
  | expr e => exact hall
  | aggregate a => exact (Option.all_eq_true _ _).mpr hall

theorem itemName_passes {clause : String} {v : ItemValue} (hitem : ItemPasses isNoElement item)
    (hv : itemValue s clause item.expr = .ok v) : isNoElement item.name := by
  unfold ProjectionItem.name
  cases hname : item.asName with
  | some x =>
    have hpasses := hitem.asName
    rw [hname] at hpasses
    exact hpasses
  | none =>
    exact isNoElement_of_not_generated (isGenerated_of_startsVisibly (startsVisibly_item hv))

structure Items.Renamed (ρ : String → String) (a b : Items) : Prop where
  items : b.items = a.items
  output : a.output.Renamed ρ b.output
  parameters : b.parameters = a.parameters

section Projections

variable {k n : Nat} (hρ : RenamesElements ρ) {s s' : Scope} (hs : s.Renamed ρ s')

include hρ hs

theorem addItem_renamed {acc' : Items} (hacc : acc.Renamed ρ acc')
    (hitem : ItemPasses isNoElement item) :
    Pairs (Items.Renamed ρ) (addItem s final acc item) (addItem s' final acc' item) := by
  have hkind : ∀ x, isNoElement x → s.kind? x = s'.kind? x := fun _ hx => hs.kind?_of_passing hρ hx
  intro a a' ha ha'
  obtain ⟨-, value, hvalue, rfl⟩ := addItem_eq_ok ha
  obtain ⟨-, value', hvalue', rfl⟩ := addItem_eq_ok ha'
  rw [itemValue_agrees hkind _ (namesPass_iff.mp hitem.expr).1, hvalue'] at hvalue
  cases hvalue
  rw [hacc.items, hacc.parameters]
  split
  · exact ⟨rfl, hacc.output, rfl⟩
  · refine ⟨rfl, ?_, rfl⟩
    have hbound := hacc.output.bind hρ item.name (itemKind s' value)
    rw [hρ.keeps _ (itemName_passes hitem hvalue')] at hbound
    rwa [itemKind_agrees hkind (itemValue_passes hitem.expr value hvalue')]

theorem addItems_renamed (hitems : ∀ item ∈ items, ItemPasses isNoElement item) {acc' : Items}
    (hacc : acc.Renamed ρ acc') :
    Pairs (Items.Renamed ρ) (addItems s final items acc) (addItems s' final items acc') := by
  unfold addItems
  induction items generalizing acc acc' with
  | nil => exact .ok hacc
  | cons item items ih =>
    obtain ⟨hitem, hrest⟩ := forall_mem_cons.mp hitems
    exact (addItem_renamed hρ hs hacc hitem).bind fun _ _ h => ih hrest h

theorem orderItems_renamed {t t' : Scope} (ht : t.Renamed ρ t') (clause : String)
    (items : List ResolvedItem) (hos : ∀ o ∈ os, o.expr.namesPass isNoElement) :
    orderItems s t clause items os = orderItems s' t' clause items os := by
  have hkind {a b : Scope} (h : a.Renamed ρ b) : ∀ x, isNoElement x → a.kind? x = b.kind? x :=
    fun _ hx => h.kind?_of_passing hρ hx
  refine mapM_congr fun o ho => ?_
  have hnames := (namesPass_iff.mp (hos o ho)).1
  have hcolumn : isColumn s clause o.expr = isColumn s' clause o.expr := by
    funext item
    unfold isColumn
    rw [itemValue_agrees (hkind hs) clause hnames]
  unfold orderItem
  rw [hcolumn, check_agrees (hkind ht) "ORDER BY" o.expr hnames]

end Projections

theorem addItems_pass (hitems : ∀ item ∈ items, ItemPasses isNoElement item) (id : ScopeId) :
    Gives (fun acc => ∀ i ∈ acc.items, isNoElement i.name ∧ i.value.namesPass isNoElement)
      (addItems s final items { output := childOf id }) := by
  have hempty : Items.Sound s final (ItemPasses isNoElement) { output := childOf id } :=
    ⟨rfl, nodup_nil, forall_mem_nil _⟩
  intro acc hacc i hi
  obtain ⟨item, hitem, hreads⟩ := (addItems_sound hitems hempty hacc).items i hi
  refine ⟨?_, itemValue_passes hitem.expr i.value hreads.value⟩
  rw [hreads.name]
  exact itemName_passes hitem hreads.value

theorem orderItems_pass {t : Scope} {clause : String} {items : List ResolvedItem}
    (hitems : ∀ i ∈ items, isNoElement i.name) (hos : ∀ o ∈ os, o.expr.namesPass isNoElement) :
    Gives (fun order => ∀ o ∈ order, o.expr.namesPass isNoElement ∧
      ∀ c, o.column = some c → isNoElement c) (orderItems s t clause items os) := by
  refine Gives.mapM fun o ho o' h => ?_
  obtain rfl := orderItem_eq h
  refine ⟨hos o ho, fun c hc => ?_⟩
  obtain ⟨i, hi, rfl⟩ := Option.map_eq_some_iff.mp hc
  exact hitems i (mem_of_find?_eq_some hi)

/-! ### Clauses -/

def ClauseFollows (ρ : String → String) (k : Nat) (r r' : ResolvedClause) : Prop :=
  r' = r.rename ρ k ∧ r.NamesPass isNoElement

section Clauses

variable {k n : Nat} (hρ : RenamesElements ρ)
  (hshift : ∀ i, ρ (elementName i) = elementName (i + n))

include hρ

theorem project_follows {w : Projection} (hw : (Clause.project final w).namesPass isNoElement)
    (id : ScopeId) :
    Follows ρ k n (ClauseFollows ρ k) (project final w id) (project final w (id + k)) := by
  obtain ⟨hw, hfilter⟩ := Bool.and_eq_true_iff.mp hw
  obtain ⟨hitems, horder⟩ := Bool.and_eq_true_iff.mp hw
  have hitems : ∀ item ∈ w.items, ItemPasses isNoElement item := fun item hitem =>
    have hpass := Bool.and_eq_true_iff.mp (all_eq_true.mp hitems item hitem)
    ⟨hpass.1, hpass.2⟩
  have horder : ∀ o ∈ w.order, o.expr.namesPass isNoElement := all_eq_true.mp horder
  have hbound (keyword : String) (e : Option Expr) : Follows ρ k n (· = ·)
      (liftM (boundParameters keyword e)) (liftM (boundParameters keyword e)) :=
    .lift (Pairs.same (Q := fun _ => True) (fun _ _ => trivial) fun _ _ => rfl)
  refine (scopeAt_follows id).bind fun input input' hinput => ?_
  rw [← expandStar_renamed hρ hinput]
  refine Follows.bind (.lift (Pairs.same (expandStar_passes input _ hitems)
    (R := fun a b => b = a ∧ ∀ item ∈ a, ItemPasses isNoElement item) fun _ h => ⟨rfl, h⟩)) ?_
  rintro expanded _ ⟨rfl, hexpanded⟩
  have hempty : Items.Renamed ρ { output := childOf id }
      { output := childOf (id + k) } := ⟨rfl, rfl, rfl⟩
  refine Follows.bind (.lift fun acc acc' hacc hacc' =>
    And.intro (addItems_renamed hρ hinput hexpanded hempty acc acc' hacc hacc')
      (addItems_pass hexpanded id acc hacc)) ?_
  rintro ⟨items, output, parameters⟩ ⟨items', output', parameters'⟩
    ⟨⟨hsame, houtput, hparameters⟩, hpass⟩
  obtain rfl : items' = items := hsame
  obtain rfl : parameters' = parameters := hparameters
  have hsort : (if items'.any fun i => i.value.isAggregate then output
      else output.extendedBy input).Renamed ρ
      (if items'.any fun i => i.value.isAggregate then output'
        else output'.extendedBy input') := by
    split
    · exact houtput
    · exact houtput.extendedBy hρ hinput
  dsimp only
  rw [← orderItems_renamed hρ hinput hsort _ items' horder]
  refine Follows.bind (.lift (Pairs.same (orderItems_pass (fun i hi => (hpass i hi).1) horder)
    (R := fun a b => b = a ∧ ∀ o ∈ a, o.expr.namesPass isNoElement ∧
      ∀ c, o.column = some c → isNoElement c) fun _ h => ⟨rfl, h⟩)) ?_
  rintro order _ ⟨rfl, hkeys⟩
  refine (pushScope_follows hsort).bind fun sortId _ hsortId => ?_
  refine (hbound "SKIP" w.skip).bind fun skip _ hskip => ?_
  refine (hbound "LIMIT" w.limit).bind fun limit _ hlimit => Follows.bind .check fun _ _ _ => ?_
  refine (pushScope_follows houtput).bind fun out _ hout => .pure ⟨?_, hpass, hkeys, hfilter⟩
  rw [hsortId, ← hskip, ← hlimit, hout]
  rfl

theorem unwind_follows {e : Expr} {x : String} (hc : (Clause.unwind e x).namesPass isNoElement)
    (id : ScopeId) :
    Follows ρ k n (ClauseFollows ρ k) (unwind e x id) (unwind e x (id + k)) := by
  obtain ⟨he, hx⟩ := Bool.and_eq_true_iff.mp hc
  refine (derivedFrom_follows id).bind fun s s' hs => Follows.bind .check fun _ _ _ => ?_
  have hhas := hs.has hρ x
  have hbound := hs.bind hρ x .value
  rw [hρ.keeps x hx] at hhas hbound
  rw [hhas]
  split
  · exact fun _ _ _ => .error _ _
  · refine (pushScope_follows hbound).bind fun out _ hout => .pure ⟨?_, he, hx⟩
    rw [hout]
    rfl

include hshift

theorem read_follows {filter : Option Expr}
    (hc : (Clause.read false ws filter).namesPass isNoElement) (id : ScopeId) :
    Follows ρ k n (ClauseFollows ρ k) (read ws filter id) (read ws filter (id + k)) := by
  obtain ⟨hws, hfilter⟩ := Bool.and_eq_true_iff.mp hc
  refine (derivedFrom_follows id).bind fun s s' hs =>
    (patterns_follow hρ hshift "MATCH" _ hs hws []).bind ?_
  rintro ⟨rs, scope, parameters⟩ ⟨rs', scope', parameters'⟩ ⟨hrs, hscope, hparameters, hpass⟩
  obtain rfl : rs' = rs.map (ResolvedPattern.rename ρ) := hrs
  obtain rfl : parameters' = parameters := hparameters
  refine Follows.bind .check fun _ _ _ => (pushScope_follows hscope).bind fun out _ hout => ?_
  refine .pure ⟨?_, hpass, hfilter⟩
  rw [hout]
  rfl

theorem clause_follows {c : Clause} (hc : c.namesPass isNoElement) (hcreate : c.isCreate = false)
    (id : ScopeId) :
    Follows ρ k n (ClauseFollows ρ k) (clause id c) (clause (id + k) c) := by
  cases c with
  | read optional ws filter =>
    cases optional with
    | true => exact .throw _ _
    | false => exact read_follows hρ hshift hc id
  | project final w => exact project_follows hρ hc id
  | unwind e x => exact unwind_follows hρ hc id
  | create ws => cases hcreate
  | delete _ _ | set _ => exact .throw _ _

theorem clausesFrom_follow {cs : List Clause} (hcs : ∀ c ∈ cs, c.namesPass isNoElement)
    (hcreate : ∀ c ∈ cs, c.isCreate = false) (id : ScopeId) :
    Follows ρ k n (Forall₂ (ClauseFollows ρ k)) (clausesFrom id cs) (clausesFrom (id + k) cs) := by
  induction cs generalizing id with
  | nil => exact .pure .nil
  | cons c cs ih =>
    obtain ⟨hc, hcs⟩ := forall_mem_cons.mp hcs
    obtain ⟨hcreate, hcreates⟩ := forall_mem_cons.mp hcreate
    refine (clause_follows hρ hshift hc hcreate id).bind fun r r' hr => ?_
    obtain ⟨rfl, hpass⟩ := hr
    exact (ih hcs hcreates r.scopeOut).bind fun _ _ hrs => .pure (.cons ⟨rfl, hpass⟩ hrs)

theorem branch_follows {cs : List Clause} (hcs : ∀ c ∈ cs, c.namesPass isNoElement)
    (hcreate : ∀ c ∈ cs, c.isCreate = false) :
    Follows ρ k n (Forall₂ (ClauseFollows ρ k)) (branch cs) (branch cs) := by
  have hempty : Renamed ρ {} {} := rfl
  refine Follows.bind .check fun _ _ _ => (pushScope_follows hempty).bind fun id _ hid => ?_
  subst hid
  exact clausesFrom_follow hρ hshift hcs hcreate id

end Clauses

end Resolve

end CypherTraversal
