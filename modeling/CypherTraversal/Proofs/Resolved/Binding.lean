import CypherTraversal.Proofs.Query.Built
import CypherTraversal.Resolved.OfQuery

/-! # What patterns bind

The elements of patterns are bound one after another. An element whose name is in scope has to be
of the kind that the scope says; any other one adds its name at the end of the scope. -/

namespace CypherTraversal

open List

variable {var : Option String} {clause name : String} {names parameters parameters' : List String}
  {scope scope' : Scope} {e : PatternElement Expr} {p p' : PatternState} {ε : Type}
  {w : Pattern Expr} {check : ResolvedPattern → Except Error Unit} {ws : List (Pattern Expr)}
  {ps : List ResolvedPattern}

/-! ### Scopes -/

namespace Scope

variable {s s' m : Scope} {x : String} {k : Kind}

theorem kind?_eq_none_iff : s.kind? x = none ↔ x ∉ s.names := by
  unfold kind? find? names
  rw [Option.map_eq_none_iff, find?_eq_none]
  simp only [decide_eq_true_eq, mem_map, not_exists, not_and]

theorem has_eq (s : Scope) (x : String) : s.has x = (s.kind? x).isSome := by
  unfold has kind?
  rw [Option.isSome_map]

theorem rebind_of_new {bs : List Binding} (h : x ∉ bs.map Binding.name) :
    rebind x k bs = bs ++ [⟨x, k⟩] := by
  induction bs with
  | nil => rfl
  | cons b bs ih =>
    rw [map_cons, mem_cons, not_or] at h
    rw [rebind, if_neg (Ne.symm h.1), ih h.2]
    rfl

theorem bind_bindings (h : s.kind? x = none) : (s.bind x k).bindings = s.bindings ++ [⟨x, k⟩] :=
  rebind_of_new (kind?_eq_none_iff.mp h)

theorem mem_names_of_kind? (h : s.kind? x = some k) : x ∈ s.names := by
  by_contra hx
  rw [kind?_eq_none_iff.mpr hx] at h
  cases h

theorem mem_names_bind {y : String} (h : s.kind? x = none) (hy : y ∈ s.names) :
    y ∈ (s.bind x k).names := by
  unfold names
  rw [bind_bindings h, map_append]
  exact mem_append_left _ hy

theorem kind?_of_bindings_append {bs : List Binding} (hs : s'.bindings = s.bindings ++ bs)
    (h : s.kind? x = some k) : s'.kind? x = some k := by
  unfold kind? find? at h ⊢
  obtain ⟨b, hb, rfl⟩ := Option.map_eq_some_iff.mp h
  rw [hs, find?_append, hb]
  rfl

theorem kind?_bind (h : s.kind? x = none) : (s.bind x k).kind? x = some k := by
  have hfind : s.find? x = none := Option.map_eq_none_iff.mp h
  unfold kind? find?
  rw [bind_bindings h, find?_append]
  unfold find? at hfind
  rw [hfind]
  simp

end Scope

/-! ### Bindings of elements -/

/-- A name with its kind, and whether it was bound before. -/
abbrev ElementBinding := Binding × Bool

variable {b : ElementBinding}

def ResolvedNode.binding (n : ResolvedNode) : ElementBinding :=
  (⟨n.name, .node⟩, n.bound)

def ResolvedRelationship.binding (r : ResolvedRelationship) : ElementBinding :=
  (⟨r.name, .relationship⟩, r.bound)

def hopBindings (hops : List (ResolvedRelationship × ResolvedNode)) : List ElementBinding :=
  hops.flatMap fun h => [h.1.binding, h.2.binding]

def ResolvedClause.patterns (r : ResolvedClause) : List ResolvedPattern :=
  match r.body with
  | .read ps _ | .create ps => ps
  | .project _ | .unwind .. => []

def ResolvedPattern.bindings (p : ResolvedPattern) : List ElementBinding :=
  p.start.binding :: hopBindings p.hops

def freshBindings (bs : List ElementBinding) : List Binding :=
  (bs.filter fun b => !b.2).map Prod.fst

inductive Scope.Binds : Scope → List ElementBinding → Scope → Prop
  | nil (s : Scope) : Binds s [] s
  | known {s s' : Scope} {b : Binding} {bs : List ElementBinding}
      (h : s.kind? b.name = some b.kind) (rest : Binds s bs s') : Binds s ((b, true) :: bs) s'
  | fresh {s s' : Scope} {b : Binding} {bs : List ElementBinding}
      (h : s.kind? b.name = none) (rest : Binds (s.bind b.name b.kind) bs s') :
    Binds s ((b, false) :: bs) s'

namespace Scope.Binds

variable {s m s' : Scope} {bs cs : List ElementBinding}

theorem append (h : Binds s bs m) (h' : Binds m cs s') : Binds s (bs ++ cs) s' := by
  induction h with
  | nil s => exact h'
  | known hk _ ih => exact .known hk (ih h')
  | fresh hk _ ih => exact .fresh hk (ih h')

theorem of_append (h : Binds s (bs ++ cs) s') : ∃ m, Binds s bs m ∧ Binds m cs s' := by
  induction bs generalizing s with
  | nil => exact ⟨s, .nil s, h⟩
  | cons b bs ih =>
    cases h with
    | known hk rest =>
      obtain ⟨m, h, h'⟩ := ih rest
      exact ⟨m, .known hk h, h'⟩
    | fresh hk rest =>
      obtain ⟨m, h, h'⟩ := ih rest
      exact ⟨m, .fresh hk h, h'⟩

theorem of_cons (h : Binds s (b :: bs) s') : ∃ m, Binds s [b] m ∧ Binds m bs s' :=
  of_append h

theorem bindings_eq (h : Binds s bs s') : s'.bindings = s.bindings ++ freshBindings bs := by
  induction h with
  | nil s => exact (append_nil _).symm
  | known _ _ ih => exact ih
  | fresh hk _ ih =>
    rw [ih, bind_bindings hk, append_assoc]
    rfl

theorem names_eq (h : Binds s bs s') :
    s'.names = s.names ++ (freshBindings bs).map Binding.name := by
  unfold names
  rw [h.bindings_eq, map_append]

theorem kind?_mono (h : Binds s bs s') (hk : s.kind? x = some k) : s'.kind? x = some k :=
  kind?_of_bindings_append h.bindings_eq hk

theorem kind?_cases (h : Binds s bs s') (hk : s'.kind? x = some k) :
    s.kind? x = some k ∨ ∃ b ∈ bs, b.1 = ⟨x, k⟩ := by
  unfold kind? find? at hk ⊢
  rw [h.bindings_eq, find?_append] at hk
  cases hfind : s.bindings.find? fun b => b.name = x with
  | some b =>
    rw [hfind] at hk
    exact .inl hk
  | none =>
    rw [hfind] at hk
    obtain ⟨b, hb, rfl⟩ := Option.map_eq_some_iff.mp hk
    obtain ⟨b', hb', rfl⟩ := mem_map.mp (mem_of_find?_eq_some hb)
    have hname : b'.1.name = x := by simpa using find?_some hb
    exact .inr ⟨b', (mem_filter.mp hb').1, by rw [← hname]⟩

theorem kind?_of_mem (h : Binds s bs s') (hb : b ∈ bs) : s'.kind? b.1.name = some b.1.kind := by
  induction h with
  | nil s => cases hb
  | known hk rest ih =>
    rcases mem_cons.mp hb with rfl | hb
    · exact rest.kind?_mono hk
    · exact ih hb
  | fresh hk rest ih =>
    rcases mem_cons.mp hb with rfl | hb
    · exact rest.kind?_mono (kind?_bind hk)
    · exact ih hb

theorem exchange {b : Binding} {d : ElementBinding} (hkind : b.kind ≠ d.1.kind)
    (h : Binds s [(b, false), d] s') :
    ∃ m s'', Binds s [d] m ∧ Binds m [(b, false)] s'' ∧ ∀ c ∈ s'.bindings, c ∈ s''.bindings := by
  cases h with
  | fresh hb rest =>
    have hfirst : Binds s [(b, false)] (s.bind b.name b.kind) := .fresh hb (.nil _)
    cases rest with
    | known hd rest =>
      cases rest
      rcases hfirst.kind?_cases hd with hd | ⟨e, he, heq⟩
      · exact ⟨s, _, .known hd (.nil s), hfirst, fun _ hc => hc⟩
      · obtain rfl := mem_singleton.mp he
        exact absurd (congrArg Binding.kind heq) hkind
    | @fresh _ _ d _ hd rest =>
      cases rest
      have hnames := kind?_eq_none_iff.mp hd
      rw [hfirst.names_eq, mem_append, not_or] at hnames
      have hne : b.name ≠ d.name := fun heq => hnames.2 (heq ▸ mem_singleton_self _)
      have hd' : s.kind? d.name = none := kind?_eq_none_iff.mpr hnames.1
      have hsecond : Binds s [(d, false)] (s.bind d.name d.kind) := .fresh hd' (.nil _)
      have hb' : (s.bind d.name d.kind).kind? b.name = none := by
        rw [kind?_eq_none_iff, hsecond.names_eq, mem_append, not_or]
        exact ⟨kind?_eq_none_iff.mp hb, fun hmem => hne (mem_singleton.mp hmem)⟩
      refine ⟨_, _, hsecond, .fresh hb' (.nil _), fun c hc => ?_⟩
      rw [bind_bindings hd, bind_bindings hb] at hc
      rw [bind_bindings hb', bind_bindings hd']
      simp only [mem_append, mem_singleton] at hc ⊢
      tauto

end Scope.Binds

/-! ### Resolved patterns -/

def PatternElement.var? : PatternElement ε → Option String
  | .node var _ _ => var
  | .relationship var _ _ _ _ => var

def PatternElement.kind : PatternElement ε → Kind
  | .node .. => .node
  | .relationship .. => .relationship

def PatternElement.properties : PatternElement ε → List (String × ε)
  | .node _ _ properties | .relationship _ _ _ properties _ => properties.getD []

def PatternElement.isLong : PatternElement ε → Bool
  | .node .. => false
  | .relationship _ _ _ _ length => length.isSome

def elementNames (bs : List ElementBinding) : List String :=
  bs.map fun b => b.1.name

def NamedBy (var : Option String) (name : String) : Prop :=
  match var with
  | some x => name = x
  | none => isGenerated name

def ResolvedNode.Reads (n : ResolvedNode) (e : PatternElement Expr) : Prop :=
  ∃ var properties, e = .node var n.labels properties ∧ NamedBy var n.name ∧
    n.properties = properties.getD []

def ResolvedRelationship.Reads (r : ResolvedRelationship) (e : PatternElement Expr) : Prop :=
  ∃ var properties, e = .relationship var r.types r.direction properties none ∧
    NamedBy var r.name ∧ r.properties = properties.getD []

inductive HopsRead : List (ResolvedRelationship × ResolvedNode) → List (PatternElement Expr) → Prop
  | nil : HopsRead [] []
  | cons {r : ResolvedRelationship} {n : ResolvedNode} {e d : PatternElement Expr}
      {hops : List (ResolvedRelationship × ResolvedNode)} {es : List (PatternElement Expr)}
      (hr : r.Reads e) (hn : n.Reads d) (rest : HopsRead hops es) :
    HopsRead ((r, n) :: hops) (e :: d :: es)

/-- The resolved pattern has the elements of the written one. -/
def ResolvedPattern.Reads (p : ResolvedPattern) (w : Pattern Expr) : Prop :=
  ∃ e es, w.elements = e :: es ∧ p.start.Reads e ∧ HopsRead p.hops es

namespace Resolve

variable {st st' : State}

theorem nameOr_eq_ok (h : nameOr var st = .ok (name, st')) :
    NamedBy var name ∧ st'.scopes = st.scopes := by
  cases var with
  | some x =>
    cases h
    exact ⟨rfl, rfl⟩
  | none =>
    cases h
    refine ⟨?_, rfl⟩
    show isGenerated (generatedLead ++ "UNNAMED" ++ toString st.unnamed) = true
    unfold isGenerated
    rw [String.toList_append, String.toList_append, append_assoc]
    exact isPrefixOf_iff_prefix.mpr (prefix_append _ _)

theorem mapM_nameOr_append {xs ys : List (Option String)} {names' : List String} {st₁ : State}
    (hxs : xs.mapM nameOr st = .ok (names, st₁)) (hys : ys.mapM nameOr st₁ = .ok (names', st')) :
    (xs ++ ys).mapM nameOr st = .ok (names ++ names', st') := by
  rw [mapM_append]
  exact run_bind_eq_ok.mpr ⟨_, _, hxs, run_bind_eq_ok.mpr ⟨_, _, hys, rfl⟩⟩

theorem mapM_nameOr_scopes {vars : List (Option String)}
    (h : vars.mapM nameOr st = .ok (names, st')) : st'.scopes = st.scopes :=
  (run_mapM_eq_ok (R := fun a b => a.scopes = b.scopes) (fun _ => rfl) Eq.trans
    (fun h => (nameOr_eq_ok h).2.symm) h).1.symm

theorem mapM_nameOr_single
    (h : nameOr var st = .ok (name, st')) : [var].mapM nameOr st = .ok ([name], st') :=
  run_bind_eq_ok.mpr ⟨_, _, h, rfl⟩

theorem bindElement_binds {s s' : Scope} {bound : Bool} (h : bindElement s x k = .ok (bound, s')) :
    s.Binds [(⟨x, k⟩, bound)] s' := by
  unfold bindElement at h
  split at h
  · rename_i hk
    cases h
    exact .fresh hk (.nil _)
  · rename_i k' hk
    split at h
    · rename_i heq
      cases h
      exact .known (heq ▸ hk) (.nil _)
    · cases h

def PatternState.put (p : PatternState) (name : String) (bound : Bool) :
    PatternElement Expr → PatternState
  | .node _ labels properties =>
    let n : ResolvedNode := ⟨name, labels, properties.getD [], bound⟩
    match p.pending with
    | some r => { p with pending := none, hops := p.hops ++ [(r, n)] }
    | none => { p with start := some n }
  | .relationship _ types direction properties _ =>
    { p with pending := some ⟨name, types, direction, properties.getD [], bound⟩ }

theorem addElement_eq : addElement clause p e = (do
    if e.isLong then throw (.unsupported clause .variableLength)
    let name ← nameOr e.var?
    let (bound, scope) ← bindElement p.scope name e.kind
    return (← checkProperties clause e.properties { p with scope }).put name bound e) := by
  cases e with
  | node var labels properties =>
    refine congrArg (nameOr var >>= ·) (funext fun name => congrArg (_ >>= ·) (funext fun b =>
      congrArg (_ >>= ·) (funext fun q => ?_)))
    unfold PatternState.put
    cases q.pending <;> rfl
  | relationship var types direction properties length => cases length <;> rfl

theorem addElement_iff : addElement clause p e st = .ok (p', st') ↔
    e.isLong = false ∧ ∃ name bound scope, nameOr e.var? st = .ok (name, st') ∧
      bindElement p.scope name e.kind = .ok (bound, scope) ∧
      Expr.checkEntries scope clause e.properties = .ok () ∧
      PatternState.put { p with
        scope, parameters := addNames p.parameters (Expr.entryParameters e.properties) }
        name bound e = p' := by
  rw [addElement_eq]
  cases e.isLong with
  | true => exact ⟨nofun, nofun⟩
  | false =>
    constructor
    · intro h
      obtain ⟨name, st₁, hname, h⟩ := run_bind_eq_ok.mp h
      obtain ⟨⟨bound, scope⟩, st₂, hlift, h⟩ := run_bind_eq_ok.mp h
      obtain ⟨p₁, st₃, hlift', h⟩ := run_bind_eq_ok.mp h
      obtain ⟨hbind, rfl⟩ := liftM_eq_ok.mp hlift
      obtain ⟨hproperties, rfl⟩ := liftM_eq_ok.mp hlift'
      obtain ⟨⟨⟩, hcheck, hproperties⟩ := bind_eq_ok.mp hproperties
      cases hproperties
      cases h
      exact ⟨rfl, name, bound, scope, hname, hbind, hcheck, rfl⟩
    · rintro ⟨-, name, bound, scope, hname, hbind, hcheck, rfl⟩
      refine run_bind_eq_ok.mpr ⟨name, st', hname, run_bind_eq_ok.mpr ⟨(bound, scope), st', ?_,
        run_bind_eq_ok.mpr ⟨_, st', liftM_eq_ok.mpr ⟨bind_eq_ok.mpr ⟨⟨⟩, hcheck, rfl⟩, rfl⟩, rfl⟩⟩⟩
      exact liftM_eq_ok.mpr ⟨hbind, rfl⟩

theorem addElement_node (he : e.IsNode) (h : addElement clause p e st = .ok (p', st')) :
    ∃ n : ResolvedNode, n.Reads e ∧ p.scope.Binds [n.binding] p'.scope ∧
      nameOr e.var? st = .ok (n.name, st') ∧ p'.pending = none ∧
      match p.pending with
      | some r => p'.start = p.start ∧ p'.hops = p.hops ++ [(r, n)]
      | none => p'.start = some n ∧ p'.hops = p.hops := by
  obtain ⟨var, labels, properties, rfl⟩ := he
  obtain ⟨-, name, bound, scope, hname, hbind, -, rfl⟩ := addElement_iff.mp h
  have hbinds := bindElement_binds hbind
  refine ⟨⟨name, labels, properties.getD [], bound⟩,
    ⟨var, properties, rfl, (nameOr_eq_ok hname).1, rfl⟩, ?_⟩
  cases p.pending <;> exact ⟨hbinds, hname, rfl, rfl, rfl⟩

theorem addElement_relationship (he : e.IsRelationship)
    (h : addElement clause p e st = .ok (p', st')) :
    ∃ r : ResolvedRelationship, r.Reads e ∧ p.scope.Binds [r.binding] p'.scope ∧
      nameOr e.var? st = .ok (r.name, st') ∧ p'.pending = some r ∧ p'.start = p.start ∧
      p'.hops = p.hops := by
  obtain ⟨var, types, direction, properties, length, rfl⟩ := he
  obtain ⟨hlength, name, bound, scope, hname, hbind, -, rfl⟩ := addElement_iff.mp h
  obtain rfl := Option.not_isSome_iff_eq_none.mp (Bool.not_eq_true _ ▸ hlength)
  exact ⟨⟨name, types, direction, properties.getD [], bound⟩,
    ⟨var, properties, rfl, (nameOr_eq_ok hname).1, rfl⟩, bindElement_binds hbind, hname, rfl, rfl,
    rfl⟩

theorem addHops {es : List (PatternElement Expr)} (hes : PatternHops es)
    (hpending : p.pending = none) (h : (es.foldlM (addElement clause) p) st = .ok (p', st')) :
    ∃ hops, HopsRead hops es ∧ p.scope.Binds (hopBindings hops) p'.scope ∧
      (es.map PatternElement.var?).mapM nameOr st = .ok (elementNames (hopBindings hops), st') ∧
      p'.pending = none ∧ p'.start = p.start ∧ p'.hops = p.hops ++ hops := by
  induction hes generalizing p st with
  | nil =>
    cases h
    exact ⟨[], .nil, .nil _, rfl, hpending, rfl, (append_nil _).symm⟩
  | cons hr hn _ ih =>
    obtain ⟨⟨p₁, st₁⟩, h₁, h⟩ := bind_eq_ok.mp h
    dsimp only at h
    obtain ⟨⟨p₂, st₂⟩, h₂, h⟩ := bind_eq_ok.mp h
    obtain ⟨r, hreads, hbinds, hname, hpending₁, hstart, hhops⟩ := addElement_relationship hr h₁
    obtain ⟨n, hreads', hbinds', hname', hpending₂, hend⟩ := addElement_node hn h₂
    rw [hpending₁] at hend
    obtain ⟨hops, hrest, hbinds'', hnames, hpending', hstart', hhops'⟩ := ih hpending₂ h
    refine ⟨(r, n) :: hops, .cons hreads hreads' hrest, hbinds.append (hbinds'.append hbinds''), ?_,
      hpending', ?_, ?_⟩
    · exact mapM_nameOr_append (mapM_nameOr_single hname)
        (mapM_nameOr_append (mapM_nameOr_single hname') hnames)
    · rw [hstart', hend.1, hstart]
    · rw [hhops', hend.2, hhops, append_assoc]
      rfl

theorem pattern_iff {p : ResolvedPattern} :
    pattern clause scope parameters w st = .ok ((p, scope', parameters'), st') ↔
      w.path = none ∧ (w.elements.foldlM (addElement clause) { scope, parameters }) st =
        .ok (⟨scope', parameters', some p.start, p.hops, none⟩, st') := by
  unfold pattern
  cases w.path with
  | some x => exact ⟨nofun, nofun⟩
  | none =>
    refine run_bind_eq_ok.trans ⟨?_, fun ⟨_, h⟩ => ⟨_, st', h, rfl⟩⟩
    rintro ⟨⟨scope₁, parameters₁, start, hops, pending⟩, st₁, hfold, h⟩
    cases start with
    | none => cases h
    | some start =>
      cases pending with
      | some r => cases h
      | none =>
        cases h
        exact ⟨rfl, hfold⟩

theorem pattern_eq_ok (hw : w.Alternates) {p : ResolvedPattern}
    (h : pattern clause scope parameters w st = .ok ((p, scope', parameters'), st')) :
    p.Reads w ∧ scope.Binds p.bindings scope' ∧
      (w.elements.map PatternElement.var?).mapM nameOr st = .ok (elementNames p.bindings, st') := by
  obtain ⟨n, es, helements, hn, hes⟩ := hw
  obtain ⟨-, hfold⟩ := pattern_iff.mp h
  rw [helements, foldlM_cons] at hfold
  obtain ⟨p₁, st₁, hstart, hfold⟩ := run_bind_eq_ok.mp hfold
  obtain ⟨start, hreads, hbinds, hname, hpending, hnode⟩ := addElement_node hn hstart
  obtain ⟨hops, hrest, hbinds', hnames, -, hstart', hhops⟩ := addHops hes hpending hfold
  cases hstart'.trans hnode.1
  rw [hnode.2] at hhops
  cases hhops
  refine ⟨⟨n, es, helements, hreads, hrest⟩, hbinds.append hbinds', ?_⟩
  rw [helements]
  exact mapM_nameOr_append (mapM_nameOr_single hname) hnames

theorem patterns_cons_iff :
    patterns clause check scope (w :: ws) parameters st = .ok ((ps, scope', parameters'), st') ↔
      ∃ p qs scope₁ parameters₁ st₁, ps = p :: qs ∧
        pattern clause scope parameters w st = .ok ((p, scope₁, parameters₁), st₁) ∧
        check p = .ok () ∧
        patterns clause check scope₁ ws parameters₁ st₁ = .ok ((qs, scope', parameters'), st') := by
  constructor
  · intro h
    obtain ⟨⟨p, scope₁, parameters₁⟩, st₁, hp, h⟩ := run_bind_eq_ok.mp h
    obtain ⟨⟨⟩, st₂, hlift, h⟩ := run_bind_eq_ok.mp h
    obtain ⟨⟨qs, scope₂, parameters₂⟩, st₃, hqs, h⟩ := run_bind_eq_ok.mp h
    cases h
    obtain ⟨hcheck, rfl⟩ := liftM_eq_ok.mp hlift
    exact ⟨p, qs, scope₁, parameters₁, _, rfl, hp, hcheck, hqs⟩
  · rintro ⟨p, qs, scope₁, parameters₁, st₁, rfl, hp, hcheck, hqs⟩
    exact run_bind_eq_ok.mpr ⟨_, _, hp, run_bind_eq_ok.mpr ⟨⟨⟩, _,
      liftM_eq_ok.mpr ⟨hcheck, rfl⟩, run_bind_eq_ok.mpr ⟨_, _, hqs, rfl⟩⟩⟩

theorem patterns_eq_ok (hws : ∀ w ∈ ws, w.Alternates)
    (h : patterns clause check scope ws parameters st = .ok ((ps, scope', parameters'), st')) :
    Forall₂ ResolvedPattern.Reads ps ws ∧
      scope.Binds (ps.flatMap ResolvedPattern.bindings) scope' ∧
      ((ws.flatMap Pattern.elements).map PatternElement.var?).mapM nameOr st =
        .ok (elementNames (ps.flatMap ResolvedPattern.bindings), st') ∧
      ∀ p ∈ ps, check p = .ok () := by
  induction ws generalizing scope parameters ps st with
  | nil =>
    cases h
    exact ⟨.nil, .nil _, rfl, forall_mem_nil _⟩
  | cons w ws ih =>
    obtain ⟨hw, hws⟩ := forall_mem_cons.mp hws
    obtain ⟨p, qs, scope₁, parameters₁, st₁, rfl, hp, hcheck, hqs⟩ := patterns_cons_iff.mp h
    obtain ⟨hreads, hbinds, hnames⟩ := pattern_eq_ok hw hp
    obtain ⟨hreads', hbinds', hnames', hchecks⟩ := ih hws hqs
    refine ⟨.cons hreads hreads', hbinds.append hbinds', ?_, forall_mem_cons.mpr ⟨hcheck, hchecks⟩⟩
    rw [flatMap_cons, flatMap_cons, map_append, elementNames, map_append]
    exact mapM_nameOr_append hnames hnames'

end Resolve
end CypherTraversal
