import CypherTraversal.Client.Session
import CypherTraversal.Proofs.Bindings.Patterns
import CypherTraversal.Proofs.Conditions.Values
import CypherTraversal.Proofs.Resolved.Checked

/-! # Constraining patterns

One more property with a constant value keeps some of the matches of a pattern, and so does a label
for a node that had none. A label that stands beside others lets more vertices match. The reason is
that a traversal which works row by row and only reads, given fewer rows, gives fewer results and in
the same order. -/

namespace CypherTraversal

open Run LowerClause List Traversal Resolve

/-! ### Fewer rows -/

variable {ps : Parameters}

namespace Process

def Within (p' p : Process) : Prop :=
  ∀ ⦃ts' ts us : List Traverser⦄ ⦃g m : Graph⦄, ts' <+ ts → (p ts).outcome g = (.ok us, m) →
    m = g ∧ ∃ us', (p' ts').outcome g = (.ok us', g) ∧ us' <+ us

theorem Within.eachRow {f : Traverser → Run (List Traverser)}
    (hf : ∀ t ws g m, (f t).outcome g = (.ok ws, m) → m = g) :
    (eachRow f).Within (eachRow f) := by
  intro ts' ts us g m hts h
  induction hts generalizing us m with
  | slnil =>
    cases h
    exact ⟨rfl, [], rfl, .slnil⟩
  | cons t _ ih =>
    obtain ⟨first, m, rest, hfirst, hrest, rfl⟩ := of_outcome_both h
    obtain rfl := hf t first g m hfirst
    obtain ⟨rfl, us', hus', hsub⟩ := ih hrest
    exact ⟨rfl, us', hus', hsub.trans (sublist_append_right first rest)⟩
  | cons_cons t _ ih =>
    obtain ⟨first, m, rest, hfirst, hrest, rfl⟩ := of_outcome_both h
    obtain rfl := hf t first g m hfirst
    obtain ⟨rfl, us', hus', hsub⟩ := ih hrest
    refine ⟨rfl, first ++ us', ?_, hsub.append_left first⟩
    rw [Process.eachRow, outcome_bind_ok hfirst, outcome_bind_ok hus']
    rfl

end Process

structure Traversal.Within (ps : Parameters) (f' f : Traversal) : Prop where
  starts' : f'.Starts ps
  starts : f.Starts ps
  within : (f'.run ps).Within (f.run ps)

namespace Traversal.Within

variable {f f' h h' : Traversal} {s : Step}

theorem append (hf : f'.Within ps f) (hh : h'.Within ps h) : Within ps (f' ++ h') (f ++ h) := by
  refine ⟨hf.starts'.append hh.starts', hf.starts.append hh.starts, ?_⟩
  rw [run_append hh.starts', run_append hh.starts]
  intro ts' ts us g m hts hrun
  obtain ⟨ws, m₁, hws, hus⟩ := of_outcome_bind hrun
  obtain ⟨rfl, ws', hws', hsub⟩ := hf.within hts hws
  obtain ⟨rfl, us', hus', hsub'⟩ := hh.within hsub hus
  exact ⟨rfl, us', (outcome_bind_ok hws').trans hus', hsub'⟩

theorem of_passes {b b' : Graph → Traverser → Bool} {F : Traverser → Traverser}
    (hf : ∀ g, f.Passes ps g (b g) F) (hf' : ∀ g, f'.Passes ps g (b' g) F)
    (hb : ∀ g t, b' g t → b g t) : f'.Within ps f := by
  refine ⟨(hf' default).starts, (hf default).starts, fun ts' ts us g m hts hrun => ?_⟩
  rw [(hf g).outcome] at hrun
  cases hrun
  exact ⟨rfl, _, (hf' g).outcome ts',
    ((hts.filter _).trans (monotone_filter_right ts (hb g))).map F⟩

theorem step {F : Traverser → Run (List Traverser)}
    (hs : Step.stage ps s = .process (.eachRow F)) (hreads : s.ReadsOnly fun _ => true) :
    Within ps [s] [s] := by
  refine ⟨.of_process hs, .of_process hs, ?_⟩
  rw [run_step hs]
  refine .eachRow fun t ws g m hws => ?_
  have hrun : (run ps [s] [t]).outcome g = (.ok (ws ++ []), m) := by
    rw [run_step hs, Process.eachRow, outcome_bind_ok hws]
    rfl
  exact ReadsOnly.graph (.single hreads) hrun

theorem filters (hf : f.Filters fun _ => true) : f.Within ps f := by
  induction f with
  | nil => exact .of_passes (fun _ => .nil) (fun _ => .nil) fun _ _ => id
  | cons s f ih =>
    obtain ⟨hs, hfilters⟩ := forall_mem_cons.mp hf.isFilter
    obtain ⟨hreads, hrest⟩ := forall_mem_append.mp hf.readsOnly
    suffices hs : Within ps [s] [s] from hs.append (ih ⟨hfilters, hrest⟩)
    cases s
    case identity =>
      refine ⟨rfl, rfl, fun ts' ts us g m hts h => ?_⟩
      cases h
      exact ⟨rfl, ts', rfl, hts⟩
    case hasLabel | has | hasNot | hasPredicate | is | wherePredicate | filter | not | and | or =>
      exact .step rfl hreads
    all_goals cases hs

end Traversal.Within

/-! ### Tighter patterns -/

variable {es' es : List (String × Expr)} {names : List String}

inductive Extends : List (String × Expr) → List (String × Expr) → Prop
  | nil : Extends [] []
  | both (p : String × Expr) {es' es : List (String × Expr)} (rest : Extends es' es) :
    Extends (p :: es') (p :: es)
  | more (key : String) {e : Expr} {v : Value} (he : e.constant? = some v)
      {es' es : List (String × Expr)} (rest : Extends es' es) : Extends ((key, e) :: es') es

def LabelsWithin (labels' labels : List String) : Prop :=
  labels = [] ∨ labels' ≠ [] ∧ labels' ⊆ labels

inductive PatternElement.Tightens : PatternElement Expr → PatternElement Expr → Prop
  | node (var : Option String) {labels' labels : List String}
      {properties' properties : Option (List (String × Expr))}
      (hlabels : LabelsWithin labels' labels)
      (hproperties : Extends (properties'.getD []) (properties.getD [])) :
    Tightens (.node var labels' properties') (.node var labels properties)
  | relationship (var : Option String) (types : List String) (direction : Direction)
      (properties : Option (List (String × Expr))) (length : Option PathLength) :
    Tightens (.relationship var types direction properties length)
      (.relationship var types direction properties length)

/-- The same pattern with more labels or constant properties. -/
def Pattern.Tightens (w' w : Pattern Expr) : Prop :=
  w'.path = w.path ∧ Forall₂ PatternElement.Tightens w'.elements w.elements

structure ResolvedNode.Tightens (n' n : ResolvedNode) : Prop where
  name : n'.name = n.name
  bound : n'.bound = n.bound
  labels : LabelsWithin n'.labels n.labels
  properties : Extends n'.properties n.properties

def HopTightens (h' h : ResolvedRelationship × ResolvedNode) : Prop :=
  h'.1 = h.1 ∧ h'.2.Tightens h.2

structure ResolvedPattern.Tightens (p' p : ResolvedPattern) : Prop where
  start : p'.start.Tightens p.start
  hops : Forall₂ HopTightens p'.hops p.hops

/-! ### Matching -/

section Matching

variable {env : Env} {scope : Scope} {f : Traversal} {n n' : ResolvedNode}
  {p p' : ResolvedPattern} {element : String}

theorem labels_within {labels' labels : List String} (h : LabelsWithin labels' labels) :
    Within env.parameters (if labels'.isEmpty then [] else [.hasLabel labels'])
      (if labels.isEmpty then [] else [.hasLabel labels]) := by
  refine .of_passes (fun _ => labels_pass labels) (fun _ => labels_pass labels') fun g t ht => ?_
  obtain rfl | ⟨hne, hsub⟩ := h
  · rfl
  · rw [Bool.or_eq_true, List.isEmpty_iff] at ht
    obtain ⟨l, hl, hmem⟩ := (Option.any_eq_true _ _).mp (ht.resolve_left hne)
    refine Bool.or_eq_true_iff.mpr (.inr ((Option.any_eq_true _ _).mpr ⟨l, hl, ?_⟩))
    exact contains_iff_mem.mpr (hsub (contains_iff_mem.mp hmem))

theorem constraints_within (h : Extends es' es) (hscope : scope.isElement element)
    (hf : constraints env scope element es = .ok f) :
    ∃ f', constraints env scope element es' = .ok f' ∧ f'.Within env.parameters f := by
  induction h generalizing f with
  | nil =>
    cases hf
    exact ⟨[], rfl, .filters .nil⟩
  | both p _ ih =>
    rw [constraints_cons] at hf
    obtain ⟨cond, hcond, hf⟩ := bind_eq_ok.mp hf
    obtain ⟨k, hk, hf⟩ := bind_eq_ok.mp hf
    cases hf
    obtain ⟨k', hk', hwithin⟩ := ih hk
    refine ⟨cond.filter ++ k', ?_, .append (.filters ?_) hwithin⟩
    · rw [constraints_cons]
      exact bind_eq_ok.mpr ⟨cond, hcond, bind_eq_ok.mpr ⟨k', hk', rfl⟩⟩
    · exact entry_filters env scope element p.1 (p.2.allKeys_of_forall fun _ => rfl) cond hcond
  | more key he _ ih =>
    obtain ⟨k', hk', hwithin⟩ := ih hf
    obtain ⟨cond, hcond, hpasses⟩ :=
      entry_passes hscope key (Expr.known_of_constant he env.parameters)
    refine ⟨cond.filter ++ k', ?_, .append (f := []) (.of_passes (fun _ => .nil) hpasses
      fun _ _ _ => rfl) hwithin⟩
    rw [constraints_cons]
    exact bind_eq_ok.mpr ⟨cond, hcond, bind_eq_ok.mpr ⟨k', hk', rfl⟩⟩

theorem arrive_within (start : Bool) (n : ResolvedNode) :
    (arrive n start).Within env.parameters (arrive n start) := by
  unfold arrive
  cases start <;> cases n.bound
  · exact .filters .nil
  · exact .filters (.single rfl (.leaf rfl rfl))
  · exact .step rfl (.leaf rfl rfl)
  · exact .step rfl (.leaf rfl rfl)

theorem matchNode_within (hn : n'.Tightens n) (hkind : scope.kind? n.name = some .node)
    {start : Bool} (hf : matchNode env scope n start = .ok f) :
    ∃ f', matchNode env scope n' start = .ok f' ∧ f'.Within env.parameters f := by
  obtain ⟨name, labels', properties', bound⟩ := n'
  obtain ⟨_, labels, properties, _⟩ := n
  obtain ⟨rfl, rfl, hlabels, hproperties⟩ := hn
  have hscope : scope.isElement name := by
    unfold Scope.isElement
    rw [hkind]
    rfl
  obtain ⟨k, hk, hf⟩ := bind_eq_ok.mp hf
  cases hf
  obtain ⟨k', hk', hwithin⟩ := constraints_within hproperties hscope hk
  have hmark : Within env.parameters (if bound then [] else [.mark name])
      (if bound then [] else [.mark name]) := by
    cases bound with
    | true => exact .filters .nil
    | false => exact .of_passes (fun _ => .mark name) (fun _ => .mark name) fun _ _ => id
  exact ⟨_, bind_eq_ok.mpr ⟨k', hk', rfl⟩, (((arrive_within start _).append
    (labels_within hlabels)).append hmark).append hwithin⟩

theorem matchRelationship_within {r : ResolvedRelationship}
    (hf : matchRelationship env scope r = .ok f) : f.Within env.parameters f := by
  obtain ⟨k, hk, hf⟩ := bind_eq_ok.mp hf
  cases hf
  have hfilters : k.Filters fun _ => true :=
    constraints_filters env scope r.name (Expr.entryKeys_of_forall (fun _ => rfl) _) k hk
  have hbind : Within env.parameters
      [if r.bound then .wherePredicate (.compare .eq (.label r.name)) else .mark r.name]
      [if r.bound then .wherePredicate (.compare .eq (.label r.name)) else .mark r.name] := by
    cases r.bound with
    | true => exact .filters (.single rfl (.leaf rfl rfl))
    | false => exact .of_passes (fun _ => .mark r.name) (fun _ => .mark r.name) fun _ _ => id
  have hedges : Within env.parameters [.edges r.direction r.types]
      [.edges r.direction r.types] := .step rfl (.leaf rfl rfl)
  exact ((hedges.append hbind).append (.filters hfilters)).append (.step rfl (.leaf rfl rfl))

theorem mapM_within {α : Type} {F : α → Except Error Traversal} {xs' xs : List α}
    {fs : List Traversal}
    (h : Forall₂ (fun a' a => ∀ f, F a = .ok f →
      ∃ f', F a' = .ok f' ∧ f'.Within env.parameters f) xs' xs) (hfs : xs.mapM F = .ok fs) :
    ∃ fs', xs'.mapM F = .ok fs' ∧ Within env.parameters fs'.flatten fs.flatten := by
  induction h generalizing fs with
  | nil =>
    cases hfs
    exact ⟨[], rfl, .filters .nil⟩
  | cons ha _ ih =>
    rw [mapM_cons] at hfs
    obtain ⟨f, hf, hfs⟩ := bind_eq_ok.mp hfs
    obtain ⟨rest, hrest, hfs⟩ := bind_eq_ok.mp hfs
    cases hfs
    obtain ⟨f', hf', hwithin⟩ := ha f hf
    obtain ⟨rest', hrest', hwithin'⟩ := ih hrest
    refine ⟨f' :: rest', ?_, hwithin.append hwithin'⟩
    rw [mapM_cons]
    exact bind_eq_ok.mpr ⟨f', hf', bind_eq_ok.mpr ⟨rest', hrest', rfl⟩⟩

theorem matchPattern_within (hp : p'.Tightens p) (hchecked : p.Checked scope names)
    (hf : matchPattern env scope p = .ok f) :
    ∃ f', matchPattern env scope p' = .ok f' ∧ f'.Within env.parameters f := by
  obtain ⟨start, hstart, hf⟩ := bind_eq_ok.mp hf
  obtain ⟨hops, hhops, hf⟩ := bind_eq_ok.mp hf
  cases hf
  obtain ⟨start', hstart', hwithin⟩ := matchNode_within hp.start hchecked.start.name hstart
  have heach : Forall₂ (fun h' h => ∀ f, matchHop env scope h = .ok f →
      ∃ f', matchHop env scope h' = .ok f' ∧ f'.Within env.parameters f) p'.hops p.hops := by
    refine (forall₂_and_right.mpr ⟨hchecked.hops, hp.hops⟩).imp ?_
    rintro ⟨_, n'⟩ ⟨r, n⟩ ⟨hhop, rfl, hn⟩ f hf
    obtain ⟨k, hk, hf⟩ := bind_eq_ok.mp hf
    obtain ⟨m, hm, hf⟩ := bind_eq_ok.mp hf
    cases hf
    obtain ⟨m', hm', hwithin⟩ := matchNode_within hn hhop.2.name hm
    exact ⟨k ++ m', bind_eq_ok.mpr ⟨k, hk, bind_eq_ok.mpr ⟨m', hm', rfl⟩⟩,
      (matchRelationship_within hk).append hwithin⟩
  obtain ⟨hops', hhops', hwithin'⟩ := mapM_within heach hhops
  exact ⟨_, bind_eq_ok.mpr ⟨start', hstart', bind_eq_ok.mpr ⟨hops', hhops', rfl⟩⟩,
    hwithin.append hwithin'⟩

end Matching

/-! ### Resolving -/

theorem Expr.check_of_constant {scope : Scope} {clause : String} {e : Expr} {v : Value}
    (h : e.constant? = some v) : e.check scope clause = .ok () := by
  induction e using induction_parts generalizing v with
  | step e ih =>
    rw [check_eq_ok]
    cases e with
    | literal s => exact ⟨rfl, forall_mem_nil _⟩
    | list items =>
      obtain ⟨vs, hvs, -⟩ := Option.map_eq_some_iff.mp h
      refine ⟨rfl, fun x hx => ?_⟩
      obtain ⟨w, -, hw⟩ := mem_of_forall₂ (constants?_eq_some hvs).flip hx
      exact ih x hx hw
    | map entries =>
      obtain ⟨vs, hvs, -⟩ := Option.map_eq_some_iff.mp h
      refine ⟨rfl, forall_mem_map.mpr fun x hx => ?_⟩
      obtain ⟨w, -, -, hw⟩ := mem_of_forall₂ (constantEntries?_eq_some hvs).flip hx
      exact ih x.2 (mem_map_of_mem hx) hw
    | unary op x =>
      cases op with
      | negate =>
        rw [checkSelf, h]
        obtain ⟨w, hw, -⟩ := Option.bind_eq_some_iff.mp h
        exact ⟨rfl, forall_mem_singleton.mpr (ih x mem_cons_self hw)⟩
      | _ => cases h
    | binary l op r =>
      cases op with
      | arith a =>
        rw [checkSelf, h]
        rw [constant?] at h
        split at h
        · rename_i hl hr
          exact ⟨rfl, forall_mem_cons.mpr ⟨ih l mem_cons_self hl,
            forall_mem_singleton.mpr (ih r (mem_cons_of_mem _ mem_cons_self) hr)⟩⟩
        · cases h
      | _ => cases h
    | _ => cases h

theorem Extends.checks {scope : Scope} {clause : String} (h : Extends es' es)
    (hcheck : Expr.checkEntries scope clause es = .ok ()) :
    Expr.checkEntries scope clause es' = .ok () := by
  induction h with
  | nil => rfl
  | both p _ ih =>
    obtain ⟨⟨⟩, hp, hcheck⟩ := bind_eq_ok.mp hcheck
    exact bind_eq_ok.mpr ⟨⟨⟩, hp, ih hcheck⟩
  | more key he _ ih => exact bind_eq_ok.mpr ⟨⟨⟩, Expr.check_of_constant he, ih hcheck⟩

namespace Resolve

variable {st st' : State} {clause : String} {scope scope' : Scope}
  {parameters parameters₁ parameters' : List String}

structure PatternState.Tightens (p' p : PatternState) : Prop where
  scope : p'.scope = p.scope
  pending : p'.pending = p.pending
  start : Option.Rel ResolvedNode.Tightens p'.start p.start
  hops : Forall₂ HopTightens p'.hops p.hops

theorem addElement_tightens {e' e : PatternElement Expr} (he : e'.Tightens e)
    {p' p q : PatternState} (hp : p'.Tightens p) (h : addElement clause p e st = .ok (q, st')) :
    ∃ q', addElement clause p' e' st = .ok (q', st') ∧ q'.Tightens q := by
  obtain ⟨hlong, name, bound, s, hname, hbind, hcheck, rfl⟩ := addElement_iff.mp h
  obtain ⟨_, _, start, hops, _⟩ := p
  obtain ⟨scope, parameters, start', hops', pending⟩ := p'
  obtain ⟨rfl, rfl, hstart, hhops⟩ := hp
  cases he with
  | @node var labels' labels properties' properties hlabels hproperties =>
    have hnode : ResolvedNode.Tightens ⟨name, labels', properties'.getD [], bound⟩
        ⟨name, labels, properties.getD [], bound⟩ := ⟨rfl, rfl, hlabels, hproperties⟩
    refine ⟨_, addElement_iff.mpr ⟨rfl, name, bound, s, hname, hbind, hproperties.checks hcheck,
      rfl⟩, ?_⟩
    cases pending with
    | none => exact ⟨rfl, rfl, .some hnode, hhops⟩
    | some r => exact ⟨rfl, rfl, hstart, rel_append hhops (.cons ⟨rfl, hnode⟩ .nil)⟩
  | relationship =>
    exact ⟨_, addElement_iff.mpr ⟨hlong, name, bound, s, hname, hbind, hcheck, rfl⟩,
      rfl, rfl, hstart, hhops⟩

theorem addElements_tighten {es' es : List (PatternElement Expr)}
    (hes : Forall₂ PatternElement.Tightens es' es) {p' p q : PatternState} (hp : p'.Tightens p)
    (h : (es.foldlM (addElement clause) p) st = .ok (q, st')) :
    ∃ q', (es'.foldlM (addElement clause) p') st = .ok (q', st') ∧ q'.Tightens q := by
  induction hes generalizing p' p st with
  | nil =>
    cases h
    exact ⟨p', rfl, hp⟩
  | cons he _ ih =>
    obtain ⟨p₁, st₁, h₁, h⟩ := run_bind_eq_ok.mp h
    obtain ⟨p₁', h₁', hp₁⟩ := addElement_tightens he hp h₁
    obtain ⟨q', h', hq⟩ := ih hp₁ h
    exact ⟨q', run_bind_eq_ok.mpr ⟨p₁', st₁, h₁', h'⟩, hq⟩

theorem pattern_tightens {w' w : Pattern Expr} (hw : w'.Tightens w) {p : ResolvedPattern}
    (h : pattern clause scope parameters w st = .ok ((p, scope', parameters'), st')) :
    ∃ p' names, pattern clause scope parameters₁ w' st = .ok ((p', scope', names), st') ∧
      p'.Tightens p := by
  obtain ⟨hpath, hfold⟩ := pattern_iff.mp h
  have hempty : PatternState.Tightens ⟨scope, parameters₁, none, [], none⟩
      ⟨scope, parameters, none, [], none⟩ := ⟨rfl, rfl, .none, .nil⟩
  obtain ⟨⟨_, names, _, hops', _⟩, hfold', hscope, hpending, hstart, hhops⟩ :=
    addElements_tighten hw.2 hempty hfold
  cases hscope
  cases hpending
  cases hstart with
  | @some start _ hstart =>
    exact ⟨⟨start, hops'⟩, names, pattern_iff.mpr ⟨hw.1.trans hpath, hfold'⟩, hstart, hhops⟩

theorem patterns_tighten {ws' ws : List (Pattern Expr)} (hws : Forall₂ Pattern.Tightens ws' ws)
    {ps : List ResolvedPattern} (h : patterns clause (fun _ => .ok ()) scope ws parameters st =
      .ok ((ps, scope', parameters'), st')) :
    ∃ ps' names, patterns clause (fun _ => .ok ()) scope ws' parameters₁ st =
      .ok ((ps', scope', names), st') ∧ Forall₂ ResolvedPattern.Tightens ps' ps := by
  induction hws generalizing scope parameters parameters₁ ps st with
  | nil =>
    cases h
    exact ⟨[], parameters₁, rfl, .nil⟩
  | cons hw _ ih =>
    obtain ⟨p, qs, scope₁, _, st₁, rfl, hp, -, hqs⟩ := patterns_cons_iff.mp h
    obtain ⟨p', names, hp', htightens⟩ := pattern_tightens hw hp
    obtain ⟨qs', names', hqs', hrest⟩ := ih hqs
    exact ⟨p' :: qs', names', patterns_cons_iff.mpr
      ⟨p', qs', scope₁, names, st₁, rfl, hp', rfl, hqs'⟩, .cons htightens hrest⟩

end Resolve

/-! ### Rows -/

theorem ResolvedPattern.Tightens.lastName {p' p : ResolvedPattern} (h : p'.Tightens p) :
    p'.lastName = p.lastName := by
  rw [lastName_eq, lastName_eq, foldl_last, foldl_last, ← getLast?_map, ← getLast?_map,
    map_eq_of_forall₂ h.hops fun _ _ hh => hh.2.name, h.start.name]

theorem LowerClause.read_within {env : Env} {id : ScopeId} {ps' ps : List ResolvedPattern}
    (h : Forall₂ ResolvedPattern.Tightens ps' ps)
    (hchecked : ∀ p ∈ ps, p.Checked (env.scopes.scope id) names) {filter : Option Expr}
    {current next : Option String} {f : Traversal}
    (hf : read env id ps filter current = .ok (f, next)) :
    ∃ f', read env id ps' filter current = .ok (f', next) ∧ f'.Within env.parameters f := by
  obtain ⟨fs, hfs, hf⟩ := bind_eq_ok.mp hf
  obtain ⟨k, hk, hf⟩ := bind_eq_ok.mp hf
  cases hf
  obtain ⟨fs', hfs', hwithin⟩ := mapM_within ((forall₂_and_right.mpr ⟨hchecked, h⟩).imp
    fun _ _ hp f hf => matchPattern_within hp.2 hp.1 hf) hfs
  have hfilters := filterOf_filters _ (Expr.optionKeys_of_forall (fun _ => rfl) filter) k hk
  have hlast : lastOf current ps = lastOf current ps' := by
    rw [lastOf_eq, lastOf_eq, foldl_last, foldl_last, ← getLast?_map, ← getLast?_map,
      map_eq_of_forall₂ h fun _ _ hp => congrArg some hp.lastName]
  rw [hlast] at hk ⊢
  exact ⟨_, bind_eq_ok.mpr ⟨fs', hfs', bind_eq_ok.mpr ⟨k, hk, rfl⟩⟩,
    hwithin.append (.filters hfilters)⟩

/-- **Constraining a pattern never adds matches, but for a second label.** Let nodes of a MATCH get
more properties with constant values, and labels if they have none; of labels that they have, some
may be left out, but not all. Then the clause still resolves and lowers, to the same scopes, and
wherever the steps of the clause as it was give rows, its own give some of these rows, in order.
With labels beside others it is the other way round: where the clause with a further label gives
rows, the clause without it gives some of them. -/
theorem constrained_pattern_keeps_matches {ws' ws : List (Pattern Expr)}
    (hws : Forall₂ Pattern.Tightens ws' ws) {filter : Option Expr} {scopeIn : ScopeId}
    {st st' : Resolve.State} {r : ResolvedClause}
    (h : Resolve.clause scopeIn (.read false ws filter) st = .ok (r, st')) :
    ∃ r', Resolve.clause scopeIn (.read false ws' filter) st = .ok (r', st') ∧
      r'.scopeIn = r.scopeIn ∧ r'.scopeOut = r.scopeOut ∧
      ∀ env : Env, st'.scopes <+: env.scopes → ∀ current steps next,
        clause env r current = .ok (steps, next) →
        ∃ steps', clause env r' current = .ok (steps', next) ∧
          ∀ g ts us m, (steps.run env.parameters ts).outcome g = (.ok us, m) →
            m = g ∧ ∃ us', (steps'.run env.parameters ts).outcome g = (.ok us', g) ∧ us' <+ us := by
  obtain ⟨ps, scope, parameters, st₁, hps, hfilter, rfl, rfl⟩ := read_iff.mp h
  obtain ⟨ps', names, hps', htighten⟩ := patterns_tighten hws hps
  refine ⟨_, read_iff.mpr ⟨ps', scope, names, st₁, hps', hfilter, rfl, rfl⟩, rfl, rfl,
    fun env hmore current steps next hsteps => ?_⟩
  obtain ⟨more, hmore⟩ := hmore
  have hscope : env.scopes.scope st₁.scopes.length = scope :=
    scope_of_getElem? (hmore ▸ getElem?_mono getElem?_concat_length more)
  have hchecked : ∀ p ∈ ps, p.Checked (env.scopes.scope st₁.scopes.length) parameters := by
    rw [hscope]
    exact fun p hp => ((patterns_checked hps).1 p hp).1
  obtain ⟨steps', hsteps', hwithin⟩ := read_within htighten hchecked hsteps
  exact ⟨steps', hsteps', fun g ts us m hrun => hwithin.within (Sublist.refl ts) hrun⟩

theorem person_of_age_is_a_vertex :
    let w : Pattern Expr := ⟨none, [.node "n" [] none]⟩
    let w' : Pattern Expr := ⟨none, [.node "n" ["person"] (some [("age", .literal (.int 29))])]⟩
    ∃ r r' st steps steps' next us us',
      Resolve.clause 0 (.read false [w] none) ⟨[{}], 0⟩ = .ok (r, st) ∧
      Resolve.clause 0 (.read false [w'] none) ⟨[{}], 0⟩ = .ok (r', st) ∧
      clause ⟨st.scopes, []⟩ r none = .ok (steps, next) ∧
      clause ⟨st.scopes, []⟩ r' none = .ok (steps', next) ∧
      (steps.run [] [default]).outcome .modern = (.ok us, .modern) ∧
      (steps'.run [] [default]).outcome .modern = (.ok us', .modern) ∧ us' <+ us := by
  intro w w'
  have hws : Forall₂ Pattern.Tightens [w'] [w] :=
    .cons ⟨rfl, .cons (.node _ (.inl rfl) (.more "age" rfl .nil)) .nil⟩ .nil
  have hr : Resolve.clause 0 (.read false [w] none) ⟨[{}], 0⟩ = .ok _ := rfl
  obtain ⟨r', hr', -, -, hrows⟩ := constrained_pattern_keeps_matches hws hr
  obtain ⟨steps', hsteps', hrun⟩ := hrows ⟨_, []⟩ prefix_rfl none _ _ rfl
  obtain ⟨-, us', hus', hsub⟩ := hrun .modern [default] _ _ rfl
  exact ⟨_, r', _, _, steps', _, _, us', rfl, hr', rfl, hsteps', rfl, hus', hsub⟩

theorem second_label_adds_matches :
    ["MATCH (n:person) RETURN n.name AS name",
      "MATCH (n:person:software) RETURN n.name AS name"].map (fun text =>
        (Session.submit ⟨.native, true, .modern⟩ text []).1.toOption.map fun table =>
          table.rows.length) = [some 4, some 6] := by
  decide +kernel

end CypherTraversal
