import CypherTraversal.Proofs.Conditions.Kleene
import CypherTraversal.Proofs.Patterns.Places

/-! # Elements of patterns

An assignment of objects to names matches a pattern if the vertices have the labels and properties
that the nodes ask for, and the edges have the types and properties of the relationships and join
the vertices on both sides of them. -/

namespace CypherTraversal

open Run List Traverser ResolvedNode CypherTraversal.Graph

/-! ### Paths that grow with a scope -/

/-- An assignment of objects to names. -/
abbrev Labels := List (String × Object)

variable {b : ElementBinding} {bs cs : List ElementBinding} {p q : List (String × Object)}
  {x : Object}

def Labelled (b : ElementBinding) (x : Object) (p q : Labels) : Prop :=
  q = (if b.2 then p else (b.1.name, x) :: p) ∧ q.lookup b.1.name = some x

def Grows : List ElementBinding → Labels → Labels → Prop
  | [], p, q => q = p
  | (_, true) :: bs, p, q => Grows bs p q
  | (b, false) :: bs, p, q => ∃ x, Grows bs ((b.name, x) :: p) q

theorem labelled_known_iff {b : Binding} :
    Labelled (b, true) x p q ↔ q = p ∧ q.lookup b.name = some x :=
  Iff.rfl

theorem labelled_fresh_iff {b : Binding} : Labelled (b, false) x p q ↔ q = (b.name, x) :: p := by
  refine ⟨fun h => h.1, ?_⟩
  rintro rfl
  exact ⟨rfl, lookup_cons_self⟩

/-! ### The new names -/

def newLabels (bs : List ElementBinding) : List String :=
  ((freshBindings bs).map Binding.name).reverse

theorem grows_iff : Grows bs p q ↔ ∃ σ : Labels, q = σ ++ p ∧ σ.map Prod.fst = newLabels bs := by
  induction bs generalizing p with
  | nil =>
    constructor
    · rintro rfl
      exact ⟨[], rfl, rfl⟩
    · rintro ⟨σ, rfl, hσ⟩
      obtain rfl := map_eq_nil_iff.mp hσ
      rfl
  | cons b bs ih =>
    rcases b with ⟨b, _ | _⟩
    · have hnew : newLabels ((b, false) :: bs) = newLabels bs ++ [b.name] := reverse_cons
      rw [Grows, hnew]
      constructor
      · rintro ⟨x, h⟩
        obtain ⟨σ, rfl, hσ⟩ := ih.mp h
        refine ⟨σ ++ [(b.name, x)], append_cons σ (b.name, x) p, ?_⟩
        rw [map_append, hσ]
        rfl
      · rintro ⟨σ, rfl, hσ⟩
        obtain ⟨σ', τ, rfl, hσ', hτ⟩ := map_eq_append_iff.mp hσ
        obtain ⟨⟨_, x⟩, rfl, rfl⟩ := map_eq_singleton_iff.mp hτ
        exact ⟨x, ih.mpr ⟨σ', (append_cons σ' (b.name, x) p).symm, hσ'⟩⟩
    · exact ih

theorem Grows.exists_append (h : Grows bs p q) :
    ∃ σ : Labels, σ.length = (newLabels bs).length ∧ q = σ ++ p := by
  obtain ⟨σ, hq, hσ⟩ := grows_iff.mp h
  exact ⟨σ, by rw [← hσ, length_map], hq⟩

theorem Labelled.grows (h : Labelled b x p q) : Grows [b] p q := by
  rcases b with ⟨b, _ | _⟩
  · exact ⟨x, labelled_fresh_iff.mp h⟩
  · exact h.1

theorem grows_append_iff : Grows (bs ++ cs) p q ↔ ∃ m, Grows bs p m ∧ Grows cs m q := by
  induction bs generalizing p with
  | nil => exact ⟨fun h => ⟨p, rfl, h⟩, fun ⟨_, hm, h⟩ => hm ▸ h⟩
  | cons b bs ih =>
    rcases b with ⟨b, _ | _⟩
    · exact ⟨fun ⟨x, h⟩ => (ih.mp h).imp fun m h => ⟨⟨x, h.1⟩, h.2⟩,
        fun ⟨m, ⟨x, h⟩, h'⟩ => ⟨x, ih.mpr ⟨m, h, h'⟩⟩⟩
    · exact ih

/-! ### Names in scope -/

theorem Grows.lookup (h : Grows bs p q) {s s' : Scope} (hs : s.Binds bs s') {x : String}
    (hx : x ∈ s.names) : q.lookup x = p.lookup x := by
  induction hs generalizing p with
  | nil => exact congrArg (List.lookup x) h
  | known _ _ ih => exact ih h hx
  | @fresh s _ b _ hk _ ih =>
    obtain ⟨y, h⟩ := h
    have hne : x ≠ b.name := by
      rintro rfl
      exact Scope.kind?_eq_none_iff.mp hk hx
    rw [ih h (Scope.mem_names_bind hk hx), lookup_cons, beq_false_of_ne hne]

theorem labelled_grows_iff {s s' : Scope} (hs : s.Binds (b :: bs) s') :
    (∃ m, Labelled b x p m ∧ Grows bs m q) ↔ Grows (b :: bs) p q ∧ q.lookup b.1.name = some x := by
  cases hs with
  | @known _ _ b _ hk rest =>
    have hb : b.name ∈ s.names := Scope.mem_names_of_kind? hk
    constructor
    · rintro ⟨m, hm, h⟩
      obtain ⟨rfl, hx⟩ := labelled_known_iff.mp hm
      exact ⟨h, (h.lookup rest hb).trans hx⟩
    · rintro ⟨h, hq⟩
      change Grows bs p q at h
      exact ⟨p, labelled_known_iff.mpr ⟨rfl, (h.lookup rest hb).symm.trans hq⟩, h⟩
  | @fresh _ _ b _ hk rest =>
    have hb : b.name ∈ (s.bind b.name b.kind).names :=
      Scope.mem_names_of_kind? (Scope.kind?_bind hk)
    constructor
    · rintro ⟨m, hm, h⟩
      obtain rfl := labelled_fresh_iff.mp hm
      exact ⟨⟨x, h⟩, (h.lookup rest hb).trans lookup_cons_self⟩
    · rintro ⟨⟨y, h⟩, hq⟩
      have hy : some y = some x := by
        rw [← hq, h.lookup rest hb, lookup_cons_self]
      obtain rfl := Option.some.inj hy
      exact ⟨_, labelled_fresh_iff.mpr rfl, h⟩

variable {v : VertexId} {e : Expr} {w : Value} {d : Direction}

section Meaning

variable {b : VertexId} {c : ElementBinding} {hops : List (ResolvedRelationship × ResolvedNode)}
  {p : ResolvedPattern}

/-! ### What patterns mean -/

def Edge.Joins (x : Edge) (a b : VertexId) : Direction → Prop
  | .outgoing => x.source = a ∧ x.target = b
  | .incoming => x.target = a ∧ x.source = b
  | .both => x.source = a ∧ x.target = b ∨ x.target = a ∧ x.source = b

def Graph.HasProperties (g : Graph) (ps : Parameters) (x : Object)
    (entries : List (String × Expr)) : Prop :=
  ∀ p ∈ entries, ∃ v w, g.property? p.1 x = some v ∧ p.2.known? ps = some w ∧ v.eq? w = some true

structure ResolvedNode.Fits (n : ResolvedNode) (g : Graph) (ps : Parameters) (v : VertexId) :
    Prop where
  labels : ∃ w, g.vertex? v = some w ∧ ∀ l ∈ n.labels, w.label = l
  properties : g.HasProperties ps (.vertex v) n.properties

structure ResolvedRelationship.Joins (r : ResolvedRelationship) (g : Graph) (ps : Parameters)
    (a : VertexId) (e : EdgeId) (b : VertexId) : Prop where
  edge : ∃ x, g.edge? e = some x ∧ (r.types = [] ∨ x.label ∈ r.types) ∧ x.Joins a b r.direction
  properties : g.HasProperties ps (.edge e) r.properties

/-! ### Patterns -/

abbrev Assignment := String → Option Object

section

variable (g : Graph) (ps : Parameters) (ρ : Assignment)

def HopsLead : VertexId → List (ResolvedRelationship × ResolvedNode) → VertexId → Prop
  | a, [], b => a = b
  | a, (r, n) :: hops, b =>
    ∃ e c, r.Joins g ps a e c ∧ ρ r.name = some (.edge e) ∧ n.Fits g ps c ∧
      ρ n.name = some (.vertex c) ∧ HopsLead c hops b

def ResolvedPattern.EndsAt (p : ResolvedPattern) (b : VertexId) : Prop :=
  ∃ a, p.start.Fits g ps a ∧ ρ p.start.name = some (.vertex a) ∧ HopsLead g ps ρ a p.hops b

/-- The graph has the pattern under the assignment. -/
def ResolvedPattern.Matches (p : ResolvedPattern) : Prop :=
  ∃ b, p.EndsAt g ps ρ b

end

/-! ### Names -/

variable {g : Graph} {ps : Parameters} {ρ ρ' : Assignment}

theorem HopsLead.congr {a : VertexId} (hρ : ∀ c ∈ hopBindings hops, ρ c.1.name = ρ' c.1.name)
    (h : HopsLead g ps ρ a hops b) : HopsLead g ps ρ' a hops b := by
  induction hops generalizing a with
  | nil => exact h
  | cons hop hops ih =>
    obtain ⟨r, n⟩ := hop
    obtain ⟨hr, hn, hrest⟩ := forall_mem_cons.mp hρ |>.imp_right forall_mem_cons.mp
    obtain ⟨e, c, hjoins, hedge, hfits, hvertex, h⟩ := h
    exact ⟨e, c, hjoins, hr.symm.trans hedge, hfits, hn.symm.trans hvertex, ih hrest h⟩

theorem ResolvedPattern.EndsAt.congr (hρ : ∀ c ∈ p.bindings, ρ c.1.name = ρ' c.1.name)
    (h : p.EndsAt g ps ρ b) : p.EndsAt g ps ρ' b := by
  obtain ⟨hstart, hhops⟩ := forall_mem_cons.mp hρ
  obtain ⟨a, hfits, ha, h⟩ := h
  exact ⟨a, hfits, hstart.symm.trans ha, h.congr hhops⟩

theorem ResolvedNode.Fits.isSome {n : ResolvedNode} (h : n.Fits g ps v) : (g.vertex? v).isSome := by
  obtain ⟨w, hw, -⟩ := h.labels
  exact Option.isSome_iff_exists.mpr ⟨w, hw⟩

theorem HopsLead.nodes {a : VertexId} (h : HopsLead g ps ρ a hops b) (hc : c ∈ hopBindings hops)
    (hkind : c.1.kind = .node) : ∃ v, ρ c.1.name = some (.vertex v) ∧ (g.vertex? v).isSome := by
  induction hops generalizing a with
  | nil => cases hc
  | cons hop hops ih =>
    obtain ⟨e, v, -, -, hfits, hvertex, h⟩ := h
    rcases mem_cons.mp hc with rfl | hc
    · cases hkind
    · rcases mem_cons.mp hc with rfl | hc
      · exact ⟨v, hvertex, hfits.isSome⟩
      · exact ih h hc

theorem ResolvedPattern.EndsAt.nodes (h : p.EndsAt g ps ρ b) (hc : c ∈ p.bindings)
    (hkind : c.1.kind = .node) : ∃ v, ρ c.1.name = some (.vertex v) ∧ (g.vertex? v).isSome := by
  obtain ⟨a, hfits, ha, h⟩ := h
  rcases mem_cons.mp hc with rfl | hc
  · exact ⟨a, ha, hfits.isSome⟩
  · exact h.nodes hc hkind

end Meaning

variable {a : VertexId} {entries : List (String × Expr)} {g : Graph} {ps : Parameters}
  {t : Traverser} {x : Object}

/-! ### Properties -/

def Graph.entryHolds (g : Graph) (ps : Parameters) (x : Object) (entry : String × Expr) : Bool :=
  match g.property? entry.1 x, entry.2.known? ps with
  | some v, some w => v.eq? w == some true
  | _, _ => false

theorem Graph.entryHolds_of_known (he : e.known? ps = some w) (g : Graph)
    (x : Object) (key : String) : g.entryHolds ps x (key, e) =
      match g.property? key x with
      | some v => v.eq? w == some true
      | none => false := by
  unfold entryHolds
  rw [he]
  rcases g.property? key x with _ | v <;> rfl

namespace LowerClause

variable {env : Env} {scope : Scope} {element : String}

theorem entry_passes (hscope : scope.isElement element) (key : String)
    (he : e.known? env.parameters = some w) :
    let c := env.context scope (some element) "MATCH"
    ∃ cond, Lowered.comparison c ((Expr.access (.var element) key).lower c) .eq (e.lower c) =
        .ok cond ∧
      ∀ g : Graph, cond.filter.Passes env.parameters g
        (fun t => g.entryHolds env.parameters t.object (key, e)) fun t => t := by
  intro c
  have hknown : e.known? c.parameters = some w := he
  obtain ⟨o, ho, hresolve⟩ := Expr.operand_of_known he
  rw [Lowered.comparison, Expr.lower_expr, Expr.lower_expr, Expr.isNull_of_known hknown]
  cases hw : w.isNull with
  | true =>
    refine ⟨.never, rfl, fun g => .keep rfl fun t => ?_⟩
    -- nothing is equal to null
    rw [entryHolds_of_known he]
    rcases g.property? key t.object with _ | v
    · rfl
    · dsimp only
      rw [show v.eq? w = none from Comparison.eq.eval?_null_right hw]
      rfl
  | false =>
    rw [ho]
    refine ⟨.test [.hasPredicate key (.compare .eq o)], ?_, fun g => .keep rfl fun t => ?_⟩
    · have hproperty : c.elementProperty? (.access (.var element) key) = some (element, key) :=
        if_pos hscope
      show Condition.test <$> Lowered.against c _ _ = _
      rw [Lowered.against, Expr.lower_expr, hproperty]
      exact congrArg (fun f => Except.ok (Condition.test f)) (if_pos rfl)
    · rw [entryHolds_of_known he]
      refine (outcome_bind_ok rfl).trans ?_
      rcases hv : g.property? key t.object with _ | v
      · rfl
      · exact congrArg (fun r => (r, g)) (compare_test .eq (hresolve t) hw)

theorem constraints_cons (p : String × Expr) (entries : List (String × Expr)) :
    constraints env scope element (p :: entries) = do
      let c := env.context scope (some element) "MATCH"
      let cond ← Lowered.comparison c ((Expr.access (.var element) p.1).lower c) .eq (p.2.lower c)
      return cond.filter ++ (← constraints env scope element entries) := by
  simp only [constraints, mapM_cons, bind_assoc, pure_bind, flatten_cons]

theorem constraints_pass (hscope : scope.isElement element)
    (hentries : ∀ p ∈ entries, (p.2.known? env.parameters).isSome) :
    ∃ f, constraints env scope element entries = .ok f ∧
      ∀ g : Graph, f.Passes env.parameters g
        (fun t => entries.all (g.entryHolds env.parameters t.object)) fun t => t := by
  induction entries with
  | nil => exact ⟨[], rfl, fun g => .nil⟩
  | cons p entries ih =>
    obtain ⟨hp, hrest⟩ := forall_mem_cons.mp hentries
    obtain ⟨key, e⟩ := p
    obtain ⟨w, hw⟩ := Option.isSome_iff_exists.mp hp
    obtain ⟨cond, hcond, hpasses⟩ := entry_passes hscope key hw
    obtain ⟨f, hf, hpasses'⟩ := ih hrest
    refine ⟨cond.filter ++ f, ?_, fun g => (hpasses g).append (hpasses' g)⟩
    rw [constraints_cons]
    dsimp only
    rw [hcond, hf]
    rfl

end LowerClause

/-! ### Tests on elements -/

theorem Graph.all_entryHolds_iff :
    entries.all (g.entryHolds ps x) ↔ g.HasProperties ps x entries := by
  rw [all_eq_true]
  refine forall₂_congr fun p _ => ?_
  unfold entryHolds
  rcases g.property? p.1 x with _ | v <;> rcases p.2.known? ps with _ | w <;> simp

def ResolvedNode.holds (n : ResolvedNode) (g : Graph) (ps : Parameters) (x : Object) : Bool :=
  (n.labels.isEmpty || (g.label? x).any n.labels.contains) && n.properties.all (g.entryHolds ps x)

theorem ResolvedNode.holds_iff {n : ResolvedNode} (hlabels : n.labels.length ≤ 1)
    (hv : (g.vertex? v).isSome) : n.holds g ps (.vertex v) ↔ n.Fits g ps v := by
  obtain ⟨w, hw⟩ := Option.isSome_iff_exists.mp hv
  have hlabel : (n.labels.isEmpty || (g.label? (.vertex v)).any n.labels.contains) ↔
      ∀ l ∈ n.labels, w.label = l := by
    rw [label?, hw]
    rcases hn : n.labels with _ | ⟨l, _ | ⟨l', ls⟩⟩
    · simp
    · simp
    · rw [hn] at hlabels
      simp at hlabels
  rw [holds, Bool.and_eq_true, hlabel, all_entryHolds_iff]
  constructor
  · rintro ⟨h, hproperties⟩
    exact ⟨⟨w, hw, h⟩, hproperties⟩
  · rintro ⟨⟨w', hw', h⟩, hproperties⟩
    obtain rfl := Option.some.inj (hw.symm.trans hw')
    exact ⟨h, hproperties⟩

theorem Object.eq?_element {y : Object} (hx : (Process.identifier? x).isSome) :
    x.eq? y = some true ↔ y = x := by
  cases x with
  | vertex i | edge i =>
    cases y with
    | scalar s => cases s <;> simp [Object.eq?, Object.same]
    | _ => simp [Object.eq?, Object.same, eq_comm (a := i)]
  | _ => cases hx

theorem eq_holds_element (hx : (Process.identifier? x).isSome) {o : Option Object} :
    Comparison.eq.holds x (o.getD .null) ↔ o = some x := by
  have hnull : x.isNull = false := by
    cases x with
    | scalar s => cases hx
    | _ => rfl
  rcases o with _ | y
  · change x.isNull ↔ _
    simp [hnull]
  · rw [Option.getD_some, Option.some.injEq, Comparison.holds]
    split
    · rename_i hy
      rw [hnull]
      refine ⟨fun h => absurd h Bool.false_ne_true, ?_⟩
      rintro rfl
      exact hnull.symm.trans hy
    · rw [beq_iff_eq, Object.eq?_element hx]

/-! ### Rows -/

namespace Place

def AtVertex (g : Graph) (p : Place) : Prop :=
  ∃ v, p.1 = .vertex v ∧ (g.vertex? v).isSome

def Carries (g : Graph) (s : Scope) (p : Place) : Prop :=
  ∀ x, s.kind? x = some .node →
    ∃ v, (g.vertex? v).isSome ∧ p.2.lookup x = some (.vertex v) ∧ p.selected x = some (.vertex v)

end Place

namespace Traverser

def bindAs (t : Traverser) (b : ElementBinding) : Traverser :=
  if b.2 then t else t.mark b.1.name

variable {t : Traverser} {b : ElementBinding}

@[simp]
theorem bindAs_object : (t.bindAs b).object = t.object := by
  unfold bindAs
  split <;> rfl

@[simp]
theorem bindAs_origin : (t.bindAs b).origin = t.origin := by
  unfold bindAs
  split <;> rfl

theorem bindAs_place_iff (hx : t.object = x) {q : Place} :
    (b.2 → t.labelled? b.1.name = some x) ∧ (t.bindAs b).place = q ↔
      q.1 = x ∧ Labelled b x t.path q.2 := by
  subst hx
  rcases b with ⟨b, _ | _⟩
  · rw [labelled_fresh_iff]
    constructor
    · rintro ⟨-, rfl⟩
      exact ⟨rfl, rfl⟩
    · rintro ⟨h, h'⟩
      exact ⟨nofun, Prod.ext h.symm h'.symm⟩
  · rw [labelled_known_iff]
    constructor
    · rintro ⟨h, rfl⟩
      exact ⟨rfl, rfl, h rfl⟩
    · rintro ⟨h, h', hlookup⟩
      exact ⟨fun _ => (congrArg (List.lookup b.name) h').symm.trans hlookup,
        Prod.ext h.symm h'.symm⟩

theorem nodup_paths {us : List Traverser} {test : Traverser → Bool} {G : Traverser → Traverser}
    {x : String} (hus : us.Pairwise fun u w => u.object ≠ w.object)
    (hG : ∀ u ∈ us, test u → (G u).path.lookup x = some u.object) :
    ((us.filter test).map fun u => (G u).path).Nodup := by
  refine pairwise_map.mpr ?_
  refine List.Pairwise.imp_of_mem (fun {u w} hu hw hne hpath => hne ?_) (hus.filter test)
  rw [mem_filter] at hu hw
  have hobject : some u.object = some w.object := by
    rw [← hG u hu.1 hu.2, hpath, hG w hw.1 hw.2]
  exact Option.some.inj hobject

end Traverser

namespace LowerClause

variable {env : Env} {scope : Scope} {n : ResolvedNode}

/-! ### Nodes -/

def arrive (n : ResolvedNode) (start : Bool) : Traversal :=
  match start, n.bound with
  | true, true => [.select n.name]
  | true, false => [.vertices]
  | false, true => [.wherePredicate (.compare .eq (.label n.name))]
  | false, false => []

theorem labels_pass (labels : List String) : Traversal.Passes ps g
    (if labels.isEmpty then [] else [.hasLabel labels])
    (fun t => labels.isEmpty || (g.label? t.object).any labels.contains) fun t => t := by
  cases labels.isEmpty with
  | true => exact .nil
  | false => exact .keep rfl fun t => rfl

theorem matchNode_tail (hscope : scope.isElement n.name)
    (hentries : ∀ p ∈ n.properties, (p.2.known? env.parameters).isSome) :
    ∃ tail : Traversal,
      (∀ start, matchNode env scope n start = .ok (arrive n start ++ tail)) ∧
      ∀ g : Graph, tail.Passes env.parameters g (fun t => n.holds g env.parameters t.object)
        fun t => t.bindAs n.binding := by
  obtain ⟨f, hf, hpasses⟩ := constraints_pass hscope hentries
  let labels : Traversal := if n.labels.isEmpty then [] else [.hasLabel n.labels]
  let mark : Traversal := if n.bound then [] else [.mark n.name]
  refine ⟨labels ++ mark ++ f, fun start => ?_, fun g => ?_⟩
  · unfold matchNode
    rw [hf]
    show Except.ok (arrive n start ++ labels ++ mark ++ f) = _
    rw [append_assoc, append_assoc, append_assoc]
  · have hmark : mark.Passes env.parameters g (fun _ => true) fun t => t.bindAs n.binding := by
      unfold mark bindAs binding
      cases n.bound with
      | true => exact .nil
      | false => exact .mark n.name
    refine (((labels_pass n.labels).append hmark).append (hpasses g)).congr
      (fun t => ?_) fun t => rfl
    rw [holds, Bool.and_true, bindAs_object]

def GoesTo (g : Graph) (ps : Parameters) (n : ResolvedNode) (p q : Place) : Prop :=
  ∃ v, n.Fits g ps v ∧ q.1 = .vertex v ∧ Labelled n.binding (.vertex v) p.2 q.2

section

variable {g : Graph} {s s' : Scope} (hscope : scope.isElement n.name)
  (hentries : ∀ p ∈ n.properties, (p.2.known? env.parameters).isSome)
  (hlabels : n.labels.length ≤ 1)

include hscope hentries hlabels

theorem matchNode_start (hg : g.WellFormed) (hbinds : s.Binds [n.binding] s') :
    ∃ f, matchNode env scope n true = .ok f ∧
      f.Enumerates env.parameters g (Place.Carries g s) (GoesTo g env.parameters n) := by
  obtain ⟨tail, htail, hpasses⟩ := matchNode_tail hscope hentries
  refine ⟨_, htail true, ?_⟩
  unfold arrive
  cases hb : n.bound with
  | true =>
    have hbinding : n.binding = (⟨n.name, .node⟩, true) := by rw [binding, hb]
    have hselect : Traversal.Passes env.parameters g [.select n.name] _ _ :=
      .moveIn (f := fun _ t => t.place.selected n.name) rfl
    refine .of_row (hselect.append (hpasses g)) fun t q ht => ?_
    rw [hbinding] at hbinds
    cases hbinds with
    | known hk _ =>
      obtain ⟨v, hv, hlookup, hselected⟩ := ht n.name hk
      have hplace := bindAs_place_iff (t := t.moveTo (.vertex v)) (b := n.binding) (q := q) rfl
      rw [hselected, Option.isSome_some, Bool.true_and, Option.getD_some, GoesTo]
      constructor
      · rintro ⟨hholds, hq⟩
        exact ⟨v, (holds_iff hlabels hv).mp hholds, hplace.mp ⟨fun _ => hlookup, hq⟩⟩
      · rintro ⟨v', hfits, hq⟩
        have hv' : t.path.lookup n.name = some (.vertex v') := by
          rw [hbinding, labelled_known_iff] at hq
          exact (congrArg (List.lookup n.name) hq.2.1).symm.trans hq.2.2
        cases hlookup.symm.trans hv'
        exact ⟨(holds_iff hlabels hv).mpr hfits, (hplace.mpr hq).2⟩
  | false =>
    have hbinding : n.binding = (⟨n.name, .node⟩, false) := by rw [binding, hb]
    refine .of_passes rfl (.step rfl (.eachRow fun t _ => rfl)) (hpasses g) (fun t _ => ?_)
      fun t q _ => ?_
    · refine nodup_paths (x := n.name) ?_ fun u _ _ => ?_
      · have hids := pairwise_map.mp hg.vertexIds
        exact pairwise_map.mpr (hids.imp fun hne heq => hne (Object.vertex.inj heq))
      · rw [hbinding]
        exact lookup_cons_self
    · constructor
      · rintro ⟨u, hu, hholds, hq⟩
        obtain ⟨w, hw, rfl⟩ := mem_map.mp hu
        have hv : (g.vertex? w.id).isSome := by
          rw [hg.vertex?_of_mem hw]
          rfl
        refine ⟨w.id, (holds_iff hlabels hv).mp hholds, ?_⟩
        refine (bindAs_place_iff (t := t.moveTo (.vertex w.id)) rfl).mp ⟨?_, hq⟩
        rw [hbinding]
        exact nofun
      · rintro ⟨v, hfits, hq⟩
        obtain ⟨w, hw, -⟩ := hfits.labels
        refine ⟨t.moveTo (.vertex v), ?_, ?_, ?_⟩
        · rw [← vertex?_id hw]
          exact mem_map_of_mem (mem_of_find?_eq_some hw)
        · exact (holds_iff hlabels (by rw [hw]; rfl)).mpr hfits
        · exact ((bindAs_place_iff (t := t.moveTo (.vertex v)) rfl).mpr hq).2

theorem matchNode_end :
    ∃ f, matchNode env scope n false = .ok f ∧
      f.Enumerates env.parameters g (Place.AtVertex g)
        fun p q => q.1 = p.1 ∧ GoesTo g env.parameters n p q := by
  obtain ⟨tail, htail, hpasses⟩ := matchNode_tail hscope hentries
  refine ⟨_, htail false, ?_⟩
  have harrive : (arrive n false).Passes env.parameters g
      (fun t => !n.bound || Comparison.eq.holds t.object ((t.labelled? n.name).getD .null))
      fun t => t := by
    unfold arrive
    cases n.bound with
    | true => exact .keep rfl fun t => rfl
    | false => exact .nil
  refine .of_row (harrive.append (hpasses g)) fun t q ht => ?_
  obtain ⟨v, hv, hvertex⟩ := ht
  have hplace := bindAs_place_iff (b := n.binding) (q := q) hv
  have hobject : t.object = .vertex v := hv
  have htest : (!n.bound || Comparison.eq.holds t.object ((t.labelled? n.name).getD .null)) ↔
      (n.binding.2 → t.labelled? n.binding.1.name = some (.vertex v)) := by
    rw [hobject, Bool.or_eq_true, eq_holds_element rfl, Bool.not_eq_true', ← Bool.not_eq_true]
    exact imp_iff_not_or.symm
  rw [Bool.and_eq_true, htest, hobject, holds_iff hlabels hvertex]
  constructor
  · rintro ⟨⟨hlabelled, hfits⟩, hq⟩
    obtain ⟨hq₁, hq₂⟩ := hplace.mp ⟨hlabelled, hq⟩
    exact ⟨hq₁.trans hv.symm, v, hfits, hq₁, hq₂⟩
  · rintro ⟨hq₁, v', hfits, hq⟩
    cases hq.1.symm.trans (hq₁.trans hv)
    obtain ⟨hlabelled, hplace⟩ := hplace.mpr hq
    exact ⟨⟨hlabelled, hfits⟩, hplace⟩

end

end LowerClause

/-! ### Relationships -/

def Edge.leadsTo (x : Edge) (a : VertexId) : Direction → Option VertexId
  | .outgoing => some x.target
  | .incoming => some x.source
  | .both => x.other? a

theorem Edge.joins_iff {x : Edge} {b : VertexId} :
    x.Joins a b d ↔ x.touches a d ∧ x.leadsTo a d = some b := by
  cases d with
  | outgoing | incoming => simp [Joins, touches, leadsTo]
  | both =>
    simp only [Joins, touches, leadsTo, other?]
    grind

theorem Graph.mem_incident {x : Edge} {types : List String} :
    x ∈ g.incident a d types ↔ x ∈ g.edges ∧ (types = [] ∨ x.label ∈ types) ∧ x.touches a d := by
  simp [incident]

theorem Graph.endpoint?_arrival {x : Edge} (hx : g.edge? x.id = some x)
    (hobject : t.object = .edge x.id) (horigin : t.origin = some a) (d : Direction) :
    g.endpoint? (LowerClause.arrival d) t = x.leadsTo a d := by
  unfold endpoint?
  rw [hobject, horigin]
  dsimp only
  rw [hx]
  cases d <;> rfl

def Traverser.enter (t : Traverser) (a : VertexId) (x : Edge) : Traverser :=
  { t with object := .edge x.id, origin := some a }

theorem Graph.edgesFrom_eq (h : t.object = .vertex a) (d : Direction) (types : List String) :
    g.edgesFrom d types t = (g.incident a d types).map (t.enter a) := by
  unfold edgesFrom
  rw [h]
  rfl

def ResolvedRelationship.holds (r : ResolvedRelationship) (g : Graph) (ps : Parameters)
    (t : Traverser) : Bool :=
  (!r.bound || Comparison.eq.holds t.object ((t.labelled? r.name).getD .null)) &&
    r.properties.all (g.entryHolds ps t.object) &&
    (g.endpoint? (LowerClause.arrival r.direction) t).isSome

theorem ResolvedRelationship.holds_enter_iff {r : ResolvedRelationship} {x : Edge}
    (hx : g.edge? x.id = some x) : r.holds g ps (t.enter a x) ↔
      (r.binding.2 → (t.enter a x).labelled? r.binding.1.name = some (.edge x.id)) ∧
        g.HasProperties ps (.edge x.id) r.properties ∧ (x.leadsTo a r.direction).isSome := by
  have hlabelled := eq_holds_element (x := .edge x.id) rfl (o := (t.enter a x).labelled? r.name)
  rw [holds, endpoint?_arrival hx rfl rfl, Bool.and_eq_true, Bool.and_eq_true, and_assoc,
    all_entryHolds_iff, Bool.or_eq_true, Bool.not_eq_true', ← Bool.not_eq_true]
  exact and_congr ((or_congr_right hlabelled).trans imp_iff_not_or.symm) Iff.rfl

namespace LowerClause

variable {env : Env} {scope : Scope} {r : ResolvedRelationship}

def Follows (g : Graph) (ps : Parameters) (r : ResolvedRelationship) (p q : Place) : Prop :=
  ∃ a e b, p.1 = .vertex a ∧ r.Joins g ps a e b ∧ q.1 = .vertex b ∧
    Labelled r.binding (.edge e) p.2 q.2

theorem matchRelationship_tail (hscope : scope.isElement r.name)
    (hentries : ∀ p ∈ r.properties, (p.2.known? env.parameters).isSome) :
    ∃ tail : Traversal,
      matchRelationship env scope r = .ok ([.edges r.direction r.types] ++ tail) ∧
      ∀ g : Graph, tail.Passes env.parameters g (fun t => r.holds g env.parameters t)
        fun t => (t.bindAs r.binding).moveTo
          (((g.endpoint? (arrival r.direction) t).map .vertex).getD .null) := by
  obtain ⟨f, hf, hpasses⟩ := constraints_pass hscope hentries
  let bind : Step :=
    if r.bound then .wherePredicate (.compare .eq (.label r.name)) else .mark r.name
  refine ⟨[bind] ++ f ++ [.endpoint (arrival r.direction)], ?_, fun g => ?_⟩
  · unfold matchRelationship
    rw [hf]
    rfl
  · have hbind : Traversal.Passes env.parameters g [bind]
        (fun t => !r.bound || Comparison.eq.holds t.object ((t.labelled? r.name).getD .null))
        fun t => t.bindAs r.binding := by
      unfold bind bindAs ResolvedRelationship.binding
      cases r.bound with
      | true => exact .keep rfl fun t => rfl
      | false => exact .mark r.name
    have hendpoint : Traversal.Passes env.parameters g [.endpoint (arrival r.direction)] _ _ :=
      .moveIn (f := fun g t => (g.endpoint? (arrival r.direction) t).map .vertex) rfl
    -- the mark of the relationship changes neither the object nor where the edge was entered
    have hmark (t : Traverser) : g.endpoint? (arrival r.direction) (t.bindAs r.binding) =
        g.endpoint? (arrival r.direction) t := by
      unfold endpoint?
      rw [bindAs_object, bindAs_origin]
    refine ((hbind.append (hpasses g)).append hendpoint).congr (fun t => ?_) fun t => ?_
    · rw [bindAs_object, hmark, Option.isSome_map, ResolvedRelationship.holds]
    · rw [hmark]

theorem matchRelationship_enumerates (hscope : scope.isElement r.name)
    (hentries : ∀ p ∈ r.properties, (p.2.known? env.parameters).isSome) (hg : g.WellFormed) :
    ∃ f, matchRelationship env scope r = .ok f ∧
      f.Enumerates env.parameters g (Place.AtVertex g) (Follows g env.parameters r) := by
  obtain ⟨tail, htail, hpasses⟩ := matchRelationship_tail hscope hentries
  refine ⟨_, htail, .of_passes rfl (.step rfl (.eachRow fun t _ => rfl)) (hpasses g)
    (fun t ht => ?_) fun t q ht => ?_⟩
  all_goals
    obtain ⟨a, ha, -⟩ := ht
    have hobject : t.object = .vertex a := ha
    rw [edgesFrom_eq hobject]
  · refine nodup_paths (x := r.name) ?_ fun u hu hholds => ?_
    · have hids := pairwise_map.mp hg.edgeIds
      exact pairwise_map.mpr ((hids.filter _).imp fun hne heq => hne (Object.edge.inj heq))
    · obtain ⟨x, hx, rfl⟩ := mem_map.mp hu
      have hx := hg.edge?_of_mem (mem_incident.mp hx).1
      obtain ⟨hlabelled, -⟩ := (ResolvedRelationship.holds_enter_iff hx).mp hholds
      exact ((bindAs_place_iff rfl).mp ⟨hlabelled, rfl⟩).2.2
  · constructor
    · rintro ⟨u, hu, hholds, rfl⟩
      obtain ⟨x, hx, rfl⟩ := mem_map.mp hu
      obtain ⟨hmem, htypes, htouches⟩ := mem_incident.mp hx
      have hx := hg.edge?_of_mem hmem
      obtain ⟨hlabelled, hproperties, hleads⟩ :=
        (ResolvedRelationship.holds_enter_iff hx).mp hholds
      obtain ⟨b, hb⟩ := Option.isSome_iff_exists.mp hleads
      refine ⟨a, x.id, b, ha, ⟨⟨x, hx, htypes, Edge.joins_iff.mpr ⟨htouches, hb⟩⟩, hproperties⟩, ?_,
        ((bindAs_place_iff rfl).mp ⟨hlabelled, rfl⟩).2⟩
      rw [endpoint?_arrival hx rfl rfl, hb]
      rfl
    · rintro ⟨a', e, b, ha', ⟨⟨x, hx, htypes, hjoins⟩, hproperties⟩, hq, hlabelled⟩
      cases ha.symm.trans ha'
      obtain rfl := edge?_id hx
      obtain ⟨htouches, hb⟩ := Edge.joins_iff.mp hjoins
      obtain ⟨hbound, hplace⟩ := (bindAs_place_iff (t := t.enter a x)
        (q := (.edge x.id, q.2)) rfl).mpr ⟨rfl, hlabelled⟩
      have hpath : ((t.enter a x).bindAs r.binding).path = q.2 := congrArg Prod.snd hplace
      refine ⟨t.enter a x, ?_, ?_, ?_⟩
      · exact mem_map_of_mem (mem_incident.mpr ⟨mem_of_find?_eq_some hx, htypes, htouches⟩)
      · exact (ResolvedRelationship.holds_enter_iff hx).mpr ⟨hbound, hproperties, by rw [hb]; rfl⟩
      · rw [endpoint?_arrival hx rfl rfl, hb]
        exact Prod.ext hq.symm hpath

end LowerClause

end CypherTraversal
