import CypherTraversal.Proofs.Resolved.Checked

/-! # What resolved patterns keep

A pattern need not come from a text, and then its elements may stand in any order. A relationship is
kept if a node is directly behind it, and that node with it. Of the other nodes only the last one is
kept, as the start of the pattern. Nothing is lost exactly if nodes and relationships alternate. -/

namespace CypherTraversal

open List

/-! ### Elements and their neighbours -/

namespace PatternElement

variable {ε : Type}

def isNode : PatternElement ε → Bool
  | .node .. => true
  | .relationship .. => false

/-- The elements, each with the one in front of it. -/
def paired (before : Option (PatternElement ε)) (es : List (PatternElement ε)) :
    List (Option (PatternElement ε) × PatternElement ε) :=
  (before :: es.map some).zip es

def freeNodes (pairs : List (Option (PatternElement ε) × PatternElement ε)) :
    List (PatternElement ε) :=
  (pairs.filter fun x => x.2.isNode && x.1.all isNode).map Prod.snd

def hopPairs (pairs : List (Option (PatternElement ε) × PatternElement ε)) :
    List (Option (PatternElement ε) × PatternElement ε) :=
  pairs.filter fun x => x.2.isNode && !x.1.all isNode

end PatternElement

open PatternElement

def HopReads (h : ResolvedRelationship × ResolvedNode)
    (x : Option (PatternElement Expr) × PatternElement Expr) : Prop :=
  (∃ e ∈ x.1, h.1.Reads e) ∧ h.2.Reads x.2

/-- What resolving keeps of a pattern, well formed or not. -/
structure ResolvedPattern.Keeps (p : ResolvedPattern) (w : Pattern Expr) : Prop where
  ends : w.elements.getLast?.any isNode
  start : ∃ e, (freeNodes (paired none w.elements)).getLast? = some e ∧ p.start.Reads e
  hops : Forall₂ HopReads p.hops (hopPairs (paired none w.elements))
  whole : p.Reads w ↔ w.Alternates

theorem HopsRead.alternate {hops : List (ResolvedRelationship × ResolvedNode)}
    {es : List (PatternElement Expr)} (h : HopsRead hops es) : PatternHops es := by
  induction h with
  | nil => exact .nil
  | cons hr hn _ ih =>
    obtain ⟨var, properties, rfl, -⟩ := hr
    obtain ⟨var', properties', rfl, -⟩ := hn
    exact .cons ⟨_, _, _, _, _, rfl⟩ ⟨_, _, _, rfl⟩ ih

namespace Resolve

variable {st st' : State} {clause : String} {scope scope' : Scope}
  {parameters parameters' : List String} {e : PatternElement Expr}
  {es free : List (PatternElement Expr)} {before : Option (PatternElement Expr)}
  {found : List (Option (PatternElement Expr) × PatternElement Expr)} {p p' : PatternState}

/-- What has been kept of the elements up to `before`. -/
structure PatternState.Keeps (p : PatternState) (before : Option (PatternElement Expr))
    (free : List (PatternElement Expr))
    (found : List (Option (PatternElement Expr) × PatternElement Expr)) : Prop where
  start : Option.Rel ResolvedNode.Reads p.start free.getLast?
  hops : Forall₂ HopReads p.hops found
  pending : match p.pending with
    | some r => before.all isNode = false ∧ ∃ e ∈ before, r.Reads e
    | none => before.all isNode

theorem addElement_keeps (hp : p.Keeps before free found)
    (h : addElement clause p e st = .ok (p', st')) :
    p'.Keeps (some e) (free ++ freeNodes [(before, e)]) (found ++ hopPairs [(before, e)]) := by
  have hpending := hp.pending
  cases e with
  | node var labels properties =>
    obtain ⟨n, hn, -, -, hdone, hput⟩ := addElement_node ⟨_, _, _, rfl⟩ h
    cases hr : p.pending with
    | some r =>
      rw [hr] at hpending hput
      refine ⟨?_, ?_, by rw [hdone]; rfl⟩
      · rw [hput.1]
        simpa [freeNodes, isNode, hpending.1] using hp.start
      · rw [hput.2, hopPairs, filter_cons_of_pos (by simp [isNode, hpending.1])]
        exact rel_append hp.hops (.cons ⟨hpending.2, hn⟩ .nil)
    | none =>
      rw [hr] at hpending hput
      refine ⟨?_, ?_, by rw [hdone]; rfl⟩
      · rw [hput.1]
        simpa [freeNodes, isNode, hpending] using hn
      · rw [hput.2]
        simpa [hopPairs, isNode, hpending] using hp.hops
  | relationship var types direction properties length =>
    obtain ⟨r, hr, -, -, hsome, hstart, hhops⟩ := addElement_relationship ⟨_, _, _, _, _, rfl⟩ h
    refine ⟨?_, ?_, ?_⟩
    · rw [hstart]
      simpa [freeNodes, isNode] using hp.start
    · rw [hhops]
      simpa [hopPairs, isNode] using hp.hops
    · rw [hsome]
      exact ⟨rfl, _, rfl, hr⟩

theorem addElements_keep (hp : p.Keeps before free found)
    (h : (es.foldlM (addElement clause) p) st = .ok (p', st')) :
    p'.Keeps (es.getLast?.or before) (free ++ freeNodes (paired before es))
      (found ++ hopPairs (paired before es)) := by
  induction es generalizing p st before free found with
  | nil =>
    cases h
    simpa [paired, freeNodes, hopPairs] using hp
  | cons e es ih =>
    obtain ⟨p₁, st₁, h₁, h⟩ := run_bind_eq_ok.mp h
    have hrest := ih (addElement_keeps hp h₁) h
    have hlast : (e :: es).getLast?.or before = es.getLast?.or (some e) := by
      rw [getLast?_cons]
      cases es.getLast? <;> rfl
    rw [append_assoc, append_assoc, freeNodes, freeNodes, ← map_append, ← filter_append, hopPairs,
      hopPairs, ← filter_append, ← hlast] at hrest
    exact hrest

theorem pattern_keeps {w : Pattern Expr} {p : ResolvedPattern}
    (h : pattern clause scope parameters w st = .ok ((p, scope', parameters'), st')) :
    p.Keeps w := by
  obtain ⟨-, hfold⟩ := pattern_iff.mp h
  have hempty : PatternState.Keeps { scope, parameters } none [] [] := ⟨.none, .nil, rfl⟩
  obtain ⟨hstart, hhops, hlast⟩ := addElements_keep hempty hfold
  rw [nil_append] at hstart hhops
  obtain ⟨e, hfree, hreads⟩ : ∃ e, (freeNodes (paired none w.elements)).getLast? = some e ∧
      p.start.Reads e := by
    cases hfree : (freeNodes (paired none w.elements)).getLast? with
    | none =>
      rw [hfree] at hstart
      cases hstart
    | some e =>
      rw [hfree] at hstart
      cases hstart with
      | some hreads => exact ⟨e, rfl, hreads⟩
  refine ⟨?_, ⟨e, hfree, hreads⟩, hhops, ?_, fun hw => (pattern_eq_ok hw h).1⟩
  · have hne : w.elements.getLast? ≠ none := fun hnone => by
      rw [getLast?_eq_none_iff.mp hnone] at hfree
      cases hfree
    obtain ⟨d, hd⟩ := Option.ne_none_iff_exists'.mp hne
    rw [hd] at hlast ⊢
    exact hlast
  · rintro ⟨d, ds, hds, ⟨var, properties, rfl, -⟩, hrest⟩
    exact ⟨_, ds, hds, ⟨_, _, _, rfl⟩, hrest.alternate⟩

theorem patterns_keep {check : ResolvedPattern → Except Error Unit} {ws : List (Pattern Expr)}
    {ps : List ResolvedPattern}
    (h : patterns clause check scope ws parameters st = .ok ((ps, scope', parameters'), st')) :
    Forall₂ ResolvedPattern.Keeps ps ws := by
  induction ws generalizing scope parameters ps st with
  | nil =>
    cases h
    exact .nil
  | cons w ws ih =>
    obtain ⟨p, qs, scope₁, parameters₁, st₁, rfl, hp, -, hqs⟩ := patterns_cons_iff.mp h
    exact .cons (pattern_keeps hp) (ih hqs)

theorem clause_keeps {scopeIn : ScopeId} {s : Scope} (hs : st.scopes[scopeIn]? = some s)
    {c : Clause} {d : ResolvedClause} (h : Resolve.clause scopeIn c st = .ok (d, st')) :
    Forall₂ ResolvedPattern.Keeps d.patterns c.patterns := by
  cases c with
  | read optional ws filter =>
    cases optional with
    | false =>
      obtain ⟨ps, _, _, _, hps, -, -, rfl⟩ := read_iff.mp h
      exact patterns_keep hps
    | true => cases h
  | create ws =>
    obtain ⟨ps, _, _, _, hps, -, rfl⟩ := create_run hs h
    exact patterns_keep hps
  | unwind e x =>
    obtain ⟨-, -, -, rfl⟩ := unwind_run hs h
    exact .nil
  | project final w =>
    obtain ⟨_, _, _, _, _, _, -, -, -, -, -, -, -, rfl⟩ := project_run hs h
    exact .nil
  | delete detach targets | set items => cases h

end Resolve

/-- **What is kept of the patterns of a query.** Whatever tree a query is, if it resolves then each
pattern ends with a node, the pattern that it becomes starts with the last node that has no
relationship directly in front of it, and its hops are the relationships that have a node directly
behind them, each with that node, in order and with what is written at them. Every element is kept
exactly if nodes and relationships alternate, which they do in every text. -/
theorem accepted_patterns_keep_hops {q : Query} {r : ResolvedQuery} (h : q.resolve = .ok r) :
    Forall₂ (Forall₂ fun c d => Forall₂ ResolvedPattern.Keeps d.patterns c.patterns)
      q.singles r.branches ∧
    ∀ text, Query.parse text = .ok q → ∀ cs ∈ q.singles, ∀ c ∈ cs, ∀ w ∈ c.patterns,
      w.Alternates := by
  refine ⟨(Query.resolve_each h).imp fun cs ds hcs => hcs.imp ?_, fun _ hq =>
    Query.patterns_alternate hq⟩
  rintro c d ⟨id, s, st, st', hs, hclause⟩
  exact Resolve.clause_keeps hs hclause

theorem created_software_is_kept :
    ∃ q r, Query.parse "MATCH (a)-[k:knows]->(b) CREATE (a)-[:created]->(c:software)" = .ok q ∧
      q.resolve = .ok r ∧
      Forall₂ (Forall₂ fun c d => Forall₂ ResolvedPattern.Keeps d.patterns c.patterns)
        q.singles r.branches ∧
      ∃ cs ∈ q.singles, ∃ c ∈ cs, ∃ w ∈ c.patterns, w.elements.length = 3 ∧ w.Alternates := by
  obtain ⟨q, hq, r, hr, cs, hcs, c, hc, w, hw, hlength⟩ :
      ∃ q, Query.parse "MATCH (a)-[k:knows]->(b) CREATE (a)-[:created]->(c:software)" = .ok q ∧
      ∃ r, q.resolve = .ok r ∧ ∃ cs ∈ q.singles, ∃ c ∈ cs, ∃ w ∈ c.patterns,
        w.elements.length = 3 := by
    decide +kernel
  obtain ⟨hkeeps, halternates⟩ := accepted_patterns_keep_hops hr
  exact ⟨q, r, hq, hr, hkeeps, cs, hcs, c, hc, w, hw, hlength, halternates _ hq cs hcs c hc w hw⟩

theorem node_in_front_of_node_is_lost :
    let w : Pattern Expr := ⟨none, [.node "a" ["person"] none, .node "b" [] none]⟩
    ¬w.Alternates ∧
    ((Query.resolve ⟨[.read false [w] none,
        .project true ⟨false, [⟨.var "b", none⟩], [], none, none, none⟩], []⟩).toOption.map
      fun r => (r.branches.flatten.flatMap ResolvedClause.patterns).map fun p =>
        (p.start.name, p.start.labels, p.hops.length)) = some [("b", [], 0)] := by
  refine ⟨?_, by decide +kernel⟩
  rintro ⟨_, _, heq, -, hrest⟩
  cases heq
  cases hrest

end CypherTraversal
