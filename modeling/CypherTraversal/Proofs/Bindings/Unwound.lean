import CypherTraversal.Proofs.Aggregates.Reductions
import CypherTraversal.Proofs.Bindings.Paths
import CypherTraversal.Proofs.Conditions.Values
import CypherTraversal.Proofs.Patterns.Enumeration

/-! # Unwound rows

UNWIND makes one row for each item. The labels of the row stay beside the item, unless the list
was collected on the way. -/

namespace CypherTraversal

open Run Traverser LowerClause List Traversal Process

variable {c : LoweringContext} {us : List Traverser} {var : String} {ps : Parameters} {g g' : Graph}
  {t u w : Traverser} {e : Expr} {f : Traversal}

/-! ### Rows of items -/

/-- The variable `x` selects `y` on the row. -/
def Traverser.Answers (ps : Parameters) (g : Graph) (t : Traverser) (x : String) (y : Object) :
    Prop :=
  (Traversal.run ps [.select x] [t]).outcome g = (.ok [t.moveTo y], g)

def Traverser.AnswersNothing (ps : Parameters) (g : Graph) (t : Traverser) (x : String) : Prop :=
  (Traversal.run ps [.select x] [t]).outcome g = (.ok [], g)

theorem Traverser.answers_iff {x : String} {y : Object} :
    t.Answers ps g x y ↔ t.place.selected x = some y :=
  ⟨Place.selected_of_outcome, fun h => select_outcome h g⟩

/-- What the names select on `t` they select on `u`. -/
def Traverser.Retains (ps : Parameters) (g : Graph) (names : List String) (t u : Traverser) :
    Prop :=
  ∀ x ∈ names, ∀ y, t.Answers ps g x y → u.Answers ps g x y

/-- No name selects anything on the row. -/
def Traverser.Forgets (ps : Parameters) (g : Graph) (names : List String) (u : Traverser) : Prop :=
  ∀ x ∈ names, u.AnswersNothing ps g x

def Traverser.atItem (var : String) (w : Traverser) (y : Object) : Traverser :=
  ((w.moveTo y).mark var).moveTo (.str startMark)

def Traverser.items (var : String) (w : Traverser) : List Traverser :=
  (Process.parts w.object).map (w.atItem var)

section Items

variable {var x : String} {y : Object}

theorem Traverser.selected_atItem (w : Traverser) (x : String) :
    (w.atItem var y).place.selected x = if x = var then some y else w.labelled? x := by
  change List.lookup x ((var, y) :: w.path) = _
  rw [lookup_cons]
  by_cases hx : x = var
  · rw [if_pos hx, hx, beq_self_eq_true]
  · rw [if_neg hx, beq_false_of_ne hx]
    rfl

theorem Traverser.atItem_answers (w : Traverser) : (w.atItem var y).Answers ps g var y :=
  answers_iff.mpr ((w.selected_atItem var).trans (if_pos rfl))

end Items

theorem flatMap_outcome (f : Traversal) :
    (run ps [.flatMap f] [t]).outcome g = (f.run ps [t]).outcome g := by
  rw [run_step (p := .eachRow (f.run ps).on) rfl, eachRow, on, outcome_bind]
  split
  · rename_i us h hrun
    rw [hrun, eachRow, pure_bind, append_nil]
    rfl
  · rename_i err h hrun
    exact hrun.symm

def unwindSteps (f : Traversal) (var : String) : Traversal :=
  [.flatMap (f ++ [.unfold])] ++ [.mark var, .constant (.value (.str startMark))]

theorem labelItem_sends (var : String) :
    Sends g (fun _ => True)
      (run ps [.mark var, .constant (.value (.str startMark))])
      fun w => [w.atItem var w.object] := by
  have hmark : Passes ps g [.mark var] _ _ := .mark var
  have hreset : Sends g (fun _ => True)
      (run ps [.constant (.value (.str startMark))])
      fun u => [u.moveTo (.str startMark)] :=
    .constant fun _ _ => rfl
  exact (hmark.sends.andThen hreset fun _ _ _ _ => trivial).congr fun _ _ => rfl

theorem clause_unwind {env : Env} {r : ResolvedClause} (hbody : r.body = .unwind e var)
    (current : Option String) : clause env r current =
      (fun f => (unwindSteps f var, none)) <$>
        (e.lower (env.context (env.scopes.scope r.scopeIn) current "UNWIND")).value := by
  rw [clause, hbody]
  exact bind_pure_comp _ _

theorem unwindSteps_outcome (hf : (e.lower c).value = .ok f) (var : String) :
    ((unwindSteps f var).run ps [t]).outcome g =
      (((f.run ps [t]).outcome g).1.map (List.flatMap (items var)), g) := by
  have hunfold : Starts ps [.unfold] := rfl
  have hlabel : Starts ps [.mark var, .constant (.value (.str startMark))] := rfl
  have hparts : Sends g (fun _ => True) (run ps [.unfold])
      fun w => (parts w.object).map w.moveTo :=
    .step rfl (.eachRow fun _ _ => rfl)
  have hitems : Sends g (fun _ => True)
      ((run ps [.unfold]).andThen
        (run ps [.mark var, .constant (.value (.str startMark))])) (items var) := by
    refine (hparts.andThen (labelItem_sends var) fun _ _ _ _ => trivial).congr fun w _ => ?_
    rw [flatMap_map, ← map_eq_flatMap]
    rfl
  rw [unwindSteps, run_append hlabel, andThen, outcome_bind, flatMap_outcome,
    run_append hunfold, andThen, outcome_bind]
  have hgraph : ((f.run ps [t]).outcome g).2 = g := Expr.graph_of_value hf rfl
  rcases hrun : (f.run ps [t]).outcome g with ⟨r, h⟩
  rw [hrun] at hgraph
  obtain rfl : h = g := hgraph
  cases r with
  | error err => rfl
  | ok ws =>
    have hrows := hitems ws fun _ _ => trivial
    rw [andThen, outcome_bind] at hrows
    exact hrows

section Names

variable {names : List String} {var : String} {y : Object} (hvar : var ∉ names)

include hvar

theorem Traverser.Retains.atItem (hlabels : ∀ x ∈ names, ∃ y, t.labelled? x = some y ∧
    t.Answers ps g x y) (hpath : w.path = t.path) : t.Retains ps g names (w.atItem var y) := by
  intro x hx z hz
  obtain ⟨z', hlabel, hz'⟩ := hlabels x hx
  obtain rfl : z' = z :=
    Option.some.inj ((answers_iff.mp hz').symm.trans (answers_iff.mp hz))
  rw [answers_iff, w.selected_atItem, if_neg (ne_of_mem_of_not_mem hx hvar), labelled?, hpath]
  exact hlabel

theorem Traverser.Forgets.atItem (hpath : w.path = []) : (w.atItem var y).Forgets ps g names := by
  refine fun x hx => select_nothing ?_ g
  rw [w.selected_atItem, if_neg (ne_of_mem_of_not_mem hx hvar), labelled?, hpath]
  rfl

end Names

theorem unwindSteps_retain_or_forget (hf : (e.lower c).value = .ok f) {names : List String}
    (hvar : var ∉ names) (hlabels : ∀ x ∈ names, ∃ y, t.labelled? x = some y ∧ t.Answers ps g x y)
    (hrun : ((unwindSteps f var).run ps [t]).outcome g = (.ok us, g')) (hu : u ∈ us) :
    (e.keepsPath → t.Retains ps g names u) ∧ (e.losesPath → u.Forgets ps g names) ∧
      (t.Retains ps g names u ∨ u.Forgets ps g names) := by
  rw [unwindSteps_outcome hf] at hrun
  obtain ⟨ws, hws, rfl⟩ := map_eq_ok.mp (congrArg Prod.fst hrun)
  have hws : (f.run ps [t]).outcome g = (.ok ws, g) := Prod.ext hws (Expr.graph_of_value hf rfl)
  obtain ⟨w, hw, hu⟩ := mem_flatMap.mp hu
  obtain ⟨y, hy, rfl⟩ := mem_map.mp hu
  refine ⟨fun hkeeps => ?_, fun hloses => ?_, ?_⟩
  · exact .atItem hvar hlabels
      (Expr.path_of_value (P := (· = t.path)) rfl (.inr hkeeps) hf hws w hw)
  · obtain hnull | ⟨hpath, -⟩ := Expr.lost_of_value hloses hf hws w hw
    · -- null has no items
      rw [hnull] at hy
      cases hy
    · exact .atItem hvar hpath
  · have hpath := Expr.path_of_value (P := fun p => p = t.path ∨ p = []) (.inl rfl)
      (.inl (.inr rfl)) hf hws w hw
    exact hpath.imp (.atItem hvar hlabels) (.atItem hvar)

theorem unwindSteps_items (hf : (e.lower c).value = .ok f) (var : String) {xs : List Object}
    (hxs : f.objects ps t g = .ok xs) :
    ∃ us, ((unwindSteps f var).run ps [t]).outcome g = (.ok us, g) ∧
      Forall₂ (fun u y => u.Answers ps g var y) us (xs.flatMap parts) := by
  obtain ⟨ws, hws, rfl⟩ := map_eq_ok.mp hxs
  refine ⟨ws.flatMap (items var), ?_, ?_⟩
  · rw [unwindSteps_outcome hf, hws]
    rfl
  · rw [flatMap_map]
    clear hws hxs
    induction ws with
    | nil => exact .nil
    | cons w ws ih =>
      refine rel_append ?_ ih
      exact forall₂_map_left_iff.mpr (forall₂_same.mpr fun y _ => w.atItem_answers)

/-- **UNWIND keeps all earlier variables or none.** Let a row answer the variables in scope as they
are labelled. The graph stays as it is, and each row that UNWIND makes of it answers all of them as
before, or none of them: all if the value stays on the path, none if the value is a list that is
collected from the row. A row answers the new variable with its item; a list has a row for each
item, in their order, and null has none. -/
theorem unwound_rows_retain_or_forget {text : String} {q : Query} (hq : Query.parse text = .ok q)
    {rq : ResolvedQuery} (hrq : q.resolve = .ok rq) {i j : Nat} {r : ResolvedClause}
    (hr : (rq.branches[i]?.bind fun rs => rs[j]?) = some r) {var : String}
    (hbody : r.body = .unwind e var) {current after : Option String} {steps : Traversal}
    (hsteps : clause ⟨rq.scopes, ps⟩ r current = .ok (steps, after))
    (ht : ∀ x ∈ (rq.scopes.scope r.scopeIn).names, ∃ y, t.labelled? x = some y ∧
      t.Answers ps g x y) :
    let s := rq.scopes.scope r.scopeIn
    let c := Env.context ⟨rq.scopes, ps⟩ s current "UNWIND"
    (∀ us g', (steps.run ps [t]).outcome g = (.ok us, g') → g' = g ∧ ∀ u ∈ us,
      (e.keepsPath → t.Retains ps g s.names u) ∧ (e.losesPath → u.Forgets ps g s.names) ∧
      (t.Retains ps g s.names u ∨ u.Forgets ps g s.names)) ∧
    (∀ f xs, (e.lower c).value = .ok f → f.objects ps t g = .ok xs →
      ∃ us, (steps.run ps [t]).outcome g = (.ok us, g) ∧
        List.Forall₂ (fun u y => u.Answers ps g var y) us (xs.flatMap Process.parts)) ∧
    (∀ ys, e.ReadsAs c g t (.list ys) → ∃ us, (steps.run ps [t]).outcome g = (.ok us, g) ∧
      List.Forall₂ (fun u y => u.Answers ps g var y) us ys) ∧
    (e.ReadsAs c g t .null → (steps.run ps [t]).outcome g = (.ok [], g)) := by
  intro s c
  obtain ⟨w, -, hresolved⟩ := Query.resolve_clause hq hrq hr
  have hvar : var ∉ s.names := by
    cases hresolved with
    | unwind body scopeIn _ _ new =>
      cases body.symm.trans hbody
      rw [← Resolve.scope_of_getElem? scopeIn] at new
      exact new
    | read body | create body | project body => cases body.symm.trans hbody
  rw [clause_unwind hbody] at hsteps
  obtain ⟨f, hf, hsteps⟩ := map_eq_ok.mp hsteps
  cases hsteps
  have hitems {xs : List Object} (hxs : f.objects ps t g = .ok xs) :=
    unwindSteps_items hf var hxs
  have hreads {x : Object} (hx : e.ReadsAs c g t x) : f.objects ps t g = .ok [x] := by
    obtain ⟨f', hf', hx⟩ := hx
    cases hf.symm.trans hf'
    exact hx
  refine ⟨fun us g' hrun => ⟨?_, fun u hu => ?_⟩, fun f' xs hf' hxs => ?_, fun ys hys => ?_,
    fun hnull => ?_⟩
  · exact congrArg Prod.snd (hrun.symm.trans (unwindSteps_outcome hf var))
  · exact unwindSteps_retain_or_forget hf hvar ht hrun hu
  · cases hf.symm.trans hf'
    exact hitems hxs
  · have hrows := hitems (hreads hys)
    rw [List.flatMap_singleton] at hrows
    exact hrows
  · obtain ⟨us, hrun, hus⟩ := hitems (hreads hnull)
    cases hus
    exact hrun

/-- A query whose second clause unwinds a list of integers, from a row with `n` in scope. -/
theorem exists_unwind (text : String) (t : Traverser) (P : Expr → Bool) (ns : List Int)
    (h : ∃ q, Query.parse text = .ok q ∧ ∃ rq, q.resolve = .ok rq ∧
      ∃ r, (rq.branches[0]?.bind fun rs => rs[1]?) = some r ∧
      (rq.scopes.scope r.scopeIn).names = ["n"] ∧ (match r.body with
        | .unwind e "x" => P e ∧ ∃ f, (e.lower (Env.context ⟨rq.scopes, []⟩
          (rq.scopes.scope r.scopeIn) (some "n") "UNWIND")).value = .ok f ∧
            (match f.objects [] t .modern with
              | .ok [.list ys] =>
                ys.map (fun | .scalar (.int n) => some n | _ => none) = ns.map some
              | _ => false : Bool)
        | _ => false : Bool)) :
    ∃ q rq r e f, Query.parse text = .ok q ∧ q.resolve = .ok rq ∧
      (rq.branches[0]?.bind fun rs => rs[1]?) = some r ∧
      (rq.scopes.scope r.scopeIn).names = ["n"] ∧ r.body = .unwind e "x" ∧ P e ∧
      (e.lower (Env.context ⟨rq.scopes, []⟩ (rq.scopes.scope r.scopeIn) (some "n")
        "UNWIND")).value = .ok f ∧ f.objects [] t .modern = .ok [.list (ns.map .int)] ∧
      clause ⟨rq.scopes, []⟩ r (some "n") = .ok (unwindSteps f "x", none) := by
  obtain ⟨q, hq, rq, hrq, r, hr, hnames, hchecks⟩ := h
  split at hchecks
  case h_2 => cases hchecks
  rename_i e hbody
  obtain ⟨he, f, hf, hlist⟩ := of_decide_eq_true hchecks
  split at hlist
  case h_2 => cases hlist
  rename_i ys hobjects
  have hys : Forall₂ Eq ys (ns.map .int) := by
    have hlist := forall₂_eq_eq_eq.symm ▸ of_decide_eq_true hlist
    rw [forall₂_map_left_iff, forall₂_map_right_iff] at hlist
    refine forall₂_map_right_iff.mpr (hlist.imp fun y n h => ?_)
    split at h <;> cases h
    rfl
  rw [forall₂_eq_eq_eq] at hys
  have hsteps : clause ⟨rq.scopes, []⟩ r (some "n") = .ok (unwindSteps f "x", none) := by
    rw [clause_unwind hbody, hf]
    rfl
  exact ⟨q, rq, r, e, f, hq, hrq, hr, hnames, hbody, he, hf, hys ▸ hobjects, hsteps⟩

theorem marko_stays_beside_items :
    let text := "MATCH (n:person) UNWIND CASE n.name WHEN 'marko' THEN [1, 2] ELSE n.age END AS x
      RETURN n.name AS name, x"
    let t : Traverser := { object := .vertex ⟨1⟩, path := [("n", .vertex ⟨1⟩)] }
    ∃ q rq r steps us, Query.parse text = .ok q ∧ q.resolve = .ok rq ∧
      (rq.branches[0]?.bind fun rs => rs[1]?) = some r ∧
      clause ⟨rq.scopes, []⟩ r (some "n") = .ok (steps, none) ∧
      (steps.run [] [t]).outcome .modern = (.ok us, .modern) ∧
      List.Forall₂ (fun u y => u.Answers [] .modern "x" y) us [.int 1, .int 2] ∧
      ∀ u ∈ us, t.Retains [] .modern ["n"] u := by
  intro text t
  obtain ⟨q, rq, r, e, f, hq, hrq, hr, hnames, hbody, hkeeps, hf, hobjects, hsteps⟩ :=
    exists_unwind text t Expr.keepsPath [1, 2] (by decide +kernel)
  have hlabels : ∀ x ∈ (rq.scopes.scope r.scopeIn).names, ∃ y, t.labelled? x = some y ∧
      t.Answers [] .modern x y := by
    rw [hnames]
    exact List.forall_mem_singleton.mpr ⟨.vertex ⟨1⟩, rfl, rfl⟩
  obtain ⟨hretains, -, hitems, -⟩ := unwound_rows_retain_or_forget hq hrq hr hbody hsteps hlabels
  obtain ⟨us, hrun, hus⟩ := hitems _ ⟨f, hf, hobjects⟩
  refine ⟨q, rq, r, _, us, hq, hrq, hr, hsteps, hrun, hus, fun u hu => ?_⟩
  rw [← hnames]
  exact ((hretains us _ hrun).2 u hu).1 hkeeps

theorem marko_is_gone_beside_age :
    let text := "MATCH (n:person) UNWIND [n.age] AS x RETURN n.name AS name, x"
    let t : Traverser := { object := .vertex ⟨1⟩, path := [("n", .vertex ⟨1⟩)] }
    ∃ q rq r steps u, Query.parse text = .ok q ∧ q.resolve = .ok rq ∧
      (rq.branches[0]?.bind fun rs => rs[1]?) = some r ∧
      (rq.scopes.scope r.scopeIn).names = ["n"] ∧
      clause ⟨rq.scopes, []⟩ r (some "n") = .ok (steps, none) ∧
      t.Answers [] .modern "n" (.vertex ⟨1⟩) ∧
      (steps.run [] [t]).outcome .modern = (.ok [u], .modern) ∧
      u.Answers [] .modern "x" (.int 29) ∧ u.AnswersNothing [] .modern "n" := by
  intro text t
  obtain ⟨q, rq, r, e, f, hq, hrq, hr, hnames, -, hloses, hf, hobjects, hsteps⟩ :=
    exists_unwind text t Expr.losesPath [29] (by decide +kernel)
  have hlabels : ∀ x ∈ ["n"], ∃ y, t.labelled? x = some y ∧ t.Answers [] .modern x y :=
    List.forall_mem_singleton.mpr ⟨.vertex ⟨1⟩, rfl, rfl⟩
  obtain ⟨us, hrun, hus⟩ := unwindSteps_items hf "x" hobjects
  obtain ⟨u, _, hu, hnil, rfl⟩ := List.forall₂_cons_right_iff.mp hus
  obtain rfl := List.forall₂_nil_right_iff.mp hnil
  have hforgets := (unwindSteps_retain_or_forget hf (by decide) hlabels hrun
    List.mem_cons_self).2.1 hloses
  exact ⟨q, rq, r, _, _, hq, hrq, hr, hnames, hsteps, rfl, hrun, hu,
    hforgets "n" List.mem_cons_self⟩

end CypherTraversal
