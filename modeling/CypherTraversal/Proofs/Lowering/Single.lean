import CypherTraversal.Proofs.Bindings.Current
import CypherTraversal.Proofs.Lowering.Reading

/-! # Single queries

How the traversal of a single query starts. MATCH at the front finds nothing in scope, so its first
step goes to all vertices, wherever the run starts from; any other clause at the front is given a
row of its own. -/

namespace CypherTraversal

open Run LowerClause List

variable {r : ResolvedClause} {rs : List ResolvedClause} {f : Traversal}

namespace LowerClause

variable {env : Env}

theorem read_starts {s s' : Scope} (hempty : s.bindings = []) {patterns : List ResolvedPattern}
    (hbinds : s.Binds (patterns.flatMap ResolvedPattern.bindings) s') (hpatterns : patterns ≠ [])
    (id : ScopeId) (filter : Option Expr) (current : Option String) :
    Gives (fun x => ∃ f, x.1 = .vertices :: f) (read env id patterns filter current) := by
  obtain ⟨p, ps, rfl⟩ := exists_cons_of_ne_nil hpatterns
  have hbound : p.start.bound = false := by
    obtain ⟨m, hstart, -⟩ := hbinds.of_cons
    unfold ResolvedNode.binding at hstart
    cases hb : p.start.bound with
    | false => rfl
    | true =>
      rw [hb] at hstart
      cases hstart with
      | known hk _ =>
        rw [Scope.kind?, Scope.find?, hempty] at hk
        cases hk
  intro x hx
  obtain ⟨fs, hfs, hx⟩ := bind_eq_ok.mp hx
  obtain ⟨k, -, hx⟩ := bind_eq_ok.mp hx
  cases hx
  obtain ⟨f, fs, hf, -, rfl⟩ := forall₂_cons_left_iff.mp (mapM_eq_ok.mp hfs)
  obtain ⟨start, hstart, hf⟩ := bind_eq_ok.mp hf
  obtain ⟨hops, -, hf⟩ := bind_eq_ok.mp hf
  cases hf
  unfold matchNode at hstart
  rw [hbound] at hstart
  obtain ⟨filters, -, hstart⟩ := bind_eq_ok.mp hstart
  cases hstart
  exact ⟨_, rfl⟩

end LowerClause

theorem Resolve.BranchResolved.starts {scopes : ScopeTable} {cs : List Clause}
    (h : BranchResolved scopes cs (r :: rs)) (hcs : ∀ c ∈ cs, c.HasPatterns)
    (hmatch : startsWithMatch (r :: rs)) (env : Env) (current : Option String) :
    Gives (fun x => ∃ f, x.1 = .vertices :: f) (LowerClause.clause env r current) := by
  obtain ⟨id, hid, hchained, hclauses, -⟩ := h
  cases hchained
  obtain ⟨c, cs, hc, -, rfl⟩ := forall₂_cons_right_iff.mp hclauses
  have hpatterns := hcs c mem_cons_self
  unfold startsWithMatch at hmatch
  rw [head?_cons, Option.map_some] at hmatch
  cases hc with
  | create body | unwind body | project body => simp [body] at hmatch
  | @read r ws filter ps s s' body scopeIn scopeOut reads binds =>
    unfold LowerClause.clause
    rw [body]
    cases hid.symm.trans scopeIn
    refine read_starts rfl binds (fun hnil => hpatterns ?_) _ _ _
    rw [hnil] at reads
    exact forall₂_nil_left_iff.mp reads

theorem LowerClause.branch_concat {env : Env} (hf : branch env (rs ++ [r]) = .ok f) :
    ∃ front current k after, clausesTo env rs none = .ok (front, current) ∧
      clause env r current = .ok (k, after) ∧
      f = front ++ (k ++ if r.isCreate then [.barrier, .limit (.literal 0)] else []) := by
  obtain ⟨steps, hsteps, hf⟩ := bind_eq_ok.mp hf
  rw [clauses_append] at hsteps
  obtain ⟨⟨front, current⟩, hfront, hsteps⟩ := bind_eq_ok.mp hsteps
  obtain ⟨last, hlast, rfl⟩ := map_eq_ok.mp hsteps
  obtain ⟨⟨k, after⟩, hk, hlast⟩ := bind_eq_ok.mp hlast
  cases hlast
  refine ⟨front, current, k, after, hfront, hk, ?_⟩
  rw [getLast?_concat, Option.map_some] at hf
  unfold ResolvedClause.isCreate
  cases hbody : r.body
  case create =>
    rw [hbody] at hf
    cases hf
    rw [append_nil, append_assoc]
    rfl
  all_goals
    rw [hbody] at hf
    cases hf
    rw [append_nil]
    exact congrArg (front ++ ·) (append_nil k).symm

namespace ResolvedQuery

theorem joinBranches_append (q : ResolvedQuery) (f k : Traversal) :
    q.joinBranches [f ++ k] = q.joinBranches [f] ++ k := by
  unfold joinBranches
  dsimp only
  split <;> rfl

end ResolvedQuery

theorem Traversal.input_append (hf : f ≠ []) (k : Traversal) :
    Traversal.input (f ++ k) = f.input := by
  obtain ⟨s, f, rfl⟩ := exists_cons_of_ne_nil hf
  cases s <;> rfl

end CypherTraversal
