import CypherTraversal.Program
import CypherTraversal.Proofs.Expressions.Matched

/-! # Values of parameters do not show

Lowering looks at a parameter only to see whether it is null and, in SKIP and LIMIT, whether it
counts rows. -/

namespace CypherTraversal

variable {flavor : Flavor} {p p' : Program} {α β : Type} {P Q : Parameters} {x y : Except Error α}
  {f g : α → Except Error β}

/-- The same parameters are null. -/
def Parameters.SameNulls (P Q : Parameters) : Prop :=
  ∀ name, P.find? name = some .null ↔ Q.find? name = some .null

theorem Value.isNull_iff {v : Value} : v.isNull ↔ v = .null := by
  cases v with
  | scalar s => cases s <;> simp [isNull, Scalar.isNull]
  | list items | map entries => simp [isNull]

theorem Parameters.SameNulls.agrees (h : P.SameNulls Q) (scope : Scope) (current : Option String)
    (clause : String) : LoweringContext.Agrees (fun _ => true) ⟨scope, P, current, clause⟩
      ⟨scope, Q, current, clause⟩ where
  kind? _ _ := rfl
  current _ _ := .rfl
  isNull e := by
    have hany (ps : Parameters) (name : String) :
        (ps.find? name).any Value.isNull ↔ ps.find? name = some .null := by
      rw [Option.any_eq_true]
      constructor
      · rintro ⟨v, hv, hnull⟩
        rw [hv, Value.isNull_iff.mp hnull]
      · intro hnull
        exact ⟨.null, hnull, rfl⟩
    cases e with
    | param name =>
      exact Bool.eq_iff_iff.mpr ((hany P name).trans ((h name).trans (hany Q name).symm))
    | _ => rfl
  clause := rfl

/-! ### Clauses

Only the bounds of SKIP and LIMIT tell more than nulls, and only by failing. -/

def FailsOnRange (x : Except Error α) : Prop :=
  ∃ clause got, x = .error (.range clause got)

/-- Equal, unless one is refused for a SKIP or LIMIT that counts no rows. -/
def SameButRange (x y : Except Error α) : Prop :=
  x = y ∨ FailsOnRange x ∨ FailsOnRange y

namespace SameButRange

theorem of_eq (h : x = y) : SameButRange x y := .inl h

theorem bind (hxy : SameButRange x y) (hfg : ∀ a, SameButRange (f a) (g a)) :
    SameButRange (x >>= f) (y >>= g) := by
  obtain rfl | ⟨clause, got, rfl⟩ | ⟨clause, got, rfl⟩ := hxy
  · cases x with
    | error e => exact .inl rfl
    | ok a => exact hfg a
  · exact .inr (.inl ⟨clause, got, rfl⟩)
  · exact .inr (.inr ⟨clause, got, rfl⟩)

theorem mapM (hfg : ∀ a, SameButRange (f a) (g a)) (xs : List α) :
    SameButRange (xs.mapM f) (xs.mapM g) := by
  induction xs with
  | nil => exact of_eq rfl
  | cons x xs ih =>
    rw [List.mapM_cons, List.mapM_cons]
    exact (hfg x).bind fun _ => ih.bind fun _ => of_eq rfl

end SameButRange

namespace LowerClause

section Clauses

variable (h : P.SameNulls Q) (T : ScopeTable) (scope : Scope) (current : Option String)
  (clause : String)

include h

theorem lower_context (e : Expr) :
    e.lower (Env.context ⟨T, P⟩ scope current clause) =
      e.lower (Env.context ⟨T, Q⟩ scope current clause) :=
  Expr.lower_agrees (h.agrees scope current clause) e fun _ _ => rfl

theorem filterOf_context (e : Option Expr) :
    filterOf (Env.context ⟨T, P⟩ scope current clause) e =
      filterOf (Env.context ⟨T, Q⟩ scope current clause) e := by
  cases e with
  | none => rfl
  | some e => simp only [filterOf, lower_context h]

theorem constraints_context (element : String) (entries : List (String × Expr)) :
    constraints ⟨T, P⟩ scope element entries = constraints ⟨T, Q⟩ scope element entries := by
  have hcomparison (key : String) (v : Expr) :=
    congrArg Lowered.holds (lower_context h T scope (some element) "MATCH"
      (.binary (.access (.var element) key) (.compare .eq) v))
  simp only [Expr.lower, Lowered.ofBinary, Lowered.ofComparison, Lowered.ofConditions]
    at hcomparison
  simp only [constraints, Expr.lower, hcomparison]

theorem matchPattern_context (p : ResolvedPattern) :
    matchPattern ⟨T, P⟩ scope p = matchPattern ⟨T, Q⟩ scope p := by
  have hnode (n : ResolvedNode) (start : Bool) :
      matchNode ⟨T, P⟩ scope n start = matchNode ⟨T, Q⟩ scope n start := by
    simp only [matchNode, constraints_context h]
  have hhop : matchHop ⟨T, P⟩ scope = matchHop ⟨T, Q⟩ scope := by
    funext hop
    simp only [matchHop, matchRelationship, constraints_context h, hnode]
  simp only [matchPattern, hnode, hhop]

theorem create_context (scopeOut : ScopeId) (patterns : List ResolvedPattern)
    (current : Option String) :
    create ⟨T, P⟩ scopeOut patterns current = create ⟨T, Q⟩ scopeOut patterns current := by
  have hnode (n : ResolvedNode) (scope : Scope) :
      createNode (Env.context ⟨T, P⟩ scope none "CREATE") n =
        createNode (Env.context ⟨T, Q⟩ scope none "CREATE") n := by
    simp only [createNode, newProperties, lower_context h]
  have hhops (scope : Scope) (previous : String)
      (hops : List (ResolvedRelationship × ResolvedNode)) :
      createHops (Env.context ⟨T, P⟩ scope none "CREATE") previous hops =
        createHops (Env.context ⟨T, Q⟩ scope none "CREATE") previous hops := by
    induction hops generalizing previous with
    | nil => rfl
    | cons hop hops ih =>
      simp only [createHops, createHop, newProperties, hnode, lower_context h, ih]
  simp only [create, hnode, hhops]

theorem argumentValue_context (v : ItemValue) :
    argumentValue (Env.context ⟨T, P⟩ scope current clause) v =
      argumentValue (Env.context ⟨T, Q⟩ scope current clause) v := by
  cases v <;> simp only [argumentValue, lower_context h]

theorem projectedRows_context (p : ResolvedProjection) :
    projectedRows (Env.context ⟨T, P⟩ scope current clause) p =
      projectedRows (Env.context ⟨T, Q⟩ scope current clause) p := by
  simp only [projectedRows, aggregateRows, argumentRows, plainRows, argumentValue_context h]

theorem orderRows_context (order : List ResolvedOrder) :
    orderRows (Env.context ⟨T, P⟩ scope none clause) order =
      orderRows (Env.context ⟨T, Q⟩ scope none clause) order := by
  have hkey : orderKey (Env.context ⟨T, P⟩ scope none clause) =
      orderKey (Env.context ⟨T, Q⟩ scope none clause) := by
    funext o
    simp only [orderKey, lower_context h]
  simp only [orderRows, hkey]

end Clauses

section Windows

variable (T : ScopeTable)

theorem bound_sameButRange (keyword : String) (e : Expr) :
    SameButRange (bound ⟨T, P⟩ keyword e) (bound ⟨T, Q⟩ keyword e) := by
  cases e with
  | param name =>
    obtain ⟨hP, -⟩ | ⟨got, hP⟩ := bound_param ⟨T, P⟩ keyword name
    · obtain ⟨hQ, -⟩ | ⟨got, hQ⟩ := bound_param ⟨T, Q⟩ keyword name
      · exact .inl (hP.trans hQ.symm)
      · exact .inr (.inr ⟨keyword, got, hQ⟩)
    · exact .inr (.inl ⟨keyword, got, hP⟩)
  | _ => exact .inl rfl

theorem window_sameButRange (keyword : String) (step : Bound → Step) (e : Option Expr) :
    SameButRange (window ⟨T, P⟩ keyword step e) (window ⟨T, Q⟩ keyword step e) := by
  cases e with
  | none => exact .inl rfl
  | some e => exact (bound_sameButRange T keyword e).bind fun _ => .inl rfl

end Windows

section Queries

variable (h : P.SameNulls Q) (T : ScopeTable)

include h

theorem project_sameButRange (scopeIn scopeOut : ScopeId) (p : ResolvedProjection)
    (current : Option String) : SameButRange (project ⟨T, P⟩ scopeIn scopeOut p current)
      (project ⟨T, Q⟩ scopeIn scopeOut p current) := by
  rw [project_eq, project_eq]
  refine (SameButRange.of_eq (projectedRows_context h T _ current _ p)).bind fun rows => ?_
  have hkept : SameButRange (keptRows ⟨T, P⟩ p) (keptRows ⟨T, Q⟩ p) :=
    (SameButRange.of_eq (orderRows_context h T _ _ p.order)).bind fun _ =>
      (window_sameButRange T "SKIP" .skip p.skip).bind fun _ =>
        (window_sameButRange T "LIMIT" .limit p.limit).bind fun _ => .inl rfl
  refine hkept.bind fun kept => ?_
  cases p.final with
  | true => exact .inl rfl
  | false =>
    exact (SameButRange.of_eq (filterOf_context h T _ none "WITH" p.filter)).bind fun _ => .inl rfl

theorem clause_sameButRange (r : ResolvedClause) (current : Option String) :
    SameButRange (clause ⟨T, P⟩ r current) (clause ⟨T, Q⟩ r current) := by
  unfold clause
  cases r.body with
  | read patterns filter =>
    refine .of_eq ?_
    have hpatterns (scope : Scope) : matchPattern ⟨T, P⟩ scope = matchPattern ⟨T, Q⟩ scope :=
      funext (matchPattern_context h T scope)
    simp only [read, hpatterns, filterOf_context h]
  | project p => exact project_sameButRange h T _ _ p current
  | unwind e var => exact .of_eq (by simp only [unwind, lower_context h])
  | create patterns => exact .of_eq (create_context h T _ patterns current)

theorem clauses_sameButRange (rs : List ResolvedClause) (current : Option String) :
    SameButRange (clauses ⟨T, P⟩ rs current) (clauses ⟨T, Q⟩ rs current) := by
  induction rs generalizing current with
  | nil => exact .inl rfl
  | cons r rs ih =>
    exact (clause_sameButRange h T r current).bind fun (_, after) =>
      (ih after).bind fun _ => .inl rfl

theorem branch_sameButRange (rs : List ResolvedClause) :
    SameButRange (branch ⟨T, P⟩ rs) (branch ⟨T, Q⟩ rs) :=
  (clauses_sameButRange h T rs none).bind fun _ => .inl rfl

end Queries

end LowerClause

theorem ResolvedQuery.lower_sameButRange (h : P.SameNulls Q) (q : ResolvedQuery) :
    SameButRange (q.lower P) (q.lower Q) := by
  refine SameButRange.bind (.inl rfl) fun _ => ?_
  exact (SameButRange.mapM (LowerClause.branch_sameButRange h q.scopes) q.branches).bind
    fun _ => .inl rfl

/-! ### Programs -/

/-- What a program shows: its body and columns. -/
def Program.rendered (p : Program) : ProgramBody × List String :=
  (p.body, p.columns)

theorem LoweredQuery.emit_rendered (hkeys : P.keys = Q.keys) (q : LoweredQuery) (flavor : Flavor) :
    Program.rendered <$> q.emit flavor P = Program.rendered <$> q.emit flavor Q := by
  have hnames : q.checkNames flavor P = q.checkNames flavor Q := by
    unfold checkNames
    rw [hkeys]
  cases flavor with
  | native => rfl
  | gremlin =>
    simp only [emit, hnames]
    cases q.checkNames .gremlin Q <;> rfl
  | cosmosdb =>
    simp only [emit, hnames]
    cases q.checkNames .cosmosdb Q with
    | error e => rfl
    | ok _ => cases q.traversal.restrict <;> rfl

theorem LoweredQuery.rendered_eq {q : LoweredQuery}
    (hp : q.emit flavor P = .ok p) (hp' : q.emit flavor Q = .ok p') :
    p.rendered = p'.rendered := by
  cases flavor with
  | native =>
    cases hp
    cases hp'
    rfl
  | gremlin =>
    obtain ⟨_, -, hp⟩ := bind_eq_ok.mp hp
    obtain ⟨_, -, hp'⟩ := bind_eq_ok.mp hp'
    cases hp
    cases hp'
    rfl
  | cosmosdb =>
    obtain ⟨_, -, hp⟩ := bind_eq_ok.mp hp
    obtain ⟨_, -, hp'⟩ := bind_eq_ok.mp hp'
    obtain ⟨t, -, hp, hp'⟩ := bind_both hp hp'
    cases hp
    cases hp'
    rfl

theorem compile_rendered_eq (h : P.SameNulls Q) {text : String}
    (hp : compile flavor text P = .ok p) (hp' : compile flavor text Q = .ok p') :
    p.rendered = p'.rendered := by
  obtain ⟨parsed, hparse, hp, hp'⟩ := bind_both hp hp'
  obtain ⟨resolved, hresolve, hp, hp'⟩ := bind_both hp hp'
  obtain ⟨lowered, hlower, hp⟩ := bind_eq_ok.mp hp
  obtain ⟨lowered', hlower', hp'⟩ := bind_eq_ok.mp hp'
  obtain heq | ⟨_, _, hrange⟩ | ⟨_, _, hrange⟩ := resolved.lower_sameButRange h
  · cases hlower.symm.trans (heq.trans hlower')
    exact LoweredQuery.rendered_eq hp hp'
  · cases hlower.symm.trans hrange
  · cases hlower'.symm.trans hrange

theorem compile_sameButRange (h : P.SameNulls Q) (hkeys : P.keys = Q.keys) (flavor : Flavor)
    (text : String) : SameButRange (Program.rendered <$> compile flavor text P)
      (Program.rendered <$> compile flavor text Q) := by
  unfold compile Query.compile
  simp only [map_bind]
  refine SameButRange.bind (.inl rfl) fun parsed => SameButRange.bind (.inl rfl) fun resolved => ?_
  exact (resolved.lower_sameButRange h).bind fun q => .inl (q.emit_rendered hkeys flavor)

/-- **Values of parameters are never written down.** A resolved query is lowered to the same
traversal, or refused for the same reason, with any two sets of parameters that have the same
nulls, unless a value of one of them does not count rows. So two programs of one text, in any
flavor, have the same script and columns; and if the sets hold the same names, then a text that is
refused with one of them is refused with the other. -/
theorem parameter_values_do_not_show (h : P.SameNulls Q) :
    (∀ q : ResolvedQuery, q.lower P = q.lower Q ∨
      (∃ clause got, q.lower P = .error (.range clause got)) ∨
      ∃ clause got, q.lower Q = .error (.range clause got)) ∧
    ∀ (flavor : Flavor) (text : String),
      (∀ p p', compile flavor text P = .ok p → compile flavor text Q = .ok p' →
        p.text? = p'.text? ∧ p.rendered = p'.rendered) ∧
      (P.keys = Q.keys → SameButRange (Program.rendered <$> compile flavor text P)
        (Program.rendered <$> compile flavor text Q)) := by
  refine ⟨fun q => q.lower_sameButRange h, fun flavor text => ⟨fun p p' hp hp' => ?_,
    fun hkeys => compile_sameButRange h hkeys flavor text⟩⟩
  have hrendered := compile_rendered_eq h hp hp'
  obtain ⟨hbody, -⟩ := Prod.mk.inj hrendered
  exact ⟨by rw [Program.text?, Program.text?, hbody], hrendered⟩

theorem number_and_text_do_not_show :
    ∃ P Q : Parameters, P.SameNulls Q ∧ P.find? "n" = some (.int 5) ∧
      P.find? "z" = some .null ∧ Q.find? "n" = some (.str "a") ∧
      ∃ p p' text, compile .gremlin "MATCH (v) WHERE v.age > $n OR v.name = $z RETURN v.name" P =
          .ok p ∧
        compile .gremlin "MATCH (v) WHERE v.age > $n OR v.name = $z RETURN v.name" Q = .ok p' ∧
        p.text? = some text ∧ p'.text? = some text := by
  have hnulls : Parameters.SameNulls [("n", .int 5), ("z", .null)]
      [("n", .str "a"), ("z", .null)] := by
    intro name
    simp only [Entries.find?]
    split <;> simp
  let query := "MATCH (v) WHERE v.age > $n OR v.name = $z RETURN v.name"
  obtain ⟨p, hp, text, htext, -⟩ : ∃ p, compile .gremlin query [("n", .int 5), ("z", .null)] =
    .ok p ∧ ∃ text, p.text? = some text ∧ True := by decide +kernel
  obtain ⟨p', hp'⟩ := exists_ok_of_isOk
    (show (compile .gremlin query [("n", .str "a"), ("z", .null)]).isOk by decide +kernel)
  have hsame := (((parameter_values_do_not_show hnulls).2 .gremlin _).1 p p' hp hp').1
  exact ⟨_, _, hnulls, rfl, rfl, rfl, p, p', text, hp, hp', htext, hsame ▸ htext⟩

end CypherTraversal
