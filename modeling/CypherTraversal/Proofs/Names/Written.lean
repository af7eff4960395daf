import CypherTraversal.Proofs.Query.Layout
import CypherTraversal.Proofs.Relabelled.Names

/-! # Variables and aliases that a query writes

All of them, in every place: in patterns, in expressions at any depth, after AS and in clauses that
have no traversal. Each is the name of a token, so it passes every test that the names of the tokens
pass. -/

namespace CypherTraversal

open Text Lexer List

/-! ### Variables -/

namespace Expr

mutual

def vars : Expr → List String
  | var x => [x]
  | access base _ => vars base
  | binary l _ r => vars l ++ vars r
  | unary _ e => vars e
  | call _ args _ => listVars args
  | list items => listVars items
  | map entries => entryVars entries
  | caseOf operand whens otherwise =>
    optionVars operand ++ (whenVars whens ++ optionVars otherwise)
  | pattern ⟨path, elements⟩ => path.toList ++ elementVars elements
  | comprehension x source filter result =>
    x :: (vars source ++ (optionVars filter ++ optionVars result))
  | literal _ | param _ | star => []

def listVars : List Expr → List String
  | [] => []
  | e :: es => vars e ++ listVars es

def entryVars : List (String × Expr) → List String
  | [] => []
  | (_, e) :: es => vars e ++ entryVars es

def optionVars : Option Expr → List String
  | none => []
  | some e => vars e

def whenVars : List (Expr × Expr) → List String
  | [] => []
  | (w, t) :: ws => vars w ++ (vars t ++ whenVars ws)

def elementVars : List (PatternElement Expr) → List String
  | [] => []
  | .node x? _ properties :: es => x?.toList ++ (propertyVars properties ++ elementVars es)
  | .relationship x? _ _ properties _ :: es =>
    x?.toList ++ (propertyVars properties ++ elementVars es)

def propertyVars : Option (List (String × Expr)) → List String
  | none => []
  | some entries => entryVars entries

end

end Expr

def Pattern.vars (p : Pattern Expr) : List String :=
  (Expr.pattern p).vars

def SetItem.vars : SetItem → List String
  | property x _ value => x :: value.vars
  | labels x _ => [x]
  | all x value => x :: value.vars

def Projection.written (w : Projection) : List String :=
  w.items.flatMap (fun i => i.expr.vars ++ i.asName.toList) ++
    (w.order.flatMap (fun o => o.expr.vars) ++ (Expr.optionVars w.skip ++
      (Expr.optionVars w.limit ++ Expr.optionVars w.filter)))

def Clause.written : Clause → List String
  | read _ ps filter => ps.flatMap Pattern.vars ++ Expr.optionVars filter
  | project _ w => w.written
  | unwind e x => e.vars ++ [x]
  | create ps => ps.flatMap Pattern.vars
  | delete _ targets => targets.flatMap Expr.vars
  | set items => items.flatMap SetItem.vars

/-- The variables and aliases that the text of a query writes. -/
def Query.written (q : Query) : List String :=
  q.singles.flatten.flatMap Clause.written

/-! ### Variables that pass a test -/

section Passing

variable {T : PlacedToken → Prop} {ok : String → Prop}

namespace Expr

theorem forall_mem_toList {x? : Option String} (h : ∀ x ∈ x?, ok x) : ∀ x ∈ x?.toList, ok x :=
  fun x hx => h x (Option.mem_toList.mp hx)

theorem forall_listVars {es : List Expr} (h : ∀ e ∈ es, ∀ x ∈ e.vars, ok x) :
    ∀ x ∈ listVars es, ok x := by
  rw [eq_flatMap (F := listVars) rfl fun _ _ => rfl]
  exact forall_mem_flatMap.mpr h

theorem forall_entryVars {es : List (String × Expr)}
    (h : ∀ p ∈ es, ∀ x ∈ p.2.vars, ok x) : ∀ x ∈ entryVars es, ok x := by
  rw [eq_flatMap (F := entryVars) rfl fun _ _ => rfl]
  exact forall_mem_flatMap.mpr h

theorem forall_optionVars {e? : Option Expr} (h : ∀ e ∈ e?, ∀ x ∈ e.vars, ok x) :
    ∀ x ∈ optionVars e?, ok x := by
  cases e? with
  | none => exact forall_mem_nil _
  | some e => exact h e rfl

theorem forall_whenVars {ws : List (Expr × Expr)}
    (h : ∀ w ∈ ws, (∀ x ∈ w.1.vars, ok x) ∧ ∀ x ∈ w.2.vars, ok x) :
    ∀ x ∈ whenVars ws, ok x := by
  rw [eq_flatMap (F := whenVars) rfl fun _ _ => (append_assoc ..).symm]
  exact forall_mem_flatMap.mpr fun w hw => forall_mem_append.mpr (h w hw)

theorem forall_elementVars (hname : ∀ x, NameIn T x → ok x) {es : List (PatternElement Expr)}
    (hes : ∀ e ∈ es, e.Built T fun _ => True)
    (h : ∀ e ∈ es, ∀ ps ∈ e.properties?, ∀ p ∈ ps, ∀ x ∈ p.2.vars, ok x) :
    ∀ x ∈ elementVars es, ok x := by
  induction es with
  | nil => exact forall_mem_nil _
  | cons e es ih =>
    obtain ⟨he, hrest⟩ := forall_mem_cons.mp hes
    obtain ⟨hproperties, hmore⟩ := forall_mem_cons.mp h
    have hvars {ps? : Option (List (String × Expr))}
        (h : ∀ ps ∈ ps?, ∀ p ∈ ps, ∀ x ∈ p.2.vars, ok x) : ∀ x ∈ propertyVars ps?, ok x := by
      cases ps? with
      | none => exact forall_mem_nil _
      | some ps => exact forall_entryVars (h ps rfl)
    cases e with
    | node | relationship =>
      exact forall_mem_append.mpr ⟨forall_mem_toList fun x hx => hname x (he.1 x hx),
        forall_mem_append.mpr ⟨hvars hproperties, ih hrest hmore⟩⟩

theorem Formed.forall_vars (hname : ∀ x, NameIn T x → ok x) {e : Expr} (h : e.Formed T) :
    ∀ x ∈ e.vars, ok x := by
  induction h with
  | literal | negated | param | callStar | callNone => exact forall_mem_nil _
  | var hx => exact forall_mem_singleton.mpr (hname _ hx)
  | access _ _ ih | unary _ _ ih => exact ih
  | binary _ _ _ ihl ihr => exact forall_mem_append.mpr ⟨ihl, ihr⟩
  | call _ _ _ _ ih | list _ ih => exact forall_listVars ih
  | map _ _ ih => exact forall_entryVars ih
  | caseOf _ _ _ _ _ ihoperand ihwhens ihthens ihotherwise =>
    exact forall_mem_append.mpr ⟨forall_optionVars ihoperand, forall_mem_append.mpr
      ⟨forall_whenVars fun w hw => ⟨ihwhens w hw, ihthens w hw⟩, forall_optionVars ihotherwise⟩⟩
  | pattern _ hp _ ih =>
    exact forall_mem_append.mpr ⟨forall_mem_toList fun x hx => hname x (hp.path x hx),
      forall_elementVars hname hp.elements ih⟩
  | comprehension hx _ _ _ ihsource ihfilter ihresult =>
    exact forall_mem_cons.mpr ⟨hname _ hx, forall_mem_append.mpr ⟨ihsource,
      forall_mem_append.mpr ⟨forall_optionVars ihfilter, forall_optionVars ihresult⟩⟩⟩

end Expr

open CypherTraversal.Expr

section Clauses

variable (hname : ∀ x, NameIn T x → ok x)

include hname

theorem Pattern.forall_vars {p : Pattern Expr} (hp : p.Formed T) : ∀ x ∈ p.vars, ok x := by
  refine forall_mem_append.mpr ⟨forall_mem_toList fun x hx => hname x (hp.path x hx), ?_⟩
  exact forall_elementVars hname (fun e he => (hp.elements e he).names) fun e he ps hps p hp' =>
    ((hp.elements e he).properties ps hps p hp').2.forall_vars hname

theorem forall_optionFormed {e? : Option Expr} (h : ∀ e ∈ e?, e.Formed T) :
    ∀ x ∈ optionVars e?, ok x :=
  forall_optionVars fun e he => (h e he).forall_vars hname

theorem Projection.forall_written (hkey : ∀ x, KeyIn T x → ok x) {w : Projection}
    (hw : w.Formed T) : ∀ x ∈ w.written, ok x := by
  refine forall_mem_append.mpr ⟨forall_mem_flatMap.mpr fun i hi => ?_, forall_mem_append.mpr
    ⟨forall_mem_flatMap.mpr fun o ho => (hw.order o ho).forall_vars hname,
      forall_mem_append.mpr ⟨forall_optionFormed hname hw.skip, forall_mem_append.mpr
        ⟨forall_optionFormed hname hw.limit, forall_optionFormed hname hw.filter⟩⟩⟩⟩
  obtain ⟨hexpr, halias⟩ := hw.items i hi
  refine forall_mem_append.mpr ⟨?_, forall_mem_toList fun x hx => hkey x (halias x hx)⟩
  obtain ⟨hstar, -⟩ | hexpr := hexpr
  · rw [hstar]
    exact forall_mem_nil _
  · exact hexpr.forall_vars hname

theorem Clause.forall_written (hkey : ∀ x, KeyIn T x → ok x) {c : Clause} (hc : c.Formed T) :
    ∀ x ∈ c.written, ok x := by
  cases c with
  | read optional ps filter =>
    exact forall_mem_append.mpr ⟨forall_mem_flatMap.mpr fun p hp =>
      Pattern.forall_vars hname (hc.1 p hp), forall_optionFormed hname hc.2⟩
  | project final w => exact Projection.forall_written hname hkey hc
  | unwind e x =>
    exact forall_mem_append.mpr ⟨hc.1.forall_vars hname, forall_mem_singleton.mpr (hname x hc.2)⟩
  | create ps => exact forall_mem_flatMap.mpr fun p hp => Pattern.forall_vars hname (hc p hp)
  | delete detach targets =>
    exact forall_mem_flatMap.mpr fun e he => (hc e he).forall_vars hname
  | set items =>
    refine forall_mem_flatMap.mpr fun i hi => ?_
    have hi := hc i hi
    cases i with
    | property x key value =>
      exact forall_mem_cons.mpr ⟨hname x hi.1, hi.2.2.forall_vars hname⟩
    | labels x ls => exact forall_mem_singleton.mpr (hname x hi.1)
    | all x value => exact forall_mem_cons.mpr ⟨hname x hi.1, hi.2.forall_vars hname⟩

end Clauses

end Passing

/-! ### Names that are not generated -/

def Token.quoted? : Token → Option String
  | quotedIdentifier x => some x
  | _ => none

/-- No name between backquotes starts with the two blanks of generated names. -/
def QuotesNoneGenerated (tokens : List PlacedToken) : Prop :=
  ∀ t ∈ tokens, ∀ x ∈ t.token.quoted?, isGenerated x = false

instance (tokens : List PlacedToken) : Decidable (QuotesNoneGenerated tokens) :=
  inferInstanceAs (Decidable (∀ t ∈ tokens, ∀ x ∈ t.token.quoted?, isGenerated x = false))

theorem isGenerated_of_isWord {s : String} (h : isWord s) : isGenerated s = false := by
  refine isGenerated_of_startsVisibly ?_
  unfold isWord at h
  unfold startsVisibly
  cases hchars : s.toList with
  | nil => rw [hchars] at h; cases h
  | cons c cs =>
    rw [hchars] at h
    refine bne_iff_ne.mpr ?_
    rintro rfl
    exact absurd (Bool.and_eq_true_iff.mp h).1 (by decide)

theorem Query.written_not_generated {text : String} {tokens : List PlacedToken} {q : Query}
    (htokens : tokenize text = .ok tokens) (hquoted : QuotesNoneGenerated tokens)
    (hq : Query.parse text = .ok q) : ∀ x ∈ q.written, isGenerated x = false := by
  obtain ⟨_, htokens', hformed⟩ := Query.clauses_formed hq
  rw [htokens] at htokens'
  cases htokens'
  have hname : ∀ x, NameIn (· ∈ tokens) x → isGenerated x = false := by
    rintro x ⟨t, ht, htoken | htoken⟩
    · have hisWord := (walk_of_tokensFrom htokens).words t ht
      rw [htoken] at hisWord
      exact isGenerated_of_isWord hisWord
    · exact hquoted t ht x (congrArg Token.quoted? htoken)
  have hkey : ∀ x, KeyIn (· ∈ tokens) x → isGenerated x = false := by
    rintro x (hx | ⟨t, k, ht, htoken, rfl⟩)
    · exact hname x hx
    · have hisWord := (walk_of_tokensFrom htokens).words t ht
      rw [htoken] at hisWord
      exact isGenerated_of_isWord hisWord
  refine forall_mem_flatMap.mpr fun c hc => ?_
  obtain ⟨cs, hcs, hc⟩ := mem_flatten.mp hc
  exact Clause.forall_written hname hkey (hformed (· ∈ tokens) (fun t ht => ht) cs hcs c hc)

end CypherTraversal
