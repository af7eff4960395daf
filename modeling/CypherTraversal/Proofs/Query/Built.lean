import CypherTraversal.Proofs.Answers
import CypherTraversal.Query.Parser

/-! # What parsed queries are built from

Every expression that is read is formed from its parts by a rule of the grammar. The rules also say
where names come from: each of them is that of a token, and where keywords are names it may be the
text of a keyword. -/

namespace CypherTraversal

open List

/-! ### Shapes -/

namespace PatternElement

def IsNode {ε : Type} (e : PatternElement ε) : Prop :=
  ∃ var labels properties, e = .node var labels properties

def IsRelationship {ε : Type} (e : PatternElement ε) : Prop :=
  ∃ var types direction properties length, e = .relationship var types direction properties length

end PatternElement

inductive PatternHops {ε : Type} : List (PatternElement ε) → Prop
  | nil : PatternHops []
  | cons {r n : PatternElement ε} {rest : List (PatternElement ε)} (hr : r.IsRelationship)
      (hn : n.IsNode) (hrest : PatternHops rest) : PatternHops (r :: n :: rest)

/-- Nodes with one relationship between each two. -/
def Pattern.Alternates {ε : Type} (p : Pattern ε) : Prop :=
  ∃ n rest, p.elements = n :: rest ∧ n.IsNode ∧ PatternHops rest

def Clause.patterns : Clause → List (Pattern Expr)
  | .read _ ps _ => ps
  | .create ps => ps
  | _ => []

def Clause.HasPatterns : Clause → Prop
  | .read _ ps _ => ps ≠ []
  | .create ps => ps ≠ []
  | _ => True

/-- The single queries of a union, the first one in front. -/
def Query.singles (q : Query) : List (List Clause) :=
  q.clauses :: q.union.map UnionPart.clauses

structure Parser.ClauseAlternates (c : Clause) : Prop where
  alternates : ∀ p ∈ c.patterns, p.Alternates
  hasPatterns : c.HasPatterns

variable {e : Expr} {q : Query} {text : String} {t : Token}

theorem forall_mem_none {α : Type} {P : α → Prop} : ∀ a ∈ (none : Option α), P a := by
  rintro _ ⟨⟩

theorem forall_mem_some {α : Type} {P : α → Prop} {a : α} (h : P a) : ∀ b ∈ some a, P b := by
  rintro _ ⟨⟩
  exact h

/-! ### Names of tokens -/

section Names

variable (T : PlacedToken → Prop)

def NameIn (x : String) : Prop :=
  ∃ t, T t ∧ (t.token = .identifier x ∨ t.token = .quotedIdentifier x)

def KeyIn (x : String) : Prop :=
  NameIn T x ∨ ∃ t k, T t ∧ t.token = .keyword k ∧ t.text = x

def FrontIn (next : Option Token) : Prop :=
  ∀ k, next = some k → ∃ t, T t ∧ t.token = k

end Names

/-! ### What a parser reads -/

namespace Parser

variable {α β : Type} {T : PlacedToken → Prop} {p : Parser α} {Q R : α → Prop}

def Reads (T : PlacedToken → Prop) (Q : α → Prop) (p : Parser α) : Prop :=
  ∀ tokens a rest, (∀ t ∈ tokens, T t) → p tokens = .ok (a, rest) → Q a ∧ ∀ t ∈ rest, T t

namespace Reads

theorem pure {a : α} (h : Q a) : (Pure.pure a : Parser α).Reads T Q := by
  rintro _ _ _ htokens ⟨⟩
  exact ⟨h, htokens⟩

theorem fail (what : String) : (Parser.fail what : Parser α).Reads T Q := by
  rintro _ _ _ _ ⟨⟩

theorem bind {f : α → Parser β} {R : β → Prop} (hp : p.Reads T Q)
    (hf : ∀ a, Q a → (f a).Reads T R) : (p >>= f).Reads T R := by
  intro tokens b rest htokens h
  obtain ⟨⟨a, tokens'⟩, ha, h⟩ := bind_eq_ok.mp h
  obtain ⟨hQ, htokens'⟩ := hp tokens a tokens' htokens ha
  exact hf a hQ tokens' b rest htokens' h

theorem map {f : α → β} {R : β → Prop} (hp : p.Reads T Q) (hf : ∀ a, Q a → R (f a)) :
    (f <$> p).Reads T R :=
  hp.bind fun a ha => pure (hf a ha)

theorem ite {c : Prop} [Decidable c] {q : Parser α} (hp : p.Reads T Q) (hq : q.Reads T Q) :
    (if c then p else q).Reads T Q := by
  split
  · exact hp
  · exact hq

theorem mono (hp : p.Reads T Q) (h : ∀ a, Q a → R a) : p.Reads T R :=
  fun tokens a rest htokens hrun => (hp tokens a rest htokens hrun).imp_left (h a)

theorem fuelled {p : Nat → Parser α} (hp : ∀ n, (p n).Reads T Q) :
    (Parser.fuelled p).Reads T Q :=
  fun tokens a rest htokens h => hp _ tokens a rest htokens h

end Reads

def ReadsBehind (next : Option Token) (T : PlacedToken → Prop) (Q : α → Prop) (p : Parser α) :
    Prop :=
  ∀ tokens a rest, tokens.head?.map PlacedToken.token = next → (∀ t ∈ tokens, T t) →
    p tokens = .ok (a, rest) → Q a ∧ ∀ t ∈ rest, T t

theorem ReadsBehind.of_reads {next : Option Token} (hp : p.Reads T Q) : p.ReadsBehind next T Q :=
  fun tokens a rest _ => hp tokens a rest

/-! ### Single tokens -/

theorem peek_reads : peek.Reads T (FrontIn T) := by
  rintro tokens _ _ htokens ⟨⟩
  refine ⟨fun k hk => ?_, htokens⟩
  obtain ⟨t, ht, rfl⟩ := Option.map_eq_some_iff.mp hk
  exact ⟨t, htokens t (mem_of_head? ht), rfl⟩

theorem peek_bind_reads {f : Option Token → Parser α}
    (hf : ∀ next, FrontIn T next → (f next).ReadsBehind next T Q) : (peek >>= f).Reads T Q :=
  fun tokens a rest htokens h =>
    hf _ (peek_reads tokens _ _ htokens rfl).1 tokens a rest rfl htokens h

theorem peekSecond_reads : peekSecond.Reads T fun _ => True := by
  rintro tokens _ _ htokens ⟨⟩
  exact ⟨trivial, htokens⟩

theorem advance_reads : advance.Reads T fun _ => True := by
  rintro tokens _ _ htokens ⟨⟩
  exact ⟨trivial, fun t ht => htokens t (mem_of_mem_tail ht)⟩

theorem check_reads (t : Token) : (check t).Reads T fun _ => True :=
  peek_reads.bind fun _ _ => .pure trivial

theorem eat_reads (t : Token) : (eat t).Reads T fun _ => True :=
  (check_reads t).bind fun _ _ =>
    .ite (advance_reads.bind fun _ _ => .pure trivial) (.pure trivial)

theorem expect_reads (t : Token) (what : String) : (expect t what).Reads T fun _ => True :=
  (eat_reads t).bind fun _ _ => .ite (.pure trivial) (.fail what)

theorem Reads.advance (hp : p.Reads T Q) : (Parser.advance >>= fun _ => p).Reads T Q :=
  advance_reads.bind fun _ _ => hp

theorem Reads.eat {f : Bool → Parser α} (hf : ∀ b, (f b).Reads T Q) :
    (Parser.eat t >>= f).Reads T Q :=
  (eat_reads t).bind fun b _ => hf b

theorem Reads.eatOr {q : Parser α} (hp : p.Reads T Q) (hq : q.Reads T Q) :
    (Parser.eat t >>= fun b => if b then p else q).Reads T Q :=
  .eat fun _ => .ite hp hq

theorem Reads.expect {what : String} (hp : p.Reads T Q) :
    (Parser.expect t what >>= fun _ => p).Reads T Q :=
  (expect_reads t what).bind fun _ _ => hp

theorem name_reads : name.Reads T (KeyIn T) := by
  intro tokens x rest htokens h
  unfold name at h
  split at h
  · cases h
    obtain ⟨ht, hrest⟩ := forall_mem_cons.mp htokens
    exact ⟨.inl ⟨_, ht, .inl rfl⟩, hrest⟩
  · cases h
    obtain ⟨ht, hrest⟩ := forall_mem_cons.mp htokens
    exact ⟨.inl ⟨_, ht, .inr rfl⟩, hrest⟩
  · cases h
    obtain ⟨ht, hrest⟩ := forall_mem_cons.mp htokens
    exact ⟨.inr ⟨_, _, ht, rfl, rfl⟩, hrest⟩
  · cases h

theorem varName?_reads : varName?.Reads T fun x? => ∀ x ∈ x?, NameIn T x := by
  intro tokens x? rest htokens h
  unfold varName? at h
  split at h
  · cases h
    obtain ⟨ht, hrest⟩ := forall_mem_cons.mp htokens
    exact ⟨forall_mem_some ⟨_, ht, .inl rfl⟩, hrest⟩
  · cases h
    obtain ⟨ht, hrest⟩ := forall_mem_cons.mp htokens
    exact ⟨forall_mem_some ⟨_, ht, .inr rfl⟩, hrest⟩
  · cases h
    exact ⟨forall_mem_none, htokens⟩

theorem varName_reads : varName.Reads T (NameIn T) := by
  refine varName?_reads.bind fun x? hx => ?_
  cases x? with
  | some x => exact .pure (hx x rfl)
  | none => exact .fail _

theorem varBefore?_reads (t : Token) : (varBefore? t).Reads T fun x? => ∀ x ∈ x?, NameIn T x := by
  have hnone : (Pure.pure none : Parser (Option String)).Reads T fun x? => ∀ x ∈ x?, NameIn T x :=
    .pure forall_mem_none
  refine peekSecond_reads.bind fun _ _ => .ite (varName?_reads.bind fun x? hx => ?_) hnone
  cases x? with
  | some x => exact .advance (.pure hx)
  | none => exact hnone

/-! ### Lists of names -/

theorem labels_reads (n : Nat) : (labels n).Reads T fun ls => ∀ l ∈ ls, KeyIn T l := by
  induction n with
  | zero => exact .pure (forall_mem_nil _)
  | succ n ih =>
    exact .eatOr
      (name_reads.bind fun _ hl => ih.bind fun _ hls =>
        .pure (forall_mem_cons.mpr ⟨hl, hls⟩))
      (.pure (forall_mem_nil _))

theorem moreTypes_reads (n : Nat) : (moreTypes n).Reads T fun ls => ∀ l ∈ ls, KeyIn T l := by
  induction n with
  | zero => exact .pure (forall_mem_nil _)
  | succ n ih =>
    exact .eatOr
      (.eat fun _ => name_reads.bind fun _ hl => ih.bind fun _ hls =>
        .pure (forall_mem_cons.mpr ⟨hl, hls⟩))
      (.pure (forall_mem_nil _))

theorem types_reads (n : Nat) : (types n).Reads T fun ls => ∀ l ∈ ls, KeyIn T l :=
  .eatOr
    (name_reads.bind fun _ hl => (moreTypes_reads n).bind fun _ hls =>
      .pure (forall_mem_cons.mpr ⟨hl, hls⟩))
    (.pure (forall_mem_nil _))

/-! ### Lengths of paths -/

def IsBound (n : Option Nat) : Prop :=
  ∀ k ∈ n, k ≤ 0xffffffff

theorem lengthBound_reads : lengthBound.Reads T IsBound := by
  refine peek_reads.bind fun next _ => ?_
  split
  · split
    · rename_i hn
      exact .advance (.pure (forall_mem_some hn))
    · exact .fail _
  · exact .pure forall_mem_none

theorem pathLength_reads :
    pathLength.Reads T fun l? => ∀ l ∈ l?, IsBound l.min ∧ IsBound l.max := by
  refine .eatOr (lengthBound_reads.bind fun min hmin => .eat fun _ => ?_) (.pure forall_mem_none)
  have hlength {max : Option Nat} (hmax : IsBound max) :
      (Pure.pure (some { min, max }) : Parser (Option PathLength)).Reads T
        fun l? => ∀ l ∈ l?, IsBound l.min ∧ IsBound l.max :=
    .pure (forall_mem_some ⟨hmin, hmax⟩)
  split
  · exact lengthBound_reads.bind fun max hmax => hlength hmax
  · exact hlength hmin

end Parser

/-! ### Patterns -/

section Patterns

variable (T : PlacedToken → Prop) (P : Expr → Prop)

def EntriesBuilt (es : List (String × Expr)) : Prop :=
  ∀ p ∈ es, KeyIn T p.1 ∧ P p.2

def PatternElement.Built : PatternElement Expr → Prop
  | .node var labels properties =>
    (∀ x ∈ var, NameIn T x) ∧ (∀ l ∈ labels, KeyIn T l) ∧ ∀ es ∈ properties, EntriesBuilt T P es
  | .relationship var types _ properties length =>
    (∀ x ∈ var, NameIn T x) ∧ (∀ l ∈ types, KeyIn T l) ∧
      (∀ es ∈ properties, EntriesBuilt T P es) ∧
      ∀ l ∈ length, Parser.IsBound l.min ∧ Parser.IsBound l.max

structure Pattern.Built (p : Pattern Expr) : Prop where
  path : ∀ x ∈ p.path, NameIn T x
  alternates : p.Alternates
  elements : ∀ e ∈ p.elements, e.Built T P

end Patterns

def PatternElement.properties? {ε : Type} : PatternElement ε → Option (List (String × ε))
  | .node _ _ properties => properties
  | .relationship _ _ _ properties _ => properties

inductive Expr.Formed (T : PlacedToken → Prop) : Expr → Prop
  | literal {t : PlacedToken} {s : Scalar} (ht : T t) (hs : Parser.literal? t.token = some s) :
    Formed T (.literal s)
  | negated {t : PlacedToken} {s : Scalar} (ht : T t) (hs : Parser.negated? t.token = some s) :
    Formed T (.literal s)
  | var {x : String} (hx : NameIn T x) : Formed T (.var x)
  | param {t : PlacedToken} {x : String} (ht : T t) (hx : t.token = .parameter x) :
    Formed T (.param x)
  | access {e : Expr} {k : String} (he : Formed T e) (hk : KeyIn T k) : Formed T (.access e k)
  | binary {l r : Expr} (op : BinaryOp) (hl : Formed T l) (hr : Formed T r) :
    Formed T (.binary l op r)
  | unary {e : Expr} (op : UnaryOp) (he : Formed T e) : Formed T (.unary op e)
  | callStar {f : String} (hf : NameIn T f) : Formed T (.call f [.star] false)
  | callNone {f : String} (hf : NameIn T f) : Formed T (.call f [] false)
  | call {f : String} {args : List Expr} (distinct : Bool) (hf : NameIn T f) (hne : args ≠ [])
      (hargs : ∀ e ∈ args, Formed T e) : Formed T (.call f args distinct)
  | list {items : List Expr} (hitems : ∀ e ∈ items, Formed T e) : Formed T (.list items)
  | map {es : List (String × Expr)} (hkeys : ∀ p ∈ es, KeyIn T p.1)
      (hes : ∀ p ∈ es, Formed T p.2) : Formed T (.map es)
  | caseOf {operand otherwise : Option Expr} {whens : List (Expr × Expr)}
      (hoperand : ∀ e ∈ operand, Formed T e) (hne : whens ≠ [])
      (hwhens : ∀ w ∈ whens, Formed T w.1) (hthens : ∀ w ∈ whens, Formed T w.2)
      (hotherwise : ∀ e ∈ otherwise, Formed T e) : Formed T (.caseOf operand whens otherwise)
  | pattern {p : Pattern Expr} (hpath : p.path = none) (hp : p.Built T fun _ => True)
      (hproperties : ∀ e ∈ p.elements, ∀ es ∈ e.properties?, ∀ i ∈ es, Formed T i.2) :
    Formed T (.pattern p)
  | comprehension {x : String} {source : Expr} {filter result : Option Expr} (hx : NameIn T x)
      (hsource : Formed T source) (hfilter : ∀ e ∈ filter, Formed T e)
      (hresult : ∀ e ∈ result, Formed T e) : Formed T (.comprehension x source filter result)

section Patterns

variable {T : PlacedToken → Prop} {P : Expr → Prop}

theorem PatternElement.Built.names {e : PatternElement Expr} (h : e.Built T P) :
    e.Built T fun _ => True := by
  have hentries {es : List (String × Expr)} (hes : EntriesBuilt T P es) :
      EntriesBuilt T (fun _ => True) es := fun p hp => ⟨(hes p hp).1, trivial⟩
  cases e with
  | node => exact ⟨h.1, h.2.1, fun es hes => hentries (h.2.2 es hes)⟩
  | relationship => exact ⟨h.1, h.2.1, fun es hes => hentries (h.2.2.1 es hes), h.2.2.2⟩

theorem PatternElement.Built.properties {e : PatternElement Expr} (h : e.Built T P) :
    ∀ es ∈ e.properties?, EntriesBuilt T P es := by
  cases e with
  | node => exact h.2.2
  | relationship => exact h.2.2.1

end Patterns

abbrev EntriesFormed (T : PlacedToken → Prop) (es : List (String × Expr)) : Prop :=
  EntriesBuilt T (Expr.Formed T) es

abbrev PatternElement.Formed (T : PlacedToken → Prop) (e : PatternElement Expr) : Prop :=
  e.Built T (Expr.Formed T)

abbrev Pattern.Formed (T : PlacedToken → Prop) (p : Pattern Expr) : Prop :=
  p.Built T (Expr.Formed T)

/-! ### Expressions -/

namespace Parser

variable {T : PlacedToken → Prop} {n : Nat}

abbrev Forms (T : PlacedToken → Prop) (p : Parser Expr) : Prop :=
  p.Reads T (Expr.Formed T)

structure BuiltAt (T : PlacedToken → Prop) (n : Nat) : Prop where
  binary : ∀ level, (binary n level).Forms T
  operand : ∀ level, (operand n level).Forms T
  binaryRest : ∀ level e, e.Formed T → (binaryRest n level e).Forms T
  negation : (negation n).Forms T
  comparisons : ∀ chain e, (∀ c ∈ chain, c.Formed T) → e.Formed T → (comparisons n chain e).Forms T
  tested : (tested n).Forms T
  suffixes : ∀ e, e.Formed T → (suffixes n e).Forms T
  signed : (signed n).Forms T
  atom : (atom n).Forms T
  arguments : ∀ f, NameIn T f → (arguments n f).Forms T
  expressions : (expressions n).Reads T fun es => (∀ e ∈ es, e.Formed T) ∧ es ≠ []
  bracketed : (bracketed n).Forms T
  optional : ∀ t, (optional n t).Reads T fun e? => ∀ e ∈ e?, e.Formed T
  entries : (entries n).Reads T (EntriesFormed T)
  moreEntries : (moreEntries n).Reads T (EntriesFormed T)
  caseExpression : (caseExpression n).Forms T
  whens : (whens n).Reads T fun ws => ∀ w ∈ ws, w.1.Formed T ∧ w.2.Formed T
  patternFrom : (patternFrom n).Reads T (Pattern.Formed T)
  hops : (hops n).Reads T fun es => PatternHops es ∧ ∀ e ∈ es, e.Formed T
  node : (node n).Reads T fun e => e.IsNode ∧ e.Formed T
  properties : (properties n).Reads T fun es? => ∀ es ∈ es?, EntriesFormed T es
  relationship : (relationship n).Reads T fun e => e.IsRelationship ∧ e.Formed T
  relationshipDetail : ∀ arrow dash what,
    (relationshipDetail n arrow dash what).Reads T fun e => e.IsRelationship ∧ e.Formed T

theorem accesses_reads (n : Nat) : ∀ e, e.Formed T → (accesses n e).Forms T := by
  induction n with
  | zero => exact fun e he => .pure he
  | succ n ih =>
    exact fun e he => .eatOr (name_reads.bind fun _ hk => ih _ (.access he hk)) (.pure he)

theorem suffix?_reads : suffix?.Reads T fun _ => True := by
  refine peek_reads.bind fun next _ => ?_
  split
  · exact .advance (.expect (.pure trivial))
  · exact .advance (.expect (.pure trivial))
  · exact .advance (.pure trivial)
  · exact .advance (.pure trivial)
  · exact .advance (.eat fun _ => .expect (.pure trivial))
  · exact .pure trivial

theorem patternFrom_path {tokens rest : List PlacedToken} {p : Pattern Expr}
    (hfront : tokens.head?.map PlacedToken.token = some (.symbol .leftParen))
    (h : patternFrom n tokens = .ok (p, rest)) : p.path = none := by
  cases n with
  | zero => cases h
  | succ n =>
    obtain ⟨path, tokens₁, hpath, h⟩ := run_bind_eq_ok.mp h
    obtain ⟨first, tokens₂, -, h⟩ := run_bind_eq_ok.mp h
    obtain ⟨hops, tokens₃, -, h⟩ := run_bind_eq_ok.mp h
    cases h
    obtain ⟨t, ht, htoken⟩ := Option.map_eq_some_iff.mp hfront
    have hvar : varName? tokens = .ok (none, tokens) := by
      obtain ⟨rest, rfl⟩ := head?_eq_some_iff.mp ht
      obtain ⟨_, _⟩ := t
      cases htoken
      rfl
    obtain ⟨second, tokens₄, hsecond, hpath⟩ := run_bind_eq_ok.mp hpath
    cases hsecond
    split at hpath
    · obtain ⟨x?, tokens₅, hx, hpath⟩ := run_bind_eq_ok.mp hpath
      rw [hvar] at hx
      cases hx
      cases hpath
      rfl
    · cases hpath
      rfl

section Step

variable (ih : BuiltAt T n)

include ih

theorem binaryRest_reads (level : Level) (he : e.Formed T) :
    (binaryRest (n + 1) level e).Forms T := by
  refine peek_reads.bind fun next _ => ?_
  split
  · exact .advance ((ih.operand level).bind fun r hr =>
      ih.binaryRest level _ (.binary _ he hr))
  · exact .pure he

theorem operand_reads (level : Level) : (operand (n + 1) level).Forms T := by
  cases level with
  | or => exact ih.binary .xor
  | xor => exact ih.binary .and
  | and => exact ih.negation
  | sum => exact ih.binary .product
  | product => exact ih.binary .power
  | power => exact ih.signed

theorem negation_reads : (negation (n + 1)).Forms T :=
  .eatOr
    (ih.negation.bind fun _ he => .pure (.unary _ he))
    (ih.tested.bind fun _ he => ih.comparisons none _ forall_mem_none he)

theorem comparisons_reads {chain : Option Expr} (hchain : ∀ c ∈ chain, c.Formed T)
    (he : e.Formed T) : (comparisons (n + 1) chain e).Forms T := by
  refine peek_reads.bind fun next _ => ?_
  split
  · rename_i c _
    refine .advance (ih.tested.bind fun r hr => ih.comparisons _ r (forall_mem_some ?_) hr)
    have hlink := he.binary (.compare c) hr
    cases chain with
    | none => exact hlink
    | some d => exact .binary _ (hchain d rfl) hlink
  · refine .pure ?_
    cases chain with
    | none => exact he
    | some d => exact hchain d rfl

theorem suffixes_reads (he : e.Formed T) : (suffixes (n + 1) e).Forms T := by
  refine suffix?_reads.bind fun s? _ => ?_
  split
  · exact (ih.binary _).bind fun r hr => ih.suffixes _ (.binary _ he hr)
  · exact ih.suffixes _ (.unary _ he)
  · exact .pure he

theorem signed_reads : (signed (n + 1)).Forms T := by
  refine .eatOr (peek_reads.bind fun next hnext => ?_) ?_
  · split
    · rename_i s hs
      obtain ⟨k, hk, hs⟩ := Option.bind_eq_some_iff.mp hs
      obtain ⟨t, ht, rfl⟩ := hnext k hk
      exact .advance (.pure (.negated ht hs))
    · exact ih.signed.bind fun _ he => .pure (.unary _ he)
  · exact .eat fun _ => ih.atom.bind fun _ he => accesses_reads n _ he

theorem atom_reads : (atom (n + 1)).Forms T := by
  refine peek_bind_reads fun next hnext => ?_
  split
  · rename_i s hs
    obtain ⟨k, hk, hs⟩ := Option.bind_eq_some_iff.mp hs
    obtain ⟨t, ht, rfl⟩ := hnext k hk
    exact .of_reads (.advance (.pure (.literal ht hs)))
  · split
    · rename_i x
      obtain ⟨t, ht, htoken⟩ := hnext _ rfl
      exact .of_reads (.advance (.pure (.param ht htoken)))
    · exact .of_reads (.advance ih.bracketed)
    · exact .of_reads (ih.entries.bind fun _ hes =>
        .pure (.map (fun i hi => (hes i hi).1) fun i hi => (hes i hi).2))
    · exact .of_reads (.advance ih.caseExpression)
    · intro tokens a rest hfront htokens h
      obtain ⟨isPattern, tokens', hlook, h⟩ := run_bind_eq_ok.mp h
      obtain rfl : tokens = tokens' := by
        unfold lookahead at hlook
        split at hlook <;> cases hlook <;> rfl
      split at h
      · obtain ⟨p, tokens', hp, h⟩ := run_bind_eq_ok.mp h
        obtain ⟨hbuilt, hrest⟩ := ih.patternFrom _ _ _ htokens hp
        cases h
        exact ⟨.pattern (patternFrom_path hfront hp)
          ⟨hbuilt.path, hbuilt.alternates, fun e he => (hbuilt.elements e he).names⟩
          fun e he es hes i hi => ((hbuilt.elements e he).properties es hes i hi).2, hrest⟩
      · exact advance_reads.bind (fun _ _ => (ih.binary _).bind fun _ he =>
          .expect (.pure he)) tokens a rest htokens h
    · refine .of_reads (varName?_reads.bind fun x? hx => ?_)
      cases x? with
      | some x =>
        exact .eatOr (ih.arguments x (hx x rfl)) (.pure (.var (hx x rfl)))
      | none => exact .fail _

theorem arguments_reads {f : String} (hf : NameIn T f) :
    (arguments (n + 1) f).Forms T :=
  .eatOr
    (.expect (.pure (.callStar hf)))
    ((check_reads _).bind fun _ _ => .ite
      (.expect (.pure (.callNone hf)))
      (.eat fun d => ih.expressions.bind fun _ hargs =>
        .expect (.pure (.call d hf hargs.2 hargs.1))))

theorem expressions_reads :
    (expressions (n + 1)).Reads T fun es => (∀ e ∈ es, e.Formed T) ∧ es ≠ [] :=
  (ih.binary _).bind fun _ he => .eatOr
    (ih.expressions.bind fun _ hes =>
      .pure ⟨forall_mem_cons.mpr ⟨he, hes.1⟩, cons_ne_nil _ _⟩)
    (.pure ⟨forall_mem_singleton.mpr he, cons_ne_nil _ _⟩)

theorem bracketed_reads : (bracketed (n + 1)).Forms T := by
  refine (varBefore?_reads _).bind fun x? hx => ?_
  cases x? with
  | some x =>
    exact (ih.binary _).bind fun _ hsource => (ih.optional _).bind fun _ hfilter =>
      (ih.optional _).bind fun _ hresult => .expect
        (.pure (.comprehension (hx x rfl) hsource hfilter hresult))
  | none =>
    exact .eatOr (.pure (.list (forall_mem_nil _)))
      (ih.expressions.bind fun _ hes => .expect (.pure (.list hes.1)))

theorem optional_reads (t : Token) :
    (Parser.optional (n + 1) t).Reads T fun e? => ∀ e ∈ e?, e.Formed T :=
  .eatOr ((ih.binary _).bind fun _ he => .pure (forall_mem_some he)) (.pure forall_mem_none)

theorem entries_reads : (entries (n + 1)).Reads T (EntriesFormed T) :=
  .expect (.eatOr (.pure (forall_mem_nil _)) (ih.moreEntries.bind fun _ hes => .expect (.pure hes)))

theorem moreEntries_reads : (moreEntries (n + 1)).Reads T (EntriesFormed T) :=
  name_reads.bind fun _ hk => .expect ((ih.binary _).bind fun _ he => .eatOr
    (ih.moreEntries.bind fun _ hes => .pure (forall_mem_cons.mpr ⟨⟨hk, he⟩, hes⟩))
    (.pure (forall_mem_singleton.mpr ⟨hk, he⟩)))

theorem caseExpression_reads : (caseExpression (n + 1)).Forms T := by
  refine (check_reads _).bind fun isWhen _ => ?_
  have hbranches {operand : Option Expr} (hoperand : ∀ e ∈ operand, e.Formed T) : (do
      let branches ← whens n
      if branches.isEmpty then Parser.fail "WHEN"
      else
        let otherwise ← Parser.optional n (.keyword .ELSE)
        expect (.keyword .END) "END"
        return .caseOf operand branches otherwise : Parser Expr).Forms T := by
    refine ih.whens.bind fun ws hws => ?_
    split
    · exact .fail _
    · rename_i hne
      exact (ih.optional _).bind fun _ hotherwise => .expect
        (.pure (.caseOf hoperand (fun h => hne (List.isEmpty_iff.mpr h)) (fun w hw => (hws w hw).1)
          (fun w hw => (hws w hw).2) hotherwise))
  split
  · exact hbranches forall_mem_none
  · exact (ih.binary _).bind fun e he => hbranches (forall_mem_some he)

theorem whens_reads : (whens (n + 1)).Reads T fun ws => ∀ w ∈ ws, w.1.Formed T ∧ w.2.Formed T :=
  .eatOr
    ((ih.binary _).bind fun _ hw => .expect ((ih.binary _).bind fun _ ht =>
      ih.whens.bind fun _ hws => .pure (forall_mem_cons.mpr ⟨⟨hw, ht⟩, hws⟩)))
    (.pure (forall_mem_nil _))

/-! ### Patterns -/

theorem patternFrom_reads : (patternFrom (n + 1)).Reads T (Pattern.Formed T) :=
  (varBefore?_reads _).bind fun _ hname => ih.node.bind fun first hfirst =>
    ih.hops.bind fun hops hhops => .pure ⟨hname, ⟨first, hops, rfl, hfirst.1, hhops.1⟩,
      forall_mem_cons.mpr ⟨hfirst.2, hhops.2⟩⟩

theorem hops_reads : (hops (n + 1)).Reads T fun es => PatternHops es ∧ ∀ e ∈ es, e.Formed T := by
  refine Reads.bind (Q := fun _ => True) (fun tokens a rest htokens h => ?_) fun tokens _ => .ite
    (ih.relationship.bind fun _ hr => ih.node.bind fun _ ht => ih.hops.bind fun _ hes =>
      .pure ⟨.cons hr.1 ht.1 hes.1, forall_mem_cons.mpr ⟨hr.2, forall_mem_cons.mpr ⟨ht.2, hes.2⟩⟩⟩)
    (.pure ⟨.nil, forall_mem_nil _⟩)
  cases h
  exact ⟨trivial, htokens⟩

theorem node_reads : (node (n + 1)).Reads T fun e => e.IsNode ∧ e.Formed T :=
  .expect (varName?_reads.bind fun _ hx => (labels_reads n).bind fun _ hls =>
    ih.properties.bind fun _ hps => .expect (.pure ⟨⟨_, _, _, rfl⟩, hx, hls, hps⟩))

theorem properties_reads :
    (properties (n + 1)).Reads T fun es? => ∀ es ∈ es?, EntriesFormed T es := by
  refine (check_reads _).bind fun _ _ => .ite (ih.entries.bind fun es hes => .pure ?_)
    (.pure forall_mem_none)
  exact forall_mem_some hes

theorem relationshipDetail_reads (arrow dash : Direction) (what : String) :
    (relationshipDetail (n + 1) arrow dash what).Reads T fun e => e.IsRelationship ∧ e.Formed T :=
  .expect (varName?_reads.bind fun _ hx => (types_reads n).bind fun _ hts =>
    pathLength_reads.bind fun _ hl => ih.properties.bind fun _ hps => .expect (.eatOr
      (.pure ⟨⟨_, _, _, _, _, rfl⟩, hx, hts, hps, hl⟩)
      (.expect (.pure ⟨⟨_, _, _, _, _, rfl⟩, hx, hts, hps, hl⟩))))

theorem relationship_reads :
    (relationship (n + 1)).Reads T fun e => e.IsRelationship ∧ e.Formed T := by
  have hbare (d : Direction) :
      (bareRelationship d).IsRelationship ∧ (bareRelationship d).Formed T :=
    ⟨⟨_, _, _, _, _, rfl⟩, forall_mem_none, forall_mem_nil _, forall_mem_none, forall_mem_none⟩
  refine peek_reads.bind fun next _ => .advance ?_
  split
  · exact .pure (hbare _)
  · exact .pure (hbare _)
  · exact .eat fun _ => .pure (hbare _)
  · exact ih.relationshipDetail _ _ _
  · exact ih.relationshipDetail _ _ _
  · exact .fail _

end Step

theorem builtAt (n : Nat) : BuiltAt T n := by
  induction n with
  | zero =>
    constructor <;> intros <;> exact .fail _
  | succ n ih =>
    exact {
      binary := fun level => (ih.operand level).bind fun _ he => ih.binaryRest level _ he
      operand := operand_reads ih
      binaryRest := fun level _ he => binaryRest_reads ih level he
      negation := negation_reads ih
      comparisons := fun _ _ hchain he => comparisons_reads ih hchain he
      tested := (ih.binary _).bind fun _ he => ih.suffixes _ he
      suffixes := fun _ he => suffixes_reads ih he
      signed := signed_reads ih
      atom := atom_reads ih
      arguments := fun _ hf => arguments_reads ih hf
      expressions := expressions_reads ih
      bracketed := bracketed_reads ih
      optional := optional_reads ih
      entries := entries_reads ih
      moreEntries := moreEntries_reads ih
      caseExpression := caseExpression_reads ih
      whens := whens_reads ih
      patternFrom := patternFrom_reads ih
      hops := hops_reads ih
      node := node_reads ih
      properties := properties_reads ih
      relationship := relationship_reads ih
      relationshipDetail := relationshipDetail_reads ih }

theorem expression_reads : expression.Forms T :=
  .fuelled fun n => (builtAt n).binary .or

theorem pattern_reads : pattern.Reads T (Pattern.Formed T) :=
  .fuelled fun n => (builtAt n).patternFrom

end Parser

/-! ### Clauses and queries -/

section Clauses

variable (T : PlacedToken → Prop)

structure ProjectionItem.Formed (i : ProjectionItem) : Prop where
  expr : i.expr = .star ∧ i.asName = none ∨ i.expr.Formed T
  asName : ∀ x ∈ i.asName, KeyIn T x

structure Projection.Formed (w : Projection) : Prop where
  items : ∀ i ∈ w.items, i.Formed T
  order : ∀ o ∈ w.order, o.expr.Formed T
  skip : ∀ e ∈ w.skip, e.Formed T
  limit : ∀ e ∈ w.limit, e.Formed T
  filter : ∀ e ∈ w.filter, e.Formed T

def SetItem.Formed : SetItem → Prop
  | property var key value => NameIn T var ∧ KeyIn T key ∧ value.Formed T
  | labels var ls => NameIn T var ∧ ∀ l ∈ ls, KeyIn T l
  | all var value => NameIn T var ∧ value.Formed T

def Clause.Formed : Clause → Prop
  | read _ ps filter => (∀ p ∈ ps, p.Formed T) ∧ ∀ e ∈ filter, e.Formed T
  | project _ w => w.Formed T
  | unwind e x => e.Formed T ∧ NameIn T x
  | create ps => ∀ p ∈ ps, p.Formed T
  | delete _ targets => ∀ e ∈ targets, e.Formed T
  | set items => ∀ i ∈ items, i.Formed T

end Clauses

namespace Parser

variable {T : PlacedToken → Prop}

theorem items_reads {α : Type} {item : Parser α} {Q : α → Prop} (h : item.Reads T Q) :
    (items item).Reads T fun as => (∀ a ∈ as, Q a) ∧ as ≠ [] := by
  -- one item, and the others if a comma is behind it
  have hmore {n : Nat} (ih : (commaSeparated item n).Reads T fun as => ∀ a ∈ as, Q a) :
      (commaSeparated item (n + 1)).Reads T fun as => (∀ a ∈ as, Q a) ∧ as ≠ [] :=
    h.bind fun _ ha => .eatOr
      (ih.bind fun _ has => .pure ⟨forall_mem_cons.mpr ⟨ha, has⟩, cons_ne_nil _ _⟩)
      (.pure ⟨forall_mem_singleton.mpr ha, cons_ne_nil _ _⟩)
  have hlist (n : Nat) : (commaSeparated item n).Reads T fun as => ∀ a ∈ as, Q a := by
    induction n with
    | zero => exact .pure (forall_mem_nil _)
    | succ n ih => exact (hmore ih).mono fun _ has => has.1
  exact fun tokens as rest htokens hrun => hmore (hlist _) tokens as rest htokens hrun

theorem expressionAfter?_reads (t : Token) :
    (expressionAfter? t).Reads T fun e? => ∀ e ∈ e?, e.Formed T :=
  .eatOr (expression_reads.bind fun _ he => .pure (forall_mem_some he)) (.pure forall_mem_none)

theorem projectionItem_reads : projectionItem.Reads T (ProjectionItem.Formed T) := by
  refine .eatOr (.pure ⟨.inl ⟨rfl, rfl⟩, forall_mem_none⟩) ?_
  exact expression_reads.bind fun e he => .eatOr
    (name_reads.bind fun x hx => .pure ⟨.inr he, forall_mem_some hx⟩)
    (.pure ⟨.inr he, forall_mem_none⟩)

theorem orderItem_reads : orderItem.Reads T fun o => o.expr.Formed T :=
  expression_reads.bind fun _ he => .eatOr (.pure he) (.eat fun _ => .pure he)

theorem order_reads : order.Reads T fun os => ∀ o ∈ os, o.expr.Formed T :=
  .eatOr
    (.expect ((items_reads orderItem_reads).mono fun _ hos => hos.1))
    (.pure (forall_mem_nil _))

theorem window_reads : window.Reads T fun w => (∀ e ∈ w.1, e.Formed T) ∧ ∀ e ∈ w.2, e.Formed T := by
  refine (expressionAfter?_reads _).bind fun skip hskip => ?_
  cases skip with
  | some skip =>
    exact (expressionAfter?_reads _).bind fun limit hlimit => .pure ⟨hskip, hlimit⟩
  | none =>
    refine (expressionAfter?_reads _).bind fun limit hlimit => ?_
    cases limit with
    | some limit =>
      exact (expressionAfter?_reads _).bind fun skip hskip => .pure ⟨hskip, hlimit⟩
    | none => exact .pure ⟨hskip, hlimit⟩

theorem projection_reads (final : Bool) : (projection final).Reads T (Projection.Formed T) := by
  refine .eat fun _ => (items_reads projectionItem_reads).bind
    fun items hitems => order_reads.bind fun os hos => window_reads.bind fun w hw => ?_
  cases final with
  | true => exact .pure ⟨hitems.1, hos, hw.1, hw.2, forall_mem_none⟩
  | false =>
    exact (expressionAfter?_reads _).bind fun filter hfilter =>
      .pure ⟨hitems.1, hos, hw.1, hw.2, hfilter⟩

theorem setItem_reads : setItem.Reads T (SetItem.Formed T) :=
  varName_reads.bind fun _ hx => .eatOr
    (name_reads.bind fun _ hk =>
      .expect (expression_reads.bind fun _ he => .pure ⟨hx, hk, he⟩))
    ((check_reads _).bind fun _ _ => .ite
      ((Reads.fuelled labels_reads).bind fun _ hls => .pure ⟨hx, hls⟩)
      (.expect (expression_reads.bind fun _ he => .pure ⟨hx, he⟩)))

theorem reading_reads (optional : Bool) :
    (reading optional).Reads T fun c => c.Formed T ∧ c.HasPatterns :=
  (items_reads pattern_reads).bind fun _ hps =>
    (expressionAfter?_reads _).bind fun _ hfilter => .pure ⟨⟨hps.1, hfilter⟩, hps.2⟩

theorem deletion_reads (detach : Bool) :
    (deletion detach).Reads T fun c => c.Formed T ∧ c.HasPatterns :=
  .expect ((items_reads expression_reads).bind fun _ hes => .pure ⟨hes.1, trivial⟩)

theorem clause?_reads : clause?.Reads T fun c? => ∀ c ∈ c?, c.Formed T ∧ c.HasPatterns := by
  have hsome {c : Clause} (hc : c.Formed T ∧ c.HasPatterns) :
      ∀ d ∈ some c, d.Formed T ∧ d.HasPatterns := forall_mem_some hc
  refine peek_reads.bind fun next _ => ?_
  split
  · exact .advance ((reading_reads _).map fun _ => hsome)
  · exact .advance (.expect ((reading_reads _).map fun _ => hsome))
  · exact .advance ((projection_reads _).bind fun _ hw => .pure (hsome ⟨hw, trivial⟩))
  · exact .advance ((projection_reads _).bind fun _ hw => .pure (hsome ⟨hw, trivial⟩))
  · exact .advance (expression_reads.bind fun _ he => .expect (varName_reads.bind fun _ hx =>
      .pure (hsome ⟨⟨he, hx⟩, trivial⟩)))
  · exact .advance ((items_reads pattern_reads).bind fun _ hps => .pure (hsome hps))
  · exact .advance ((deletion_reads _).map fun _ => hsome)
  · exact (deletion_reads _).map fun _ => hsome
  · exact .advance ((items_reads setItem_reads).bind fun _ his =>
      .pure (hsome ⟨his.1, trivial⟩))
  · exact .pure forall_mem_none

theorem clausesFrom_reads (n : Nat) :
    (clausesFrom n).Reads T fun cs => ∀ c ∈ cs, c.Formed T ∧ c.HasPatterns := by
  induction n with
  | zero => exact .pure (forall_mem_nil _)
  | succ n ih =>
    refine (clause?_reads).bind fun c? hc => ?_
    cases c? with
    | some c => exact ih.bind fun cs hcs => .pure (forall_mem_cons.mpr ⟨hc c rfl, hcs⟩)
    | none => exact .pure (forall_mem_nil _)

theorem clauses_reads :
    clauses.Reads T fun cs => ∀ c ∈ cs, c.Formed T ∧ c.HasPatterns :=
  (Reads.fuelled clausesFrom_reads).bind fun _ hcs => .ite (.fail _) (.pure hcs)

theorem unionParts_reads (n : Nat) :
    (unionParts n).Reads T fun parts =>
      ∀ part ∈ parts, ∀ c ∈ part.clauses, c.Formed T ∧ c.HasPatterns := by
  induction n with
  | zero => exact .pure (forall_mem_nil _)
  | succ n ih =>
    exact .eatOr
      (.eat fun _ => clauses_reads.bind fun _ hcs => ih.bind fun _ hparts =>
        .pure (forall_mem_cons.mpr ⟨hcs, hparts⟩))
      (.pure (forall_mem_nil _))

theorem query_reads :
    query.Reads T fun q => ∀ cs ∈ q.singles, ∀ c ∈ cs, c.Formed T ∧ c.HasPatterns :=
  clauses_reads.bind fun _ hcs => (Reads.fuelled unionParts_reads).bind
    fun _ hparts => peek_reads.bind fun _ _ => .ite (.fail _)
      (.pure (forall_mem_cons.mpr ⟨hcs, forall_mem_map.mpr hparts⟩))

end Parser

theorem Query.parse_reads (h : Query.parse text = .ok q) :
    ∃ tokens, tokenize text = .ok tokens ∧ ∀ (T : PlacedToken → Prop) (Q : Query → Prop),
      Parser.query.Reads T Q → (∀ t ∈ tokens, T t) → Q q := by
  obtain ⟨tokens, htokens, h⟩ := bind_eq_ok.mp h
  refine ⟨tokens, htokens, fun T Q hQ hT => ?_⟩
  unfold Query.ofTokens at h
  split at h
  · cases h
  · obtain ⟨⟨_, rest⟩, hrun, rfl⟩ := map_eq_ok.mp h
    exact (hQ tokens _ rest hT hrun).1

theorem Query.clauses_formed (h : Query.parse text = .ok q) :
    ∃ tokens, tokenize text = .ok tokens ∧ ∀ T : PlacedToken → Prop, (∀ t ∈ tokens, T t) →
      ∀ cs ∈ q.singles, ∀ c ∈ cs, c.Formed T := by
  obtain ⟨tokens, htokens, hreads⟩ := parse_reads h
  exact ⟨tokens, htokens, fun T hT cs hcs c hc =>
    (hreads T _ Parser.query_reads hT cs hcs c hc).1⟩

/-! ### Shapes of patterns -/

theorem Query.clauses_alternate (h : Query.parse text = .ok q) :
    ∀ cs ∈ q.singles, ∀ c ∈ cs, Parser.ClauseAlternates c := by
  obtain ⟨tokens, -, hreads⟩ := parse_reads h
  intro cs hcs c hc
  obtain ⟨hbuilt, hhas⟩ :=
    hreads (fun _ => True) _ Parser.query_reads (fun _ _ => trivial) cs hcs c hc
  refine ⟨?_, hhas⟩
  cases c with
  | read optional ps filter => exact fun p hp => (hbuilt.1 p hp).alternates
  | create ps => exact fun p hp => (hbuilt p hp).alternates
  | _ => exact forall_mem_nil _

theorem Query.patterns_alternate (h : Query.parse text = .ok q) :
    ∀ cs ∈ q.singles, ∀ c ∈ cs, ∀ p ∈ c.patterns, p.Alternates :=
  fun cs hcs c hc => (clauses_alternate h cs hcs c hc).alternates

end CypherTraversal
