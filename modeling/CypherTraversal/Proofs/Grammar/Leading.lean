import CypherTraversal.Proofs.Grammar.Words
import Mathlib.Tactic.IntervalCases

/-! # Tokens in front of the parser

What a parser does is decided by the token in front. A parser of one rank reads an expression and
stops where the next token belongs to a looser rank. -/

namespace CypherTraversal

open List

variable {x : String} {op : BinaryOp} {c : Comparison} {os : List PlacedToken} {u : PlacedToken}
  {e : Expr} {level : Level} {n : Nat}

/-! ### Tokens at the front -/

def Heads (P : Token → Prop) (ts : List PlacedToken) : Prop :=
  ∀ t ∈ ts.head?, P t.token

namespace Heads

variable {P Q : Token → Prop} {t : PlacedToken} {ts : List PlacedToken}

theorem nil : Heads P [] :=
  fun _ h => by cases h

theorem cons (h : P t.token) : Heads P (t :: ts) := by
  rintro _ ⟨⟩
  exact h

theorem of_token {k : Token} (h : t.token = k) (hk : P k) : Heads P (t :: ts) :=
  cons (h ▸ hk)

theorem head (h : Heads P (t :: ts)) : P t.token :=
  h t rfl

theorem mono (h : Heads P ts) (hPQ : ∀ k, P k → Q k) : Heads Q ts :=
  fun t ht => hPQ _ (h t ht)

theorem bind_eq_none {α : Type} {f : Token → Option α} (h : Heads (fun k => ∀ a, f k ≠ some a) ts) :
    (ts.head?.map PlacedToken.token).bind f = none := by
  refine Option.eq_none_iff_forall_ne_some.mpr fun a ha => ?_
  obtain ⟨k, hk, ha⟩ := Option.bind_eq_some_iff.mp ha
  obtain ⟨t, ht, rfl⟩ := Option.map_eq_some_iff.mp hk
  exact h t ht a ha

end Heads

def Token.joins : Token → Nat
  | .keyword .OR => 1
  | .keyword .XOR => 2
  | .keyword .AND => 3
  | .symbol .equals | .symbol .notEquals | .symbol .less | .symbol .lessEquals
  | .symbol .greater | .symbol .greaterEquals => 5
  | .keyword .STARTS | .keyword .ENDS | .keyword .CONTAINS | .keyword .IN | .keyword .IS => 6
  | .symbol .plus | .symbol .minus => 7
  | .symbol .star | .symbol .slash | .symbol .percent => 8
  | .symbol .caret => 9
  | .symbol .dot => 11
  | .symbol .leftParen => 13
  | _ => 0

def Token.opens? : Token → Option Nat
  | .keyword .NOT => some 3
  | .symbol .minus => some 9
  | .integer _ | .float _ | .string _ | .keyword .TRUE | .keyword .FALSE | .keyword .NULL
  | .parameter _ | .identifier _ | .quotedIdentifier _ | .keyword .CASE
  | .symbol .leftParen | .symbol .leftBracket | .symbol .leftBrace => some 11
  | _ => none

def Token.isName : Token → Bool
  | .identifier _ | .quotedIdentifier _ => true
  | _ => false

def Token.closes : Token → Bool
  | .symbol .rightParen | .symbol .rightBracket | .symbol .rightBrace | .symbol .comma
  | .symbol .pipe | .keyword .WHEN | .keyword .THEN | .keyword .ELSE | .keyword .END
  | .keyword .WHERE => true
  | _ => false

def Opens (k : Nat) (ts : List PlacedToken) : Prop :=
  ∃ t us r, ts = t :: us ∧ t.token.opens? = some r ∧ k ≤ r

def Closed (ts : List PlacedToken) : Prop :=
  Heads (fun k => k.closes) ts

structure After (k : Nat) (e : Expr) (ts : List PlacedToken) : Prop where
  joins : Heads (fun t => t.joins ≤ k) ts
  edge : e.endsInPattern → Parser.startsRelationship ts = false

namespace After

variable {j k : Nat} {e : Expr} {ts : List PlacedToken}

theorem mono (h : After j e ts) (hjk : j ≤ k) : After k e ts :=
  ⟨h.joins.mono fun _ ht => ht.trans hjk, h.edge⟩

theorem of_closed (h : Closed ts) : After k e ts := by
  cases ts with
  | nil => exact ⟨.nil, fun _ => rfl⟩
  | cons t us =>
    obtain ⟨token, _⟩ := t
    have hcloses : token.closes := h.head
    refine ⟨.cons ?_, fun _ => ?_⟩
    · unfold Token.closes at hcloses
      split at hcloses <;> first | exact Nat.zero_le _ | cases hcloses
    · unfold Token.closes at hcloses
      split at hcloses <;> first | rfl | cases hcloses

end After

namespace Opens

variable {j k : Nat} {ts : List PlacedToken}

theorem mono (h : Opens j ts) (hkj : k ≤ j) : Opens k ts := by
  obtain ⟨t, us, r, rfl, hr, hj⟩ := h
  exact ⟨t, us, r, rfl, hr, hkj.trans hj⟩

theorem append (h : Opens k ts) (us : List PlacedToken) : Opens k (ts ++ us) := by
  obtain ⟨t, ts, r, rfl, hr, hk⟩ := h
  exact ⟨t, ts ++ us, r, rfl, hr, hk⟩

theorem away (h : Opens k ts) {t : Token} (ht : ∀ r ∈ t.opens?, r < k) (rest : List PlacedToken) :
    Heads (· ≠ t) (ts ++ rest) := by
  obtain ⟨u, us, r, rfl, hr, hk⟩ := h
  refine .cons fun htoken => ?_
  have hlt : r < k := ht r (htoken ▸ hr)
  omega

end Opens

/-! ### Parsers of a single token -/

namespace Parser

variable {α β : Type} {t : PlacedToken} {k : Token} {ts us : List PlacedToken}

theorem run_bind {p : Parser α} {f : α → Parser β} {a : α} (h : p ts = .ok (a, us)) :
    (p >>= f) ts = f a us := by
  change (p ts >>= fun r => f r.1 r.2) = f a us
  rw [h]
  rfl

theorem run_then {p : Parser α} {f : α → Parser β} {a : α} {r : Except Error (β × List PlacedToken)}
    (h : p ts = .ok (a, us)) (hrest : f a us = r) : (p >>= f) ts = r :=
  (run_bind h).trans hrest

theorem run_bind_error {p : Parser α} {f : α → Parser β} {e : Error} (h : p ts = .error e) :
    (p >>= f) ts = .error e := by
  change (p ts >>= fun r => f r.1 r.2) = _
  rw [h]
  rfl

theorem check_eq (h : t.token = k) : check k (t :: ts) = .ok (true, t :: ts) := by
  subst h
  exact congrArg (fun b => Except.ok (b, t :: ts)) (beq_self_eq_true (some t.token))

theorem check_away (h : Heads (· ≠ k) ts) : check k ts = .ok (false, ts) := by
  refine congrArg (fun b => Except.ok (b, ts)) (beq_eq_false_iff_ne.mpr fun hk => ?_)
  obtain ⟨t, ht, htoken⟩ := Option.map_eq_some_iff.mp hk
  exact h t ht htoken

theorem eat_eq (h : t.token = k) : eat k (t :: ts) = .ok (true, ts) :=
  run_bind (check_eq h)

theorem eat_away (h : Heads (· ≠ k) ts) : eat k ts = .ok (false, ts) :=
  run_bind (check_away h)

theorem expect_eq (h : t.token = k) (what : String) : expect k what (t :: ts) = .ok ((), ts) :=
  run_bind (eat_eq h)

theorem expect_away (h : Heads (· ≠ k) ts) (what : String) :
    expect k what ts = .error (unexpected what ts) :=
  run_bind (eat_away h)

theorem varName?_name (h : t.Shows (.name x)) : varName? (t :: ts) = .ok (some x, ts) := by
  obtain ⟨_, _⟩ := t
  rcases h with h | h <;> cases h <;> rfl

theorem name_key (h : t.Shows (.key x)) : name (t :: ts) = .ok (x, ts) := by
  obtain ⟨_, _⟩ := t
  rcases h with (h | h) | ⟨k, h, rfl⟩ <;> cases h <;> rfl

/-! ### Operators -/

def Level.rank : Level → Nat
  | or => 0
  | xor => 1
  | and => 2
  | sum => 6
  | product => 7
  | power => 8

theorem operator?_joins (h : level.operator? k = some op) : k.joins = level.rank + 1 := by
  unfold Level.operator? at h
  split at h <;> first | rfl | cases h

theorem comparison?_joins (h : comparison? k = some c) : k.joins = 5 := by
  unfold comparison? at h
  split at h <;> first | rfl | cases h

theorem suffix?_none (h : Heads (fun k => k.joins ≤ 5) ts) : suffix? ts = .ok (none, ts) := by
  cases ts with
  | nil => rfl
  | cons t us =>
    obtain ⟨token, _⟩ := t
    have hjoins : token.joins ≤ 5 := h.head
    cases token with
    | keyword k => cases k <;> first | rfl | exact absurd hjoins (by decide)
    | _ => rfl

theorem binaryRest_stops (hn : 0 < n) (h : Heads (fun k => k.joins ≤ level.rank) ts) :
    binaryRest n level e ts = .ok (e, ts) := by
  obtain ⟨n, rfl⟩ := Nat.exists_eq_succ_of_ne_zero hn.ne'
  refine run_then (a := ts.head?.map PlacedToken.token) rfl ?_
  rw [(h.mono fun k hk op hop => ?_).bind_eq_none]
  · rfl
  · have hjoins := operator?_joins hop
    omega

theorem comparisons_stops {chain : Option Expr} (hn : 0 < n) (h : Heads (fun k => k.joins ≤ 4) ts) :
    comparisons n chain e ts = .ok (chain.getD e, ts) := by
  obtain ⟨n, rfl⟩ := Nat.exists_eq_succ_of_ne_zero hn.ne'
  refine run_then (a := ts.head?.map PlacedToken.token) rfl ?_
  rw [(h.mono fun k hk c hc => ?_).bind_eq_none]
  · rfl
  · have hjoins := comparison?_joins hc
    omega

theorem suffixes_stops (hn : 0 < n) (h : Heads (fun k => k.joins ≤ 5) ts) :
    suffixes n e ts = .ok (e, ts) := by
  obtain ⟨n, rfl⟩ := Nat.exists_eq_succ_of_ne_zero hn.ne'
  exact run_bind (suffix?_none h)

theorem accesses_stops (h : Heads (fun k => k.joins ≤ 10) ts) : accesses n e ts = .ok (e, ts) := by
  cases n with
  | zero => rfl
  | succ n =>
    refine run_bind (eat_away (h.mono fun k hk hdot => ?_))
    subst hdot
    exact absurd hk (by decide)

/-! ### Ranks of parsers -/

def start : Nat → Nat → Parser Expr
  | 0, n => binary n .or
  | 1, n => binary n .xor
  | 2, n => binary n .and
  | 3, n | 4, n => negation n
  | 5, n => tested n
  | 6, n => binary n .sum
  | 7, n => binary n .product
  | 8, n => binary n .power
  | 9, n | 10, n => signed n
  | _, n => atom n

def more : Nat → Nat → Expr → Parser Expr
  | 0, n, e => binaryRest n .or e
  | 1, n, e => binaryRest n .xor e
  | 2, n, e => binaryRest n .and e
  | 4, n, e => comparisons n none e
  | 5, n, e => suffixes n e
  | 6, n, e => binaryRest n .sum e
  | 7, n, e => binaryRest n .product e
  | 8, n, e => binaryRest n .power e
  | 10, n, e => accesses n e
  | _, _, e => pure e

end Parser

def Expr.Apart (e : Expr) (ts : List PlacedToken) : Prop :=
  e.endsInPattern → ∀ rest, Parser.startsRelationship (ts ++ rest) = false

def Leads (k : Nat) (e : Expr) (ts : List PlacedToken) : Prop :=
  ∀ n rest, 32 * ts.length + (24 - 2 * k) ≤ n → After (k + 1) e rest →
    ∃ m, n ≤ m + ts.length + 1 ∧ Parser.start k n (ts ++ rest) = Parser.more k m e rest

namespace Parser

variable {k : Nat} {e : Expr} {ts rest : List PlacedToken}

theorem more_stops {m : Nat} (hk : k ≤ 11) (hm : 0 < m) (h : Heads (fun t => t.joins ≤ k) rest) :
    more k m e rest = .ok (e, rest) := by
  interval_cases k
  · exact binaryRest_stops hm h
  · exact binaryRest_stops hm h
  · exact binaryRest_stops hm h
  · rfl
  · exact comparisons_stops hm h
  · exact suffixes_stops hm h
  · exact binaryRest_stops hm h
  · exact binaryRest_stops hm h
  · exact binaryRest_stops hm h
  · rfl
  · exact accesses_stops h
  · rfl

theorem start_rank (level : Level) (n : Nat) : start level.rank n = binary n level := by
  cases level <;> rfl

theorem more_rank (level : Level) (n : Nat) : more level.rank n e = binaryRest n level e := by
  cases level <;> rfl

theorem operand_eq (level : Level) (n : Nat) :
    operand (n + 1) level = start (level.rank + 1) n := by
  cases level <;> rfl

theorem rank_le (level : Level) : level.rank ≤ 8 := by
  cases level <;> decide

end Parser

namespace Leads

open CypherTraversal.Parser

variable {j k : Nat} {e l r : Expr} {t : PlacedToken} {ts us rest : List PlacedToken}

theorem run (h : Leads k e ts) (hk : k ≤ 11) (hn : 32 * ts.length + (24 - 2 * k) ≤ n)
    (hrest : After k e rest) : start k n (ts ++ rest) = .ok (e, rest) := by
  obtain ⟨m, hm, hrun⟩ := h n rest hn (hrest.mono (Nat.le_succ k))
  rw [hrun]
  refine more_stops hk ?_ hrest.joins
  omega

/-! ### From one rank to the next -/

theorem loosen_level (level : Level) (h : Leads (level.rank + 1) e ts) : Leads level.rank e ts := by
  intro n rest hn hrest
  have hrank := rank_le level
  obtain ⟨n, rfl⟩ : ∃ n', n = n' + 2 := by
    refine ⟨n - 2, ?_⟩
    omega
  refine ⟨n + 1, by omega, ?_⟩
  rw [start_rank, more_rank, binary]
  refine run_bind ?_
  rw [operand_eq]
  refine h.run (by omega) ?_ hrest
  omega

theorem loosen_comparisons (h : Leads 4 e ts) : Leads 3 e ts := by
  intro n rest hn hrest
  refine ⟨n, by omega, h.run (by decide) (Nat.le_trans ?_ hn) hrest⟩
  omega

theorem loosen_tested (h : Leads 5 e ts) (hopens : Opens 5 ts) : Leads 4 e ts := by
  intro n rest hn hrest
  obtain _ | n := n
  · omega
  refine ⟨n, by omega, ?_⟩
  change negation (n + 1) (ts ++ rest) = comparisons n none e rest
  rw [negation, run_bind (eat_away (hopens.away (by decide) rest))]
  exact run_bind (h.run (by decide) (by omega) hrest)

theorem loosen_sum (h : Leads 6 e ts) : Leads 5 e ts := by
  intro n rest hn hrest
  obtain _ | n := n
  · omega
  refine ⟨n, by omega, ?_⟩
  change tested (n + 1) (ts ++ rest) = suffixes n e rest
  exact run_bind (h.run (by decide) (by omega) hrest)

theorem loosen_accesses (h : Leads 10 e ts) : Leads 9 e ts := by
  intro n rest hn hrest
  refine ⟨n, by omega, h.run (by decide) (Nat.le_trans ?_ hn) hrest⟩
  omega

theorem loosen_atom (h : Leads 11 e ts) (hopens : Opens 11 ts) : Leads 10 e ts := by
  intro n rest hn hrest
  obtain _ | n := n
  · omega
  refine ⟨n, by omega, ?_⟩
  change signed (n + 1) (ts ++ rest) = accesses n e rest
  rw [signed, run_bind (eat_away (hopens.away (by decide) rest))]
  refine run_then (eat_away (hopens.away (by decide) rest)) ?_
  exact run_bind (h.run (by decide) (by omega) hrest)

theorem loosen (hk : k ≤ 10) (hopens : Opens (k + 1) ts) (h : Leads (k + 1) e ts) :
    Leads k e ts := by
  interval_cases k
  · exact h.loosen_level .or
  · exact h.loosen_level .xor
  · exact h.loosen_level .and
  · exact h.loosen_comparisons
  · exact h.loosen_tested hopens
  · exact h.loosen_sum
  · exact h.loosen_level .sum
  · exact h.loosen_level .product
  · exact h.loosen_level .power
  · exact h.loosen_accesses
  · exact h.loosen_atom hopens

theorem of_le (h : Leads j e ts) (hopens : Opens j ts) (hj : j ≤ 11) (hkj : k ≤ j) :
    Leads k e ts := by
  obtain ⟨d, rfl⟩ := Nat.exists_eq_add_of_le hkj
  induction d with
  | zero => exact h
  | succ d ih =>
    exact ih (h.loosen (by omega) hopens) (hopens.mono (by omega)) (by omega) (by omega)

/-! ### Operators behind an expression -/

theorem binary (hop : level.operator? t.token = some op)
    (hl : Leads level.rank l ts) (hr : Leads (level.rank + 1) r us) (hapart : l.Apart (t :: us)) :
    Leads level.rank (.binary l op r) (ts ++ t :: us) := by
  intro n rest hn hrest
  have hrank := rank_le level
  simp only [length_append, length_cons] at hn
  obtain ⟨m, hm, hrun⟩ := hl n (t :: (us ++ rest)) (by omega)
    ⟨.cons (operator?_joins hop).le, fun h => hapart h rest⟩
  obtain ⟨m, rfl⟩ : ∃ m', m = m' + 2 := ⟨m - 2, by omega⟩
  refine ⟨m + 1, by simp only [length_append, length_cons]; omega, ?_⟩
  rw [append_assoc, cons_append, hrun, more_rank, more_rank, binaryRest]
  refine run_then (a := some t.token) rfl ?_
  rw [Option.bind_some, hop]
  refine run_then (a := ()) rfl (run_bind ?_)
  rw [operand_eq]
  exact hr.run (by omega) (by omega) ⟨hrest.joins, hrest.edge⟩

theorem comparison (hc : comparison? t.token = some c) (hl : Leads 4 l ts)
    (hr : Leads 5 r us) (hapart : l.Apart (t :: us)) :
    Leads 3 (.binary l (.compare c) r) (ts ++ t :: us) := by
  intro n rest hn hrest
  simp only [length_append, length_cons] at hn
  obtain ⟨m, hm, hrun⟩ := hl n (t :: (us ++ rest)) (by omega)
    ⟨.cons (comparison?_joins hc).le, fun h => hapart h rest⟩
  obtain ⟨m, rfl⟩ : ∃ m', m = m' + 2 := ⟨m - 2, by omega⟩
  refine ⟨n, by omega, ?_⟩
  change start 4 n (ts ++ t :: us ++ rest) = .ok (.binary l (.compare c) r, rest)
  rw [append_assoc, cons_append, hrun]
  change comparisons (m + 2) none l (t :: (us ++ rest)) = _
  refine run_then (a := some t.token) rfl ?_
  rw [Option.bind_some, hc]
  refine run_then (a := ()) rfl ?_
  have hright : tested (m + 1) (us ++ rest) = .ok (r, rest) :=
    hr.run (n := m + 1) (by decide) (by omega)
      ⟨hrest.joins.mono fun _ h => h.trans (by decide), hrest.edge⟩
  exact run_then hright (comparisons_stops (Nat.succ_pos m) hrest.joins)

theorem suffix
    (hop : ∀ rest, suffix? (os ++ rest) = .ok (some (.operator op), rest)) (hne : os ≠ [])
    (hjoins : Heads (fun t => t.joins ≤ 6) os) (hl : Leads 5 l ts) (hr : Leads 6 r us)
    (hapart : l.Apart (os ++ us)) : Leads 5 (.binary l op r) (ts ++ (os ++ us)) := by
  intro n rest hn hrest
  have hos := length_pos_of_ne_nil hne
  simp only [length_append] at hn
  obtain ⟨m, hm, hrun⟩ := hl n (os ++ (us ++ rest)) (by omega)
    ⟨by rwa [Heads, head?_append_of_ne_nil os hne],
      fun h => append_assoc os us rest ▸ hapart h rest⟩
  obtain ⟨m, rfl⟩ : ∃ m', m = m' + 2 := ⟨m - 2, by omega⟩
  refine ⟨m + 1, by simp only [length_append]; omega, ?_⟩
  rw [append_assoc, append_assoc, hrun]
  change suffixes (m + 2) l _ = suffixes (m + 1) _ rest
  refine run_then (hop _) (run_bind ?_)
  exact hr.run (n := m + 1) (by decide) (by omega) ⟨hrest.joins, hrest.edge⟩

theorem test {op : UnaryOp}
    (hop : ∀ rest, suffix? (os ++ rest) = .ok (some (.test op), rest)) (hne : os ≠ [])
    (hjoins : Heads (fun t => t.joins ≤ 6) os) (he : Leads 5 e ts) (hapart : e.Apart os) :
    Leads 5 (.unary op e) (ts ++ os) := by
  intro n rest hn hrest
  have hos := length_pos_of_ne_nil hne
  simp only [length_append] at hn
  obtain ⟨m, hm, hrun⟩ := he n (os ++ rest) (by omega)
    ⟨by rwa [Heads, head?_append_of_ne_nil os hne], fun h => hapart h _⟩
  obtain _ | m := m
  · omega
  refine ⟨m, by simp only [length_append]; omega, ?_⟩
  rw [append_assoc, hrun]
  change suffixes (m + 1) e _ = suffixes m _ rest
  exact run_bind (hop rest)

theorem access {key : String} (ht : t.token = .symbol .dot)
    (hu : u.Shows (.key key)) (he : Leads 10 e ts) (hapart : e.Apart [t, u]) :
    Leads 10 (.access e key) (ts ++ [t, u]) := by
  intro n rest hn hrest
  simp only [length_append, length_cons] at hn
  obtain ⟨m, hm, hrun⟩ := he n (t :: u :: rest) (by omega)
    ⟨.cons (by rw [ht]; decide), fun h => hapart h rest⟩
  obtain _ | m := m
  · omega
  refine ⟨m, by simp only [length_append, length_cons]; omega, ?_⟩
  rw [append_assoc, cons_append, cons_append, nil_append, hrun]
  change accesses (m + 1) e _ = accesses m _ rest
  exact run_then (eat_eq ht) (run_bind (name_key hu))

/-! ### Operators before an expression -/

theorem not (ht : t.token = .keyword .NOT) (he : Leads 3 e ts) :
    Leads 3 (.unary .not e) (t :: ts) := by
  intro n rest hn hrest
  simp only [length_cons] at hn
  obtain _ | n := n
  · omega
  obtain ⟨m, -, hrun⟩ := he n rest (by omega) ⟨hrest.joins, hrest.edge⟩
  refine ⟨n, by omega, ?_⟩
  change negation (n + 1) (t :: (ts ++ rest)) = .ok (.unary .not e, rest)
  exact run_then (eat_eq ht) (run_bind hrun)

theorem negate (ht : t.token = .symbol .minus) (hts : ts ≠ [])
    (hnumber : Heads (fun k => negated? k = none) ts) (he : Leads 9 e ts) :
    Leads 9 (.unary .negate e) (t :: ts) := by
  intro n rest hn hrest
  simp only [length_cons] at hn
  obtain _ | n := n
  · omega
  obtain ⟨m, -, hrun⟩ := he n rest (by omega) ⟨hrest.joins, hrest.edge⟩
  refine ⟨n, by omega, ?_⟩
  change signed (n + 1) (t :: (ts ++ rest)) = .ok (.unary .negate e, rest)
  refine run_then (eat_eq ht) ?_
  obtain ⟨u, us, rfl⟩ := exists_cons_of_ne_nil hts
  refine run_then (a := some u.token) rfl ?_
  rw [Option.bind_some, hnumber.head]
  exact run_bind hrun

theorem negative {s : Scalar} (ht : t.token = .symbol .minus)
    (hs : negated? u.token = some s) : Leads 9 (.literal s) [t, u] := by
  intro n rest hn hrest
  obtain _ | n := n
  · omega
  refine ⟨n, by omega, ?_⟩
  change signed (n + 1) (t :: u :: rest) = .ok (.literal s, rest)
  refine run_then (eat_eq ht) ?_
  refine run_then (a := some u.token) rfl ?_
  rw [Option.bind_some, hs]
  rfl

end Leads

end CypherTraversal
