import CypherTraversal.Proofs.Grammar.Leading

/-! # How the parts of an expression are read

Where every part of an expression can be read, so can what stands between brackets, braces and
parentheses: lists, maps, arguments, cases, comprehensions and patterns. -/

namespace CypherTraversal

open List CypherTraversal.Expr

variable {lead : Word} {e? operand otherwise : Option Expr} {args : List Expr} {distinct : Bool}
  {P : Token → Prop} {e : Expr} {es : List (String × Expr)} {f x : String} {k : Token}
  {rest : List PlacedToken}

/-! ### Tokens that show words -/

namespace Shown

variable {t : PlacedToken} {ts : List PlacedToken} {w : Word} {ws vs : List Word}

theorem nil_inv (h : Shown ts []) : ts = [] :=
  forall₂_nil_right_iff.mp h

theorem cons_inv (h : Shown ts (w :: ws)) : ∃ t us, ts = t :: us ∧ t.Shows w ∧ Shown us ws := by
  obtain ⟨t, us, ht, hus, rfl⟩ := forall₂_cons_right_iff.mp h
  exact ⟨t, us, rfl, ht, hus⟩

theorem singleton_inv (h : Shown ts [w]) : ∃ t, ts = [t] ∧ t.Shows w := by
  obtain ⟨t, us, rfl, ht, hus⟩ := cons_inv h
  obtain rfl := nil_inv hus
  exact ⟨t, rfl, ht⟩

theorem append_inv (h : Shown ts (ws ++ vs)) :
    ∃ us us', ts = us ++ us' ∧ Shown us ws ∧ Shown us' vs := by
  induction ws generalizing ts with
  | nil => exact ⟨[], ts, rfl, .nil, h⟩
  | cons w ws ih =>
    obtain ⟨t, ts, rfl, ht, hts⟩ := cons_inv h
    obtain ⟨us, us', rfl, hus, hus'⟩ := ih hts
    exact ⟨t :: us, us', rfl, .cons ht hus, hus'⟩

theorem heads (h : Shown ts ws) (hws : ∀ w ∈ ws.head?, ∀ t : PlacedToken, t.Shows w → P t.token)
    (hrest : Heads P rest) : Heads P (ts ++ rest) := by
  cases ws with
  | nil =>
    obtain rfl := nil_inv h
    exact hrest
  | cons w ws =>
    obtain ⟨t, us, rfl, ht, -⟩ := cons_inv h
    exact .cons (hws w rfl t ht)

theorem heads_symbol {s : Symbol} (h : Shown ts ws) (hws : ∀ w ∈ ws.head?, w = .symbol s)
    (hs : P (.symbol s)) (hrest : Heads P rest) : Heads P (ts ++ rest) := by
  refine h.heads (fun w hw t ht => ?_) hrest
  obtain rfl := hws w hw
  exact (show t.token = .symbol s from ht) ▸ hs

end Shown

theorem PlacedToken.Shows.ne_symbol {t : PlacedToken} (h : t.Shows (.key x)) (s : Symbol) :
    t.token ≠ .symbol s := by
  intro hs
  rcases h with (h | h) | ⟨k, h, -⟩ <;> rw [hs] at h <;> cases h

structure Readable (e : Expr) (ts : List PlacedToken) : Prop where
  opens : Opens 0 ts
  run : ∀ n rest, 32 * ts.length + 24 ≤ n → Closed rest →
    Parser.binary n .or (ts ++ rest) = .ok (e, rest)

theorem Leads.readable (h : Leads 0 e ts) (hopens : Opens 0 ts) : Readable e ts :=
  ⟨hopens, fun _ _ hn hrest => h.run (by decide) hn (.of_closed hrest)⟩

theorem Leads.of_atom (h : ∀ n rest, 32 * ts.length + 1 ≤ n → After 12 e rest → Parser.atom (n + 1)
      (ts ++ rest) = .ok (e, rest)) : Leads 11 e ts := by
  intro n rest hn hrest
  obtain _ | n := n
  · omega
  exact ⟨n, by omega, h n rest (by omega) hrest⟩

namespace Parser

variable {style : Expr → Bool} {t : PlacedToken} {ts us rest : List PlacedToken} {n : Nat}

def PartReadable (style : Expr → Bool) (e : Expr) : Prop :=
  ∀ ts, Shown ts (e.part style) → Readable e ts

/-! ### Expressions with something between them -/

theorem expressions_run {es : List Expr} (hne : es ≠ []) (hes : ∀ e ∈ es, PartReadable style e)
    (hts : Shown ts (listWords style es)) (hn : 32 * ts.length + 25 ≤ n)
    (hrest : Closed rest) (hcomma : Heads (· ≠ .symbol .comma) rest) :
    expressions n (ts ++ rest) = .ok (es, rest) := by
  induction es generalizing ts n with
  | nil => exact absurd rfl hne
  | cons e es ih =>
    obtain ⟨us, vs, rfl, hus, hvs⟩ := hts.append_inv
    obtain ⟨he, hes⟩ := forall_mem_cons.mp hes
    simp only [length_append] at hn
    obtain _ | n := n
    · omega
    have hread := (he us hus).run n (vs ++ rest) (by omega)
    rw [expressions, append_assoc]
    cases es with
    | nil =>
      obtain rfl := hvs.nil_inv
      exact run_then (hread hrest) (run_bind (eat_away hcomma))
    | cons e' es =>
      obtain ⟨t, ws, rfl, ht, hws⟩ := hvs.cons_inv
      have hclosed : Closed (t :: ws ++ rest) := .of_token ht rfl
      simp only [length_cons] at hn
      refine run_then (hread hclosed) (run_then (eat_eq ht) ?_)
      refine run_bind (ih (cons_ne_nil _ _) hes hws ?_)
      omega

theorem optional_run (he : ∀ e ∈ e?, PartReadable style e)
    (hts : Shown ts (optionWords style lead e?))
    (hlead : ∀ t : PlacedToken, t.Shows lead → t.token = k) (hn : 32 * ts.length + 1 ≤ n)
    (hrest : Closed rest) (hk : Heads (· ≠ k) rest) :
    Parser.optional n k (ts ++ rest) = .ok (e?, rest) := by
  obtain _ | n := n
  · omega
  cases e? with
  | none =>
    obtain rfl := hts.nil_inv
    exact run_bind (eat_away hk)
  | some e =>
    obtain ⟨t, us, rfl, ht, hus⟩ := hts.cons_inv
    simp only [length_cons] at hn
    refine run_then (eat_eq (hlead t ht)) (run_bind ((he e rfl us hus).run n rest ?_ hrest))
    omega

theorem heads_optionWords (hts : Shown ts (optionWords style lead e?)) (hk : P k)
    (hlead : ∀ t : PlacedToken, t.Shows lead → t.token = k) (hrest : Heads P rest) :
    Heads P (ts ++ rest) := by
  refine hts.heads (fun w hw t ht => ?_) hrest
  cases e? with
  | none => cases hw
  | some e =>
    cases hw
    exact hlead t ht ▸ hk

theorem moreEntries_run (hne : es ≠ []) (hes : ∀ i ∈ es, PartReadable style i.2)
    (hts : Shown ts (entryWords style es)) (hn : 32 * ts.length + 25 ≤ n) (hrest : Closed rest)
    (hcomma : Heads (· ≠ .symbol .comma) rest) : moreEntries n (ts ++ rest) = .ok (es, rest) := by
  induction es generalizing ts n with
  | nil => exact absurd rfl hne
  | cons i es ih =>
    obtain ⟨key, e⟩ := i
    obtain ⟨t, ts, rfl, ht, hts⟩ := hts.cons_inv
    obtain ⟨u, ts, rfl, hu, hts⟩ := hts.cons_inv
    obtain ⟨us, vs, rfl, hus, hvs⟩ := hts.append_inv
    obtain ⟨he, hes⟩ := forall_mem_cons.mp hes
    simp only [length_append, length_cons] at hn
    obtain _ | n := n
    · omega
    have hread := (he us hus).run n (vs ++ rest) (by omega)
    rw [moreEntries, cons_append, cons_append, append_assoc]
    refine run_then (name_key ht) (run_then (expect_eq hu _) ?_)
    cases es with
    | nil =>
      obtain rfl := hvs.nil_inv
      exact run_then (hread hrest) (run_bind (eat_away hcomma))
    | cons i' es =>
      obtain ⟨t, ws, rfl, ht, hws⟩ := hvs.cons_inv
      have hclosed : Closed (t :: ws ++ rest) := .of_token ht rfl
      simp only [length_cons] at hn
      refine run_then (hread hclosed) (run_then (eat_eq ht) ?_)
      refine run_bind (ih (cons_ne_nil _ _) hes hws ?_)
      omega

theorem entries_run (hes : ∀ i ∈ es, PartReadable style i.2)
    (hts : Shown ts (.symbol .leftBrace :: (entryWords style es ++ [.symbol .rightBrace])))
    (hn : 32 * ts.length ≤ n) : entries n (ts ++ rest) = .ok (es, rest) := by
  obtain ⟨t, ts, rfl, ht, hts⟩ := hts.cons_inv
  obtain ⟨us, vs, rfl, hus, hvs⟩ := hts.append_inv
  obtain ⟨u, rfl, hu⟩ := hvs.singleton_inv
  simp only [length_append, length_cons, length_nil] at hn
  obtain _ | n := n
  · omega
  rw [entries, cons_append, append_assoc]
  refine run_then (expect_eq ht _) ?_
  cases es with
  | nil =>
    obtain rfl := hus.nil_inv
    exact run_bind (eat_eq hu)
  | cons i es =>
    have hkey : Heads (· ≠ .symbol .rightBrace) (us ++ ([u] ++ rest)) := by
      obtain ⟨t, us, rfl, ht, -⟩ := hus.cons_inv
      exact .cons (ht.ne_symbol _)
    have hmore : moreEntries n (us ++ ([u] ++ rest)) = .ok (i :: es, [u] ++ rest) :=
      moreEntries_run (cons_ne_nil _ _) hes hus (by omega) (.of_token hu rfl)
        (.of_token hu (by decide))
    refine run_then (eat_away hkey) (run_then hmore ?_)
    exact run_bind (expect_eq hu _)

theorem whens_run {ws : List (Expr × Expr)} (hws : ∀ w ∈ ws, PartReadable style w.1)
    (hthens : ∀ w ∈ ws, PartReadable style w.2) (hts : Shown ts (whenWords style ws))
    (hn : 32 * ts.length + 1 ≤ n) (hrest : Closed rest)
    (hwhen : Heads (· ≠ .keyword .WHEN) rest) : whens n (ts ++ rest) = .ok (ws, rest) := by
  induction ws generalizing ts n with
  | nil =>
    obtain rfl := hts.nil_inv
    obtain _ | n := n
    · omega
    exact run_bind (eat_away hwhen)
  | cons w ws ih =>
    obtain ⟨w, e⟩ := w
    obtain ⟨hw, hws⟩ := forall_mem_cons.mp hws
    obtain ⟨he, hthens⟩ := forall_mem_cons.mp hthens
    obtain ⟨t, ts, rfl, ht, hts⟩ := hts.cons_inv
    obtain ⟨us, ts, rfl, hus, hts⟩ := hts.append_inv
    obtain ⟨u, ts, rfl, hu, hts⟩ := hts.cons_inv
    obtain ⟨vs, ts, rfl, hvs, hts⟩ := hts.append_inv
    simp only [length_append, length_cons] at hn
    obtain _ | n := n
    · omega
    have hclosed : Closed (ts ++ rest) := by
      refine hts.heads (fun w hw t ht => ?_) hrest
      cases ws with
      | nil => cases hw
      | cons w' ws =>
        cases hw
        exact (show t.token = _ from ht) ▸ rfl
    simp only [cons_append, append_assoc]
    refine run_then (eat_eq ht) ?_
    refine run_then ((hw us hus).run n _ ?_ (.of_token hu rfl)) ?_
    · omega
    refine run_then (expect_eq hu _) ?_
    refine run_then ((he vs hvs).run n _ ?_ hclosed) ?_
    · omega
    refine run_bind (ih hws hthens hts ?_)
    omega

/-! ### What holds together on its own -/

theorem atom_literal {s : Scalar} (ht : literal? t.token = some s) :
    atom (n + 1) (t :: ts) = .ok (.literal s, ts) := by
  refine run_then (a := some t.token) rfl ?_
  rw [Option.bind_some, ht]
  rfl

theorem atom_parameter (ht : t.token = .parameter x) :
    atom (n + 1) (t :: ts) = .ok (.param x, ts) := by
  obtain ⟨_, _⟩ := t
  cases ht
  rfl

theorem atom_bracket (ht : t.token = .symbol .leftBracket) :
    atom (n + 1) (t :: ts) = bracketed n ts := by
  obtain ⟨_, _⟩ := t
  cases ht
  rfl

theorem atom_brace (ht : t.token = .symbol .leftBrace) : atom (n + 1) (t :: ts) =
    (do let es ← entries n; return .map es : Parser Expr) (t :: ts) := by
  obtain ⟨_, _⟩ := t
  cases ht
  rfl

theorem atom_case (ht : t.token = .keyword .CASE) :
    atom (n + 1) (t :: ts) = caseExpression n ts := by
  obtain ⟨_, _⟩ := t
  cases ht
  rfl

theorem atom_name (ht : t.Shows (.name x)) : atom (n + 1) (t :: ts) =
    (do if ← eat (.symbol .leftParen) then arguments n x else return .var x : Parser Expr) ts := by
  obtain ⟨_, _⟩ := t
  rcases ht with ht | ht <;> cases ht <;> rfl

theorem atom_paren (ht : t.token = .symbol .leftParen) : atom (n + 1) (t :: ts) = (do
    if ← lookahead (node n) startsRelationship then
      let p ← patternFrom n
      return .pattern p
    else
      advance
      let e ← binary n .or
      expect (.symbol .rightParen) "`)`"
      return e : Parser Expr) (t :: ts) := by
  obtain ⟨_, _⟩ := t
  cases ht
  rfl

theorem varName?_none (h : Heads (fun k => k.isName = false) ts) :
    varName? ts = .ok (none, ts) := by
  cases ts with
  | nil => rfl
  | cons t ts =>
    obtain ⟨token, _⟩ := t
    have htoken : token.isName = false := h.head
    cases token <;> first | rfl | cases htoken

theorem varBefore?_of_second (h : ts.tail.head?.map PlacedToken.token ≠ some k) :
    varBefore? k ts = .ok (none, ts) := by
  refine run_then (a := ts.tail.head?.map PlacedToken.token) rfl ?_
  rw [if_neg]
  · rfl
  · exact fun heq => h (beq_iff_eq.mp heq)

theorem varBefore?_of_first (h : Heads (fun k => k.isName = false) ts) :
    varBefore? k ts = .ok (none, ts) := by
  by_cases hsecond : ts.tail.head?.map PlacedToken.token = some k
  · rw [varBefore?]
    refine run_then (a := ts.tail.head?.map PlacedToken.token) rfl ?_
    rw [if_pos (beq_iff_eq.mpr hsecond)]
    exact run_bind (varName?_none h)
  · exact varBefore?_of_second hsecond

theorem varBefore?_member {ws : List Word} (hts : Shown ts ws)
    (hws : startsMember ws = false) (ht : t.token = .symbol .rightBracket) :
    varBefore? (.keyword .IN) (ts ++ t :: rest) = .ok (none, ts ++ t :: rest) := by
  cases ws with
  | nil =>
    obtain rfl := hts.nil_inv
    exact varBefore?_of_first (.of_token ht rfl)
  | cons w ws =>
    obtain ⟨u, us, rfl, hu, hus⟩ := hts.cons_inv
    cases w with
    | name x =>
      refine varBefore?_of_second fun hsecond => ?_
      cases ws with
      | nil =>
        obtain rfl := hus.nil_inv
        cases ht.symm.trans (Option.some.inj hsecond)
      | cons v vs =>
        obtain ⟨u', us, rfl, hu', -⟩ := hus.cons_inv
        have hIN : u'.token = .keyword .IN := Option.some.inj hsecond
        cases v with
        | keyword k =>
          obtain rfl : k = .IN := Token.keyword.inj (hu'.symm.trans hIN)
          cases hws
        | key x => cases hws
        | name x => rcases hu' with h | h <;> cases h.symm.trans hIN
        | _ => cases hu'.symm.trans hIN
    | key x => cases hws
    | _ => exact varBefore?_of_first (.cons (by rw [show u.token = _ from hu]; rfl))

theorem opens_listWords {es : List Expr} (he : PartReadable style e)
    (hts : Shown ts (listWords style (e :: es))) : Opens 0 ts := by
  obtain ⟨us, vs, rfl, hus, -⟩ := hts.append_inv
  exact (he us hus).opens.append vs

theorem list_leads {items : List Expr} (hitems : ∀ e ∈ items, PartReadable style e)
    (hmember : startsMember (listWords style items) = false)
    (hts : Shown ts (words style (.list items))) : Leads 11 (.list items) ts := by
  obtain ⟨t, ts, rfl, ht, hts⟩ := hts.cons_inv
  obtain ⟨us, vs, rfl, hus, hvs⟩ := hts.append_inv
  obtain ⟨u, rfl, hu⟩ := hvs.singleton_inv
  refine .of_atom fun n rest hn hrest => ?_
  simp only [length_append, length_cons, length_nil] at hn
  obtain _ | n := n
  · omega
  rw [cons_append, atom_bracket ht, append_assoc, singleton_append, bracketed]
  refine run_then (varBefore?_member hus hmember hu) ?_
  cases items with
  | nil =>
    obtain rfl := hus.nil_inv
    exact run_bind (eat_eq hu)
  | cons e es =>
    have hopens := opens_listWords (hitems e mem_cons_self) hus
    refine run_then (eat_away (hopens.away (by decide) _)) ?_
    exact run_then (expressions_run (cons_ne_nil _ _) hitems hus (by omega)
      (.of_token hu rfl) (.of_token hu (by decide))) (run_bind (expect_eq hu _))

theorem arguments_run
    (hargs : ∀ e ∈ args, PartReadable style e) (hdistinct : distinct → args ≠ []) (hts : Shown ts
      ((if distinct then [.keyword .DISTINCT] else []) ++ (listWords style args ++ [.symbol
      .rightParen]))) (hn : 32 * ts.length ≤ n) :
    arguments n f (ts ++ rest) = .ok (.call f args distinct, rest) := by
  obtain ⟨ds, ts, rfl, hds, hts⟩ := hts.append_inv
  obtain ⟨us, vs, rfl, hus, hvs⟩ := hts.append_inv
  obtain ⟨u, rfl, hu⟩ := hvs.singleton_inv
  simp only [length_append, length_cons, length_nil] at hn
  obtain _ | n := n
  · omega
  rw [arguments, append_assoc, append_assoc, singleton_append]
  cases args with
  | nil =>
    cases distinct with
    | true => exact absurd rfl (hdistinct rfl)
    | false =>
      obtain rfl := hds.nil_inv
      obtain rfl := hus.nil_inv
      refine run_then (eat_away (.of_token hu (by decide))) ?_
      exact run_then (check_eq hu) (run_bind (expect_eq hu _))
  | cons e es =>
    have hopens := opens_listWords (hargs e mem_cons_self) hus
    have hlist : expressions n (us ++ u :: rest) = .ok (e :: es, u :: rest) :=
      expressions_run (cons_ne_nil _ _) hargs hus (by omega) (.of_token hu rfl)
        (.of_token hu (by decide))
    cases distinct with
    | true =>
      obtain ⟨d, rfl, hd⟩ := hds.singleton_inv
      refine run_then (eat_away (.of_token hd (by decide))) ?_
      refine run_then (check_away (.of_token hd (by decide))) ?_
      refine run_then (eat_eq hd) (run_then hlist ?_)
      exact run_bind (expect_eq hu _)
    | false =>
      obtain rfl := hds.nil_inv
      refine run_then (eat_away (hopens.away (by decide) _)) ?_
      refine run_then (check_away (hopens.away (by decide) _)) ?_
      refine run_then (eat_away (hopens.away (by decide) _)) (run_then hlist ?_)
      exact run_bind (expect_eq hu _)

theorem arguments_star {u : PlacedToken} (ht : t.token = .symbol .star)
    (hu : u.token = .symbol .rightParen) :
    arguments (n + 1) f (t :: u :: rest) = .ok (.call f [.star] false, rest) :=
  run_then (eat_eq ht) (run_bind (expect_eq hu _))

theorem call_leads (hargs : ∀ e ∈ args, PartReadable style e)
    (hdistinct : distinct → args ≠ []) (hts : Shown ts (words style (.call f args distinct))) :
    Leads 11 (.call f args distinct) ts := by
  obtain ⟨t, ts, rfl, ht, hts⟩ := hts.cons_inv
  obtain ⟨u, ts, rfl, hu, hts⟩ := hts.cons_inv
  refine .of_atom fun n rest hn hrest => ?_
  simp only [length_cons] at hn
  rw [cons_append, atom_name ht]
  refine run_then (eat_eq hu) (arguments_run hargs hdistinct hts ?_)
  omega

theorem callStar_leads (hts : Shown ts (words style (.call f [.star] false)))
    (hstyle : style .star = false) : Leads 11 (.call f [.star] false) ts := by
  obtain ⟨t, ts, rfl, ht, hts⟩ := hts.cons_inv
  obtain ⟨u, ts, rfl, hu, hts⟩ := hts.cons_inv
  simp only [listWords, moreWords, words, hstyle, enclose] at hts
  obtain ⟨v, ts, rfl, hv, hts⟩ := hts.cons_inv
  obtain ⟨w, rfl, hw⟩ := hts.singleton_inv
  refine .of_atom fun n rest hn hrest => ?_
  obtain _ | n := n
  · omega
  rw [cons_append, atom_name ht]
  exact run_then (eat_eq hu) (arguments_star hv hw)

theorem map_leads (hes : ∀ i ∈ es, PartReadable style i.2)
    (hts : Shown ts (words style (.map es))) : Leads 11 (.map es) ts := by
  refine .of_atom fun n rest hn hrest => ?_
  have hrun : entries n (ts ++ rest) = .ok (es, rest) := entries_run hes hts (by omega)
  obtain ⟨t, ts, rfl, ht, -⟩ := hts.cons_inv
  rw [cons_append, atom_brace ht]
  exact run_bind hrun

theorem branches_run {whens : List (Expr × Expr)} {os ws : List PlacedToken} (hne : whens ≠ [])
    (hwhens : Parser.whens n (ws ++ (os ++ t :: rest)) = .ok (whens, os ++ t :: rest))
    (hotherwise : Parser.optional n (.keyword .ELSE) (os ++ t :: rest) = .ok (otherwise, t :: rest))
    (ht : t.token = .keyword .END) : (do
      let branches ← Parser.whens n
      if branches.isEmpty then fail "WHEN"
      else
        let otherwise ← Parser.optional n (.keyword .ELSE)
        expect (.keyword .END) "END"
        return .caseOf operand branches otherwise : Parser Expr) (ws ++ (os ++ t :: rest)) =
      .ok (.caseOf operand whens otherwise, rest) := by
  refine run_then hwhens ?_
  obtain ⟨w, whens, rfl⟩ := exists_cons_of_ne_nil hne
  exact run_then hotherwise (run_bind (expect_eq ht _))

theorem caseOf_leads {whens : List (Expr × Expr)}
    (hoperand : ∀ e ∈ operand, PartReadable style e) (hne : whens ≠ [])
    (hwhens : ∀ w ∈ whens, PartReadable style w.1) (hthens : ∀ w ∈ whens, PartReadable style w.2)
    (hotherwise : ∀ e ∈ otherwise, PartReadable style e)
    (hts : Shown ts (words style (.caseOf operand whens otherwise))) :
    Leads 11 (.caseOf operand whens otherwise) ts := by
  obtain ⟨t, ts, rfl, ht, hts⟩ := hts.cons_inv
  obtain ⟨us, ts, rfl, hus, hts⟩ := hts.append_inv
  obtain ⟨ws, ts, rfl, hws, hts⟩ := hts.append_inv
  obtain ⟨os, ts, rfl, hos, hts⟩ := hts.append_inv
  obtain ⟨u, rfl, hu⟩ := hts.singleton_inv
  refine .of_atom fun n rest hn hrest => ?_
  simp only [length_append, length_cons, length_nil] at hn
  obtain _ | n := n
  · omega
  have hELSE {P : Token → Prop} (h1 : P (.keyword .ELSE)) (h2 : P (.keyword .END)) :
      Heads P (os ++ u :: rest) :=
    heads_optionWords hos h1 (fun _ h => h) (.of_token hu h2)
  have helse : Parser.optional n (.keyword .ELSE) (os ++ u :: rest) = .ok (otherwise, u :: rest) :=
    optional_run hotherwise hos (fun _ h => h) (by omega)
      (.of_token hu rfl) (.of_token hu (by decide))
  have hbranches : Parser.whens n (ws ++ (os ++ u :: rest)) = .ok (whens, os ++ u :: rest) :=
    whens_run hwhens hthens hws (by omega) (hELSE rfl rfl) (hELSE (by decide) (by decide))
  obtain ⟨v, vs, rfl, hWHEN⟩ : ∃ v vs, ws = v :: vs ∧ v.token = .keyword .WHEN := by
    obtain ⟨w, whens, rfl⟩ := exists_cons_of_ne_nil hne
    obtain ⟨v, vs, rfl, hv, -⟩ := hws.cons_inv
    exact ⟨v, vs, rfl, hv⟩
  rw [cons_append, atom_case ht, caseExpression]
  simp only [append_assoc, singleton_append]
  cases operand with
  | none =>
    obtain rfl := hus.nil_inv
    exact run_then (check_eq hWHEN) (branches_run hne hbranches helse hu)
  | some e =>
    have he := hoperand e rfl us hus
    refine run_then (check_away (he.opens.away (by decide) _)) ?_
    refine run_then (he.run n _ ?_ (.cons (hWHEN ▸ rfl))) (branches_run hne hbranches helse hu)
    omega

theorem comprehension_leads {source : Expr} {filter result : Option Expr}
    (hsource : PartReadable style source) (hfilter : ∀ e ∈ filter, PartReadable style e)
    (hresult : ∀ e ∈ result, PartReadable style e)
    (hts : Shown ts (words style (.comprehension x source filter result))) :
    Leads 11 (.comprehension x source filter result) ts := by
  obtain ⟨t, ts, rfl, ht, hts⟩ := hts.cons_inv
  obtain ⟨u, ts, rfl, hu, hts⟩ := hts.cons_inv
  obtain ⟨v, ts, rfl, hv, hts⟩ := hts.cons_inv
  obtain ⟨us, ts, rfl, hus, hts⟩ := hts.append_inv
  obtain ⟨fs, ts, rfl, hfs, hts⟩ := hts.append_inv
  obtain ⟨rs, ts, rfl, hrs, hts⟩ := hts.append_inv
  obtain ⟨w, rfl, hw⟩ := hts.singleton_inv
  refine .of_atom fun n rest hn hrest => ?_
  simp only [length_append, length_cons, length_nil] at hn
  obtain _ | n := n
  · omega
  have hpipe {P : Token → Prop} (h1 : P (.symbol .pipe)) (h2 : P (.symbol .rightBracket)) :
      Heads P (rs ++ w :: rest) :=
    heads_optionWords hrs h1 (fun _ h => h) (.of_token hw h2)
  have hWHERE : Closed (fs ++ (rs ++ w :: rest)) :=
    heads_optionWords (k := .keyword .WHERE) hfs rfl (fun _ h => h) (hpipe rfl rfl)
  have hmember : varBefore? (.keyword .IN) (u :: v :: (us ++ (fs ++ (rs ++ w :: rest)))) =
      .ok (some x, us ++ (fs ++ (rs ++ w :: rest))) := by
    refine run_then (a := some v.token) rfl ?_
    rw [if_pos (beq_iff_eq.mpr (congrArg some hv))]
    exact run_then (varName?_name hu) rfl
  rw [cons_append, atom_bracket ht, bracketed]
  simp only [cons_append, append_assoc, nil_append]
  refine run_then hmember ?_
  refine run_then ((hsource us hus).run n _ ?_ hWHERE) ?_
  · omega
  refine run_then (optional_run hfilter hfs (fun _ h => h) ?_ (hpipe rfl rfl)
    (hpipe (by decide) (by decide))) ?_
  · omega
  refine run_then (optional_run hresult hrs (fun _ h => h) ?_ (.of_token hw rfl)
    (.of_token hw (by decide))) ?_
  · omega
  exact run_bind (expect_eq hw _)

end Parser
end CypherTraversal
