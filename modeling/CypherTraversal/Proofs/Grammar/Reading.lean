import CypherTraversal.Proofs.Grammar.Patterns
import CypherTraversal.Proofs.Number.Sign

/-! # Expressions are read back from their words

By induction on how an expression is formed: if every part of it can stand in its place, the tokens
that show its words are read as the expression. -/

namespace CypherTraversal

open CypherTraversal.Parser List CypherTraversal.Expr

variable {e? : Option Expr} {s : Scalar} {w : Word} {x : String} {T : PlacedToken → Prop}
  {es : List (String × Expr)} {t : PlacedToken} {us : List PlacedToken} {ws : List Word}

/-! ### Grouped lists -/

namespace Expr

variable {style : Expr → Bool}

def Settled (style : Expr → Bool) (e : Expr) : Prop :=
  grouped style e ∧ fits style 0 e

theorem listGrouped_iff {es : List Expr} : listGrouped style es ↔ ∀ e ∈ es, Settled style e :=
  iff_forall_mem rfl fun _ _ => by simp [listGrouped, Settled]

theorem entriesGrouped_iff : entriesGrouped style es ↔ ∀ i ∈ es, Settled style i.2 :=
  iff_forall_mem rfl fun _ _ => by simp [entriesGrouped, Settled]

theorem optionGrouped_iff : optionGrouped style e? ↔ ∀ e ∈ e?, Settled style e := by
  cases e? <;> simp [optionGrouped, Settled]

theorem whensGrouped_iff {ws : List (Expr × Expr)} :
    whensGrouped style ws ↔ ∀ w ∈ ws, Settled style w.1 ∧ Settled style w.2 :=
  iff_forall_mem rfl fun _ _ => by simp [whensGrouped, Settled, and_assoc]

theorem elementsGrouped_iff {es : List (PatternElement Expr)} :
    elementsGrouped style es ↔ ∀ e ∈ es, ∀ ps ∈ e.properties?, ∀ i ∈ ps, Settled style i.2 := by
  have hproperties (ps? : Option (List (String × Expr))) :
      propertiesGrouped style ps? ↔ ∀ ps ∈ ps?, ∀ i ∈ ps, Settled style i.2 := by
    cases ps? with
    | none => simp [propertiesGrouped]
    | some ps => simp only [propertiesGrouped, entriesGrouped_iff, Option.mem_some_iff, forall_eq']
  refine iff_forall_mem rfl fun e es => ?_
  cases e <;>
    simp only [elementsGrouped, Bool.and_eq_true, hproperties, PatternElement.properties?]

theorem rank_le (e : Expr) : e.rank ≤ 11 := by
  unfold rank
  split <;> try omega
  · split <;> omega
  · rename_i op _ _
    cases op with
    | arith a => cases a <;> decide
    | _ => simp [BinaryOp.level]

end Expr

/-! ### Parts -/

def Reading (style : Expr → Bool) (e : Expr) : Prop :=
  e.grouped style → ∀ ts, Shown ts (e.words style) → Opens e.rank ts ∧ Leads e.rank e ts

namespace Reading

variable {style : Expr → Bool} {e : Expr} {k : Nat} {ts : List PlacedToken}

theorem opens_token {u : Token} (ht : t.token = u) (hu : u.opens? = some k) : Opens k (t :: ts) :=
  ⟨t, ts, k, rfl, ht ▸ hu, le_rfl⟩

theorem part (h : Reading style e) (hgrouped : e.grouped style) (hfits : e.fits style k)
    (hk : k ≤ 11) (hts : Shown ts (e.part style)) : Opens k ts ∧ Leads k e ts := by
  unfold Expr.part at hts
  unfold fits at hfits
  cases hstyle : style e with
  | false =>
    rw [hstyle] at hts hfits
    obtain ⟨hopens, hleads⟩ := h hgrouped ts hts
    have hle : k ≤ e.rank := by simpa using hfits
    exact ⟨hopens.mono hle, hleads.of_le hopens e.rank_le hle⟩
  | true =>
    rw [hstyle] at hts hfits
    have hopens : Opens 11 ts := by
      obtain ⟨t, ts, rfl, ht, -⟩ := hts.cons_inv
      exact opens_token ht rfl
    have hleads : Leads 11 e ts := by
      refine enclosed_leads (by simpa using hfits) (fun us hus => ?_) hts
      obtain ⟨hopens, hleads⟩ := h hgrouped us hus
      exact hleads.of_le hopens e.rank_le (Nat.zero_le _)
    exact ⟨hopens.mono hk, hleads.of_le hopens le_rfl hk⟩

theorem readable (h : Reading style e) (hsettled : e.Settled style) : PartReadable style e := by
  intro ts hts
  obtain ⟨hopens, hleads⟩ := h.part hsettled.1 hsettled.2 (Nat.zero_le _) hts
  exact hleads.readable hopens

/-! ### What has no parts -/

theorem unsigned {k : Token} (hs : literal? k = some s) (hsigned : s.isSigned = false)
    (ht : t.token = k) :
    Opens (Expr.literal s).rank [t] ∧ Leads (Expr.literal s).rank (.literal s) [t] := by
  subst ht
  have hrank : (Expr.literal s).rank = 11 := if_neg (by rw [hsigned]; decide)
  rw [hrank]
  refine ⟨opens_token rfl ?_, .of_atom fun n rest _ _ => atom_literal hs⟩
  unfold literal? at hs
  split at hs <;> first | (rename_i h; rw [h]; rfl) | cases hs

theorem negative {k : Token} (hs : negated? k = some s) (hsigned : s.isSigned)
    {u : PlacedToken} (ht : t.token = .symbol .minus) (hu : u.token = k) :
    Opens (Expr.literal s).rank [t, u] ∧ Leads (Expr.literal s).rank (.literal s) [t, u] := by
  subst hu
  have hrank : (Expr.literal s).rank = 9 := if_pos hsigned
  rw [hrank]
  exact ⟨opens_token ht rfl, .negative ht hs⟩

theorem words_scalar (s : Scalar) :
    (s.isSigned = false ∧ ∃ w k, s.words = [w] ∧ literal? k = some s ∧
      ∀ t : PlacedToken, t.Shows w → t.token = k) ∨
    s.isSigned ∧ ∃ w k, s.words = [.symbol .minus, w] ∧ negated? k = some s ∧
      ∀ t : PlacedToken, t.Shows w → t.token = k := by
  cases s with
  | null => exact .inl ⟨rfl, _, .keyword .NULL, rfl, rfl, fun _ h => h⟩
  | bool b =>
    cases b with
    | false => exact .inl ⟨rfl, _, .keyword .FALSE, rfl, rfl, fun _ h => h⟩
    | true => exact .inl ⟨rfl, _, .keyword .TRUE, rfl, rfl, fun _ h => h⟩
  | int n =>
    by_cases hn : n < 0
    · refine .inr ⟨decide_eq_true hn, _, .integer n.natAbs, if_pos hn, ?_, fun _ h => h⟩
      exact congrArg (fun i => some (Scalar.int i)) (by omega)
    · refine .inl ⟨decide_eq_false hn, _, .integer n.natAbs, if_neg hn, ?_, fun _ h => h⟩
      exact congrArg (fun i => some (Scalar.int i)) (by omega)
  | float x =>
    by_cases hx : x.isNegative
    · refine .inr ⟨hx, _, .float x.neg, if_pos hx, ?_, fun _ h => h⟩
      exact congrArg (fun y => some (Scalar.float y)) x.neg_neg
    · exact .inl ⟨eq_false_of_ne_true hx, _, .float x, if_neg hx, rfl, fun _ h => h⟩
  | str s => exact .inl ⟨rfl, _, .string s, rfl, rfl, fun _ h => h⟩

theorem literal (s : Scalar) : Reading style (.literal s) := by
  intro _ ts hts
  change Shown ts s.words at hts
  obtain ⟨hsigned, w, k, hwords, hk, hw⟩ | ⟨hsigned, w, k, hwords, hk, hw⟩ := words_scalar s
  · rw [hwords] at hts
    obtain ⟨t, rfl, ht⟩ := hts.singleton_inv
    exact unsigned hk hsigned (hw t ht)
  · rw [hwords] at hts
    obtain ⟨t, ts, rfl, ht, hts⟩ := hts.cons_inv
    obtain ⟨u, rfl, hu⟩ := hts.singleton_inv
    exact negative hk hsigned ht (hw u hu)

theorem var (x : String) : Reading style (.var x) := by
  intro _ ts hts
  obtain ⟨t, rfl, ht⟩ := hts.singleton_inv
  have hopens : Opens 11 [t] := by
    rcases ht with ht | ht <;> exact opens_token ht rfl
  refine ⟨hopens, .of_atom fun n rest _ hrest => ?_⟩
  rw [singleton_append, atom_name ht]
  refine run_bind (eat_away (hrest.joins.mono fun k hk hparen => ?_))
  subst hparen
  exact absurd hk (by decide)

theorem param (x : String) : Reading style (.param x) := by
  intro _ ts hts
  obtain ⟨t, rfl, ht⟩ := hts.singleton_inv
  exact ⟨opens_token ht rfl, .of_atom fun n rest _ _ => atom_parameter ht⟩

/-! ### Operators -/

def edgeTokens : List Token :=
  [.symbol .arrowRight, .symbol .arrowLeft, .symbol .doubleDash, .symbol .minus, .symbol .arrowDash]

theorem apart_of_head (e : Expr) (ht : t.token ∉ edgeTokens) : e.Apart (t :: us) := by
  intro _ rest
  obtain ⟨token, _⟩ := t
  cases token with
  | symbol s => cases s <;> first | rfl | exact absurd ht (by simp [edgeTokens])
  | _ => rfl

theorem access {key : String} (h : Reading style e) : Reading style (.access e key) := by
  intro hgrouped ts hts
  obtain ⟨hgrouped, hfits⟩ := Bool.and_eq_true_iff.mp hgrouped
  obtain ⟨us, vs, rfl, hus, hvs⟩ := hts.append_inv
  obtain ⟨t, vs, rfl, ht, hvs⟩ := hvs.cons_inv
  obtain ⟨u, rfl, hu⟩ := hvs.singleton_inv
  obtain ⟨hopens, hleads⟩ := h.part hgrouped hfits (by decide) hus
  exact ⟨hopens.append _, hleads.access ht hu (apart_of_head e (ht ▸ by decide))⟩

theorem not (h : Reading style e) : Reading style (.unary .not e) := by
  intro hgrouped ts hts
  obtain ⟨hgrouped, hfits⟩ := Bool.and_eq_true_iff.mp hgrouped
  obtain ⟨t, ts, rfl, ht, hts⟩ := hts.cons_inv
  obtain ⟨-, hleads⟩ := h.part hgrouped hfits (by decide) hts
  exact ⟨opens_token ht rfl, hleads.not ht⟩

theorem heads_startsNumber (hts : Shown ts ws) (hws : startsNumber ws = false) :
    Heads (fun k => negated? k = none) ts := by
  rw [← append_nil ts]
  refine hts.heads (fun w hw t ht => ?_) .nil
  obtain ⟨vs, rfl⟩ := head?_eq_some_iff.mp hw
  cases w with
  | integer n | float x => cases hws
  | name x => rcases ht with h | h <;> rw [h] <;> rfl
  | key x => rcases ht with (h | h) | ⟨k, h, -⟩ <;> rw [h] <;> rfl
  | _ => rw [show t.token = _ from ht]; rfl

theorem heads_startsBracket (hts : Shown ts ws) (hws : startsBracket ws = false) :
    Heads (· ≠ .symbol .leftBracket) ts := by
  rw [← append_nil ts]
  refine hts.heads (fun w hw t ht hbracket => ?_) .nil
  obtain ⟨vs, rfl⟩ := head?_eq_some_iff.mp hw
  cases w with
  | symbol s =>
    obtain rfl : s = .leftBracket := Token.symbol.inj (ht.symm.trans hbracket)
    cases hws
  | name x => rcases ht with h | h <;> cases h.symm.trans hbracket
  | key x => exact PlacedToken.Shows.ne_symbol ht _ hbracket
  | _ => cases ht.symm.trans hbracket

theorem negate (h : Reading style e) : Reading style (.unary .negate e) := by
  intro hgrouped ts hts
  obtain ⟨hgrouped, hnumber⟩ := Bool.and_eq_true_iff.mp hgrouped
  obtain ⟨hgrouped, hfits⟩ := Bool.and_eq_true_iff.mp hgrouped
  obtain ⟨t, ts, rfl, ht, hts⟩ := hts.cons_inv
  obtain ⟨hopens, hleads⟩ := h.part hgrouped hfits (by decide) hts
  refine ⟨opens_token ht rfl, ?_⟩
  refine hleads.loosen_accesses.negate ht ?_
    (heads_startsNumber hts (by simpa [Expr.part] using hnumber))
  obtain ⟨u, us, r, rfl, -, -⟩ := hopens
  exact cons_ne_nil u us

theorem suffix?_test {op : UnaryOp} (hop : op = .isNull ∧ ws = [.keyword .IS, .keyword .NULL] ∨ op =
      .isNotNull ∧ ws = [.keyword .IS, .keyword .NOT, .keyword .NULL]) (hts : Shown ts ws) :
    ∃ t us, ts = t :: us ∧ t.token = .keyword .IS ∧
      ∀ rest, suffix? (ts ++ rest) = .ok (some (.test op), rest) := by
  rcases hop with ⟨rfl, rfl⟩ | ⟨rfl, rfl⟩
  · obtain ⟨⟨_, _⟩, _, rfl, ⟨⟩, hus⟩ := hts.cons_inv
    obtain ⟨⟨_, _⟩, rfl, ⟨⟩⟩ := hus.singleton_inv
    exact ⟨_, _, rfl, rfl, fun _ => rfl⟩
  · obtain ⟨⟨_, _⟩, _, rfl, ⟨⟩, hus⟩ := hts.cons_inv
    obtain ⟨⟨_, _⟩, _, rfl, ⟨⟩, hvs⟩ := hus.cons_inv
    obtain ⟨⟨_, _⟩, rfl, ⟨⟩⟩ := hvs.singleton_inv
    exact ⟨_, _, rfl, rfl, fun _ => rfl⟩

theorem test {op : UnaryOp} (h : Reading style e) (hop : op = .isNull ∧ ws = [.keyword .IS, .keyword
      .NULL] ∨ op = .isNotNull ∧ ws = [.keyword .IS, .keyword .NOT, .keyword .NULL])
    (hgrouped : e.grouped style) (hfits : e.fits style 5) (hts : Shown ts (e.part style ++ ws)) :
    Opens 5 ts ∧ Leads 5 (.unary op e) ts := by
  obtain ⟨us, vs, rfl, hus, hvs⟩ := hts.append_inv
  obtain ⟨t, vs, rfl, htoken, hsuffix⟩ := suffix?_test hop hvs
  obtain ⟨hopens, hleads⟩ := h.part hgrouped hfits (by decide) hus
  refine ⟨hopens.append _, ?_⟩
  exact hleads.test hsuffix (cons_ne_nil _ _) (.of_token htoken (by decide))
    (apart_of_head e (htoken ▸ by decide))

theorem isNull (h : Reading style e) : Reading style (.unary .isNull e) := by
  intro hgrouped ts hts
  obtain ⟨hgrouped, hfits⟩ := Bool.and_eq_true_iff.mp hgrouped
  exact h.test (.inl ⟨rfl, rfl⟩) hgrouped hfits hts

theorem isNotNull (h : Reading style e) : Reading style (.unary .isNotNull e) := by
  intro hgrouped ts hts
  obtain ⟨hgrouped, hfits⟩ := Bool.and_eq_true_iff.mp hgrouped
  exact h.test (.inr ⟨rfl, rfl⟩) hgrouped hfits hts

/-! ### Binary operators -/

theorem operator_head (op : BinaryOp) : ∃ w ws, op.words = w :: ws ∧ ∀ t : PlacedToken, t.Shows w →
    op = .arith .sub ∧ t.token = .symbol .minus ∨ t.token ∉ edgeTokens := by
  have hother {k : Token} (h : k ∉ edgeTokens) {t : PlacedToken} (ht : t.token = k) :
      op = .arith .sub ∧ t.token = .symbol .minus ∨ t.token ∉ edgeTokens :=
    .inr (ht ▸ h)
  cases op with
  | compare c => cases c <;> exact ⟨_, _, rfl, fun t ht => hother (by decide) ht⟩
  | arith a =>
    cases a with
    | sub => exact ⟨_, _, rfl, fun t ht => .inl ⟨rfl, ht⟩⟩
    | _ => exact ⟨_, _, rfl, fun t ht => hother (by decide) ht⟩
  | text m => cases m <;> exact ⟨_, _, rfl, fun t ht => hother (by decide) ht⟩
  | _ => exact ⟨_, _, rfl, fun t ht => hother (by decide) ht⟩

variable {l r : Expr} {op : BinaryOp}

theorem apart_operator {os : List PlacedToken} (hos : Shown os op.words)
    (hus : Shown us (r.part style)) (hopens : Opens k us) (hedge : (decide (op = .arith .sub) &&
      l.endsInPattern && startsBracket (r.part style)) = false) : l.Apart (os ++ us) := by
  obtain ⟨w, ws, hwords, hw⟩ := operator_head op
  rw [hwords] at hos
  obtain ⟨t, os, rfl, ht, hos⟩ := hos.cons_inv
  obtain ⟨rfl, htoken⟩ | htoken := hw t ht
  · intro hend rest
    obtain ⟨-, rfl⟩ := List.cons.inj hwords
    obtain rfl := hos.nil_inv
    have hbracket := heads_startsBracket hus (by simpa [hend] using hedge)
    obtain ⟨u, us, r, rfl, -, -⟩ := hopens
    have hu := hbracket.head
    obtain ⟨token, _⟩ := t
    obtain ⟨token, _⟩ := u
    cases htoken
    cases token with
    | symbol s => cases s <;> first | rfl | exact absurd rfl hu
    | _ => rfl
  · exact apart_of_head l htoken

theorem level_le (op : BinaryOp) : op.level ≤ 8 := by
  cases op with
  | arith a => cases a <;> decide
  | _ => simp [BinaryOp.level]

theorem operands (hl : Reading style l) (hr : Reading style r)
    (hgrouped : (Expr.binary l op r).grouped style)
    (hts : Shown ts ((Expr.binary l op r).words style)) :
    ∃ ls os rs, ts = ls ++ (os ++ rs) ∧ Shown os op.words ∧ l.Apart (os ++ rs) ∧
      Opens op.level ls ∧ Leads op.level l ls ∧ Leads (op.level + 1) r rs := by
  obtain ⟨hgrouped, hedge⟩ := Bool.and_eq_true_iff.mp hgrouped
  obtain ⟨hgrouped, hfitsr⟩ := Bool.and_eq_true_iff.mp hgrouped
  obtain ⟨hgrouped, hgroupedr⟩ := Bool.and_eq_true_iff.mp hgrouped
  obtain ⟨hgroupedl, hfitsl⟩ := Bool.and_eq_true_iff.mp hgrouped
  obtain ⟨ls, ts, rfl, hls, hts⟩ := hts.append_inv
  obtain ⟨os, rs, rfl, hos, hrs⟩ := hts.append_inv
  have hlevel := level_le op
  obtain ⟨hopensl, hleadsl⟩ := hl.part hgroupedl hfitsl (by omega) hls
  obtain ⟨hopensr, hleadsr⟩ := hr.part hgroupedr hfitsr (by omega) hrs
  exact ⟨ls, os, rs, rfl, hos, apart_operator hos hrs hopensr ((Bool.not_eq_true' _).mp hedge),
    hopensl, hleadsl, hleadsr⟩

theorem chained (level : Level) {k : Token} (hl : Reading style l)
    (hr : Reading style r) (hop : level.operator? k = some op) (hwords : op.words = [w])
    (hw : ∀ t : PlacedToken, t.Shows w → t.token = k) (hlevel : op.level = level.rank)
    (hrank : (Expr.binary l op r).rank = level.rank) : Reading style (.binary l op r) := by
  intro hgrouped ts hts
  obtain ⟨ls, os, rs, rfl, hos, hapart, hopens, hleadsl, hleadsr⟩ := operands hl hr hgrouped hts
  rw [hwords] at hos
  obtain ⟨t, rfl, ht⟩ := hos.singleton_inv
  rw [hlevel] at hopens hleadsl hleadsr
  rw [hrank]
  exact ⟨hopens.append _, hleadsl.binary (hw t ht ▸ hop) hleadsr hapart⟩

theorem compared {c : Comparison} {k : Token} (hl : Reading style l) (hr : Reading style r)
    (hc : comparison? k = some c) (hw : ∀ t : PlacedToken, t.Shows c.word → t.token = k) :
    Reading style (.binary l (.compare c) r) := by
  intro hgrouped ts hts
  obtain ⟨ls, os, rs, rfl, hos, hapart, hopens, hleadsl, hleadsr⟩ := operands hl hr hgrouped hts
  obtain ⟨t, rfl, ht⟩ := hos.singleton_inv
  exact ⟨(hopens.append _).mono (Nat.le_succ 3), hleadsl.comparison (hw t ht ▸ hc) hleadsr hapart⟩

theorem suffixed (hl : Reading style l) (hr : Reading style r) (hlevel : op.level = 5)
    (hrank : (Expr.binary l op r).rank = 5)
    (hop : ∀ os, Shown os op.words → Heads (fun t => t.joins ≤ 6) os ∧ os ≠ [] ∧
      ∀ rest, suffix? (os ++ rest) = .ok (some (.operator op), rest)) :
    Reading style (.binary l op r) := by
  intro hgrouped ts hts
  obtain ⟨ls, os, rs, rfl, hos, hapart, hopens, hleadsl, hleadsr⟩ := operands hl hr hgrouped hts
  obtain ⟨hjoins, hne, hsuffix⟩ := hop os hos
  rw [hlevel] at hopens hleadsl hleadsr
  rw [hrank]
  exact ⟨hopens.append _, hleadsl.suffix hsuffix hne hjoins hleadsr hapart⟩

theorem suffix?_operator (hop : op = .member ∨ ∃ m, op = .text m) (hts : Shown ts op.words) :
    Heads (fun t => t.joins ≤ 6) ts ∧ ts ≠ [] ∧
      ∀ rest, suffix? (ts ++ rest) = .ok (some (.operator op), rest) := by
  obtain rfl | ⟨m, rfl⟩ := hop
  · obtain ⟨⟨_, _⟩, rfl, ⟨⟩⟩ := hts.singleton_inv
    exact ⟨.cons le_rfl, cons_ne_nil _ _, fun _ => rfl⟩
  · cases m with
    | startsWith | endsWith =>
      obtain ⟨⟨_, _⟩, _, rfl, ⟨⟩, hus⟩ := hts.cons_inv
      obtain ⟨⟨_, _⟩, rfl, ⟨⟩⟩ := hus.singleton_inv
      exact ⟨.cons le_rfl, cons_ne_nil _ _, fun _ => rfl⟩
    | contains =>
      obtain ⟨⟨_, _⟩, rfl, ⟨⟩⟩ := hts.singleton_inv
      exact ⟨.cons le_rfl, cons_ne_nil _ _, fun _ => rfl⟩

theorem binary (op : BinaryOp) (hl : Reading style l) (hr : Reading style r) :
    Reading style (.binary l op r) := by
  cases op with
  | or => exact chained .or hl hr rfl rfl (fun _ h => h) rfl rfl
  | xor => exact chained .xor hl hr rfl rfl (fun _ h => h) rfl rfl
  | and => exact chained .and hl hr rfl rfl (fun _ h => h) rfl rfl
  | compare c => cases c <;> exact compared hl hr rfl fun _ h => h
  | text m => exact suffixed hl hr rfl rfl fun os hos => suffix?_operator (.inr ⟨m, rfl⟩) hos
  | member => exact suffixed hl hr rfl rfl fun os hos => suffix?_operator (.inl rfl) hos
  | arith a =>
    cases a with
    | add | sub => exact chained .sum hl hr rfl rfl (fun _ h => h) rfl rfl
    | mul | div | mod => exact chained .product hl hr rfl rfl (fun _ h => h) rfl rfl
    | pow => exact chained .power hl hr rfl rfl (fun _ h => h) rfl rfl

/-! ### Every expression -/

theorem settled_list {es : List Expr} (h : ∀ e ∈ es, Reading style e)
    (hgrouped : listGrouped style es) : ∀ e ∈ es, PartReadable style e :=
  fun e he => (h e he).readable (listGrouped_iff.mp hgrouped e he)

theorem settled_option (h : ∀ e ∈ e?, Reading style e)
    (hgrouped : optionGrouped style e?) : ∀ e ∈ e?, PartReadable style e :=
  fun e he => (h e he).readable (optionGrouped_iff.mp hgrouped e he)

theorem of_atom (hrank : e.rank = 11) (hwords : e.words style = w :: ws)
    (hw : ∀ t : PlacedToken, t.Shows w → t.token.opens? = some 11)
    (h : e.grouped style → ∀ ts, Shown ts (e.words style) → Leads 11 e ts) : Reading style e := by
  intro hgrouped ts hts
  rw [hrank]
  refine ⟨?_, h hgrouped ts hts⟩
  rw [hwords] at hts
  obtain ⟨t, ts, rfl, ht, -⟩ := hts.cons_inv
  exact opens_token rfl (hw t ht)

theorem opens?_name (t : PlacedToken) (ht : t.Shows (.name x)) : t.token.opens? = some 11 := by
  rcases ht with h | h <;> rw [h] <;> rfl

theorem opens?_symbol {s : Symbol} (hs : (Token.symbol s).opens? = some 11) (t : PlacedToken)
    (ht : t.Shows (.symbol s)) : t.token.opens? = some 11 :=
  (show t.token = _ from ht) ▸ hs

theorem call {f : String} {args : List Expr} {distinct : Bool} (h : ∀ e ∈ args, Reading style e)
    (hdistinct : distinct → args ≠ []) : Reading style (.call f args distinct) :=
  of_atom rfl rfl opens?_name fun hgrouped _ hts =>
    call_leads (settled_list h hgrouped) hdistinct hts

theorem list {items : List Expr} (h : ∀ e ∈ items, Reading style e) :
    Reading style (.list items) := by
  refine of_atom rfl rfl (opens?_symbol rfl) fun hgrouped ts hts => ?_
  obtain ⟨hgrouped, hmember⟩ := Bool.and_eq_true_iff.mp hgrouped
  exact list_leads (settled_list h hgrouped) ((Bool.not_eq_true' _).mp hmember) hts

theorem map (h : ∀ i ∈ es, Reading style i.2) : Reading style (.map es) :=
  of_atom rfl rfl (opens?_symbol rfl) fun hgrouped _ hts =>
    map_leads (fun i hi => (h i hi).readable (entriesGrouped_iff.mp hgrouped i hi)) hts

theorem caseOf {operand otherwise : Option Expr} {whens : List (Expr × Expr)}
    (hoperand : ∀ e ∈ operand, Reading style e) (hne : whens ≠ [])
    (hwhens : ∀ w ∈ whens, Reading style w.1) (hthens : ∀ w ∈ whens, Reading style w.2)
    (hotherwise : ∀ e ∈ otherwise, Reading style e) :
    Reading style (.caseOf operand whens otherwise) := by
  refine of_atom rfl rfl (fun t ht => (show t.token = _ from ht) ▸ rfl) fun hgrouped ts hts => ?_
  obtain ⟨hgrouped, helse⟩ := Bool.and_eq_true_iff.mp hgrouped
  obtain ⟨hcase, hgrouped⟩ := Bool.and_eq_true_iff.mp hgrouped
  have hsettled := whensGrouped_iff.mp hgrouped
  exact caseOf_leads (settled_option hoperand hcase) hne
    (fun w hw => (hwhens w hw).readable (hsettled w hw).1)
    (fun w hw => (hthens w hw).readable (hsettled w hw).2) (settled_option hotherwise helse) hts

theorem comprehension {source : Expr} {filter result : Option Expr} (hsource : Reading style source)
    (hfilter : ∀ e ∈ filter, Reading style e) (hresult : ∀ e ∈ result, Reading style e) :
    Reading style (.comprehension x source filter result) := by
  refine of_atom rfl rfl (opens?_symbol rfl) fun hgrouped ts hts => ?_
  obtain ⟨hgrouped, hresults⟩ := Bool.and_eq_true_iff.mp hgrouped
  obtain ⟨hgrouped, hfilters⟩ := Bool.and_eq_true_iff.mp hgrouped
  exact comprehension_leads (hsource.readable (Bool.and_eq_true_iff.mp hgrouped))
    (settled_option hfilter hfilters) (settled_option hresult hresults) hts

theorem pattern {p : Pattern Expr} (hpath : p.path = none) (hp : p.Built T fun _ => True)
    (h : ∀ e ∈ p.elements, ∀ es ∈ e.properties?, ∀ i ∈ es, Reading style i.2) :
    Reading style (.pattern p) := by
  obtain ⟨path, elements⟩ := p
  obtain ⟨first, hops, rfl, ⟨x?, ls, es?, rfl⟩, hhops⟩ := hp.alternates
  refine of_atom rfl rfl (opens?_symbol rfl) fun hgrouped ts hts => ?_
  obtain ⟨hgrouped, hlength⟩ := Bool.and_eq_true_iff.mp hgrouped
  have hsettled := elementsGrouped_iff.mp hgrouped
  refine pattern_leads hpath hp.alternates (of_decide_eq_true hlength) (fun e he => ⟨?_, ?_⟩) hts
  · exact fun es hes i hi => (h e he es hes i hi).readable (hsettled e he es hes i hi)
  · rintro y? ms d fs? l rfl
    exact (hp.elements _ he).2.2.2 l rfl

end Reading

theorem Expr.Formed.reading {style : Expr → Bool} (hstar : style .star = false) {e : Expr}
    (h : e.Formed T) : Reading style e := by
  induction h with
  | literal _ _ | negated _ _ => exact .literal _
  | var _ => exact .var _
  | param _ _ => exact .param _
  | access _ _ ih => exact ih.access
  | binary op _ _ ihl ihr => exact .binary op ihl ihr
  | unary op _ ih =>
    cases op with
    | not => exact ih.not
    | negate => exact ih.negate
    | isNull => exact ih.isNull
    | isNotNull => exact ih.isNotNull
  | callStar _ =>
    exact .of_atom rfl rfl Reading.opens?_name fun _ ts hts => callStar_leads hts hstar
  | callNone _ =>
    refine .call (fun e he => ?_) fun h => ?_
    · cases he
    · cases h
  | call distinct _ hne _ ih => exact .call ih fun _ => hne
  | list _ ih => exact .list ih
  | map _ _ ih => exact .map ih
  | caseOf _ hne _ _ _ ihoperand ihwhens ihthens ihotherwise =>
    exact .caseOf ihoperand hne ihwhens ihthens ihotherwise
  | pattern hpath hp _ ih => exact .pattern hpath hp ih
  | comprehension _ _ _ _ ihsource ihfilter ihresult =>
    exact .comprehension ihsource ihfilter ihresult

/-! ### Queries that return one expression -/

def Projection.only (e : Expr) : Projection where
  distinct := false
  items := [{ expr := e, asName := none }]
  order := []
  skip := none
  limit := none
  filter := none

/-- The query that returns one expression. -/
def Query.returning (e : Expr) : Query where
  clauses := [.project true (.only e)]
  union := []

theorem Readable.away {e : Expr} {ts : List PlacedToken} (h : Readable e ts) {k : Token}
    (hk : k.opens? = none) : Heads (· ≠ k) ts := by
  have haway := h.opens.away (t := k) (by rw [hk]; exact fun r hr => by cases hr) []
  rwa [append_nil] at haway

namespace Parser

variable {e : Expr} {t : PlacedToken} {ts : List PlacedToken}

theorem expression_run (h : Readable e ts) : expression ts = .ok (e, []) := by
  have hrun := h.run (callsPerToken * (ts.length + 1)) [] (by simp only [callsPerToken]; omega) .nil
  rwa [append_nil] at hrun

theorem projectionItem_run (h : Readable e ts) :
    projectionItem ts = .ok ({ expr := e, asName := none }, []) :=
  run_then (eat_away (h.away rfl)) (run_then (expression_run h) rfl)

theorem projection_run (h : Readable e ts) : projection true ts = .ok (.only e, []) := by
  have hitems : items projectionItem ts = .ok ([{ expr := e, asName := none }], []) := by
    refine run_then (a := ts) rfl ?_
    exact run_then (projectionItem_run h) rfl
  exact run_then (eat_away (h.away rfl)) (run_then hitems rfl)

theorem clause?_return (ht : t.token = .keyword .RETURN) :
    clause? (t :: ts) = (do return some (.project true (← projection true)) : Parser _) ts := by
  obtain ⟨_, _⟩ := t
  cases ht
  rfl

theorem query_run (ht : t.token = .keyword .RETURN) (h : Readable e ts) :
    query (t :: ts) = .ok (.returning e, []) := by
  have hclause : clause? (t :: ts) = .ok (some (.project true (.only e)), []) :=
    (clause?_return ht).trans (run_bind (projection_run h))
  have hclauses : clauses (t :: ts) = .ok ([.project true (.only e)], []) := by
    refine run_bind (a := [Clause.project true (.only e)]) ?_
    change clausesFrom (callsPerToken * ((t :: ts).length + 1)) (t :: ts) = _
    exact run_then hclause rfl
  exact run_then hclauses rfl

end Parser

theorem Query.ofTokens_return {e : Expr} {ts : List PlacedToken} (ht : t.token = .keyword .RETURN)
    (h : Readable e ts) :
    Query.ofTokens (t :: ts) = .ok (.returning e) :=
  congrArg (fun r => r.map Prod.fst) (Parser.query_run ht h)

end CypherTraversal
