import CypherTraversal.Proofs.Grammar.Reading

/-! # Full parentheses

With parentheses around every compound part no operator can take what belongs to another one. The
parser reads such tokens back as the expression, whatever operators it is made of. -/

namespace CypherTraversal

open List

namespace Expr

/-- The expression stands in parentheses where it is part of another. -/
def isCompound : Expr → Bool
  | literal _ | var _ | param _ | list _ | call .. | star => false
  | _ => true

/-- Expressions without signs, floats, maps, patterns and comprehensions. -/
inductive Basic : Expr → Prop
  | int (n : Nat) : Basic (.literal (.int n))
  | str (s : String) : Basic (.literal (.str s))
  | bool (b : Bool) : Basic (.literal (.bool b))
  | null : Basic (.literal .null)
  | var (x : String) : Basic (.var x)
  | param (x : String) : Basic (.param x)
  | access {e : Expr} (key : String) (he : Basic e) : Basic (.access e key)
  | binary {l r : Expr} (op : BinaryOp) (hl : Basic l) (hr : Basic r) : Basic (.binary l op r)
  | not {e : Expr} (he : Basic e) : Basic (.unary .not e)
  | isNull {e : Expr} (he : Basic e) : Basic (.unary .isNull e)
  | isNotNull {e : Expr} (he : Basic e) : Basic (.unary .isNotNull e)
  | list {items : List Expr} (hitems : ∀ e ∈ items, Basic e) : Basic (.list items)
  | call (f : String) {args : List Expr} (distinct : Bool) (hdistinct : distinct → args ≠ [])
      (hargs : ∀ e ∈ args, Basic e) : Basic (.call f args distinct)
  | caseOf {operand otherwise : Option Expr} {whens : List (Expr × Expr)}
      (hoperand : ∀ e ∈ operand, Basic e) (hne : whens ≠ []) (hwhens : ∀ w ∈ whens, Basic w.1)
      (hthens : ∀ w ∈ whens, Basic w.2) (hotherwise : ∀ e ∈ otherwise, Basic e) :
    Basic (.caseOf operand whens otherwise)

namespace Basic

variable {e : Expr}

/-! ### Basic expressions are formed -/

theorem nameIn (x : String) : NameIn (fun _ => True) x :=
  ⟨⟨.identifier x, x, 0, 0⟩, trivial, .inl rfl⟩

theorem literal_formed {s : Scalar} (k : Token) (hs : Parser.literal? k = some s) :
    Formed (fun _ => True) (.literal s) :=
  .literal (t := ⟨k, "", 0, 0⟩) trivial hs

theorem formed (h : e.Basic) : e.Formed fun _ => True := by
  induction h with
  | int n => exact literal_formed (.integer n) rfl
  | str s => exact literal_formed (.string s) rfl
  | bool b =>
    cases b with
    | false => exact literal_formed (.keyword .FALSE) rfl
    | true => exact literal_formed (.keyword .TRUE) rfl
  | null => exact literal_formed (.keyword .NULL) rfl
  | var x => exact .var (nameIn x)
  | param x => exact .param (t := ⟨.parameter x, "", 0, 0⟩) trivial rfl
  | access key _ ih => exact .access ih (.inl (nameIn key))
  | binary op _ _ ihl ihr => exact .binary op ihl ihr
  | not _ ih | isNull _ ih | isNotNull _ ih => exact .unary _ ih
  | list _ ih => exact .list ih
  | @call f args distinct hdistinct _ ih =>
    cases args with
    | nil =>
      cases distinct with
      | false => exact .callNone (nameIn f)
      | true => exact absurd rfl (hdistinct rfl)
    | cons e es => exact .call distinct (nameIn f) (cons_ne_nil e es) ih
  | caseOf _ hne _ _ _ ihoperand ihwhens ihthens ihotherwise =>
    exact .caseOf ihoperand hne ihwhens ihthens ihotherwise

/-! ### Basic expressions are grouped -/

theorem endsInPattern (h : e.Basic) : e.endsInPattern = false := by
  induction h with
  | binary _ _ _ _ ihr => exact ihr
  | not _ ih => exact ih
  | _ => rfl

theorem startsNode_part (h : e.Basic) {w : Word} (ws : List Word) (hw : w.continuesNode = false) :
    startsNode (e.part isCompound ++ w :: ws) = false := by
  cases h with
  | int n =>
    change startsNode (Scalar.words (.int n) ++ w :: ws) = false
    rfl
  | bool b => cases b <;> rfl
  | var x => exact hw
  | _ => rfl

theorem startsNode_words (h : e.Basic) (hcompound : e.isCompound) :
    startsNode (e.words isCompound) = false := by
  cases h with
  | access key he | isNull he | isNotNull he => exact he.startsNode_part _ rfl
  | not he | caseOf => rfl
  | binary op hl hr =>
    cases op with
    | compare c => cases c <;> exact hl.startsNode_part _ rfl
    | arith a => cases a <;> exact hl.startsNode_part _ rfl
    | text m => cases m <;> exact hl.startsNode_part _ rfl
    | _ => exact hl.startsNode_part _ rfl
  | _ => cases hcompound

theorem rank_eq (h : e.Basic) (hcompound : e.isCompound = false) : e.rank = 11 := by
  cases h with
  | int n =>
    simp only [rank, Scalar.isSigned]
    exact if_neg (by simp)
  | _ => first | rfl | cases hcompound

theorem fits (h : e.Basic) {k : Nat} (hk : k ≤ 11) : e.fits isCompound k := by
  unfold Expr.fits
  cases hcompound : e.isCompound with
  | true => rw [if_pos rfl, h.startsNode_words hcompound]; rfl
  | false => rw [if_neg (by decide), h.rank_eq hcompound]; exact decide_eq_true hk

theorem startsMember_listWords {items : List Expr} (h : ∀ e ∈ items, e.Basic) :
    startsMember (listWords isCompound items) = false := by
  cases items with
  | nil => rfl
  | cons e es =>
    have hmore : moreWords isCompound es = [] ∨
        ∃ ws, moreWords isCompound es = .symbol .comma :: ws := by
      cases es with
      | nil => exact .inl rfl
      | cons e es => exact .inr ⟨_, rfl⟩
    change startsMember (e.part isCompound ++ moreWords isCompound es) = false
    have he := h e mem_cons_self
    cases he with
    | int n =>
      change startsMember (Scalar.words (.int n) ++ _) = false
      rfl
    | bool b => cases b <;> rfl
    | var x => rcases hmore with hmore | ⟨ws, hmore⟩ <;> rw [hmore] <;> rfl
    | _ => rfl

theorem grouped (h : e.Basic) : e.grouped isCompound := by
  have hsettled {e : Expr} (he : e.Basic) (hgrouped : e.grouped isCompound) :
      e.Settled isCompound := ⟨hgrouped, he.fits (Nat.zero_le _)⟩
  induction h with
  | access key he ih | not he ih | isNull he ih
  | isNotNull he ih => exact Bool.and_eq_true_iff.mpr ⟨ih, he.fits (by decide)⟩
  | @binary l r op hl hr ihl ihr =>
    have hlevel := Reading.level_le op
    simp [Expr.grouped, ihl, ihr, hl.fits (k := op.level) (by omega),
      hr.fits (k := op.level + 1) (by omega), hl.endsInPattern]
  | list hitems ih =>
    refine Bool.and_eq_true_iff.mpr ⟨?_, (Bool.not_eq_true' _).mpr (startsMember_listWords hitems)⟩
    exact listGrouped_iff.mpr fun e he => hsettled (hitems e he) (ih e he)
  | call f distinct _ hargs ih =>
    exact listGrouped_iff.mpr fun e he => hsettled (hargs e he) (ih e he)
  | caseOf hoperand _ hwhens hthens hotherwise ihoperand ihwhens ihthens ihotherwise =>
    refine Bool.and_eq_true_iff.mpr ⟨Bool.and_eq_true_iff.mpr ⟨?_, ?_⟩, ?_⟩
    · exact optionGrouped_iff.mpr fun e he => hsettled (hoperand e he) (ihoperand e he)
    · exact whensGrouped_iff.mpr fun w hw =>
        ⟨hsettled (hwhens w hw) (ihwhens w hw), hsettled (hthens w hw) (ihthens w hw)⟩
    · exact optionGrouped_iff.mpr fun e he => hsettled (hotherwise e he) (ihotherwise e he)
  | _ => rfl

end Basic
end Expr

/-! ### The inverse -/

def Word.place : Word → PlacedToken
  | symbol s => ⟨.symbol s, "", 0, 0⟩
  | keyword k => ⟨.keyword k, k.text, 0, 0⟩
  | integer n => ⟨.integer n, "", 0, 0⟩
  | float x => ⟨.float x, "", 0, 0⟩
  | string s => ⟨.string s, "", 0, 0⟩
  | parameter x => ⟨.parameter x, "", 0, 0⟩
  | name x | key x => ⟨.identifier x, x, 0, 0⟩

theorem shown_place (ws : List Word) : Shown (ws.map Word.place) ws := by
  induction ws with
  | nil => exact .nil
  | cons w ws ih =>
    refine .cons ?_ ih
    cases w with
    | name x => exact .inl rfl
    | key x => exact .inl (.inl rfl)
    | _ => rfl

/-- **The parser inverts full parentheses.** The words of RETURN and a basic expression, with
parentheses around every compound part, are the words of some tokens, and all such tokens are read
as the query that returns the expression. -/
theorem parser_inverts_parentheses {e : Expr} (he : e.Basic) :
    (∃ tokens, Shown tokens (.keyword .RETURN :: e.words Expr.isCompound)) ∧
    ∀ tokens, Shown tokens (.keyword .RETURN :: e.words Expr.isCompound) →
      Query.ofTokens tokens = .ok (.returning e) := by
  refine ⟨⟨_, shown_place _⟩, fun tokens htokens => ?_⟩
  obtain ⟨t, ts, rfl, ht, hts⟩ := htokens.cons_inv
  obtain ⟨hopens, hleads⟩ := he.formed.reading rfl he.grouped ts hts
  exact Query.ofTokens_return ht
    ((hleads.of_le hopens e.rank_le (Nat.zero_le _)).readable (hopens.mono (Nat.zero_le _)))

theorem sum_of_case_read : ∃ e : Expr, e.Basic ∧
    e = .binary (.access (.var "n") "age") (.arith .sub) (.caseOf none
      [(.unary .isNull (.var "x"), .call "f" [.list [.binary (.var "a") .member (.var "b")]] true)]
      none) ∧
    Query.ofTokens (List.map Word.place
      [.keyword .RETURN, .symbol .leftParen, .name "n", .symbol .dot, .key "age",
        .symbol .rightParen, .symbol .minus, .symbol .leftParen, .keyword .CASE, .keyword .WHEN,
        .symbol .leftParen, .name "x", .keyword .IS, .keyword .NULL, .symbol .rightParen,
        .keyword .THEN, .name "f", .symbol .leftParen, .keyword .DISTINCT, .symbol .leftBracket,
        .symbol .leftParen, .name "a", .keyword .IN, .name "b", .symbol .rightParen,
        .symbol .rightBracket, .symbol .rightParen, .keyword .END, .symbol .rightParen]) =
      .ok (.returning e) := by
  have hcall : Expr.Basic (.call "f" [.list [.binary (.var "a") .member (.var "b")]] true) := by
    refine .call "f" true (fun _ => List.cons_ne_nil _ _) (List.forall_mem_singleton.mpr ?_)
    exact .list (List.forall_mem_singleton.mpr (.binary _ (.var "a") (.var "b")))
  have hcase : Expr.Basic (.caseOf none [(.unary .isNull (.var "x"),
      .call "f" [.list [.binary (.var "a") .member (.var "b")]] true)] none) := by
    refine .caseOf (fun e he => ?_) (List.cons_ne_nil _ _)
      (List.forall_mem_singleton.mpr (.isNull (.var "x"))) (List.forall_mem_singleton.mpr hcall)
      (fun e he => ?_)
    · cases he
    · cases he
  have hbasic := Expr.Basic.binary (.arith .sub) (.access "age" (.var "n")) hcase
  exact ⟨_, hbasic, rfl, (parser_inverts_parentheses hbasic).2 _ (shown_place _)⟩

end CypherTraversal
