import CypherTraversal.Proofs.Grammar.Reading
import CypherTraversal.Proofs.Grammar.Spelled
import CypherTraversal.Query.Text
import Mathlib.Data.List.Chain

/-! # Texts of expressions

The text of an expression has no parentheses, and it has quotes around names that are not plain. It
is read back where the parts hold together on their own, and where its names are words that the
scanner takes for names. -/

namespace CypherTraversal

open List Lexer Text

variable {k : String} {x? : Option String} {ls : List String} {l? : Option PathLength}
  {es? : Option (List (String × Expr))} {T : PlacedToken → Prop}

def Word.legible : Word → Bool
  | name x => isWritable x && (!isPlainName x || (Keyword.ofWord? x).isNone)
  | key x | parameter x => isWritable x
  | integer n => Scalar.fits n
  | float x => isScanned x
  | symbol _ | keyword _ | string _ => true

def Word.callable : Word → Word → Bool
  | name x, symbol .leftParen => isWord x && (Keyword.ofWord? x).isNone
  | _, _ => true

structure Legible (ws : List Word) : Prop where
  words : ∀ w ∈ ws, w.legible
  calls : ws.IsChain fun v w => v.callable w

namespace Legible

variable {w : Word} {ws vs : List Word}

theorem append (h : Legible (ws ++ vs)) : Legible ws ∧ Legible vs := by
  obtain ⟨hws, hvs⟩ := forall_mem_append.mp h.words
  obtain ⟨hcalls, hcalls', -⟩ := isChain_append.mp h.calls
  exact ⟨⟨hws, hcalls⟩, ⟨hvs, hcalls'⟩⟩

theorem cons (h : Legible (w :: ws)) : w.legible ∧ Legible ws := by
  have hws : Legible ([w] ++ ws) := h
  exact ⟨h.words w mem_cons_self, hws.append.2⟩

end Legible

namespace Expr

def unenclosed : Expr → Bool :=
  fun _ => false

def Spelled (e : Expr) : Prop :=
  Legible (e.words unenclosed) → ∀ {rest ws}, Tail rest ws →
    Lexed (e.text.toList ++ rest) (e.words unenclosed ++ ws)

namespace Spelled

variable {e l r : Expr} {es : List Expr} {x : String} {rest : List Char} {ws : List Word}

/-! ### Parts without parts -/

theorem integer (n : Int) : Spelled (.literal (.int n)) := by
  intro hlegible rest ws h
  cases n with
  | ofNat n => exact .integer (hlegible.words (.integer n) mem_cons_self) h
  | negSucc n =>
    have hwords : (Expr.literal (.int (.negSucc n))).words unenclosed =
        [.symbol .minus, .integer (n + 1)] := if_pos (Int.negSucc_lt_zero n)
    have htext : (Expr.literal (.int (.negSucc n))).text.toList =
        '-' :: (toString (n + 1)).toList := String.toList_append
    rw [hwords] at hlegible ⊢
    rw [htext]
    have hinteger := Lexed.integer hlegible.cons.2.cons.1 h
    obtain ⟨c, cs, hdigits, hc⟩ := toDigits_eq_cons (n + 1)
    rw [Nat.toString_eq_ofList_toDigits, String.toList_ofList, hdigits] at hinteger ⊢
    exact .negative hc hinteger

theorem float (x : Binary64) : Spelled (.literal (.float x)) := by
  intro hlegible rest ws h
  have hwords : (Expr.literal (.float x)).words unenclosed =
      if x.isNegative then [.symbol .minus, .float x.neg] else [.float x] := rfl
  change Lexed ((x.toText .plain).toList ++ rest) _
  rw [hwords] at hlegible ⊢
  split at hlegible
  · rename_i hneg
    have hx := hlegible.cons.2.cons.1
    have hfloat := Lexed.float hx h
    obtain ⟨c, cs, htext, hc, -⟩ := exists_digit_of_isScanned hx
    rw [htext] at hfloat
    rw [if_pos hneg, x.toText_of_isNegative hneg (not_isNaN_of_isScanned hx),
      String.toList_append, htext]
    exact .negative hc hfloat
  · rename_i hneg
    rw [if_neg hneg]
    exact .float hlegible.cons.1 h

theorem literal (s : Scalar) : Spelled (.literal s) := by
  cases s with
  | null => exact fun _ _ _ h => .keyword "null" (by decide) h
  | bool b =>
    cases b with
    | false => exact fun _ _ _ h => .keyword "false" (by decide) h
    | true => exact fun _ _ _ h => .keyword "true" (by decide) h
  | str s => exact fun _ _ _ h => .string s h.lexed
  | float x => exact .float x
  | int n => exact .integer n

theorem name (hlegible : (Word.name x).legible) (h : Tail rest ws) :
    Lexed ((writeName x).toList ++ rest) (.name x :: ws) := by
  obtain ⟨hx, hkeyword⟩ := Bool.and_eq_true_iff.mp hlegible
  refine .name hx (fun hplain => ?_) h
  rw [hplain] at hkeyword
  exact Option.isNone_iff_eq_none.mp hkeyword

theorem var (x : String) : Spelled (.var x) :=
  fun hlegible _ _ h => name hlegible.cons.1 h

theorem param (x : String) : Spelled (.param x) := by
  intro hlegible rest ws h
  simp only [text, String.toList_append, append_assoc]
  exact .parameter hlegible.cons.1 h

theorem star : Spelled .star :=
  fun _ _ _ h => h.lexed.symbol rfl

/-! ### Operators -/

theorem binaryOp (op : BinaryOp) (h : Lexed rest ws) :
    Lexed (op.symbol.toList ++ ' ' :: rest) (op.words ++ ws) := by
  have hwith : Tail (" WITH".toList ++ ' ' :: rest) (.keyword .WITH :: ws) :=
    .blank (.keyword "WITH" (by decide) (.blank h))
  cases op with
  | compare c =>
    cases c with
    | eq | lt | gt => exact h.blank.symbol rfl
    | ne | le | ge => exact h.blank.symbolPair rfl
  | arith a => cases a <;> exact h.blank.symbol rfl
  | and => exact .keyword "AND" (by decide) (.blank h)
  | or => exact .keyword "OR" (by decide) (.blank h)
  | xor => exact .keyword "XOR" (by decide) (.blank h)
  | member => exact .keyword "IN" (by decide) (.blank h)
  | text m =>
    cases m with
    | contains => exact .keyword "CONTAINS" (by decide) (.blank h)
    | startsWith => exact .keyword "STARTS" (by decide) hwith
    | endsWith => exact .keyword "ENDS" (by decide) hwith

theorem access (h : Spelled e) : Spelled (.access e k) := by
  intro hlegible rest ws htail
  obtain ⟨he, hkey⟩ := hlegible.append
  simp only [words, text, String.toList_append, append_assoc]
  exact h he (htail.access hkey.cons.2.cons.1)

theorem binary (op : BinaryOp) (hl : Spelled l) (hr : Spelled r) : Spelled (.binary l op r) := by
  intro hlegible rest ws htail
  obtain ⟨hlleft, hlegible⟩ := hlegible.append
  obtain ⟨-, hlright⟩ := hlegible.append
  simp only [words, text, String.toList_append, append_assoc]
  exact hl hlleft (.blank (binaryOp op (hr hlright htail)))

theorem not (h : Spelled e) : Spelled (.unary .not e) := by
  intro hlegible rest ws htail
  simp only [text, String.toList_append, append_assoc]
  exact .keyword "NOT" (by decide) (.blank (h hlegible.cons.2 htail))

theorem isNull (h : Spelled e) : Spelled (.unary .isNull e) := by
  intro hlegible rest ws htail
  simp only [words, text, String.toList_append, append_assoc]
  refine h hlegible.append.1 (.blank (.keyword "IS" (by decide) (.blank ?_)))
  exact .keyword "NULL" (by decide) htail

theorem isNotNull (h : Spelled e) : Spelled (.unary .isNotNull e) := by
  intro hlegible rest ws htail
  have hnull : Lexed ("NOT NULL".toList ++ rest) (.keyword .NOT :: .keyword .NULL :: ws) :=
    .keyword "NOT" (by decide) (.blank (.keyword "NULL" (by decide) htail))
  simp only [words, text, String.toList_append, append_assoc]
  exact h hlegible.append.1 (.blank (.keyword "IS" (by decide) (.blank hnull)))

/-! ### Lists -/

theorem toList_intercalate_cons (sep s : String) (ss : List String) :
    (sep.intercalate (s :: ss)).toList =
      s.toList ++ ss.flatMap fun t => sep.toList ++ t.toList := by
  rw [String.toList_intercalate]
  induction ss generalizing s with
  | nil => simp
  | cons t ss ih =>
    rw [map_cons, map_cons, intercalate_cons_cons, ← map_cons, ih]
    simp

theorem moreItems (h : ∀ e ∈ es, Spelled e) (hlegible : Legible (moreWords unenclosed es))
    (htail : Tail rest ws) :
    Tail ((texts es).flatMap (fun t => ", ".toList ++ t.toList) ++ rest)
      (moreWords unenclosed es ++ ws) := by
  induction es with
  | nil => exact htail
  | cons e es ih =>
    obtain ⟨he, hes⟩ := forall_mem_cons.mp h
    obtain ⟨hle, hles⟩ := hlegible.cons.2.append
    simp only [moreWords, texts, flatMap_cons, append_assoc, cons_append]
    exact .symbol rfl rfl (.blank (he hle (ih hes hles)))

theorem items (h : ∀ e ∈ es, Spelled e) (hlegible : Legible (listWords unenclosed es))
    (htail : Tail rest ws) :
    Lexed ((", ".intercalate (texts es)).toList ++ rest) (listWords unenclosed es ++ ws) := by
  cases es with
  | nil => exact htail.lexed
  | cons e es =>
    obtain ⟨he, hes⟩ := forall_mem_cons.mp h
    obtain ⟨hle, hles⟩ := hlegible.append
    rw [texts, toList_intercalate_cons]
    simp only [listWords, append_assoc]
    exact he hle (moreItems hes hles htail)

theorem list (h : ∀ e ∈ es, Spelled e) : Spelled (.list es) := by
  intro hlegible rest ws htail
  simp only [words, text, String.toList_append, append_assoc, cons_append]
  exact .symbol rfl (items h hlegible.cons.2.append.1 (.symbol rfl rfl htail.lexed))

theorem call {f : String} {distinct : Bool} (h : ∀ e ∈ es, Spelled e) :
    Spelled (.call f es distinct) := by
  intro hlegible rest ws htail
  have hfunction := (isChain_cons_cons.mp hlegible.calls).1
  obtain ⟨hf, hkeyword⟩ := Bool.and_eq_true_iff.mp hfunction
  obtain ⟨-, hargs⟩ := hlegible.cons.2.cons.2.append
  have hclosed := items h hargs.append.1 (.symbol (c := ')') rfl rfl htail.lexed)
  simp only [words, text, String.toList_append, append_assoc, cons_append]
  refine .function hf (Option.isNone_iff_eq_none.mp hkeyword) (.symbol rfl rfl ?_)
  cases distinct with
  | false => exact hclosed
  | true => exact .keyword "DISTINCT" (by decide) (.blank hclosed)

/-! ### Maps -/

theorem entry (h : Spelled e) (hk : isWritable k)
    (hlegible : Legible (e.words unenclosed)) (htail : Tail rest ws) :
    Lexed ((writeName k ++ ": " ++ e.text).toList ++ rest)
      (.key k :: .symbol .colon :: (e.words unenclosed ++ ws)) := by
  simp only [String.toList_append, append_assoc]
  exact .key hk (.symbol rfl rfl (.blank (h hlegible htail)))

theorem moreEntries {es : List (String × Expr)} (h : ∀ p ∈ es, Spelled p.2)
    (hlegible : Legible (moreEntryWords unenclosed es)) (htail : Tail rest ws) :
    Tail ((entryTexts es).flatMap (fun t => ", ".toList ++ t.toList) ++ rest)
      (moreEntryWords unenclosed es ++ ws) := by
  induction es with
  | nil => exact htail
  | cons p es ih =>
    obtain ⟨k, e⟩ := p
    obtain ⟨he, hes⟩ := forall_mem_cons.mp h
    obtain ⟨hk, hlegible⟩ := hlegible.cons.2.cons
    obtain ⟨hle, hles⟩ := hlegible.cons.2.append
    simp only [moreEntryWords, entryTexts, flatMap_cons, append_assoc, cons_append]
    exact .symbol rfl rfl (.blank (entry he hk hle (ih hes hles)))

theorem braces {es : List (String × Expr)} (h : ∀ p ∈ es, Spelled p.2)
    (hlegible : Legible (entryWords unenclosed es)) (hlexed : Lexed rest ws) :
    Lexed ((braced (entryTexts es)).toList ++ rest)
      (.symbol .leftBrace :: (entryWords unenclosed es ++ .symbol .rightBrace :: ws)) := by
  have hclosed : Tail ('\x7d' :: rest) (.symbol .rightBrace :: ws) := .symbol rfl rfl hlexed
  simp only [braced, String.toList_append, append_assoc]
  refine .symbol rfl ?_
  cases es with
  | nil => exact hclosed.lexed
  | cons p es =>
    obtain ⟨k, e⟩ := p
    obtain ⟨he, hes⟩ := forall_mem_cons.mp h
    obtain ⟨hk, hlegible⟩ := hlegible.cons
    obtain ⟨hle, hles⟩ := hlegible.cons.2.append
    rw [entryTexts, toList_intercalate_cons]
    simp only [entryWords, append_assoc, cons_append]
    exact entry he hk hle (moreEntries hes hles hclosed)

theorem map {es : List (String × Expr)} (h : ∀ p ∈ es, Spelled p.2) : Spelled (.map es) := by
  intro hlegible rest ws htail
  simp only [words, text, append_assoc, cons_append]
  exact braces h hlegible.cons.2.append.1 htail.lexed

/-! ### Parts that may be missing -/

theorem option (lead : String) {w : Word} {e? : Option Expr} (h : ∀ e ∈ e?, Spelled e)
    (hlead : ∀ {rest ws}, Lexed rest ws → Tail (lead.toList ++ rest) (w :: ws))
    (hlegible : Legible (optionWords unenclosed w e?)) (htail : Tail rest ws) :
    Tail ((optionText lead e?).toList ++ rest) (optionWords unenclosed w e? ++ ws) := by
  cases e? with
  | none => exact htail
  | some e =>
    simp only [optionText, String.toList_append, append_assoc]
    exact hlead (h e rfl hlegible.cons.2 htail)

theorem whens {whens : List (Expr × Expr)} (h : ∀ w ∈ whens, Spelled w.1)
    (h' : ∀ w ∈ whens, Spelled w.2) (hlegible : Legible (whenWords unenclosed whens))
    (htail : Tail rest ws) :
    Tail ((whensText whens).toList ++ rest) (whenWords unenclosed whens ++ ws) := by
  induction whens with
  | nil => exact htail
  | cons w whens ih =>
    obtain ⟨w, t⟩ := w
    obtain ⟨hw, hws⟩ := forall_mem_cons.mp h
    obtain ⟨ht, hts⟩ := forall_mem_cons.mp h'
    obtain ⟨hlw, hlegible⟩ := hlegible.cons.2.append
    obtain ⟨hlt, hlegible⟩ := hlegible.cons.2.append
    simp only [whenWords, whensText, String.toList_append, append_assoc, cons_append]
    refine .blank (.keyword "WHEN" (by decide) (.blank (hw hlw (.blank ?_))))
    exact .keyword "THEN" (by decide) (.blank (ht hlt (ih hws hts hlegible)))

theorem caseOf {operand otherwise : Option Expr} {whens : List (Expr × Expr)}
    (hoperand : ∀ e ∈ operand, Spelled e) (hwhens : ∀ w ∈ whens, Spelled w.1)
    (hthens : ∀ w ∈ whens, Spelled w.2) (hotherwise : ∀ e ∈ otherwise, Spelled e) :
    Spelled (.caseOf operand whens otherwise) := by
  intro hlegible rest ws htail
  obtain ⟨hloperand, hlegible⟩ := hlegible.cons.2.append
  obtain ⟨hlwhens, hlegible⟩ := hlegible.append
  have hend : Tail (" END".toList ++ rest) (.keyword .END :: ws) :=
    .blank (.keyword "END" (by decide) htail)
  have helse := option " ELSE " hotherwise
    (fun h => .blank (.keyword "ELSE" (by decide) (.blank h))) hlegible.append.1 hend
  have hwhen := Spelled.whens hwhens hthens hlwhens helse
  simp only [words, text, String.toList_append, append_assoc, cons_append, nil_append]
  cases operand with
  | none => exact .keyword "CASE" (by decide) hwhen
  | some e =>
    simp only [optionText, operandWords, String.toList_append, append_assoc]
    exact .keyword "CASE" (by decide) (.blank (hoperand e rfl hloperand hwhen))

theorem comprehension {x : String} {source : Expr} {filter result : Option Expr}
    (hsource : Spelled source) (hfilter : ∀ e ∈ filter, Spelled e)
    (hresult : ∀ e ∈ result, Spelled e) : Spelled (.comprehension x source filter result) := by
  intro hlegible rest ws htail
  obtain ⟨hx, hlegible⟩ := hlegible.cons.2.cons
  obtain ⟨hlsource, hlegible⟩ := hlegible.cons.2.append
  obtain ⟨hlfilter, hlegible⟩ := hlegible.append
  have hclosed : Tail (']' :: rest) (.symbol .rightBracket :: ws) := .symbol rfl rfl htail.lexed
  have hpipe := option " | " hresult (fun h => .blank (.symbol rfl h.blank))
    hlegible.append.1 hclosed
  have hwhere := option " WHERE " hfilter
    (fun h => .blank (.keyword "WHERE" (by decide) (.blank h))) hlfilter hpipe
  simp only [words, text, String.toList_append, append_assoc, cons_append]
  refine .symbol rfl (name hx (.blank (.keyword "IN" (by decide) (.blank ?_))))
  exact hsource hlsource hwhere

/-! ### Patterns -/

theorem variableName (hlegible : Legible (variableWords x?)) (htail : Tail rest ws) :
    Lexed ((writeVariable x?).toList ++ rest) (variableWords x? ++ ws) := by
  cases x? with
  | none => exact htail.lexed
  | some x => exact name hlegible.cons.1 htail

theorem labels (hlegible : Legible (labelWords ls)) (htail : Tail rest ws) :
    Tail ((String.join (ls.map (":" ++ writeName ·))).toList ++ rest) (labelWords ls ++ ws) := by
  induction ls with
  | nil => exact htail
  | cons l ls ih =>
    obtain ⟨hl, hls⟩ := hlegible.cons.2.cons
    rw [map_cons, String.join_cons]
    simp only [String.toList_append, append_assoc]
    exact .symbol rfl rfl (.key hl (ih hls))

theorem types (hlegible : Legible (typeWords ls)) (htail : Tail rest ws) :
    Tail ((writeTypes ls).toList ++ rest) (typeWords ls ++ ws) := by
  have hmore {ls : List String} (hlegible : Legible (moreTypeWords ls)) :
      Tail ((ls.map writeName).flatMap (fun t => "|".toList ++ t.toList) ++ rest)
        (moreTypeWords ls ++ ws) := by
    induction ls with
    | nil => exact htail
    | cons l ls ih =>
      obtain ⟨hl, hls⟩ := hlegible.cons.2.cons
      simp only [map_cons, flatMap_cons, append_assoc]
      exact .symbol rfl rfl (.key hl (ih hls))
  cases ls with
  | nil => exact htail
  | cons l ls =>
    obtain ⟨hl, hls⟩ := hlegible.cons.2.cons
    change Tail ((":" ++ "|".intercalate (writeName l :: ls.map writeName)).toList ++ rest) _
    rw [String.toList_append, toList_intercalate_cons]
    simp only [append_assoc]
    exact .symbol rfl rfl (.key hl (hmore hls))

theorem bound {n : Option Nat} (hlegible : Legible (boundWords n)) (htail : Tail rest ws) :
    Lexed (((n.map toString).getD "").toList ++ rest) (boundWords n ++ ws) := by
  cases n with
  | none => exact htail.lexed
  | some n => exact .integer hlegible.cons.1 htail

theorem length (hlegible : Legible (lengthWords l?)) (htail : Tail rest ws) :
    Tail (((l?.map PathLength.text).getD "").toList ++ rest) (lengthWords l? ++ ws) := by
  cases l? with
  | none => exact htail
  | some l =>
    obtain ⟨hmin, hmax⟩ := hlegible.cons.2.append
    change Tail (l.text.toList ++ rest) (l.words ++ ws)
    simp only [PathLength.text, PathLength.words, String.toList_append, append_assoc, cons_append]
    refine .symbol rfl rfl (bound hmin ?_)
    split
    · exact htail
    · rename_i hne
      rw [if_neg hne] at hmax
      rw [String.toList_append, append_assoc]
      exact ⟨⟨by rintro _ ⟨⟩; rfl, rfl, rfl⟩, .symbolPair rfl (bound hmax.cons.2 htail)⟩

theorem properties (h : ∀ es ∈ es?, ∀ p ∈ es, Spelled p.2)
    (hlegible : Legible (propertyWords unenclosed es?)) (htail : Tail rest ws) :
    Tail ((propertiesText es?).toList ++ rest) (propertyWords unenclosed es? ++ ws) := by
  cases es? with
  | none => exact htail
  | some es =>
    simp only [propertyWords, propertiesText, String.toList_append, append_assoc, cons_append]
    exact .blank (braces (h es rfl) hlegible.cons.2.append.1 htail.lexed)

theorem node (h : ∀ es ∈ es?, ∀ p ∈ es, Spelled p.2)
    (hlegible : Legible (elementWords unenclosed (.node x? ls es?))) (hlexed : Lexed rest ws) :
    Lexed ((elementText (.node x? ls es?)).toList ++ rest)
      (elementWords unenclosed (.node x? ls es?) ++ ws) := by
  obtain ⟨hx, hlegible⟩ := hlegible.cons.2.append
  obtain ⟨hls, hlegible⟩ := hlegible.append
  have hclosed : Tail (')' :: rest) (.symbol .rightParen :: ws) := .symbol rfl rfl hlexed
  simp only [elementWords, elementText, String.toList_append, append_assoc, cons_append]
  exact .symbol rfl (variableName hx (labels hls (properties h hlegible.append.1 hclosed)))

theorem relationship {direction : Direction}
    (h : ∀ es ∈ es?, ∀ p ∈ es, Spelled p.2)
    (hlegible : Legible (elementWords unenclosed (.relationship x? ls direction es? l?)))
    (hlexed : Lexed ('(' :: rest) ws) :
    Lexed ((elementText (.relationship x? ls direction es? l?)).toList ++ '(' :: rest)
      (elementWords unenclosed (.relationship x? ls direction es? l?) ++ ws) := by
  obtain ⟨hx, hlegible⟩ := hlegible.cons.2.cons.2.append
  obtain ⟨hls, hlegible⟩ := hlegible.append
  obtain ⟨hl, hlegible⟩ := hlegible.append
  have hinner {cs : List Char} {vs : List Word} (hclosed : Tail cs vs) :=
    variableName hx (types hls (length hl (properties h hlegible.append.1 hclosed)))
  simp only [elementWords, elementText, String.toList_append, append_assoc, cons_append]
  cases direction with
  | outgoing =>
    exact .symbol rfl (.symbol rfl (hinner (.symbol rfl rfl (hlexed.symbolPair rfl))))
  | incoming =>
    exact .symbolPair rfl (.symbol rfl (hinner (.symbol rfl rfl (hlexed.symbol rfl))))
  | both =>
    exact .symbol rfl (.symbol rfl (hinner (.symbol rfl rfl (hlexed.symbol rfl))))

theorem hops {es : List (PatternElement Expr)} (hes : PatternHops es)
    (h : ∀ e ∈ es, ∀ ps ∈ e.properties?, ∀ p ∈ ps, Spelled p.2)
    (hlegible : Legible (elementsWords unenclosed es)) (hlexed : Lexed rest ws) :
    Lexed ((elementsText es).toList ++ rest) (elementsWords unenclosed es ++ ws) := by
  induction hes with
  | nil => exact hlexed
  | cons hr hn _ ih =>
    obtain ⟨x?, ls, direction, es?, l?, rfl⟩ := hr
    obtain ⟨y?, ms, fs?, rfl⟩ := hn
    obtain ⟨hr, h⟩ := forall_mem_cons.mp h
    obtain ⟨hn, h⟩ := forall_mem_cons.mp h
    obtain ⟨hlr, hlegible⟩ := hlegible.append
    obtain ⟨hln, hlegible⟩ := hlegible.append
    have hopen : ∃ cs, (elementText (.node y? ms fs?)).toList = '(' :: cs := by
      simp only [elementText, String.toList_append, append_assoc]
      exact ⟨_, rfl⟩
    obtain ⟨cs, hcs⟩ := hopen
    have hn : ∀ es ∈ fs?, ∀ p ∈ es, Spelled p.2 := hn
    have hnode := node hn hln (ih h hlegible)
    rw [elementsText, elementsText, elementsWords, elementsWords]
    simp only [String.toList_append, append_assoc, hcs, cons_append] at hnode ⊢
    exact relationship hr hlr hnode

theorem pattern {p : Pattern Expr} (hpath : p.path = none) (halternates : p.Alternates)
    (h : ∀ e ∈ p.elements, ∀ ps ∈ e.properties?, ∀ i ∈ ps, Spelled i.2) :
    Spelled (.pattern p) := by
  intro hlegible rest ws htail
  obtain ⟨path, elements⟩ := p
  cases hpath
  obtain ⟨_, es, rfl, ⟨x?, ls, es?, rfl⟩, hes⟩ := halternates
  obtain ⟨hfirst, h⟩ := forall_mem_cons.mp h
  obtain ⟨hlfirst, hlegible⟩ := hlegible.append
  rw [words, text, elementsWords, elementsText]
  simp only [String.toList_append, append_assoc]
  exact node hfirst hlfirst (hops hes h hlegible htail.lexed)

/-! ### Signs -/

theorem negate (hformed : e.Formed T) (hgrouped : e.grouped unenclosed)
    (hrank : 10 ≤ e.rank) (h : Spelled e) : Spelled (.unary .negate e) := by
  intro hlegible rest ws htail
  have hlexed := h hlegible.cons.2 htail
  simp only [text, String.toList_append, append_assoc]
  refine .minus (fun c hc => ?_) hlexed
  obtain ⟨ts, hts, hshown⟩ := hlexed 0
  obtain ⟨us, vs, rfl, hus, -⟩ := hshown.append_inv
  obtain ⟨t, us, r, rfl, hr, hle⟩ := (hformed.reading rfl hgrouped us hus).1
  cases hchars : e.text.toList ++ rest with
  | nil =>
    rw [hchars] at hc
    cases hc
  | cons d cs =>
    rw [hchars] at hc hts
    cases hc
    refine not_or.mp fun hd => ?_
    have hlow := opens?_of_tokensFrom hd hts r hr
    omega

end Spelled

theorem Formed.spelled {e : Expr} (h : e.Formed T)
    (hgrouped : e.grouped unenclosed) : e.Spelled := by
  induction h with
  | literal _ _ | negated _ _ => exact .literal _
  | var _ => exact .var _
  | param _ _ => exact .param _
  | access _ _ ih => exact (ih (Bool.and_eq_true_iff.mp hgrouped).1).access
  | binary op _ _ ihl ihr =>
    simp only [grouped, Bool.and_eq_true] at hgrouped
    exact .binary op (ihl hgrouped.1.1.1.1) (ihr hgrouped.1.1.2)
  | unary op he ih =>
    cases op with
    | not => exact (ih (Bool.and_eq_true_iff.mp hgrouped).1).not
    | isNull => exact (ih (Bool.and_eq_true_iff.mp hgrouped).1).isNull
    | isNotNull => exact (ih (Bool.and_eq_true_iff.mp hgrouped).1).isNotNull
    | negate =>
      simp only [grouped, Bool.and_eq_true] at hgrouped
      obtain ⟨⟨hgrouped, hfits⟩, -⟩ := hgrouped
      exact (ih hgrouped).negate he hgrouped (of_decide_eq_true hfits)
  | callStar _ => exact .call (forall_mem_singleton.mpr .star)
  | callNone _ => exact .call (forall_mem_nil _)
  | call _ _ _ _ ih => exact .call fun e he => ih e he (listGrouped_iff.mp hgrouped e he).1
  | list _ ih =>
    have hitems := listGrouped_iff.mp (Bool.and_eq_true_iff.mp hgrouped).1
    exact .list fun e he => ih e he (hitems e he).1
  | map _ _ ih => exact .map fun p hp => ih p hp (entriesGrouped_iff.mp hgrouped p hp).1
  | caseOf _ _ _ _ _ ihoperand ihwhens ihthens ihotherwise =>
    simp only [grouped, Bool.and_eq_true] at hgrouped
    obtain ⟨⟨hoperand, hwhens⟩, hotherwise⟩ := hgrouped
    have hwhens := whensGrouped_iff.mp hwhens
    exact .caseOf (fun e he => ihoperand e he (optionGrouped_iff.mp hoperand e he).1)
      (fun w hw => ihwhens w hw (hwhens w hw).1.1) (fun w hw => ihthens w hw (hwhens w hw).2.1)
      (fun e he => ihotherwise e he (optionGrouped_iff.mp hotherwise e he).1)
  | @pattern p hpath hp _ ih =>
    have hsettled := elementsGrouped_iff.mp (Bool.and_eq_true_iff.mp hgrouped).1
    exact .pattern hpath hp.alternates fun e he es hes i hi =>
      ih e he es hes i hi (hsettled e he es hes i hi).1
  | comprehension _ _ _ _ ihsource ihfilter ihresult =>
    simp only [grouped, Bool.and_eq_true] at hgrouped
    obtain ⟨⟨⟨hsource, -⟩, hfilter⟩, hresult⟩ := hgrouped
    exact .comprehension (ihsource hsource)
      (fun e he => ihfilter e he (optionGrouped_iff.mp hfilter e he).1)
      (fun e he => ihresult e he (optionGrouped_iff.mp hresult e he).1)

end Expr
end CypherTraversal
