import CypherTraversal.Proofs.Answers
import CypherTraversal.Proofs.Query.Numbers
import CypherTraversal.Value.Basic
import Mathlib.Data.List.Find

/-! # What tokens are made of

Words are what names without quotes are spelled with, and a keyword is a word too. What stands
between backquotes is not empty and has no backquote in it. A text value is written so that it is
read as one token. -/

namespace CypherTraversal

open List Scalar

variable {c : Char} {cs rest name : List Char} {n : Nat} {token : Token} {x : String} (s : String)

namespace Lexer

def isWord : Bool :=
  match s.toList with
  | [] => false
  | c :: cs => isWordStart c && cs.all isWordPart

def isQuotable : Bool :=
  !s.toList.isEmpty && s.toList.all (· != backquote)

def wordToken (x : String) : Token :=
  ((Keyword.ofWord? x).map Token.keyword).getD (.identifier x)

/-! ### Words -/

theorem isWord_iff :
    isWord x ↔ ∃ c cs, x = String.ofList (c :: cs) ∧ isWordStart c ∧ ∀ d ∈ cs, isWordPart d := by
  unfold isWord
  constructor
  · intro h
    split at h
    · cases h
    · rename_i c cs hx
      obtain ⟨hc, hcs⟩ := Bool.and_eq_true_iff.mp h
      exact ⟨c, cs, by rw [← hx, String.ofList_toList], hc, all_eq_true.mp hcs⟩
  · rintro ⟨c, cs, rfl, hc, hcs⟩
    rw [String.toList_ofList]
    exact Bool.and_eq_true_iff.mpr ⟨hc, all_eq_true.mpr hcs⟩

theorem not_isDigit_of_isWordStart (hc : isWordStart c) : c.isDigit = false := by
  rw [Bool.eq_false_iff]
  intro hdigit
  have hle := of_decide_eq_true (Bool.and_eq_true_iff.mp hdigit).2
  have hge : 'A'.val ≤ c.val := by
    rcases Bool.or_eq_true_iff.mp hc with h | h
    · rcases Bool.or_eq_true_iff.mp h with h | h
      · exact (of_decide_eq_true h).1
      · have hlow : 'a'.val ≤ c.val := of_decide_eq_true (Bool.and_eq_true_iff.mp h).1
        exact UInt32.le_trans (by decide) hlow
    · cases eq_of_beq h
      decide
  exact absurd (UInt32.le_trans hge hle) (by decide)

theorem scan_of_isWordPart (hc : isWordPart c) (cs : List Char) :
    scan c cs = if c.isDigit then scanNumber (c :: cs)
      else (.token (wordToken (String.ofList (c :: cs.takeWhile isWordPart))),
        (cs.takeWhile isWordPart).length + 1) := by
  have hne (d : Char) (hd : isWordPart d = false) : (c == d) = false := by
    refine beq_eq_false_iff_ne.mpr ?_
    rintro rfl
    rw [hc] at hd
    cases hd
  unfold scan isSpace wordToken
  simp only [hne ' ' (by decide), hne '\t' (by decide), hne '\r' (by decide), hne '\n' (by decide),
    hne '\x0c' (by decide), hne '/' (by decide), hne '\'' (by decide), hne '"' (by decide),
    hne backquote (by decide), hne '$' (by decide), Bool.or_self, Bool.false_and,
    Bool.false_eq_true, if_false, String.length_ofList, length_cons]
  split
  · rfl
  · rename_i hdigit
    have hstart : isWordStart c := by
      unfold isWordPart Char.isAlphanum at hc
      rwa [Bool.eq_false_iff.mpr hdigit, Bool.or_false] at hc
    rw [if_pos hstart]
    cases Keyword.ofWord? (String.ofList (c :: cs.takeWhile isWordPart)) <;> rfl

theorem isWordPart_of_isWordStart (hc : isWordStart c) : isWordPart c := by
  unfold isWordStart at hc
  unfold isWordPart Char.isAlphanum
  rw [Bool.or_right_comm, hc, Bool.true_or]

theorem isWordPart_of_isDigit (hc : c.isDigit) : isWordPart c := by
  simp [isWordPart, Char.isAlphanum, hc]

theorem scan_word (hc : isWordStart c) (hcs : ∀ d ∈ cs, isWordPart d)
    (hrest : ∀ d ∈ rest.head?, isWordPart d = false) :
    scan c (cs ++ rest) = (.token (wordToken (String.ofList (c :: cs))), cs.length + 1) := by
  rw [scan_of_isWordPart (isWordPart_of_isWordStart hc), not_isDigit_of_isWordStart hc,
    takeWhile_append hcs hrest]
  rfl

theorem scan_parameter (hne : cs ≠ []) (hcs : ∀ d ∈ cs, isWordPart d)
    (hrest : ∀ d ∈ rest.head?, isWordPart d = false) :
    scan '$' (cs ++ rest) = (.token (.parameter (String.ofList cs)), cs.length + 1) := by
  obtain ⟨d, ds, rfl⟩ := exists_cons_of_ne_nil hne
  have hd : d ≠ backquote := by
    rintro rfl
    cases hcs backquote mem_cons_self
  change (if (d :: (ds ++ rest)).head? == some backquote then _ else _) = _
  rw [if_neg (by simpa using hd), takeWhile_append hcs hrest]
  rfl

/-! ### Names between backquotes -/

theorem backquoted_append (hname : isQuotable (String.ofList name)) (rest : List Char) :
    backquoted (name ++ backquote :: rest) = (name, true) := by
  rw [isQuotable, String.toList_ofList, Bool.and_eq_true] at hname
  unfold backquoted
  rw [takeWhile_append (all_eq_true.mp hname.2) (by rintro _ ⟨⟩; rfl)]
  simpa using hname.1

theorem exists_backquoted (h : backquoted cs = (name, true)) :
    isQuotable (String.ofList name) ∧ ∃ rest, cs = name ++ backquote :: rest := by
  obtain ⟨run, rest, rfl, hrun, hname, hrest⟩ := exists_takeWhile (· != backquote) cs
  unfold backquoted at h
  rw [hrun] at h
  obtain ⟨rfl, hwhole⟩ := Prod.mk.inj h
  obtain ⟨hne, hlength⟩ := Bool.and_eq_true_iff.mp hwhole
  refine ⟨?_, ?_⟩
  · rw [isQuotable, String.toList_ofList]
    exact Bool.and_eq_true_iff.mpr ⟨hne, all_eq_true.mpr hname⟩
  · cases rest with
    | nil => simp at hlength
    | cons d rest =>
      obtain rfl : d = backquote := by simpa using hrest d rfl
      exact ⟨rest, rfl⟩

theorem scan_backquote (cs : List Char) : scan backquote cs =
    if (backquoted cs).2 then
      (.token (.quotedIdentifier (String.ofList (backquoted cs).1)), (backquoted cs).1.length + 2)
    else (.fault, (backquoted cs).1.length + 1) :=
  rfl

theorem scan_dollar (cs : List Char) : scan '$' (backquote :: cs) =
    if (backquoted cs).2 then
      (.token (.parameter (String.ofList (backquoted cs).1)), (backquoted cs).1.length + 3)
    else (.fault, if (backquoted cs).1.isEmpty then 1 else (backquoted cs).1.length + 2) :=
  rfl

theorem scan_quoted (hname : isQuotable (String.ofList name)) (rest : List Char) :
    scan backquote (name ++ [backquote] ++ rest) =
      (.token (.quotedIdentifier (String.ofList name)), (name ++ [backquote]).length + 1) := by
  rw [append_assoc, singleton_append, scan_backquote, backquoted_append hname]
  simp

theorem scan_quotedParameter (hname : isQuotable (String.ofList name)) (rest : List Char) :
    scan '$' (backquote :: (name ++ [backquote]) ++ rest) =
      (.token (.parameter (String.ofList name)),
        (backquote :: (name ++ [backquote])).length + 1) := by
  rw [cons_append, append_assoc, singleton_append, scan_dollar, backquoted_append hname]
  simp

/-! ### Strings and symbols -/

theorem scan_quote (hc : c = '\'' ∨ c = '"') (cs : List Char) : scan c cs =
    if (stringItems c cs).2 then
      (.token (.string (String.ofList (unescape (cs.take (stringItems c cs).1)))),
        (stringItems c cs).1 + 2)
    else (.fault, (stringItems c cs).1 + 1) := by
  rcases hc with rfl | rfl <;> rfl

theorem ne_of_not_cons {d : Char} (hnil : c = d → cs = [] → False)
    (hcons : ∀ e es, c = d → cs = e :: es → False) : c ≠ d := by
  rintro rfl
  cases cs with
  | nil => exact hnil rfl rfl
  | cons e es => exact hcons e es rfl rfl

theorem exists_string {quote : Char} (h : stringItems quote cs = (n, true)) :
    ∃ ds rest, cs = ds ++ rest ∧ ds.length = n + 1 ∧
      ∀ rest', stringItems quote (ds ++ rest') = (n, true) := by
  fun_induction stringItems quote cs generalizing n with
  | case1 | case2 | case3 => cases h
  | case4 c cs hc m closed hitems ih =>
    obtain ⟨rfl, rfl⟩ := Prod.mk.inj h
    obtain ⟨ds, rest, rfl, hlength, hds⟩ := ih hitems
    exact ⟨'\\' :: c :: ds, rest, rfl, by simp [hlength],
      fun rest' => by simp [stringItems, hc, hds]⟩
  | case5 c cs hlast hpair hc =>
    have hslash := ne_of_not_cons hlast hpair
    cases h
    exact ⟨[c], cs, rfl, rfl, fun rest' => by simp [stringItems, hslash, hc]⟩
  | case6 c cs hlast hpair hc m closed hitems ih =>
    have hslash := ne_of_not_cons hlast hpair
    obtain ⟨rfl, rfl⟩ := Prod.mk.inj h
    obtain ⟨ds, rest, rfl, hlength, hds⟩ := ih hitems
    exact ⟨c :: ds, rest, rfl, by simp [hlength],
      fun rest' => by simp [stringItems, hslash, hc, hds]⟩

theorem scanSymbol_cases (c : Char) (cs : List Char) : scanSymbol (c :: cs) = (.fault, 1) ∨
    ∃ ds rest s, cs = ds ++ rest ∧ scanSymbol (c :: cs) = (.token (.symbol s), ds.length + 1) ∧
      (String.ofList (c :: ds), s) ∈ Symbol.spellings := by
  have hne : ∀ p ∈ Symbol.spellings, p.1.toList ≠ [] := by decide
  unfold scanSymbol
  split
  · rename_i spelling s hfind
    have hmem := mem_of_find?_eq_some hfind
    have hspelled :=
      find?_some (p := fun p : String × Symbol => p.1.toList.isPrefixOf (c :: cs)) hfind
    obtain ⟨rest, hrest⟩ := isPrefixOf_iff_prefix.mp hspelled
    obtain ⟨d, ds, hspelling⟩ := exists_cons_of_ne_nil (hne _ hmem)
    rw [hspelling] at hrest
    cases hrest
    rw [← String.ofList_toList (s := spelling), hspelling] at hmem ⊢
    exact .inr ⟨ds, rest, s, rfl, congrArg (Prod.mk _) String.length_ofList, hmem⟩
  · exact .inl rfl

theorem isPrefixOf_append_blank {ds : List Char} (hblank : BlankNext rest) (hds : ' ' ∉ ds)
    (cs : List Char) : ds.isPrefixOf (cs ++ rest) = ds.isPrefixOf cs := by
  induction cs generalizing ds with
  | nil => cases hblank <;> cases ds <;> grind [isPrefixOf]
  | cons c cs ih => cases ds <;> grind [isPrefixOf]

theorem scan_spelling {s : Symbol} (hs : (String.ofList (c :: cs), s) ∈ Symbol.spellings)
    (hblank : BlankNext rest) : scan c (cs ++ rest) = (.token (.symbol s), cs.length + 1) := by
  have hplain : ∀ p ∈ Symbol.spellings, ' ' ∉ p.1.toList ∧ (fun d =>
      (d = '/' → p.1.toList.tail = []) ∧ isSpace d = false ∧ (d == '\'' || d == '"') = false ∧
        (d == backquote) = false ∧ (d == '$') = false ∧ d.isDigit = false ∧
          isWordStart d = false) (p.1.toList.headD ' ') := by decide
  have hfirst : ∀ p ∈ Symbol.spellings,
      Symbol.spellings.find? (fun q => q.1.toList.isPrefixOf p.1.toList) = some p := by decide
  have hc := (hplain _ hs).2
  rw [String.toList_ofList, headD_cons] at hc
  obtain ⟨hslash, hspace, hquote, hbackquote, hdollar, hdigit, hword⟩ := hc
  have hcomment (d : Char) (hd : d ≠ ' ') : (c == '/' && (cs ++ rest).head? == some d) = false := by
    cases hblank <;> grind
  have hfind := hfirst _ hs
  rw [String.toList_ofList] at hfind
  have hcongr := find?_congr fun p hp => isPrefixOf_append_blank hblank (hplain p hp).1 (c :: cs)
  rw [cons_append] at hcongr
  unfold scan
  simp only [hspace, hquote, hbackquote, hdollar, hdigit, hword, hcomment '/' (by decide),
    hcomment '*' (by decide), Bool.false_eq_true, if_false]
  rw [scanSymbol, hcongr, hfind]
  exact congrArg (Prod.mk _) String.length_ofList

/-! ### Texts between quotes -/

theorem tokensFrom_append (cs rest : List Char) (offset : Nat) :
    tokensFrom cs.length offset (cs ++ rest) = tokensFrom 0 (offset + byteLength cs) rest := by
  induction cs generalizing offset with
  | nil => rfl
  | cons c cs ih => rw [length_cons, cons_append, tokensFrom, ih, byteLength, Nat.add_assoc]

theorem tokensFrom_token (hscan : scan c (cs ++ rest) = (.token token, cs.length + 1))
    (offset : Nat) : tokensFrom 0 offset (c :: (cs ++ rest)) =
      (⟨token, String.ofList (c :: cs), offset, offset + byteLength (c :: cs)⟩ :: ·) <$>
        tokensFrom 0 (offset + byteLength (c :: cs)) rest := by
  have htake : (c :: (cs ++ rest)).take (cs.length + 1) = c :: cs := by
    rw [take_succ_cons, take_left]
  rw [tokensFrom, hscan]
  dsimp only
  rw [Nat.add_sub_cancel, tokensFrom_append, htake,
    show offset + c.utf8Size + byteLength cs = offset + byteLength (c :: cs) from Nat.add_assoc ..]
  cases tokensFrom 0 (offset + byteLength (c :: cs)) rest <;> rfl

def escaped (c : Char) : List Char :=
  if c == '\\' then ['\\', '\\'] else if c == '\'' then ['\\', '\''] else [c]

theorem unescape_escaped (cs : List Char) : unescape (cs.flatMap escaped) = cs := by
  induction cs with
  | nil => rfl
  | cons c cs ih =>
    rw [flatMap_cons]
    by_cases hslash : c = '\\'
    · subst hslash
      exact congrArg ('\\' :: ·) ih
    by_cases hquote : c = '\''
    · subst hquote
      exact congrArg ('\'' :: ·) ih
    · have hc : escaped c = [c] := by simp [escaped, hslash, hquote]
      rw [hc, singleton_append, unescape, ih]
      · exact fun h _ => hslash h
      · exact fun _ _ h _ => hslash h

theorem stringItems_escaped (cs rest : List Char) :
    stringItems '\'' (cs.flatMap escaped ++ '\'' :: rest) =
      ((cs.flatMap escaped).length, true) := by
  induction cs with
  | nil => rfl
  | cons c cs ih =>
    rw [flatMap_cons, append_assoc]
    by_cases hslash : c = '\\'
    · subst hslash
      exact congrArg (fun r : Nat × Bool => (r.1 + 2, r.2)) ih
    by_cases hquote : c = '\''
    · subst hquote
      exact congrArg (fun r : Nat × Bool => (r.1 + 2, r.2)) ih
    · have hc : escaped c = [c] := by simp [escaped, hslash, hquote]
      rw [hc, singleton_append, singleton_append, stringItems, ih]
      · simp [hquote]
      · exact fun h _ => hslash h
      · exact fun _ _ h _ => hslash h

theorem writeText_chars :
    (writeText s).toList = '\'' :: (s.toList.flatMap escaped ++ ['\'']) :=
  String.toList_ofList

theorem scan_escaped (rest : List Char) :
    scan '\'' (s.toList.flatMap escaped ++ ['\''] ++ rest) =
      (.token (.string s), (s.toList.flatMap escaped ++ ['\'']).length + 1) := by
  rw [append_assoc, singleton_append]
  change (if (stringItems '\'' (s.toList.flatMap escaped ++ '\'' :: rest)).2 then _ else _) = _
  rw [stringItems_escaped, if_pos rfl, take_left, unescape_escaped, String.ofList_toList]
  simp

theorem byteLength_eq (cs : List Char) : byteLength cs = (String.ofList cs).utf8ByteSize := by
  induction cs with
  | nil => rfl
  | cons c cs ih =>
    rw [byteLength, ih, show c :: cs = [c] ++ cs from rfl, String.ofList_append,
      String.utf8ByteSize_append]
    exact congrArg (· + _) String.utf8ByteSize_singleton.symm

end Lexer

open Lexer

theorem tokenize_writeText (s rest : String) : tokenize (writeText s ++ rest) =
    (⟨.string s, writeText s, 0, (writeText s).utf8ByteSize⟩ :: ·) <$>
      tokensFrom 0 (writeText s).utf8ByteSize rest.toList := by
  have htokens := tokensFrom_token (scan_escaped s rest.toList) 0
  rw [← cons_append, ← writeText_chars, Nat.zero_add, byteLength_eq, String.ofList_toList]
    at htokens
  rw [tokenize, String.toList_append, htokens]

/-- A text value is written so that it is read as one token, whatever comes behind it. -/
theorem written_text_is_one_token (s : String) :
    tokenize (Value.str s).text =
      .ok [⟨.string s, (Value.str s).text, 0, (Value.str s).text.utf8ByteSize⟩] ∧
    ∀ rest ts, tokenize ((Value.str s).text ++ rest) = .ok ts →
      ts.head? = some ⟨.string s, (Value.str s).text, 0, (Value.str s).text.utf8ByteSize⟩ := by
  rw [show (Value.str s).text = writeText s by rw [Value.text, text]]
  constructor
  · have hwhole := tokenize_writeText s ""
    rwa [String.append_empty] at hwhole
  · intro rest ts h
    rw [tokenize_writeText] at h
    obtain ⟨us, -, rfl⟩ := map_eq_ok.mp h
    rfl

theorem quote_in_front_of_sign_is_one_token :
    ∃ ts, tokenize ((Value.str "it's").text ++ "<>1") = .ok ts ∧
      ts.head? = some ⟨.string "it's", (Value.str "it's").text, 0, 7⟩ := by
  have h : tokenize ((Value.str "it's").text ++ "<>1") = .ok [⟨.string "it's", "'it\\'s'", 0, 7⟩,
      ⟨.symbol .notEquals, "<>", 7, 9⟩, ⟨.integer 1, "1", 9, 10⟩] := by decide
  exact ⟨_, h, (written_text_is_one_token "it's").2 "<>1" _ h⟩

end CypherTraversal
