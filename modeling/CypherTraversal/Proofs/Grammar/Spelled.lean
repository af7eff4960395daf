import CypherTraversal.Proofs.Grammar.Leading
import CypherTraversal.Proofs.Query.Scanned

/-! # Texts that are scanned as words

What stands behind a piece of text decides where its last token ends. `Lexed` says of the whole rest
of a text which words it is scanned as, and each lemma puts the text of one word in front of a rest
that does not go on with it. -/

namespace CypherTraversal

open List Lexer Text

variable {c : Char} {cs rest : List Char} {x : String} {n : Nat}

namespace Lexer

/-! ### Words and numbers -/

theorem toDigits_eq_cons (n : Nat) : ∃ c cs, Nat.toDigits 10 n = c :: cs ∧ c.isDigit := by
  cases hdigits : Nat.toDigits 10 n with
  | nil => exact absurd hdigits Nat.toDigits_ne_nil
  | cons c cs =>
    exact ⟨c, cs, rfl, Nat.isDigit_of_mem_toDigits (n := n) (by decide) (by decide)
      (hdigits ▸ mem_cons_self)⟩

theorem scanNumber_toDigits (hn : Scalar.fits n) (hrest : Stops rest) :
    scanNumber (Nat.toDigits 10 n ++ rest) = (.token (.integer n), (Nat.toDigits 10 n).length) := by
  have hwhole : (Nat.toDigits 10 n ++ rest).takeWhile Char.isDigit = Nat.toDigits 10 n :=
    takeWhile_append (fun c hc => Nat.isDigit_of_mem_toDigits (by decide) (by decide) hc)
      hrest.digit
  have hvalue : Binary64.digitsValue (Nat.toDigits 10 n) = n := Nat.ofDigitChars_ten_toDigits
  unfold scanNumber
  simp only [hwhole, drop_left, take_left, hrest.fraction, Nat.add_zero, hrest.exponent, hvalue,
    if_true, hn]

/-- The text of a number is scanned as this number. -/
def isScanned (x : Binary64) : Bool :=
  match (x.toText .plain).toList with
  | [] => false
  | c :: cs => c.isDigit && scanNumber (c :: cs) == (.token (.float x), cs.length + 1)

example : ["0.1", "2.0", "1.5e-7", "1.7976931348623157e308"].all fun text =>
    (Binary64.ofText? text).any isScanned := by decide +kernel

theorem exists_digit_of_isScanned {x : Binary64} (h : isScanned x) :
    ∃ c cs, (x.toText .plain).toList = c :: cs ∧ c.isDigit ∧
      scanNumber (c :: cs) = (.token (.float x), cs.length + 1) := by
  unfold isScanned at h
  split at h
  · cases h
  · rename_i c cs htext
    obtain ⟨hc, hscan⟩ := Bool.and_eq_true_iff.mp h
    exact ⟨c, cs, htext, hc, eq_of_beq hscan⟩

theorem not_isNaN_of_isScanned {x : Binary64} (h : isScanned x) : x.isNaN = false := by
  obtain ⟨c, cs, htext, hc, -⟩ := exists_digit_of_isScanned h
  refine Bool.eq_false_iff.mpr fun hnan => ?_
  rw [Binary64.toText, if_pos hnan] at htext
  cases htext
  cases hc

def isWritable (x : String) : Bool :=
  if isPlainName x then isWord x else isQuotable x

/-! ### Symbols -/

theorem opens?_of_tokensFrom {offset : Nat} {t : PlacedToken} {ts : List PlacedToken}
    (hc : c = '-' ∨ c = '>') (h : tokensFrom 0 offset (c :: cs) = .ok (t :: ts)) :
    ∀ r ∈ t.token.opens?, r ≤ 9 := by
  have hscan : scan c cs = scanSymbol (c :: cs) := by rcases hc with rfl | rfl <;> rfl
  have hspelled : ∀ p ∈ Symbol.spellings,
      p.1.toList.head? = some '-' ∨ p.1.toList.head? = some '>' →
        ∀ r ∈ (Token.symbol p.2).opens?, r ≤ 9 := by decide
  obtain hfault | ⟨ds, rest, s, rfl, htoken, hs⟩ := scanSymbol_cases c cs
  · rw [tokensFrom, hscan, hfault] at h
    cases h
  · rw [tokensFrom_token (hscan.trans htoken)] at h
    obtain ⟨us, -, ⟨⟩⟩ := map_eq_ok.mp h
    refine hspelled _ hs ?_
    rw [String.toList_ofList]
    exact hc.imp (congrArg some) (congrArg some)

end Lexer

/-! ### Rests of texts -/

def Lexed (cs : List Char) (ws : List Word) : Prop :=
  ∀ offset, ∃ ts, tokensFrom 0 offset cs = .ok ts ∧ Shown ts ws

structure Tail (cs : List Char) (ws : List Word) : Prop where
  stops : Stops cs
  lexed : Lexed cs ws

namespace Lexed

variable {w : Word} {ws : List Word} {token : Token} {s : Symbol}

theorem nil : Lexed [] [] :=
  fun _ => ⟨[], rfl, .nil⟩

theorem blank (h : Lexed rest ws) : Lexed (' ' :: rest) ws :=
  fun offset => h (offset + ' '.utf8Size)

theorem token_append (hscan : scan c (cs ++ rest) = (.token token, cs.length + 1))
    (hw : ∀ start stop, PlacedToken.Shows ⟨token, String.ofList (c :: cs), start, stop⟩ w)
    (h : Lexed rest ws) : Lexed (c :: (cs ++ rest)) (w :: ws) := by
  intro offset
  obtain ⟨ts, hts, hshown⟩ := h (offset + byteLength (c :: cs))
  exact ⟨_, (tokensFrom_token hscan offset).trans (congrArg _ hts), .cons (hw _ _) hshown⟩

theorem symbol (hscan : scan c rest = (.token (.symbol s), 1)) (h : Lexed rest ws) :
    Lexed (c :: rest) (.symbol s :: ws) := by
  change Lexed (c :: ([] ++ rest)) _
  exact token_append hscan (fun _ _ => rfl) h

theorem symbolPair {d : Char} (hscan : scan c (d :: rest) = (.token (.symbol s), 2))
    (h : Lexed rest ws) : Lexed (c :: d :: rest) (.symbol s :: ws) := by
  change Lexed (c :: ([d] ++ rest)) _
  exact token_append hscan (fun _ _ => rfl) h

theorem minus (hrest : ∀ c ∈ rest.head?, c ≠ '-' ∧ c ≠ '>') (h : Lexed rest ws) :
    Lexed ('-' :: rest) (.symbol .minus :: ws) := by
  refine symbol ?_ h
  cases rest with
  | nil => rfl
  | cons c rest =>
    obtain ⟨hdash, harrow⟩ := hrest c rfl
    change scanSymbol ('-' :: c :: rest) = _
    simp [scanSymbol, Symbol.spellings, isPrefixOf, hdash.symm, harrow.symm]
    rfl

theorem integer (hn : Scalar.fits n) (h : Tail rest ws) :
    Lexed ((toString n).toList ++ rest) (.integer n :: ws) := by
  have hscan := scanNumber_toDigits hn h.stops
  obtain ⟨c, cs, hdigits, hc⟩ := toDigits_eq_cons n
  rw [hdigits] at hscan
  rw [Nat.toString_eq_ofList_toDigits, String.toList_ofList, hdigits]
  refine token_append ?_ (fun _ _ => rfl) h.lexed
  rw [scan_of_isWordPart (isWordPart_of_isDigit hc), if_pos hc]
  exact hscan

theorem float {x : Binary64} (hx : isScanned x) (h : Tail rest ws) :
    Lexed ((x.toText .plain).toList ++ rest) (.float x :: ws) := by
  obtain ⟨c, cs, htext, hc, hscan⟩ := exists_digit_of_isScanned hx
  rw [htext]
  refine token_append ?_ (fun _ _ => rfl) h.lexed
  rw [scan_of_isWordPart (isWordPart_of_isDigit hc), if_pos hc, ← cons_append,
    scanNumber_append h.stops]
  exact hscan

theorem negative (hc : c.isDigit) (h : Lexed (c :: cs) ws) :
    Lexed ('-' :: c :: cs) (.symbol .minus :: ws) := by
  refine minus (fun d hd => ?_) h
  cases hd
  constructor <;> rintro rfl <;> cases hc

theorem string (s : String) (h : Lexed rest ws) :
    Lexed ((Scalar.writeText s).toList ++ rest) (.string s :: ws) := by
  rw [writeText_chars]
  exact token_append (scan_escaped s rest) (fun _ _ => rfl) h

/-! ### Words and names -/

theorem word (hx : isWord x)
    (hw : ∀ start stop, PlacedToken.Shows ⟨wordToken x, x, start, stop⟩ w) (h : Tail rest ws) :
    Lexed (x.toList ++ rest) (w :: ws) := by
  obtain ⟨c, cs, rfl, hc, hcs⟩ := isWord_iff.mp hx
  rw [String.toList_ofList]
  exact token_append (scan_word hc hcs h.stops.word) hw h.lexed

theorem keyword {k : Keyword} (x : String) (hx : isWord x ∧ Keyword.ofWord? x = some k)
    (h : Tail rest ws) : Lexed (x.toList ++ rest) (.keyword k :: ws) := by
  refine word hx.1 (fun _ _ => ?_) h
  rw [wordToken, hx.2]
  rfl

theorem written (hx : isWritable x)
    (hword : isPlainName x → ∀ start stop, PlacedToken.Shows ⟨wordToken x, x, start, stop⟩ w)
    (hquoted : ∀ text start stop, PlacedToken.Shows ⟨.quotedIdentifier x, text, start, stop⟩ w)
    (h : Tail rest ws) : Lexed ((writeName x).toList ++ rest) (w :: ws) := by
  unfold isWritable at hx
  unfold writeName
  split
  · rename_i hplain
    rw [if_pos hplain] at hx
    exact word hx (hword hplain) h
  · rename_i hplain
    rw [if_neg hplain] at hx
    have hname :=
      scan_quoted (show isQuotable (.ofList x.toList) by rwa [String.ofList_toList]) rest
    rw [String.ofList_toList] at hname
    rw [String.toList_append, String.toList_append]
    exact token_append (c := backquote) hname (fun start stop => hquoted _ start stop) h.lexed

theorem key (hx : isWritable x) (h : Tail rest ws) :
    Lexed ((writeName x).toList ++ rest) (.key x :: ws) := by
  refine written hx (fun _ _ _ => ?_) (fun _ _ _ => .inl (.inr rfl)) h
  unfold wordToken
  cases Keyword.ofWord? x with
  | none => exact .inl (.inl rfl)
  | some k => exact .inr ⟨k, rfl, rfl⟩

theorem name (hx : isWritable x) (hkeyword : isPlainName x → Keyword.ofWord? x = none)
    (h : Tail rest ws) : Lexed ((writeName x).toList ++ rest) (.name x :: ws) := by
  refine written hx (fun hplain _ _ => ?_) (fun _ _ _ => .inr rfl) h
  rw [wordToken, hkeyword hplain]
  exact .inl rfl

theorem function (hx : isWord x) (hkeyword : Keyword.ofWord? x = none) (h : Tail rest ws) :
    Lexed (x.toList ++ rest) (.name x :: ws) := by
  refine word hx (fun _ _ => ?_) h
  rw [wordToken, hkeyword]
  exact .inl rfl

theorem parameter (hx : isWritable x) (h : Tail rest ws) :
    Lexed ('$' :: ((writeName x).toList ++ rest)) (.parameter x :: ws) := by
  unfold isWritable at hx
  refine token_append ?_ (fun _ _ => rfl) h.lexed
  unfold writeName
  split
  · rename_i hplain
    rw [if_pos hplain] at hx
    obtain ⟨c, cs, rfl, hc, hcs⟩ := isWord_iff.mp hx
    rw [String.toList_ofList]
    exact scan_parameter (cons_ne_nil c cs)
      (forall_mem_cons.mpr ⟨isWordPart_of_isWordStart hc, hcs⟩) h.stops.word
  · rename_i hplain
    rw [if_neg hplain] at hx
    have hname := scan_quotedParameter
      (show isQuotable (.ofList x.toList) by rwa [String.ofList_toList]) rest
    rw [String.ofList_toList] at hname
    rw [String.toList_append, String.toList_append]
    exact hname

end Lexed

namespace Tail

variable {ws : List Word} {s : Symbol}

theorem nil : Tail [] [] :=
  ⟨.nil, .nil⟩

theorem blank (h : Lexed rest ws) : Tail (' ' :: rest) ws :=
  ⟨.cons rfl rest, h.blank⟩

theorem symbol (hc : (isWordPart c || c == '.' || c == '+' || c == '-') = false)
    (hscan : scan c rest = (.token (.symbol s), 1)) (h : Lexed rest ws) :
    Tail (c :: rest) (.symbol s :: ws) :=
  ⟨.cons hc rest, h.symbol hscan⟩

theorem access (hx : isWritable x) (h : Tail rest ws) :
    Tail ('.' :: ((writeName x).toList ++ rest)) (.symbol .dot :: .key x :: ws) := by
  have hhead : ∃ c cs, (writeName x).toList = c :: cs ∧ c.isDigit = false ∧ c ≠ '.' := by
    unfold isWritable at hx
    unfold writeName
    split
    · rename_i hplain
      rw [if_pos hplain] at hx
      obtain ⟨c, cs, rfl, hc, -⟩ := isWord_iff.mp hx
      refine ⟨c, cs, String.toList_ofList, not_isDigit_of_isWordStart hc, ?_⟩
      rintro rfl
      cases hc
    · exact ⟨backquote, x.toList ++ [backquote], by simp [backquote], rfl, by decide⟩
  have hkey := Lexed.key hx h
  obtain ⟨c, cs, hname, hdigit, hdot⟩ := hhead
  rw [hname, cons_append] at hkey ⊢
  refine ⟨⟨by rintro _ ⟨⟩; rfl, ?_, rfl⟩, hkey.symbol ?_⟩
  · change (if ((c :: (cs ++ rest)).takeWhile Char.isDigit).length = 0 then 0 else _) = 0
    rw [takeWhile_cons_of_neg (by simp [hdigit])]
    rfl
  · change scanSymbol ('.' :: c :: (cs ++ rest)) = _
    simp [scanSymbol, Symbol.spellings, isPrefixOf, hdot.symm]
    rfl

end Tail
end CypherTraversal
