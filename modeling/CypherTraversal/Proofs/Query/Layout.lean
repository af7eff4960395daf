import CypherTraversal.Proofs.Query.Scanned

/-! # How a text is made up of tokens

A text that can be read is a `Walk`: gaps and tokens in turn. Nothing of it is lost, and as each
token stays one in front of a blank, the texts of the tokens are read as the same tokens again. -/

namespace CypherTraversal

open List Lexer

variable {c : Char} {cs rest : List Char} {n offset : Nat} {tokens : List PlacedToken}

namespace Lexer

/-! ### Blanks and comments -/

/-- What stands inside a block comment: characters other than the star, and pairs of a star and a
character other than the slash. -/
inductive CommentBody : List Char → Prop
  | nil : CommentBody []
  | char {c : Char} {body : List Char} (hc : c ≠ '*') (h : CommentBody body) :
    CommentBody (c :: body)
  | pair {c : Char} {body : List Char} (hc : c ≠ '/') (h : CommentBody body) :
    CommentBody ('*' :: c :: body)

/-- Blanks, line comments and block comments in any order. -/
inductive Gap : List Char → Prop
  | nil : Gap []
  | blank {c : Char} {cs : List Char} (hc : isSpace c) (h : Gap cs) : Gap (c :: cs)
  | line {body cs : List Char} (hbody : '\n' ∉ body) (h : Gap cs) :
    Gap ('/' :: '/' :: (body ++ cs))
  | block {body cs : List Char} (hbody : CommentBody body) (h : Gap cs) :
    Gap ('/' :: '*' :: (body ++ '*' :: '/' :: cs))

theorem Gap.append {ds : List Char} (hc : Gap cs) (hd : Gap ds) : Gap (cs ++ ds) := by
  induction hc with
  | nil => exact hd
  | blank hc _ ih => exact .blank hc ih
  | line hbody _ ih =>
    rw [cons_append, cons_append, append_assoc]
    exact .line hbody ih
  | block hbody _ ih =>
    rw [cons_append, cons_append, append_assoc]
    exact .block hbody ih

theorem exists_commentBody (h : commentItems cs = (n, true)) :
    ∃ body rest, cs = body ++ '*' :: '/' :: rest ∧ body.length = n ∧ CommentBody body := by
  fun_induction commentItems cs generalizing n with
  | case1 | case2 => cases h
  | case3 cs =>
    cases h
    exact ⟨[], cs, rfl, rfl, .nil⟩
  | case4 c cs hc m closed hitems ih =>
    obtain ⟨rfl, rfl⟩ := Prod.mk.inj h
    obtain ⟨body, rest, rfl, rfl, hbody⟩ := ih hitems
    exact ⟨_, rest, rfl, rfl, .pair hc hbody⟩
  | case5 c cs hlast _ hpair m closed hitems ih =>
    have hstar := ne_of_not_cons hlast hpair
    obtain ⟨rfl, rfl⟩ := Prod.mk.inj h
    obtain ⟨body, rest, rfl, rfl, hbody⟩ := ih hitems
    exact ⟨c :: body, rest, rfl, rfl, .char hstar hbody⟩

/-! ### What is found -/

/-- A keyword is spelled as a word, and so is a name without quotes. -/
def IsWordIn (text : String) : Token → Prop
  | .keyword _ => isWord text
  | .identifier x => isWord x
  | _ => True

/-- What a scan finds is spelled by the characters that it takes, a token also before a blank. -/
inductive Found (c : Char) : List Char → Piece × Nat → Prop
  | token {w r : List Char} {token : Token}
      (hscan : ∀ rest, BlankNext rest → scan c (w ++ rest) = (.token token, w.length + 1))
      (hword : IsWordIn (String.ofList (c :: w)) token) :
    Found c (w ++ r) (.token token, w.length + 1)
  | gap {w r : List Char} (h : Gap (c :: w)) : Found c (w ++ r) (.gap, w.length + 1)
  | fault {cs : List Char} {n : Nat} : Found c cs (.fault, n)

theorem found_line (cs : List Char) : Found '/' ('/' :: cs) (scan '/' ('/' :: cs)) := by
  change Found _ _ (.gap, 1 + (('/' :: cs).takeWhile (· != '\n')).length)
  obtain ⟨body, rest, rfl, hrun, hbody, -⟩ := exists_takeWhile (· != '\n') cs
  have hgap := Gap.line (fun hmem => by simpa using hbody _ hmem) .nil
  rw [append_nil] at hgap
  rw [takeWhile_cons_of_pos rfl, hrun, Nat.add_comm]
  exact .gap (w := '/' :: body) hgap

theorem found_block (cs : List Char) : Found '/' ('*' :: cs) (scan '/' ('*' :: cs)) := by
  change Found _ _ (if (commentItems cs).2 then (.gap, (commentItems cs).1 + 4)
    else (.fault, (commentItems cs).1 + 2))
  rcases hitems : commentItems cs with ⟨m, _ | _⟩
  · exact .fault
  · obtain ⟨body, rest, rfl, rfl, hbody⟩ := exists_commentBody hitems
    have hgap := Found.gap (r := rest) (Gap.block hbody .nil)
    simpa using hgap

theorem found_string (hc : c = '\'' ∨ c = '"') (cs : List Char) : Found c cs (scan c cs) := by
  rw [scan_quote hc]
  rcases hitems : stringItems c cs with ⟨m, _ | _⟩
  · exact .fault
  · obtain ⟨ds, rest, rfl, hlength, hds⟩ := exists_string hitems
    have htake (rest : List Char) : (ds ++ rest).take m = ds.take m :=
      take_append_of_le_length (by omega)
    rw [if_pos rfl, htake, show m + 2 = ds.length + 1 by omega]
    refine .token (fun rest' _ => ?_) trivial
    rw [scan_quote hc, hds, if_pos rfl, htake, hlength]

theorem found_quoted (cs : List Char) : Found backquote cs (scan backquote cs) := by
  rw [scan_backquote]
  rcases hname : backquoted cs with ⟨name, _ | _⟩
  · exact .fault
  · obtain ⟨hquotable, rest, rfl⟩ := exists_backquoted hname
    have hfound := Found.token (r := rest) (fun rest _ => scan_quoted hquotable rest) trivial
    simpa using hfound

theorem found_parameter (cs : List Char) : Found '$' cs (scan '$' cs) := by
  by_cases hhead : cs.head? = some backquote
  · obtain ⟨cs, rfl⟩ := head?_eq_some_iff.mp hhead
    rw [scan_dollar]
    rcases hname : backquoted cs with ⟨name, _ | _⟩
    · exact .fault
    · obtain ⟨hquotable, rest, rfl⟩ := exists_backquoted hname
      have hfound := Found.token (r := rest)
        (fun rest _ => scan_quotedParameter hquotable rest) trivial
      simpa using hfound
  · obtain ⟨word, rest, rfl, hrun, hword, hrest⟩ := exists_takeWhile isWordPart cs
    by_cases hne : word = []
    · change Found _ _ (if (word ++ rest).head? == some backquote then _
        else if ((word ++ rest).takeWhile isWordPart).isEmpty then (Piece.fault, 1) else _)
      rw [if_neg (by simpa using hhead), hrun, hne]
      exact .fault
    · rw [scan_parameter hne hword hrest]
      exact .token (fun rest' hblank => scan_parameter hne hword (hblank.head rfl)) trivial

theorem found_number (hc : c.isDigit) (cs : List Char) : Found c cs (scan c cs) := by
  have hnumber (cs : List Char) : scan c cs = scanNumber (c :: cs) := by
    rw [scan_of_isWordPart (isWordPart_of_isDigit hc), if_pos hc]
  rw [hnumber]
  have hpos : 0 < numberLength (c :: cs) := by
    simp only [numberLength, digitsLength, takeWhile_cons_of_pos hc, length_cons]
    omega
  have hle := measures_number.le (c :: cs)
  rw [length_cons] at hle
  obtain ⟨ds, rest, rfl, hlength⟩ : ∃ ds rest, cs = ds ++ rest ∧
      numberLength (c :: cs) = ds.length + 1 :=
    ⟨cs.take (numberLength (c :: cs) - 1), _, (take_append_drop _ _).symm,
      by rw [length_take]; omega⟩
  have hstop {rest' : List Char} (hblank : BlankNext rest') :
      scanNumber (c :: ds ++ rest') = scanNumber (c :: ds ++ rest) :=
    scanNumber_stop hblank.stops (Nat.le_of_eq hlength)
  obtain hfault | ⟨token, htoken, hkind⟩ := scanNumber_cases (c :: (ds ++ rest))
  · rw [hfault]
    exact .fault
  · rw [htoken, hlength]
    refine .token (fun rest' hblank => ?_) ?_
    · rw [hnumber, ← hlength, ← htoken]
      exact hstop hblank
    · obtain ⟨k, rfl⟩ | ⟨x, rfl⟩ := hkind <;> exact trivial

theorem found_word (hc : isWordStart c) (cs : List Char) : Found c cs (scan c cs) := by
  obtain ⟨word, rest, rfl, -, hword, hrest⟩ := exists_takeWhile isWordPart cs
  rw [scan_word hc hword hrest]
  refine .token (fun rest' hblank => scan_word hc hword (hblank.head rfl)) ?_
  have hisWord := isWord_iff.mpr ⟨c, word, rfl, hc, hword⟩
  unfold wordToken
  cases Keyword.ofWord? (String.ofList (c :: word)) <;> exact hisWord

theorem found_symbol (c : Char) (cs : List Char) : Found c cs (scanSymbol (c :: cs)) := by
  obtain hfault | ⟨ds, rest, s, rfl, htoken, hs⟩ := scanSymbol_cases c cs
  · rw [hfault]
    exact .fault
  · rw [htoken]
    exact .token (fun rest' hblank => scan_spelling hs hblank) trivial

theorem scan_found (c : Char) (cs : List Char) : Found c cs (scan c cs) := by
  obtain ⟨r, hscan⟩ : ∃ r, scan c cs = r := ⟨_, rfl⟩
  have hslash {d : Char} (hc : c == '/' && cs.head? == some d) : c = '/' ∧ ∃ ds, cs = d :: ds := by
    simpa [head?_eq_some_iff] using hc
  have h := hscan
  rw [hscan]
  unfold scan at h
  split at h
  · rename_i hc
    cases h
    exact .gap (w := []) (.blank hc .nil)
  split at h
  · rename_i hc
    obtain ⟨rfl, cs, rfl⟩ := hslash hc
    exact hscan ▸ found_line cs
  split at h
  · rename_i hc
    obtain ⟨rfl, cs, rfl⟩ := hslash hc
    exact hscan ▸ found_block cs
  split at h
  · rename_i hc
    exact hscan ▸ found_string (by simpa using hc) cs
  split at h
  · rename_i hc
    cases eq_of_beq hc
    exact hscan ▸ found_quoted cs
  split at h
  · rename_i hc
    cases eq_of_beq hc
    exact hscan ▸ found_parameter cs
  split at h
  · rename_i hc
    exact hscan ▸ found_number hc cs
  split at h
  · rename_i hc
    exact hscan ▸ found_word hc cs
  · exact h ▸ found_symbol c cs

/-! ### The walk -/

/-- How a text is laid out: gaps and tokens in turn, each token placed by its bytes. -/
inductive Walk : Nat → List Char → List PlacedToken → Prop
  | done {offset : Nat} : Walk offset [] []
  | gap {offset : Nat} {c : Char} {cs rest : List Char} {tokens : List PlacedToken}
      (hgap : Gap (c :: cs)) (h : Walk (offset + byteLength (c :: cs)) rest tokens) :
    Walk offset (c :: (cs ++ rest)) tokens
  | token {offset : Nat} {c : Char} {cs rest : List Char} {token : Token}
      {tokens : List PlacedToken}
      (hscan : ∀ rest', BlankNext rest' → scan c (cs ++ rest') = (.token token, cs.length + 1))
      (hword : IsWordIn (String.ofList (c :: cs)) token)
      (h : Walk (offset + byteLength (c :: cs)) rest tokens) :
    Walk offset (c :: (cs ++ rest))
      (⟨token, String.ofList (c :: cs), offset, offset + byteLength (c :: cs)⟩ :: tokens)

theorem walk_of_tokensFrom (h : tokensFrom 0 offset cs = .ok tokens) : Walk offset cs tokens := by
  induction hlength : cs.length using Nat.strong_induction_on generalizing offset cs tokens with
  | _ k ih =>
    cases cs with
    | nil =>
      cases h
      exact .done
    | cons c cs =>
      have hfound := scan_found c cs
      cases hscan : scan c cs with
      | mk piece n =>
        rw [hscan] at hfound
        cases hfound with
        | fault =>
          rw [tokensFrom, hscan] at h
          cases h
        | @gap ds rest hgap =>
          rw [tokensFrom, hscan] at h
          dsimp only at h
          rw [Nat.add_sub_cancel, tokensFrom_append, Nat.add_assoc] at h
          have hless : rest.length < k := by
            rw [← hlength, length_cons, length_append]
            omega
          exact .gap hgap (ih rest.length hless h rfl)
        | @token ds rest token hblank hword =>
          rw [tokensFrom_token hscan] at h
          obtain ⟨ts, hrest, rfl⟩ := map_eq_ok.mp h
          exact .token hblank hword
            (ih rest.length (by rw [← hlength, length_cons, length_append]; omega) hrest rfl)

theorem byteLength_append (cs ds : List Char) :
    byteLength (cs ++ ds) = byteLength cs + byteLength ds := by
  rw [byteLength_eq, byteLength_eq, byteLength_eq, String.ofList_append, String.utf8ByteSize_append]

/-- The bytes between the places where a part of a text begins and ends are those of the part. -/
theorem extract_middle (front cs rest : List Char) :
    (String.ofList (front ++ (cs ++ rest))).toByteArray.extract (byteLength front)
      (byteLength front + byteLength cs) = (String.ofList cs).toByteArray := by
  rw [byteLength_eq, byteLength_eq, String.ofList_append, String.ofList_append,
    String.toByteArray_append, String.toByteArray_append, ← String.size_toByteArray,
    ← String.size_toByteArray]
  exact (ByteArray.extract_append_size_add (i := 0)).trans (ByteArray.extract_append_eq_left rfl)

/-- Where the gaps before, between and behind tokens begin and end. -/
def gapSpans (start stop : Nat) (tokens : List PlacedToken) : List (Nat × Nat) :=
  (start :: tokens.map (·.stop)).zip (tokens.map (·.start) ++ [stop])

namespace Walk

theorem words (h : Walk offset cs tokens) : ∀ t ∈ tokens, IsWordIn t.text t.token := by
  induction h with
  | done => exact forall_mem_nil _
  | gap _ _ ih => exact ih
  | token _ hword _ ih => exact forall_mem_cons.mpr ⟨hword, ih⟩

theorem offset_le (h : Walk offset cs tokens) : ∀ t ∈ tokens, offset ≤ t.start := by
  induction h with
  | done => exact forall_mem_nil _
  | gap _ _ ih => exact fun t ht => Nat.le_of_add_right_le (ih t ht)
  | token _ _ _ ih =>
    exact forall_mem_cons.mpr ⟨Nat.le_refl _, fun t ht => Nat.le_of_add_right_le (ih t ht)⟩

theorem pairwise (h : Walk offset cs tokens) : tokens.Pairwise fun t u => t.stop ≤ u.start := by
  induction h with
  | done => exact .nil
  | gap _ _ ih => exact ih
  | token _ _ hrest ih => exact .cons hrest.offset_le ih

theorem slices (h : Walk offset cs tokens) (front : List Char)
    (hoffset : offset = byteLength front) :
    ∀ t ∈ tokens, t.start < t.stop ∧
      (String.ofList (front ++ cs)).toByteArray.extract t.start t.stop = t.text.toByteArray := by
  induction h generalizing front with
  | done => exact forall_mem_nil _
  | @gap _ c ds _ _ _ _ ih =>
    have hrest := ih (front ++ c :: ds) (by rw [hoffset, byteLength_append])
    rwa [append_assoc] at hrest
  | @token _ c ds rest _ _ _ _ _ ih =>
    have hrest := ih (front ++ c :: ds) (by rw [hoffset, byteLength_append])
    rw [append_assoc] at hrest
    refine forall_mem_cons.mpr ⟨⟨?_, ?_⟩, hrest⟩
    · exact Nat.lt_add_of_pos_right (Nat.add_pos_left c.utf8Size_pos _)
    · rw [hoffset]
      exact extract_middle front (c :: ds) rest

/-- The gap that was passed since the last token, or the start, goes on with the next one. -/
theorem gaps (h : Walk offset cs tokens) (front : List Char) {gap : List Char} (hgap : Gap gap)
    (hoffset : offset = byteLength front + byteLength gap) :
    ∀ b ∈ gapSpans (byteLength front) (byteLength (front ++ (gap ++ cs))) tokens,
      b.1 ≤ b.2 ∧ ∃ gap', Gap gap' ∧
        (String.ofList (front ++ (gap ++ cs))).toByteArray.extract b.1 b.2 =
          (String.ofList gap').toByteArray := by
  induction h generalizing front gap with
  | done =>
    have hmiddle := extract_middle front gap []
    rw [append_nil] at hmiddle ⊢
    refine forall_mem_cons.mpr ⟨?_, forall_mem_nil _⟩
    rw [byteLength_append]
    exact ⟨Nat.le_add_right _ _, gap, hgap, hmiddle⟩
  | gap hnext _ ih =>
    have hrest := ih front (hgap.append hnext) (by rw [hoffset, byteLength_append, Nat.add_assoc])
    rwa [append_assoc] at hrest
  | @token offset c ds _ _ _ _ _ _ ih =>
    have hlength : byteLength (front ++ (gap ++ c :: ds)) = offset + byteLength (c :: ds) := by
      rw [byteLength_append, byteLength_append, ← Nat.add_assoc, ← hoffset]
    have hrest := ih (front ++ (gap ++ c :: ds)) .nil hlength.symm
    rw [nil_append, append_assoc, append_assoc, hlength] at hrest
    refine forall_mem_cons.mpr ⟨?_, hrest⟩
    rw [hoffset]
    exact ⟨Nat.le_add_right _ _, gap, hgap, extract_middle front gap _⟩

theorem spaced (h : Walk offset cs tokens) (start : Nat) :
    ∃ us, tokensFrom 0 start (" ".intercalate (tokens.map (·.text))).toList = .ok us ∧
      us.map (fun t => (t.token, t.text)) = tokens.map fun t => (t.token, t.text) := by
  induction h generalizing start with
  | done => exact ⟨[], rfl, rfl⟩
  | gap _ _ ih => exact ih start
  | @token _ c ds _ _ tokens hscan _ _ ih =>
    cases tokens with
    | nil =>
      have htokens := tokensFrom_token (hscan [] .nil) start
      rw [append_nil] at htokens
      rw [map_singleton, String.intercalate_singleton, String.toList_ofList, htokens]
      exact ⟨_, rfl, rfl⟩
    | cons u tokens =>
      obtain ⟨us, hus, hsame⟩ := ih (start + byteLength (c :: ds) + ' '.utf8Size)
      have htokens := (tokensFrom_token (hscan _ (.blank _)) start).trans (congrArg _ hus)
      rw [map_cons, map_cons, String.intercalate_cons_cons, String.toList_append,
        String.toList_append, String.toList_ofList, append_assoc]
      refine ⟨_, htokens, ?_⟩
      rw [map_cons, hsame]
      rfl

end Walk
end Lexer

/-- Every byte of a text that can be read is in a token or in a gap of blanks and comments, and the
texts of its tokens are read as the same tokens if there is one blank between them. -/
theorem tokens_and_gaps_make_up_text (text : String) (tokens : List PlacedToken)
    (h : tokenize text = .ok tokens) :
    tokens.Pairwise (fun t u => t.stop ≤ u.start) ∧
    (∀ t ∈ tokens, t.start < t.stop ∧
      text.toByteArray.extract t.start t.stop = t.text.toByteArray) ∧
    (∀ b ∈ gapSpans 0 text.utf8ByteSize tokens, b.1 ≤ b.2 ∧ ∃ gap, Gap gap ∧
      text.toByteArray.extract b.1 b.2 = (String.ofList gap).toByteArray) ∧
    ∃ us, tokenize (" ".intercalate (tokens.map (·.text))) = .ok us ∧
      us.map (fun t => (t.token, t.text)) = tokens.map fun t => (t.token, t.text) := by
  have hwalk := walk_of_tokensFrom h
  have hslices := hwalk.slices [] rfl
  have hgaps := hwalk.gaps [] .nil rfl
  rw [nil_append, nil_append, byteLength_eq text.toList, String.ofList_toList] at hgaps
  rw [nil_append, String.ofList_toList] at hslices
  exact ⟨hwalk.pairwise, hslices, hgaps, hwalk.spaced 0⟩

theorem arrow_and_comment_make_up_text :
    ∃ us, tokenize "$a --> 'b'" = .ok us ∧ us.map (fun t => (t.token, t.text)) =
      [(.parameter "a", "$a"), (.symbol .arrowRight, "-->"), (.string "b", "'b'")] := by
  have h := tokens_and_gaps_make_up_text "$a/**/-->'b' // c" [⟨.parameter "a", "$a", 0, 2⟩,
    ⟨.symbol .arrowRight, "-->", 6, 9⟩, ⟨.string "b", "'b'", 9, 12⟩] (by decide)
  exact h.2.2.2

end CypherTraversal
