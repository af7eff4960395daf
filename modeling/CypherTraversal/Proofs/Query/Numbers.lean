import CypherTraversal.Query.Lexer
import Mathlib.Data.List.TakeWhile

/-! # How far a number goes

A number is a run of digits with a fraction and an exponent behind it, each if it is there. How many
characters each of them takes is found within these characters if nothing comes behind them that a
number or a word goes on with. -/

namespace CypherTraversal.Lexer

open List

variable {c : Char} {cs rest rest' : List Char} {f g : List Char → Nat} {p : Char → Bool}

/-- Nothing comes next, or a blank. -/
inductive BlankNext : List Char → Prop
  | nil : BlankNext []
  | blank (cs : List Char) : BlankNext (' ' :: cs)

theorem BlankNext.head (h : BlankNext rest) (hp : p ' ' = false) :
    ∀ c ∈ rest.head?, p c = false := by
  cases h with
  | nil => rintro _ ⟨⟩
  | blank => rintro _ ⟨⟩; exact hp

/-- The length of the sign in front of the digits of an exponent. -/
def signLength (cs : List Char) : Nat :=
  if cs.head? == some '+' || cs.head? == some '-' then 1 else 0

theorem fractionLength_cons (hc : c ≠ '.') (cs : List Char) : fractionLength (c :: cs) = 0 := by
  unfold fractionLength
  split
  · rename_i h
    cases h
    exact absurd rfl hc
  · rfl

/-- What comes next goes on with no word and no number. -/
structure Stops (rest : List Char) : Prop where
  word : ∀ c ∈ rest.head?, isWordPart c = false
  fraction : fractionLength rest = 0
  sign : signLength rest = 0

namespace Stops

theorem nil : Stops [] :=
  ⟨fun _ h => (by cases h), rfl, rfl⟩

theorem cons (hc : (isWordPart c || c == '.' || c == '+' || c == '-') = false)
    (rest : List Char) : Stops (c :: rest) := by
  simp only [Bool.or_eq_false_iff] at hc
  obtain ⟨⟨⟨hword, hdot⟩, hplus⟩, hminus⟩ := hc
  refine ⟨by rintro _ ⟨⟩; exact hword, fractionLength_cons (by rintro rfl; cases hdot) rest, ?_⟩
  exact if_neg (by simp_all)

theorem digit (h : Stops rest) : ∀ c ∈ rest.head?, c.isDigit = false := by
  intro c hc
  have hword := h.word c hc
  exact (Bool.or_eq_false_iff.mp (Bool.or_eq_false_iff.mp hword).1).2

theorem exponent (h : Stops rest) : exponentLength rest = 0 := by
  cases rest with
  | nil => rfl
  | cons c rest =>
    have hword := h.word c rfl
    refine if_neg fun hc => ?_
    rcases Bool.or_eq_true_iff.mp hc with hc | hc
    · cases eq_of_beq hc
      cases hword
    · cases eq_of_beq hc
      cases hword

end Stops

theorem BlankNext.stops (h : BlankNext rest) : Stops rest := by
  cases h with
  | nil => exact .nil
  | blank => exact .cons rfl _

theorem takeWhile_append (hcs : ∀ c ∈ cs, p c) (hrest : ∀ c ∈ rest.head?, p c = false) :
    (cs ++ rest).takeWhile p = cs := by
  rw [takeWhile_append_of_pos hcs]
  cases rest with
  | nil => rw [takeWhile_nil, append_nil]
  | cons c rest => rw [takeWhile_cons_of_neg (by simp [hrest c rfl]), append_nil]

theorem exists_takeWhile (p : Char → Bool) (cs : List Char) :
    ∃ run rest, cs = run ++ rest ∧ cs.takeWhile p = run ∧ (∀ c ∈ run, p c) ∧
      ∀ c ∈ rest.head?, p c = false := by
  refine ⟨_, cs.dropWhile p, takeWhile_append_dropWhile.symm, rfl, all_eq_true.mp all_takeWhile,
    fun c hc => ?_⟩
  have hnot := head?_dropWhile_not p cs
  rwa [Option.mem_def.mp hc] at hnot

/-- The function counts characters at the front of a text, and finds out within them how many. -/
structure Measures (f : List Char → Nat) : Prop where
  le (cs : List Char) : f cs ≤ cs.length
  stop {cs r rest : List Char} (hstops : Stops rest) (h : f (cs ++ r) ≤ cs.length) :
    f (cs ++ rest) = f (cs ++ r)

theorem Measures.behind (hf : Measures f) (hg : Measures g) :
    Measures fun cs => f cs + g (cs.drop (f cs)) where
  le cs := by
    have hfront := hf.le cs
    have hrest := hg.le (cs.drop (f cs))
    rw [length_drop] at hrest
    omega
  stop {cs rest rest'} hstops h := by
    have hfront : f (cs ++ rest) ≤ cs.length := Nat.le_of_add_right_le h
    rw [drop_append_of_le_length hfront] at h
    rw [hf.stop hstops hfront, drop_append_of_le_length hfront, drop_append_of_le_length hfront,
      hg.stop hstops (r := rest)]
    rw [length_drop]
    omega

def digitsLength (cs : List Char) : Nat :=
  (cs.takeWhile Char.isDigit).length

theorem Stops.digits (h : Stops rest) : digitsLength rest = 0 :=
  congrArg length (takeWhile_append (forall_mem_nil _) h.digit)

theorem measures_digits : Measures digitsLength where
  le _ := (takeWhile_sublist _).length_le
  stop {cs rest rest'} hstops h := by
    unfold digitsLength at h ⊢
    induction cs with
    | nil =>
      rw [Nat.le_zero.mp h]
      exact hstops.digits
    | cons c cs ih =>
      rw [cons_append, takeWhile_cons] at h
      rw [cons_append, cons_append, takeWhile_cons, takeWhile_cons]
      split
      · rename_i hc
        rw [if_pos hc] at h
        rw [length_cons, length_cons, ih (Nat.le_of_succ_le_succ h)]
      · rfl

theorem fractionLength_dot (cs : List Char) :
    fractionLength ('.' :: cs) = if digitsLength cs = 0 then 0 else 1 + digitsLength cs :=
  rfl

theorem measures_fraction : Measures fractionLength where
  le cs := by
    cases cs with
    | nil => exact Nat.le_refl 0
    | cons c cs =>
      by_cases hc : c = '.'
      · subst hc
        have hdigits := measures_digits.le cs
        rw [fractionLength_dot]
        grind
      · rw [fractionLength_cons hc]
        exact Nat.zero_le _
  stop {cs rest rest'} hstops h := by
    cases cs with
    | nil =>
      rw [Nat.le_zero.mp h]
      exact hstops.fraction
    | cons c cs =>
      by_cases hc : c = '.'
      · subst hc
        rw [cons_append, fractionLength_dot] at h
        rw [cons_append, cons_append, fractionLength_dot, fractionLength_dot,
          measures_digits.stop hstops (r := rest)]
        grind
      · rw [cons_append, cons_append, fractionLength_cons hc, fractionLength_cons hc]

theorem exponentLength_cons (hc : c == 'e' || c == 'E') (cs : List Char) :
    exponentLength (c :: cs) =
      if digitsLength (cs.drop (signLength cs)) = 0 then 0
      else 1 + signLength cs + digitsLength (cs.drop (signLength cs)) := by
  refine (if_pos hc).trans ?_
  unfold signLength digitsLength
  cases cs <;> grind

theorem measures_exponent : Measures exponentLength where
  le cs := by
    cases cs with
    | nil => exact Nat.le_refl 0
    | cons c cs =>
      by_cases hc : c == 'e' || c == 'E'
      · have hdigits := measures_digits.le (cs.drop (signLength cs))
        rw [exponentLength_cons hc]
        grind
      · exact Nat.le_trans (Nat.le_of_eq (if_neg hc)) (Nat.zero_le _)
  stop {cs rest rest'} hstops h := by
    cases cs with
    | nil =>
      rw [Nat.le_zero.mp h]
      exact hstops.exponent
    | cons c cs =>
      by_cases hc : c == 'e' || c == 'E'
      · have hcons (r : List Char) := exponentLength_cons hc (cs ++ r)
        change exponentLength (c :: (cs ++ rest)) ≤ _ at h
        change exponentLength (c :: (cs ++ rest')) = exponentLength (c :: (cs ++ rest))
        rw [hcons] at h
        rw [hcons, hcons]
        cases cs with
        | nil =>
          -- a sign of the rest belongs to the exponent only if digits come then
          have hdigits : digitsLength (rest'.drop (signLength rest')) = 0 := by
            rw [hstops.sign]
            exact hstops.digits
          grind
        | cons d cs =>
          have hsign : signLength (d :: cs ++ rest') = signLength (d :: cs ++ rest) := rfl
          have hle : signLength (d :: cs ++ rest) ≤ (d :: cs).length := by
            unfold signLength
            grind
          rw [hsign, drop_append_of_le_length hle, drop_append_of_le_length hle,
            measures_digits.stop hstops (r := rest)]
          grind
      · exact (if_neg hc).trans (if_neg hc).symm

/-! ### Numbers as a whole -/

def numberLength (cs : List Char) : Nat :=
  let mantissa := digitsLength cs + fractionLength (cs.drop (digitsLength cs))
  mantissa + exponentLength (cs.drop mantissa)

theorem measures_number : Measures numberLength :=
  (measures_digits.behind measures_fraction).behind measures_exponent

theorem scanNumber_eq (cs : List Char) : scanNumber cs =
    if numberLength cs = digitsLength cs then
      (if Scalar.fits (Binary64.digitsValue (cs.take (digitsLength cs))) then
        .token (.integer (Binary64.digitsValue (cs.take (digitsLength cs)))) else .fault,
        digitsLength cs)
    else match Binary64.ofText? (String.ofList (cs.take (numberLength cs))) with
      | some x => (.token (.float x), numberLength cs)
      | none => (.fault, numberLength cs) :=
  rfl

theorem scanNumber_cases (cs : List Char) : scanNumber cs = (.fault, numberLength cs) ∨
    ∃ token, scanNumber cs = (.token token, numberLength cs) ∧
      ((∃ n, token = .integer n) ∨ ∃ x, token = .float x) := by
  rw [scanNumber_eq]
  split
  · rename_i hlength
    rw [hlength]
    split
    · exact .inr ⟨_, rfl, .inl ⟨_, rfl⟩⟩
    · exact .inl rfl
  · split
    · exact .inr ⟨_, rfl, .inr ⟨_, rfl⟩⟩
    · exact .inl rfl

theorem scanNumber_stop (hstops : Stops rest') (h : numberLength (cs ++ rest) ≤ cs.length) :
    scanNumber (cs ++ rest') = scanNumber (cs ++ rest) := by
  have htake {k : Nat} (hk : k ≤ cs.length) : (cs ++ rest').take k = (cs ++ rest).take k := by
    rw [take_append_of_le_length hk, take_append_of_le_length hk]
  have hdigits : digitsLength (cs ++ rest) ≤ cs.length := by
    unfold numberLength at h
    dsimp only at h
    omega
  rw [scanNumber_eq, scanNumber_eq, measures_number.stop hstops h,
    measures_digits.stop hstops hdigits, htake hdigits, htake h]

theorem scanNumber_append (hstops : Stops rest) (cs : List Char) :
    scanNumber (cs ++ rest) = scanNumber cs := by
  have hle : numberLength (cs ++ []) ≤ cs.length := by
    rw [append_nil]
    exact measures_number.le cs
  rw [scanNumber_stop hstops hle, append_nil]

end CypherTraversal.Lexer
