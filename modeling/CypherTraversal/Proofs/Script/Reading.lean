import CypherTraversal.Proofs.Script.Calls
import CypherTraversal.Proofs.Traversal.Every
import CypherTraversal.Text.Name
import Mathlib.Tactic.IntervalCases

/-! # Scripts read back

Numbers, values, operands, predicates and steps are read back from the terms that a script is
written with. -/

namespace CypherTraversal

open Script List

variable {n : Int} {s : Scalar} {o : Operand}

/-! ### Numbers -/

namespace Script

theorem mem_of_isDigit {c : Char} (h : c.isDigit) :
    c ∈ ['0', '1', '2', '3', '4', '5', '6', '7', '8', '9'] := by
  obtain ⟨hlow, hhigh⟩ := Char.isDigit_iff_toNat.mp h
  have hlow : 48 ≤ c.toNat := hlow
  have hhigh : c.toNat ≤ 57 := hhigh
  rw [← Char.ofNat_toNat c]
  interval_cases c.toNat <;> decide

theorem toString_chars (n : Int) : (toString n).toList =
    if 0 ≤ n then Nat.toDigits 10 n.toNat else '-' :: Nat.toDigits 10 (-n).toNat := by
  rw [show toString n = n.repr from rfl, Int.repr_eq_if]
  split <;> simp [Nat.toList_repr]

def numberChars : List Char :=
  ['-', '0', '1', '2', '3', '4', '5', '6', '7', '8', '9']

theorem mem_numberChars : ∀ c ∈ (toString n).toList, c ∈ numberChars := by
  have hdigit {m : Nat} {c : Char} (hc : c ∈ Nat.toDigits 10 m) : c ∈ numberChars :=
    mem_cons_of_mem _ (mem_of_isDigit (Nat.isDigit_of_mem_toDigits (by decide) (by decide) hc))
  intro c hc
  rw [toString_chars] at hc
  split at hc
  · exact hdigit hc
  · obtain rfl | hc := mem_cons.mp hc
    · exact mem_cons_self
    · exact hdigit hc

theorem toString_ne_nil (n : Int) : (toString n).toList ≠ [] := by
  rw [toString_chars]
  split
  · exact Nat.toDigits_ne_nil
  · exact cons_ne_nil _ _

theorem numberChars_plain : ∀ c ∈ numberChars,
    isDelimiter c = false ∧ Text.isNameStart c = false ∧ (c != 'L') = true := by
  have hplain : numberChars.all fun c => !isDelimiter c && (!Text.isNameStart c && c != 'L') := by
    decide +kernel
  intro c hc
  have hc := all_eq_true.mp hplain c hc
  rwa [Bool.and_eq_true, Bool.and_eq_true, Bool.not_eq_true', Bool.not_eq_true'] at hc

theorem not_isPlainName_of_number {r : String} : Text.isPlainName (toString n ++ r) = false := by
  obtain ⟨c, cs, hc⟩ := exists_cons_of_ne_nil (toString_ne_nil n)
  have hstart := (numberChars_plain c (mem_numberChars c (hc ▸ mem_cons_self))).2.1
  rw [Text.isPlainName, String.toList_append, hc]
  exact Bool.and_eq_false_iff.mpr (.inl hstart)

def readNumber : List Char → Int
  | [] => 0
  | c :: cs =>
    if c = '-' then -(Nat.ofDigitChars 10 cs 0 : Int) else Nat.ofDigitChars 10 (c :: cs) 0

theorem readNumber_toString (n : Int) : readNumber (toString n).toList = n := by
  rw [toString_chars]
  split
  · obtain ⟨c, cs, hc⟩ := exists_cons_of_ne_nil (Nat.toDigits_ne_nil (n := n.toNat) (b := 10))
    have hdigit := Nat.isDigit_of_mem_toDigits (by decide) (by decide) (hc ▸ mem_cons_self)
    have hminus : c ≠ '-' := by
      rintro rfl
      exact absurd hdigit (by decide)
    rw [hc, readNumber, if_neg hminus, ← hc, Nat.ofDigitChars_ten_toDigits]
    omega
  · rw [readNumber, if_pos rfl, Nat.ofDigitChars_ten_toDigits]
    omega

end Script

/-! ### Values without floating point numbers -/

namespace Value

mutual

def floatFree : Value → Bool
  | scalar (.float _) => false
  | scalar _ => true
  | list items => allFloatFree items
  | map entries => entriesFloatFree entries

def allFloatFree : List Value → Bool
  | [] => true
  | v :: vs => floatFree v && allFloatFree vs

def entriesFloatFree : List (String × Value) → Bool
  | [] => true
  | (_, v) :: vs => floatFree v && entriesFloatFree vs

end

end Value

def Scalar.ofWord (w : String) : Scalar :=
  if w = "null" then .null
  else if w = "true" then .bool true
  else if w = "false" then .bool false
  else .int (readNumber (w.toList.takeWhile (· != 'L')))

theorem Scalar.ofWord_script (h : (Value.scalar s).floatFree)
    (htext : ∀ t, s ≠ .str t) : ofWord s.script = s := by
  cases s with
  | null => rfl
  | bool b => cases b <;> rfl
  | int n =>
    obtain ⟨r, hr, htake⟩ : ∃ r, (int n).script = toString n ++ r ∧
        r.toList.takeWhile (· != 'L') = [] := by
      rw [script]
      split
      · exact ⟨"", rfl, rfl⟩
      · exact ⟨"L", rfl, rfl⟩
    have hword (w : String) (hw : Text.isPlainName w) : toString n ++ r ≠ w := by
      rintro rfl
      rw [not_isPlainName_of_number] at hw
      cases hw
    rw [hr, ofWord, if_neg (hword _ (by decide +kernel)), if_neg (hword _ (by decide +kernel)),
      if_neg (hword _ (by decide +kernel)), String.toList_append, takeWhile_append_of_pos
        fun c hc => (numberChars_plain c (mem_numberChars c hc)).2.2, htake, append_nil,
      readNumber_toString]
  | float x => cases h
  | str t => exact absurd rfl (htext t)

namespace Value

mutual

def ofTerm : Term → Value
  | .text s => .str s
  | .word w => .scalar (.ofWord w)
  | .list items => .list (ofTerms items)
  | .map entries => .map (ofTermEntries entries)
  | .chain _ _ => .null

def ofTerms : List Term → List Value
  | [] => []
  | t :: ts => ofTerm t :: ofTerms ts

def ofTermEntries : List (String × Term) → List (String × Value)
  | [] => []
  | (k, t) :: ts => (k, ofTerm t) :: ofTermEntries ts

end

theorem ofTerm_term_scalar (h : (scalar s).floatFree) : ofTerm (scalar s).term = scalar s := by
  cases s with
  | str t => rfl
  | null | bool | int | float =>
    exact congrArg scalar (Scalar.ofWord_script h fun t ht => by cases ht)

mutual

theorem ofTerm_term : ∀ v : Value, v.floatFree → ofTerm v.term = v
  | scalar _, h => ofTerm_term_scalar h
  | list items, h => congrArg list (ofTerms_terms items h)
  | map entries, h => congrArg map (ofTermEntries_termEntries entries h)

theorem ofTerms_terms : ∀ vs : List Value, allFloatFree vs → ofTerms (terms vs) = vs
  | [], _ => rfl
  | v :: vs, h => by
    obtain ⟨hv, hvs⟩ := Bool.and_eq_true_iff.mp h
    rw [terms, ofTerms, ofTerm_term v hv, ofTerms_terms vs hvs]

theorem ofTermEntries_termEntries : ∀ vs : List (String × Value), entriesFloatFree vs →
    ofTermEntries (termEntries vs) = vs
  | [], _ => rfl
  | (k, v) :: vs, h => by
    obtain ⟨hv, hvs⟩ := Bool.and_eq_true_iff.mp h
    rw [termEntries, ofTermEntries, ofTerm_term v hv, ofTermEntries_termEntries vs hvs]

end

end Value

/-! ### Operands and bounds -/

namespace Operand

def Readable : Operand → Prop
  | value v => v.floatFree
  | parameter name => Text.isPlainName name ∧ isReserved name = false
  | label _ => False

def ofTerm : Term → Operand
  | .word w =>
    if Text.isPlainName w && !isReserved w then .parameter w else .value (.scalar (.ofWord w))
  | t => .value (.ofTerm t)

theorem not_isPlainName_script (h : (Value.scalar s).floatFree)
    (htext : ∀ t, s ≠ .str t) : (Text.isPlainName s.script && !isReserved s.script) = false := by
  cases s with
  | null => decide +kernel
  | bool b => cases b <;> decide +kernel
  | int n =>
    rw [Scalar.script, not_isPlainName_of_number]
    rfl
  | float x => cases h
  | str t => exact absurd rfl (htext t)

theorem ofTerm_term (h : o.Readable) : ofTerm o.term = o := by
  cases o with
  | value v =>
    have hv := v.ofTerm_term h
    cases v with
    | scalar s =>
      cases s with
      | str t => rfl
      | null | bool | int | float =>
        have hname := not_isPlainName_script h fun t ht => by cases ht
        show ofTerm (.word _) = _
        rw [ofTerm, hname]
        exact congrArg value hv
    | list items | map entries => exact congrArg value hv
  | parameter name =>
    rw [term, ofTerm, h.1, h.2]
    rfl
  | label name => cases h

def ofLabel : Term → Operand
  | .text s => .label s
  | t => .value (.ofTerm t)

theorem ofLabel_term (h : ∃ l, o = .label l) : ofLabel o.term = o := by
  obtain ⟨l, rfl⟩ := h
  rfl

end Operand

namespace Bound

def Readable : Bound → Prop
  | literal _ => True
  | parameter name => Text.isPlainName name

def ofTerm : Term → Bound
  | .word w => if Text.isPlainName w then .parameter w else .literal (readNumber w.toList)
  | _ => .literal 0

theorem ofTerm_term {n : Bound} (h : n.Readable) : ofTerm n.term = n := by
  cases n with
  | literal n =>
    have hname : Text.isPlainName (toString n ++ "") = false := not_isPlainName_of_number
    rw [String.append_empty] at hname
    rw [term, script, ofTerm, hname, readNumber_toString]
    rfl
  | parameter name =>
    rw [term, script, ofTerm, h]
    rfl

end Bound

/-! ### Predicates -/

def Comparison.ofCallName? (name : String) : Option Comparison :=
  [eq, ne, lt, le, gt, ge].find? fun c => c.callName == name

def TextMatch.ofCallName (name : String) : TextMatch :=
  if name = startsWith.callName then .startsWith
  else if name = endsWith.callName then .endsWith
  else .contains

namespace Predicate

def ofTerm (read : Term → Operand) : Term → Predicate
  | .chain head [(name, [t])] =>
    if head = "P" then
      match Comparison.ofCallName? name with
      | some c => .compare c (read t)
      | none => if name = "within" then .within (read t) else .without (read t)
    else .text (.ofCallName name) (read t)
  | .chain _ [(_, [t, u])] => .between (read t) (read u)
  | t => .within (read t)

theorem ofTerm_term {read : Term → Operand} {p : Predicate}
    (h : ∀ o ∈ p.operands, read o.term = o) : ofTerm read p.term = p := by
  cases p with
  | compare c o =>
    have ho := h o mem_cons_self
    cases c <;> exact congrArg _ ho
  | between low high =>
    rw [term, ofTerm, h low mem_cons_self, h high (.tail _ mem_cons_self)]
  | within o => exact congrArg within (h o mem_cons_self)
  | without o => exact congrArg without (h o mem_cons_self)
  | text m o =>
    have ho := h o mem_cons_self
    cases m <;> exact congrArg _ ho

end Predicate

/-! ### Steps -/

namespace StepName

def all : List StepName :=
  [vertices, inject, hasLabel, has, hasNot, is, filter, not, and, or, edges .outgoing,
    edges .incoming, edges .both, endpoint .target, endpoint .source, endpoint .other, mark, select,
    values, properties, value, id, label, constant, project, .by, .unfold, fold, reduce .count,
    reduce .sum, reduce .min, reduce .max, reduce .mean, dedup, group, order, skip, limit, range,
    union, choose, coalesce, flatMap, identity, barrier, addVertex, addEdge, fromLabel, toLabel,
    property]

def ofText (s : String) : StepName :=
  (all.find? fun n => n.text == s).getD .identity

theorem ofText_text (n : StepName) : ofText n.text = n := by
  cases n with
  | edges d => cases d <;> decide +kernel
  | endpoint e => cases e <;> decide +kernel
  | reduce r => cases r <;> decide +kernel
  | _ => decide +kernel

end StepName

namespace Script.Term

def asText : Term → String
  | text s => s
  | _ => ""

def isNested : Term → Bool
  | chain head _ => head == "__"
  | _ => false

end Script.Term

theorem Operand.not_isNested_term (o : Operand) : o.term.isNested = false := by
  cases o with
  | value v =>
    cases v with
    | scalar s => cases s <;> rfl
    | list items | map entries => rfl
  | parameter name | label name => rfl

theorem Predicate.not_isNested_term (p : Predicate) : p.term.isNested = false := by
  cases p <;> rfl

namespace Step

def ofCall : StepName → List Term → List Traversal → Step
  | .vertices, _, _ => vertices
  | .inject, ts, _ => inject (Value.ofTerms ts)
  | .hasLabel, ts, _ => hasLabel (ts.map Term.asText)
  | .has, [t], _ => has t.asText
  | .has, [t, p], _ => hasPredicate t.asText (.ofTerm .ofTerm p)
  | .hasNot, [t], _ => hasNot t.asText
  | .is, [p], _ => is (.ofTerm .ofTerm p)
  | .filter, [t], [f] => if t.isNested then .filter f else wherePredicate (.ofTerm .ofLabel t)
  | .not, _, [f] => .not f
  | .and, _, fs => .and fs
  | .or, _, fs => .or fs
  | .edges d, ts, _ => edges d (ts.map Term.asText)
  | .endpoint e, _, _ => endpoint e
  | .mark, [t], _ => mark t.asText
  | .select, [.text l], _ => select l
  | .select, [.word w], _ => selectColumn (if w = Column.keys.script then .keys else .values)
  | .values, [t], _ => values t.asText
  | .properties, [t], _ => properties t.asText
  | .value, _, _ => value
  | .id, _, _ => id
  | .label, _, _ => label
  | .constant, [t], _ => constant (.ofTerm t)
  | .project, ts, _ => project (ts.map Term.asText)
  | .by, _, [f] => .by f
  | .by, [_, .word w], [f, _] => byOrder f (if w = SortOrder.asc.script then .asc else .desc)
  | .unfold, _, _ => unfold
  | .fold, _, _ => fold
  | .reduce r, _, _ => reduce r
  | .dedup, _, _ => dedup
  | .group, _, _ => group
  | .order, _, _ => order
  | .skip, [t], _ => skip (.ofTerm t)
  | .limit, [t], _ => limit (.ofTerm t)
  | .range, [t, u], _ => range (.ofTerm t) (.ofTerm u)
  | .union, _, fs => union fs
  | .choose, _, [c, y, n] => choose c y n
  | .coalesce, _, fs => coalesce fs
  | .flatMap, _, [f] => flatMap f
  | .identity, _, _ => identity
  | .barrier, _, _ => barrier
  | .addVertex, ts, _ => addVertex (ts.head?.map Term.asText)
  | .addEdge, [t], _ => addEdge t.asText
  | .fromLabel, [t], _ => fromLabel t.asText
  | .toLabel, [t], _ => toLabel t.asText
  | .property, [k, t], [_, f] =>
    property k.asText (if t.isNested then f else [constant (.ofTerm t)])
  | _, _, _ => identity

mutual

def readNested : Term → Traversal
  | .chain _ calls => readCalls calls
  | _ => []

def readCalls : List (String × List Term) → Traversal
  | [] => []
  | (n, ts) :: cs => ofCall (.ofText n) ts (readEach ts) :: readCalls cs

def readEach : List Term → List Traversal
  | [] => []
  | t :: ts => readNested t :: readEach ts

end

def Readable : Step → Prop
  | inject vs => Value.allFloatFree vs
  | constant o => o.Readable
  | is p | hasPredicate _ p => ∀ o ∈ p.operands, o.Readable
  | wherePredicate p => ∀ o ∈ p.operands, ∃ l, o = .label l
  | skip n | limit n => n.Readable
  | range low high => low.Readable ∧ high.Readable
  | _ => True

theorem readEach_nestedTerms {fs : List Traversal}
    (h : ∀ f ∈ fs, readNested (nestedTerm (calls f)) = f) : readEach (nestedTerms fs) = fs := by
  induction fs with
  | nil => rfl
  | cons f fs ih =>
    obtain ⟨hf, hfs⟩ := forall_mem_cons.mp h
    rw [nestedTerms, readEach, hf, ih hfs]

theorem map_asText (labels : List String) : (labels.map Term.text).map Term.asText = labels := by
  simp [Function.comp_def, Term.asText]

theorem ofCall_terms {s : Step} (hs : s.Readable)
    (hinside : ∀ f ∈ s.inside, readNested (nestedTerm (calls f)) = f)
    (hdata : ∀ f ∈ s.inside, f.Every Readable) :
    ofCall s.name s.terms (readEach s.terms) = s := by
  cases s with
  | inject vs => exact congrArg inject (Value.ofTerms_terms vs hs)
  | hasLabel labels => exact congrArg hasLabel (map_asText labels)
  | edges d labels => exact congrArg (edges d) (map_asText labels)
  | project labels => exact congrArg project (map_asText labels)
  | hasPredicate key p =>
    exact congrArg (hasPredicate key)
      (Predicate.ofTerm_term fun o ho => Operand.ofTerm_term (hs o ho))
  | is p => exact congrArg is (Predicate.ofTerm_term fun o ho => Operand.ofTerm_term (hs o ho))
  | wherePredicate p =>
    have hp : Predicate.ofTerm .ofLabel p.term = p :=
      Predicate.ofTerm_term fun o ho => Operand.ofLabel_term (hs o ho)
    show (if p.term.isNested then _ else _) = _
    rw [p.not_isNested_term, hp]
    rfl
  | filter t => exact congrArg Step.filter (hinside t mem_cons_self)
  | not t => exact congrArg Step.not (hinside t mem_cons_self)
  | «by» t => exact congrArg Step.by (hinside t mem_cons_self)
  | flatMap t => exact congrArg flatMap (hinside t mem_cons_self)
  | and ts => exact congrArg Step.and (readEach_nestedTerms hinside)
  | or ts => exact congrArg Step.or (readEach_nestedTerms hinside)
  | union ts => exact congrArg union (readEach_nestedTerms hinside)
  | coalesce ts => exact congrArg coalesce (readEach_nestedTerms hinside)
  | selectColumn c => cases c <;> rfl
  | constant o => exact congrArg constant (Operand.ofTerm_term hs)
  | byOrder t o =>
    have ht := hinside t mem_cons_self
    cases o <;> exact congrArg (byOrder · _) ht
  | skip n => exact congrArg skip (Bound.ofTerm_term hs)
  | limit n => exact congrArg limit (Bound.ofTerm_term hs)
  | range low high =>
    exact congrArg₂ range (Bound.ofTerm_term hs.1) (Bound.ofTerm_term hs.2)
  | choose c y n =>
    obtain ⟨hc, hinside⟩ := forall_mem_cons.mp hinside
    obtain ⟨hy, hinside⟩ := forall_mem_cons.mp hinside
    have hn := hinside n mem_cons_self
    show choose (readNested _) (readNested _) (readNested _) = _
    rw [hc, hy, hn]
  | addVertex l => cases l <;> rfl
  | property key t =>
    by_cases ht : ∃ o, t = [constant o]
    · obtain ⟨o, rfl⟩ := ht
      have ho : o.Readable := ((hdata _ mem_cons_self).of_mem mem_cons_self).1
      show property key (if o.term.isNested then _ else [constant (.ofTerm o.term)]) = _
      rw [o.not_isNested_term, Operand.ofTerm_term ho]
      rfl
    · rw [terms_property ht]
      exact congrArg (property key) (hinside t mem_cons_self)
  | _ => rfl

theorem readNested_nestedTerm {f : Traversal} (hf : f ≠ []) :
    readNested (nestedTerm (calls f)) = readCalls (calls f) := by
  obtain ⟨s, f, rfl⟩ := exists_cons_of_ne_nil hf
  rfl

end Step

def Traversal.Readable (f : Traversal) : Prop :=
  f.Every fun s => s.Readable ∧ ∀ g ∈ s.inside, g ≠ []

theorem Traversal.readCalls_calls (f : Traversal) (hf : f.Readable) :
    Step.readCalls (Step.calls f) = f := by
  induction f using Traversal.induction_inside with
  | h f ih =>
    have hstep (s : Step) (hs : s ∈ f) :
        Step.ofCall s.name s.terms (Step.readEach s.terms) = s := by
      obtain ⟨⟨hreadable, hne⟩, hinside⟩ := hf.of_mem hs
      refine Step.ofCall_terms hreadable (fun g hg => ?_) fun g hg t ht => (hinside g hg t ht).1
      rw [Step.readNested_nestedTerm (hne g hg), ih s hs g hg (hinside g hg)]
    clear hf ih
    induction f with
    | nil => rfl
    | cons s f ihf =>
      obtain ⟨hs, hf⟩ := forall_mem_cons.mp hstep
      rw [Step.calls, Step.readCalls, StepName.ofText_text, hs, ihf hf]

end CypherTraversal
