import CypherTraversal.Proofs.Script.Terms
import CypherTraversal.Traversal.Script

/-! # Traversals as terms of scripts

Each step is a call with terms, and a traversal inside a step is a chain of calls. The script text
of a traversal is what the calls of its steps are written as (`Traversal.script_chars`). -/

namespace CypherTraversal

open Script List Term Step

/-! ### Values -/

def Scalar.term : Scalar → Term
  | str s => .text s
  | s => .word s.script

namespace Value

mutual

def term : Value → Term
  | scalar s => s.term
  | list items => .list (terms items)
  | map entries => .map (termEntries entries)

def terms : List Value → List Term
  | [] => []
  | v :: vs => term v :: terms vs

def termEntries : List (String × Value) → List (String × Term)
  | [] => []
  | (k, v) :: vs => (k, term v) :: termEntries vs

end

end Value

def Operand.term : Operand → Term
  | value v => v.term
  | parameter name => .word name
  | label name => .text name

def Bound.term (n : Bound) : Term :=
  .word n.script

/-! ### Predicates -/

def Comparison.callName : Comparison → String
  | eq => "eq" | ne => "neq" | lt => "lt" | le => "lte" | gt => "gt" | ge => "gte"

def TextMatch.callName : TextMatch → String
  | startsWith => "cypherStartsWith" | endsWith => "cypherEndsWith" | contains => "cypherContains"

def Predicate.term : Predicate → Term
  | compare c o => .chain "P" [(c.callName, [o.term])]
  | between low high => .chain "P" [("between", [low.term, high.term])]
  | within o => .chain "P" [("within", [o.term])]
  | without o => .chain "P" [("without", [o.term])]
  | text m o => .chain "CustomPredicate" [(m.callName, [o.term])]

/-! ### Steps -/

inductive StepName where
  | vertices | inject | hasLabel | has | hasNot | is | filter | not | and | or
  | edges (direction : Direction) | endpoint (e : Endpoint)
  | mark | select | values | properties | value | id | label | constant | project | by
  | unfold | fold | reduce (r : Reduction) | dedup | group | order | skip | limit | range
  | union | choose | coalesce | flatMap | identity | barrier
  | addVertex | addEdge | fromLabel | toLabel | property
deriving DecidableEq

def StepName.text : StepName → String
  | vertices => "V" | inject => "inject" | hasLabel => "hasLabel" | has => "has"
  | hasNot => "hasNot" | is => "is" | filter => "where" | not => "not" | and => "and" | or => "or"
  | edges d => d.edgesName | endpoint e => e.stepName
  | mark => "as" | select => "select" | values => "values" | properties => "properties"
  | value => "value" | id => "id" | label => "label" | constant => "constant"
  | project => "project" | .by => "by" | .unfold => "unfold" | fold => "fold"
  | reduce r => r.stepName
  | dedup => "dedup" | group => "group" | order => "order" | skip => "skip" | limit => "limit"
  | range => "range" | union => "union" | choose => "choose" | coalesce => "coalesce"
  | flatMap => "flatMap" | identity => "identity" | barrier => "barrier" | addVertex => "addV"
  | addEdge => "addE" | fromLabel => "from" | toLabel => "to" | property => "property"

def nestedTerm (calls : List (String × List Term)) : Term :=
  .chain "__" (if calls.isEmpty then [("identity", [])] else calls)

namespace Step

def name : Step → StepName
  | vertices => .vertices
  | inject _ => .inject
  | hasLabel _ => .hasLabel
  | has _ | hasPredicate _ _ => .has
  | hasNot _ => .hasNot
  | is _ => .is
  | .filter _ | wherePredicate _ => .filter
  | .not _ => .not
  | .and _ => .and
  | .or _ => .or
  | edges d _ => .edges d
  | endpoint e => .endpoint e
  | mark _ => .mark
  | select _ | selectColumn _ => .select
  | values _ => .values
  | properties _ => .properties
  | value => .value
  | id => .id
  | label => .label
  | constant _ => .constant
  | project _ => .project
  | .by _ | byOrder _ _ => .by
  | unfold => .unfold
  | fold => .fold
  | reduce r => .reduce r
  | dedup => .dedup
  | group => .group
  | order => .order
  | skip _ => .skip
  | limit _ => .limit
  | range _ _ => .range
  | union _ => .union
  | choose _ _ _ => .choose
  | coalesce _ => .coalesce
  | flatMap _ => .flatMap
  | identity => .identity
  | barrier => .barrier
  | addVertex _ => .addVertex
  | addEdge _ => .addEdge
  | fromLabel _ => .fromLabel
  | toLabel _ => .toLabel
  | property _ _ => .property

mutual

def terms : Step → List Term
  | inject vs => Value.terms vs
  | hasLabel labels | edges _ labels | project labels => labels.map .text
  | has key | hasNot key | values key | properties key => [.text key]
  | hasPredicate key p => [.text key, p.term]
  | is p | wherePredicate p => [p.term]
  | .filter t | .not t | .by t | flatMap t => [nestedTerm (calls t)]
  | .and ts | .or ts | union ts | coalesce ts => nestedTerms ts
  | mark l | select l | addEdge l | fromLabel l | toLabel l => [.text l]
  | selectColumn c => [.word c.script]
  | constant o => [o.term]
  | byOrder t o => [nestedTerm (calls t), .word o.script]
  | skip n | limit n => [n.term]
  | range low high => [low.term, high.term]
  | choose c y n => [nestedTerm (calls c), nestedTerm (calls y), nestedTerm (calls n)]
  | addVertex l => (l.map .text).toList
  | property key [constant o] => [.text key, o.term]
  | property key t => [.text key, nestedTerm (calls t)]
  | vertices | endpoint _ | value | id | label | unfold | fold | reduce _ | dedup | group | order
  | identity | barrier => []

def calls : List Step → List (String × List Term)
  | [] => []
  | s :: ss => (s.name.text, terms s) :: calls ss

def nestedTerms : List (List Step) → List Term
  | [] => []
  | t :: ts => nestedTerm (calls t) :: nestedTerms ts

end

end Step

/-! ### What terms are written as -/

theorem commaList_chars (xs : List String) :
    (commaList xs).toList = commas (xs.map String.toList) := by
  cases xs with
  | nil => rfl
  | cons x xs =>
    induction xs generalizing x with
    | nil => simp [commaList, commas]
    | cons y xs ih =>
      have ih := ih y
      simp only [commaList, commas, map_cons] at ih ⊢
      rw [String.intercalate_cons_cons, String.toList_append, String.toList_append, ih]
      simp

theorem writeCall_chars (name args : String) :
    (writeCall name args).toList = name.toList ++ '(' :: (args.toList ++ [')']) := by
  simp [writeCall]

theorem commas_singleton (x : List Char) : commas [x] = x :=
  append_nil x

theorem Scalar.term_chars (s : Scalar) : s.term.chars = s.script.toList := by
  cases s <;> simp [Scalar.term, chars, Scalar.script]

namespace Value

mutual

theorem term_chars : ∀ v : Value, v.term.chars = v.script.toList
  | scalar s => by rw [term, script, s.term_chars]
  | list items => by
    rw [term, script, chars, terms_chars items, ← commaList_chars, commaList]
    simp
  | map [] => by simp [term, script, termEntries, chars]
  | map ((k, v) :: vs) => by
    have hentries := termEntries_chars ((k, v) :: vs)
    rw [term, script, termEntries, chars]
    rw [termEntries] at hentries
    rw [hentries, ← commaList_chars, commaList]
    · simp
    · simp

theorem terms_chars : ∀ vs : List Value,
    charsEach (terms vs) = (scriptItems vs).map String.toList
  | [] => rfl
  | v :: vs => by
    rw [terms, charsEach, term_chars v, terms_chars vs, scriptItems, map_cons]

theorem termEntries_chars : ∀ vs : List (String × Value),
    charsEntries (termEntries vs) = (scriptEntries vs).map String.toList
  | [] => rfl
  | (k, v) :: vs => by
    rw [termEntries, charsEntries, term_chars v, termEntries_chars vs, scriptEntries, map_cons]
    simp

end

end Value

theorem Operand.term_chars (o : Operand) : o.term.chars = o.script.toList := by
  cases o with
  | value v => exact v.term_chars
  | parameter name | label name => rw [term, script, chars]

theorem Bound.term_chars (n : Bound) : n.term.chars = n.script.toList := by
  rw [term, chars]

theorem Predicate.term_chars (p : Predicate) : p.term.chars = p.script.toList := by
  have hcall (head name : String) (o : Operand) :
      (chain head [(name, [o.term])]).chars =
        (writeCall (head ++ "." ++ name) o.script).toList := by
    simp [chars, charsCalls, charsEach, commas, o.term_chars, writeCall_chars]
  cases p with
  | compare c o =>
    rw [term, hcall, script]
    cases c <;> rfl
  | between low high =>
    simp [term, script, chars, charsCalls, charsEach, writeCall_chars,
      commaList_chars, low.term_chars, high.term_chars]
  | within o | without o => rw [term, hcall, script]; rfl
  | text m o =>
    rw [term, hcall, script]
    cases m <;> rfl

theorem nestedTerm_chars {f : Traversal}
    (h : charsCalls (calls f) = (String.join ((scripts f).map ("." ++ ·))).toList) :
    (nestedTerm (calls f)).chars = (nestedScript (scripts f)).toList := by
  cases f with
  | nil => simp [nestedTerm, calls, nestedScript, scripts, chars, charsCalls,
      charsEach, commas]
  | cons s f =>
    rw [calls] at h ⊢
    rw [scripts] at h ⊢
    simp only [nestedTerm, nestedScript, isEmpty_cons, Bool.false_eq_true, if_false,
      chars, h, String.toList_append]

theorem commaList_term_chars {ts : List Term} {xs : List String}
    (h : charsEach ts = xs.map String.toList) :
    (commaList xs).toList = commas (charsEach ts) := by
  rw [commaList_chars, h]

theorem quotedList_chars (labels : List String) :
    (quotedList labels).toList = commas (charsEach (labels.map .text)) :=
  commaList_term_chars (by simp [charsEach_eq, Function.comp_def, chars])

theorem term_chars_single (t : Term) {x : String} (h : t.chars = x.toList) :
    x.toList = commas (charsEach [t]) := by
  rw [← h, charsEach, charsEach, commas_singleton]

theorem term_chars_pair (t u : Term) {x y : String} (ht : t.chars = x.toList)
    (hu : u.chars = y.toList) : (commaList [x, y]).toList = commas (charsEach [t, u]) :=
  commaList_term_chars (by simp [charsEach, ht, hu])

theorem Step.terms_property {key : String} {f : Traversal} (hf : ¬ ∃ o, f = [constant o]) :
    (property key f).terms = [.text key, nestedTerm (calls f)] := by
  rw [terms]
  exact fun o ho => hf ⟨o, ho⟩

theorem Step.call_chars {s : Step} {args : String} (hs : s.script = writeCall s.name.text args)
    (hargs : args.toList = commas (charsEach s.terms)) :
    s.script.toList = s.name.text.toList ++ '(' :: (commas (charsEach s.terms) ++ [')']) := by
  rw [hs, writeCall_chars, hargs]

namespace Step

mutual

theorem script_chars : ∀ s : Step,
    s.script.toList = s.name.text.toList ++ '(' :: (commas (charsEach s.terms) ++ [')'])
  | vertices | value | id | label | unfold | fold | dedup | group | order | identity | barrier => by
    simp [script, name, StepName.text, terms, charsEach, commas]
  | endpoint _ | reduce _ => call_chars rfl rfl
  | inject vs => call_chars rfl (commaList_term_chars (Value.terms_chars vs))
  | hasLabel labels | edges _ labels | project labels => call_chars rfl (quotedList_chars labels)
  | has s | hasNot s | values s | properties s | mark s | select s | addEdge s | fromLabel s
  | toLabel s => call_chars rfl (term_chars_single (.text s) rfl)
  | hasPredicate key p => call_chars rfl (term_chars_pair (.text key) p.term rfl p.term_chars)
  | is p | wherePredicate p => call_chars rfl (term_chars_single p.term p.term_chars)
  | .filter t | .not t | .by t | flatMap t =>
    call_chars rfl (term_chars_single _ (nestedTerm_chars (scripts_chars t)))
  | .and ts | .or ts | union ts | coalesce ts =>
    call_chars rfl (commaList_term_chars (scriptEach_chars ts).symm)
  | selectColumn c => call_chars rfl (term_chars_single (.word c.script) rfl)
  | constant o => call_chars rfl (term_chars_single o.term o.term_chars)
  | byOrder t o => call_chars rfl
    (term_chars_pair _ (.word o.script) (nestedTerm_chars (scripts_chars t)) rfl)
  | skip n | limit n => call_chars rfl (term_chars_single n.term n.term_chars)
  | range low high => call_chars rfl
    (term_chars_pair low.term high.term low.term_chars high.term_chars)
  | choose c y n => call_chars rfl (commaList_term_chars (by
    simp [terms, charsEach, nestedTerm_chars (scripts_chars c),
      nestedTerm_chars (scripts_chars y), nestedTerm_chars (scripts_chars n)]))
  | addVertex none => call_chars rfl rfl
  | addVertex (some l) => call_chars rfl (term_chars_single (.text l) rfl)
  | property key t => by
    have hnested := nestedTerm_chars (scripts_chars t)
    by_cases ht : ∃ o, t = [constant o]
    · obtain ⟨o, rfl⟩ := ht
      exact call_chars rfl (term_chars_pair (.text key) o.term rfl o.term_chars)
    · have hs : (property key t).script =
          writeCall "property" (commaList [Text.quote key, nestedScript (scripts t)]) := by
        rw [script]
        exact fun o ho => ht ⟨o, ho⟩
      exact call_chars hs (terms_property ht ▸ term_chars_pair (.text key) _ rfl hnested)

theorem scripts_chars : ∀ f : List Step,
    charsCalls (calls f) = (String.join ((scripts f).map ("." ++ ·))).toList
  | [] => rfl
  | s :: f => by
    rw [calls, scripts, charsCalls, scripts_chars f, map_cons, String.join_cons,
      String.toList_append, String.toList_append, script_chars s]
    simp

theorem scriptEach_chars : ∀ fs : List (List Step),
    (scriptEach fs).map String.toList = charsEach (nestedTerms fs)
  | [] => rfl
  | f :: fs => by
    rw [scriptEach, nestedTerms, charsEach, nestedTerm_chars (scripts_chars f),
      map_cons, scriptEach_chars fs]

end

end Step

theorem Traversal.script_chars (f : Traversal) : f.script.toList = 'g' :: charsCalls (calls f) := by
  rw [script, String.toList_append, scripts_chars]
  rfl

end CypherTraversal
