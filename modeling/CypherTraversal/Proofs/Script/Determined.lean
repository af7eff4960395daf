import CypherTraversal.Proofs.Lowering.WellBuilt
import CypherTraversal.Proofs.Script.Reading

/-! # The script of a query determines its traversal

The words in the calls of a readable traversal are words, so its script text determines the calls,
and the calls determine the traversal. The traversals of queries are readable once the names in them
have been checked, floating point numbers apart. -/

namespace CypherTraversal

open Script List Text

variable {s : Step} {o : Operand} {n : Bound} {flavor : Flavor} {q : Query} {l : LoweredQuery}
  {ps : Parameters} {r : ResolvedQuery}

/-! ### Words -/

namespace Script

theorem isWord_iff {w : List Char} : IsWord w ↔ w ≠ [] ∧ w.any isDelimiter = false := by
  rw [any_eq_false]
  constructor
  · exact fun h => ⟨h.nonempty, fun c hc => Bool.eq_false_iff.mp (h.plain c hc)⟩
  · exact fun h => ⟨h.1, fun c hc => Bool.eq_false_iff.mpr (h.2 c hc)⟩

instance (w : List Char) : Decidable (IsWord w) :=
  decidable_of_iff _ isWord_iff.symm

theorem isWord_of_isPlainName {name : String} (h : isPlainName name) : IsWord name.toList := by
  have hpart : ['\'', '[', ']', '(', ')', ',', ':'].any isNamePart = false := by
    decide +kernel
  have hplain (c : Char) (hc : isNamePart c) : isDelimiter c = false := by
    refine Bool.eq_false_iff.mpr fun hd => ?_
    exact any_eq_false.mp hpart c (contains_iff_mem.mp hd) hc
  rw [isPlainName] at h
  split at h
  · cases h
  · next c cs hname =>
    obtain ⟨hstart, hcs⟩ := Bool.and_eq_true_iff.mp h
    have hc : isNamePart c := by
      obtain hletter | hscore := Bool.or_eq_true_iff.mp hstart
      · simp [isNamePart, hletter]
      · simp [isNamePart, hscore]
    rw [hname]
    exact ⟨cons_ne_nil _ _, forall_mem_cons.mpr
      ⟨hplain c hc, fun d hd => hplain d (all_eq_true.mp hcs d hd)⟩⟩

theorem isWord_toString (n : Int) {r : List Char} (hr : ∀ c ∈ r, isDelimiter c = false) :
    IsWord ((toString n).toList ++ r) :=
  ⟨append_ne_nil_of_left_ne_nil (toString_ne_nil n) _, forall_mem_append.mpr
    ⟨fun c hc => (numberChars_plain c (mem_numberChars c hc)).1, hr⟩⟩

end Script

theorem Scalar.term_written {s : Scalar} (h : (Value.scalar s).floatFree) : s.term.Written := by
  cases s with
  | null => exact .word (by decide)
  | bool b => exact .word (by cases b <;> decide)
  | int n =>
    refine .word ?_
    rw [script, String.toList_append]
    refine isWord_toString n ?_
    split
    · exact forall_mem_nil _
    · exact IsWord.plain (by decide)
  | float x => cases h
  | str t => exact .text t

namespace Value

mutual

theorem term_written : ∀ v : Value, v.floatFree → v.term.Written
  | scalar _, h => Scalar.term_written h
  | list items, h => .list (terms_written items h)
  | map entries, h => .map (termEntries_written entries h)

theorem terms_written : ∀ vs : List Value, allFloatFree vs → ∀ t ∈ terms vs, t.Written
  | [], _ => forall_mem_nil _
  | v :: vs, h =>
    have ⟨hv, hvs⟩ := Bool.and_eq_true_iff.mp h
    forall_mem_cons.mpr ⟨term_written v hv, terms_written vs hvs⟩

theorem termEntries_written : ∀ vs : List (String × Value), entriesFloatFree vs →
    ∀ e ∈ termEntries vs, e.2.Written
  | [], _ => forall_mem_nil _
  | (_, v) :: vs, h =>
    have ⟨hv, hvs⟩ := Bool.and_eq_true_iff.mp h
    forall_mem_cons.mpr ⟨term_written v hv, termEntries_written vs hvs⟩

end

end Value

theorem Operand.term_written (h : o.Readable) : o.term.Written := by
  cases o with
  | value v => exact v.term_written h
  | parameter name => exact .word (isWord_of_isPlainName h.1)
  | label name => cases h

theorem Bound.term_written (h : n.Readable) : n.term.Written := by
  cases n with
  | literal n =>
    have hword := isWord_toString n (forall_mem_nil _)
    rw [append_nil] at hword
    exact .word hword
  | parameter name => exact .word (isWord_of_isPlainName h)

/-! ### Calls -/

def CallWritten (c : String × List Term) : Prop :=
  IsWord c.1.toList ∧ ∀ t ∈ c.2, t.Written

theorem Predicate.term_written {p : Predicate} (h : ∀ o ∈ p.operands, o.term.Written) :
    p.term.Written := by
  have hcall {head name : String} {ts : List Term} (hhead : IsWord head.toList ∧ '.' ∉ head.toList)
      (hname : IsWord name.toList) (hts : ∀ t ∈ ts, t.Written) :
      (Term.chain head [(name, ts)]).Written :=
    .chain hhead.1 hhead.2 (cons_ne_nil _ _) (forall_mem_singleton.mpr hname)
      (forall_mem_singleton.mpr hts)
  have hts : ∀ t ∈ p.operands.map Operand.term, t.Written := forall_mem_map.mpr h
  cases p with
  | compare c o => exact hcall (by decide) (by cases c <;> decide) hts
  | between low high | within o | without o => exact hcall (by decide) (by decide) hts
  | text m o => exact hcall (by decide) (by cases m <;> decide) hts

theorem nestedTerm_written {cs : List (String × List Term)} (h : ∀ c ∈ cs, CallWritten c) :
    (nestedTerm cs).Written := by
  cases cs with
  | nil => exact .chain (by decide) (by decide) (by decide) (by decide) (by simp)
  | cons c cs =>
    exact .chain (by decide) (by decide) (cons_ne_nil _ _) (fun c hc => (h c hc).1)
      fun c hc => (h c hc).2

theorem StepName.text_isWord (n : StepName) : IsWord n.text.toList := by
  cases n with
  | edges d => cases d <;> decide
  | endpoint e => cases e <;> decide
  | reduce r => cases r <;> decide
  | _ => decide

namespace Step

theorem nestedTerms_written {fs : List Traversal}
    (h : ∀ f ∈ fs, (nestedTerm (calls f)).Written) : ∀ t ∈ nestedTerms fs, t.Written := by
  induction fs with
  | nil => exact forall_mem_nil _
  | cons f fs ih =>
    obtain ⟨hf, hfs⟩ := forall_mem_cons.mp h
    exact forall_mem_cons.mpr ⟨hf, ih hfs⟩

theorem terms_written (hs : s.Readable)
    (hinside : ∀ f ∈ s.inside, (nestedTerm (calls f)).Written) : ∀ t ∈ s.terms, t.Written := by
  have hone {t : Term} (ht : t.Written) : ∀ u ∈ [t], u.Written := forall_mem_singleton.mpr ht
  have htwo {t u : Term} (ht : t.Written) (hu : u.Written) : ∀ v ∈ [t, u], v.Written :=
    forall_mem_cons.mpr ⟨ht, hone hu⟩
  have htexts (labels : List String) : ∀ t ∈ labels.map Term.text, t.Written :=
    forall_mem_map.mpr fun l _ => .text l
  cases s with
  | inject vs => exact Value.terms_written vs hs
  | hasLabel labels | edges d labels | project labels => exact htexts labels
  | hasPredicate key p =>
    exact htwo (.text key) (Predicate.term_written fun o ho => Operand.term_written (hs o ho))
  | is p => exact hone (Predicate.term_written fun o ho => Operand.term_written (hs o ho))
  | wherePredicate p =>
    refine hone (Predicate.term_written fun o ho => ?_)
    obtain ⟨l, rfl⟩ := hs o ho
    exact .text l
  | filter t | not t | «by» t | flatMap t => exact hone (hinside t mem_cons_self)
  | and ts | or ts | union ts | coalesce ts => exact nestedTerms_written hinside
  | selectColumn c => exact hone (.word (by cases c <;> decide))
  | constant o => exact hone (Operand.term_written hs)
  | byOrder t o =>
    exact htwo (hinside t mem_cons_self) (.word (by cases o <;> decide))
  | skip n | limit n => exact hone (Bound.term_written hs)
  | range low high => exact htwo (Bound.term_written hs.1) (Bound.term_written hs.2)
  | choose c y n =>
    obtain ⟨hc, hinside⟩ := forall_mem_cons.mp hinside
    exact forall_mem_cons.mpr ⟨hc, htwo (hinside y mem_cons_self)
      (hinside n (.tail _ mem_cons_self))⟩
  | addVertex l =>
    cases l with
    | none => exact forall_mem_nil _
    | some l => exact hone (.text l)
  | property key t =>
    have ht := hinside t mem_cons_self
    by_cases hconstant : ∃ o, t = [constant o]
    · obtain ⟨o, rfl⟩ := hconstant
      cases ht with
      | chain _ _ _ _ hterms =>
        exact htwo (.text key) (hterms _ mem_cons_self _ mem_cons_self)
    · rw [terms_property hconstant]
      exact htwo (.text key) ht
  | has l | hasNot l | values l | properties l | mark l | select l | addEdge l | fromLabel l
  | toLabel l => exact hone (.text l)
  | _ => exact forall_mem_nil _

end Step

theorem Traversal.calls_written (f : Traversal) (hf : f.Readable) :
    ∀ c ∈ Step.calls f, CallWritten c := by
  induction f using Traversal.induction_inside with
  | h f ih =>
    have hstep (s : Step) (hs : s ∈ f) : ∀ t ∈ s.terms, t.Written := by
      obtain ⟨⟨hreadable, -⟩, hinside⟩ := hf.of_mem hs
      exact Step.terms_written hreadable fun g hg =>
        nestedTerm_written (ih s hs g hg (hinside g hg))
    rw [eq_map (F := Step.calls) rfl fun _ _ => rfl]
    exact forall_mem_map.mpr fun s hs => ⟨s.name.text_isWord, hstep s hs⟩

theorem Traversal.eq_of_script_eq {f g : Traversal} (hf : f.Readable) (hg : g.Readable)
    (h : f.script = g.script) : f = g := by
  have hchars := congrArg String.toList h
  rw [f.script_chars, g.script_chars] at hchars
  have hcalls : Term.charsCalls (Step.calls f) ++ [] = Term.charsCalls (Step.calls g) ++ [] := by
    rw [(List.cons.inj hchars).2]
  have hnil : Closes [] := fun c hc => by cases hc
  obtain ⟨hsame, -⟩ := Term.charsCalls_prefix
    (fun c hc => ⟨(f.calls_written hf c hc).1, fun t ht =>
      ⟨(f.calls_written hf c hc).2 t ht, ((f.calls_written hf c hc).2 t ht).reads⟩⟩)
    (g.calls_written hg) hnil hnil hcalls
  rw [← f.readCalls_calls hf, hsame, g.readCalls_calls hg]

/-! ### Queries -/

def Operand.literals : Operand → List Value
  | value v => [v]
  | _ => []

def Step.literals : Step → List Value
  | .inject vs => vs
  | .constant o => o.literals
  | s => (s.predicate?.map Predicate.operands).getD [] |>.flatMap Operand.literals

/-- No literal holds a floating point number. -/
def Traversal.FloatFree (f : Traversal) : Prop :=
  f.Every fun s => ∀ v ∈ s.literals, v.floatFree

instance (f : Traversal) : Decidable f.FloatFree :=
  inferInstanceAs (Decidable (∀ s ∈ Step.visitAll f, ∀ v ∈ s.literals, v.floatFree = true))

theorem Value.allFloatFree_iff {vs : List Value} : allFloatFree vs ↔ ∀ v ∈ vs, v.floatFree :=
  iff_forall_mem rfl fun _ _ => Bool.and_eq_true_iff

section Names

variable {names : List String} (hplain : ∀ n ∈ names, isPlainName n)

include hplain

theorem Operand.Known.readable (h : o.Known names)
    (hreserved : ∀ n ∈ o.parameters, isReserved n = false)
    (hfloat : ∀ v ∈ o.literals, v.floatFree) : o.Readable := by
  cases o with
  | value v => exact hfloat v mem_cons_self
  | parameter n => exact ⟨hplain n h, hreserved n mem_cons_self⟩
  | label l => cases h

theorem Bound.Known.readable (h : n.Known ps names) : n.Readable := by
  cases n with
  | literal n => trivial
  | parameter n => exact hplain n (h.parameters mem_cons_self)

theorem Step.Known.readable (h : s.Known ps names)
    (hreserved : ∀ n ∈ s.parameters, isReserved n = false)
    (hfloat : ∀ v ∈ s.literals, v.floatFree) :
    s.Readable := by
  have hoperands {p : Predicate}
      (hparameters : s.parameters = p.operands.flatMap Operand.parameters)
      (hliterals : s.literals = p.operands.flatMap Operand.literals)
      (hknown : ∀ o ∈ p.operands, o.Known names) :
      ∀ o ∈ p.operands, o.Readable := by
    intro o ho
    rw [hparameters] at hreserved
    rw [hliterals] at hfloat
    exact Operand.Known.readable hplain (hknown o ho)
      (fun n hn => hreserved n (mem_flatMap.mpr ⟨o, ho, hn⟩))
      fun v hv => hfloat v (mem_flatMap.mpr ⟨o, ho, hv⟩)
  cases s with
  | inject vs => exact Value.allFloatFree_iff.mpr hfloat
  | constant o => exact Operand.Known.readable hplain h hreserved hfloat
  | is p | hasPredicate key p => exact hoperands rfl rfl h
  | wherePredicate p =>
    obtain ⟨l, hp, -⟩ := h
    show ∀ o ∈ p.operands, ∃ l, o = .label l
    rw [hp]
    exact forall_mem_singleton.mpr ⟨l, rfl⟩
  | skip n | limit n => exact Bound.Known.readable hplain h
  | range low high =>
    exact ⟨Bound.Known.readable hplain h.1, Bound.Known.readable hplain h.2⟩
  | _ => trivial

end Names

theorem checkReserved_eq_ok {kind : IdentifierKind} {names : List String} :
    checkReserved flavor kind names = .ok () ↔ ∀ n ∈ names, isReserved n = false := by
  rw [checkReserved]
  cases h : names.find? isReserved with
  | none => simpa using h
  | some n =>
    constructor
    · intro hok
      cases hok
    · intro hall
      exact absurd (find?_some h) (by simp [hall n (mem_of_find?_eq_some h)])

theorem ResolvedQuery.isPlainName_of_lower (h : r.lower ps = .ok l) :
    ∀ n ∈ r.parameters, isPlainName n := by
  obtain ⟨_, hnames, -⟩ := bind_eq_ok.mp h
  intro n hn
  have hname := forM_eq_ok.mp hnames n hn
  rw [checkParameterName] at hname
  split at hname
  · assumption
  · cases hname

theorem Query.lower_readable (hr : q.resolve = .ok r) (hl : r.lower ps = .ok l)
    (hnames : l.checkNames flavor ps = .ok ()) (hfloat : l.traversal.FloatFree) :
    l.traversal.Readable := by
  obtain ⟨_, hparameters, -⟩ := bind_eq_ok.mp hnames
  have hreserved := checkReserved_eq_ok.mp hparameters
  intro s hs
  obtain ⟨hknown, hinside⟩ := (q.lower_wellBuilt hr hl).every s hs
  refine ⟨hknown.readable (r.isPlainName_of_lower hl) (fun n hn => hreserved n ?_)
    (hfloat s hs), fun f hf => (hinside f hf).1⟩
  exact mem_append_left _ (mem_addNames.mpr (.inr (mem_flatMap.mpr ⟨s, hs, hn⟩)))

theorem Query.compile_gremlin (hr : q.resolve = .ok r) (hl : r.lower ps = .ok l)
    {p : Program} (hp : q.compile .gremlin ps = .ok p) :
    l.checkNames .gremlin ps = .ok () ∧ p.text? = some l.traversal.script := by
  rw [compile, hr] at hp
  replace hp : (r.lower ps >>= fun l => l.emit .gremlin ps) = .ok p := hp
  rw [hl] at hp
  obtain ⟨_, hnames, hp⟩ := bind_eq_ok.mp (show l.emit .gremlin ps = .ok p from hp)
  exact ⟨hnames, by rw [← pure_eq_ok.mp hp]; rfl⟩

/-- **The script text determines the program.** Two queries, with whatever parameters, that compile
to scripts and whose traversals contain no floating point numbers have the same script text only if
their traversals are the same, step for step. -/
theorem script_determines_traversal {q q' : Query} {r r' : ResolvedQuery} {ps ps' : Parameters}
    {l l' : LoweredQuery} {p p' : Program} (hr : q.resolve = .ok r) (hr' : q'.resolve = .ok r')
    (hl : r.lower ps = .ok l) (hl' : r'.lower ps' = .ok l')
    (hp : q.compile .gremlin ps = .ok p) (hp' : q'.compile .gremlin ps' = .ok p')
    (hfloat : l.traversal.FloatFree) (hfloat' : l'.traversal.FloatFree) :
    p.text? = p'.text? ↔ l.traversal = l'.traversal := by
  obtain ⟨hnames, htext⟩ := q.compile_gremlin hr hl hp
  obtain ⟨hnames', htext'⟩ := q'.compile_gremlin hr' hl' hp'
  rw [htext, htext', Option.some.injEq]
  constructor
  · exact Traversal.eq_of_script_eq (q.lower_readable hr hl hnames hfloat)
      (q'.lower_readable hr' hl' hnames' hfloat')
  · exact fun h => h ▸ rfl

theorem folded_sum_determines_traversal :
    ∃ (q q' : Query) (r r' : ResolvedQuery) (l l' : LoweredQuery) (p p' : Program),
      Query.parse "MATCH (n:person) WHERE n.age > $least RETURN n.name AS name, 1 + 2 AS k" =
        .ok q ∧
      Query.parse "MATCH (n:person) WHERE n.age > $least RETURN n.name AS name, 3 AS k" = .ok q' ∧
      q.resolve = .ok r ∧ q'.resolve = .ok r' ∧
      r.lower [("least", .int 30)] = .ok l ∧ r'.lower [("least", .int 40)] = .ok l' ∧
      q.compile .gremlin [("least", .int 30)] = .ok p ∧
      q'.compile .gremlin [("least", .int 40)] = .ok p' ∧
      l.traversal.FloatFree ∧ l'.traversal.FloatFree ∧ p.text? = p'.text? ∧
      l.traversal = l'.traversal := by
  let script := "g.V().hasLabel('person').as('n').has('age', P.gt(least)).project('name', 'k')" ++
    ".by(__.select('n').coalesce(__.values('name'), __.constant(null))).by(__.constant(3))"
  let Reads (text : String) (ps : Parameters) : Prop := ∃ q, Query.parse text = .ok q ∧
    ∃ r, q.resolve = .ok r ∧ ∃ l, r.lower ps = .ok l ∧ ∃ p, q.compile .gremlin ps = .ok p ∧
      l.traversal.FloatFree ∧ p.text? = some script
  obtain ⟨q, hq, r, hr, l, hl, p, hp, hfloat, htext⟩ : Reads
      "MATCH (n:person) WHERE n.age > $least RETURN n.name AS name, 1 + 2 AS k"
      [("least", .int 30)] := by
    decide +kernel
  obtain ⟨q', hq', r', hr', l', hl', p', hp', hfloat', htext'⟩ : Reads
    "MATCH (n:person) WHERE n.age > $least RETURN n.name AS name, 3 AS k" [("least", .int 40)] :=
    by decide +kernel
  have hsame : p.text? = p'.text? := htext.trans htext'.symm
  exact ⟨q, q', r, r', l, l', p, p', hq, hq', hr, hr', hl, hl', hp, hp', hfloat, hfloat', hsame,
    (script_determines_traversal hr hr' hl hl' hp hp' hfloat hfloat').mp hsame⟩

end CypherTraversal
