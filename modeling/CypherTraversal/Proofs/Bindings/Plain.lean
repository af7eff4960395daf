import CypherTraversal.Proofs.Bindings.Projection

/-! # Plain clauses

A clause is plain if the keys of its maps and the aliases that it gives differ from the labels that
a traversal makes for itself, and if it unwinds what is made from one row. What is plain as it is
written is so when it is resolved. -/

namespace CypherTraversal

open LowerClause List

variable {cs : List Char} {clause name : String} {scope : Scope} {e : Expr} {ok : String → Bool}

/-! ### Keys and names -/

def isKey (key : String) : Bool :=
  key != rowLabel

theorem isKey_of_not_generated {name : String} (h : isGenerated name = false) : isKey name := by
  refine bne_iff_ne.mpr fun heq => ?_
  rw [heq] at h
  cases h

theorem isKey_argumentColumn (n : Nat) : isKey (argumentColumn n) := by
  refine bne_iff_ne.mpr fun heq => ?_
  have hlead : (argumentColumn n).toList.take 3 = "  a".toList := by
    unfold argumentColumn
    rw [String.toList_append, String.toList_append, append_assoc]
    rfl
  rw [heq] at hlead
  exact absurd hlead (by decide)

theorem isKey_rowLabel : isKey rowLabel = false :=
  bne_self_eq_false rowLabel

theorem isKey_exportKeys : ∀ key ∈ exportKeys, isKey key := by
  decide

/-! ### Texts that name columns -/

namespace Text

def leadsVisibly (cs : List Char) : Bool :=
  cs.head?.any (· != ' ')

def startsVisibly (s : String) : Bool :=
  leadsVisibly s.toList

theorem leadsVisibly_append (h : leadsVisibly cs) (ds : List Char) : leadsVisibly (cs ++ ds) := by
  cases cs with
  | nil => cases h
  | cons c cs => exact h

theorem startsVisibly_append {s : String} (h : startsVisibly s) (t : String) :
    startsVisibly (s ++ t) := by
  unfold startsVisibly
  rw [String.toList_append]
  exact leadsVisibly_append h _

theorem startsVisibly_ofList (h : leadsVisibly cs) : startsVisibly (String.ofList cs) := by
  unfold startsVisibly
  rwa [String.toList_ofList]

theorem startsVisibly_writeName (name : String) : startsVisibly (writeName name) := by
  unfold writeName
  split
  · rename_i hplain
    unfold isPlainName at hplain
    unfold startsVisibly
    cases hchars : name.toList with
    | nil => rw [hchars] at hplain; cases hplain
    | cons c cs =>
      rw [hchars] at hplain
      refine bne_iff_ne.mpr ?_
      rintro rfl
      exact absurd (Bool.and_eq_true_iff.mp hplain).1 (by decide)
  · exact startsVisibly_append (startsVisibly_append (by decide) name) _

theorem leadsVisibly_toDigits (n : Nat) : leadsVisibly (Nat.toDigits 10 n) := by
  cases hdigits : Nat.toDigits 10 n with
  | nil => exact absurd hdigits Nat.toDigits_ne_nil
  | cons c cs =>
    have hdigit : c.isDigit :=
      Nat.isDigit_of_mem_toDigits (n := n) (by decide) (Nat.le_refl 10)
        (by rw [hdigits]; exact mem_cons_self)
    refine bne_iff_ne.mpr ?_
    rintro rfl
    cases hdigit

theorem startsVisibly_of_lowerAscii (h : startsVisibly (lowerAscii name)) : startsVisibly name := by
  unfold startsVisibly lowerAscii at *
  rw [String.toList_ofList] at h
  cases hchars : name.toList with
  | nil => rw [hchars] at h; cases h
  | cons c cs =>
    rw [hchars] at h
    refine bne_iff_ne.mpr ?_
    rintro rfl
    cases h

theorem startsVisibly_of_lookup {α : Type} {names : List (String × α)} {f : α}
    (hnames : ∀ p ∈ names, startsVisibly p.1) (h : names.lookup (lowerAscii name) = some f) :
    startsVisibly name := by
  obtain ⟨before, after, heq, -⟩ := lookup_eq_some_iff.mp h
  refine startsVisibly_of_lowerAscii (hnames (lowerAscii name, f) ?_)
  rw [heq]
  exact mem_append_right _ mem_cons_self

end Text

open Text

theorem isGenerated_of_startsVisibly (h : startsVisibly name) : isGenerated name = false := by
  unfold startsVisibly at h
  unfold isGenerated
  cases hchars : name.toList with
  | nil => rfl
  | cons c cs =>
    rw [hchars] at h
    exact Bool.and_eq_false_imp.mpr fun hc => absurd (beq_iff_eq.mp hc).symm (bne_iff_ne.mp h)

theorem Decimal.leadsVisibly_write (style : DecimalStyle) (d : Decimal) :
    leadsVisibly (d.write style) := by
  have hdigits : leadsVisibly d.digitChars := leadsVisibly_toDigits d.digits
  cases hchars : d.digitChars with
  | nil => rw [hchars] at hdigits; cases hdigits
  | cons c cs =>
    rw [hchars] at hdigits
    simp only [Decimal.write, hchars]
    split
    · split
      · exact hdigits
      · rfl
    · cases cs <;> exact hdigits

theorem Binary64.startsVisibly_toText (style : DecimalStyle) (x : Binary64) :
    startsVisibly (x.toText style) := by
  have hsign : ∀ s, startsVisibly s → startsVisibly ((if x.isNegative then "-" else "") ++ s) := by
    intro s hs
    cases x.isNegative with
    | true => exact startsVisibly_append (by decide) s
    | false => rwa [if_neg Bool.false_ne_true, String.empty_append]
  have hwritten := startsVisibly_ofList
    (Decimal.leadsVisibly_write style (shortest style.tie x.magnitude))
  unfold toText
  generalize String.ofList ((shortest style.tie x.magnitude).write style) = written at hwritten ⊢
  cases x.isNaN with
  | true => exact (by decide : startsVisibly "NaN")
  | false =>
    cases x.isInfinite with
    | true => exact hsign "inf" (by decide)
    | false =>
      cases x.isZero with
      | true => exact hsign "0.0" (by decide)
      | false => exact hsign written hwritten

theorem Scalar.startsVisibly_text : ∀ s : Scalar, startsVisibly s.text
  | null | bool true | bool false => by decide
  | int (.ofNat n) => startsVisibly_ofList (leadsVisibly_toDigits n)
  | int (.negSucc n) => startsVisibly_append (s := "-") (by decide) _
  | float x => x.startsVisibly_toText .plain
  | str s => startsVisibly_ofList rfl

theorem Expr.startsVisibly_text :
    ∀ e : Expr, e.check scope clause = .ok () → startsVisibly e.text
  | literal s, _ => s.startsVisibly_text
  | var name, _ => startsVisibly_writeName name
  | param _, _ => startsVisibly_append (s := "$") (by decide) _
  | access base key, h => by
    rw [text, String.append_assoc]
    exact startsVisibly_append (startsVisibly_text base h) _
  | binary l op r, h => by
    have hleft := startsVisibly_text l ((check_eq_ok.mp h).2 l mem_cons_self)
    simp only [text, String.append_assoc]
    exact startsVisibly_append hleft _
  | unary op e, h => by
    have hbase := startsVisibly_text e ((check_eq_ok.mp h).2 e mem_cons_self)
    cases op with
    | not | negate => rw [text]; exact startsVisibly_append (by decide) _
    | isNull | isNotNull => rw [text]; exact startsVisibly_append hbase _
  | call name args distinct, h => by
    obtain ⟨f, hf, -⟩ := checkCall_eq_ok (check_eq_ok.mp h).1
    have hname : startsVisibly name := startsVisibly_of_lookup (by decide) hf
    simp only [text, String.append_assoc]
    exact startsVisibly_append hname _
  | list _, _ | map _, _ | caseOf _ _ _, _ => by
    simp only [text, braced, String.append_assoc]
    exact startsVisibly_append (by decide) _
  | pattern _, h | comprehension .., h | star, h => by cases h

theorem Resolve.startsVisibly_item {v : ItemValue}
    (h : itemValue scope clause e = .ok v) : startsVisibly e.text := by
  have hchecked : ∀ f : Unit → Except Error ItemValue,
      (e.check scope clause >>= f) = .ok v → startsVisibly e.text := by
    intro f hf
    obtain ⟨⟨⟩, hcheck, -⟩ := bind_eq_ok.mp hf
    exact e.startsVisibly_text hcheck
  unfold itemValue at h
  split at h
  · rename_i name args distinct
    cases hf : AggregateFunction.ofName? name with
    | none => rw [hf] at h; exact hchecked _ h
    | some f =>
      have hname : startsVisibly name := startsVisibly_of_lookup (by decide) hf
      simp only [Expr.text, String.append_assoc]
      exact startsVisibly_append hname _
  · exact hchecked _ h

/-! ### Plain clauses -/

def PatternElement.allKeys (ok : String → Bool) : PatternElement Expr → Bool
  | .node _ _ properties => Expr.entryKeys ok (properties.getD [])
  | .relationship _ _ _ properties _ => Expr.entryKeys ok (properties.getD [])

/-- No key is the label of WITH, no alias is generated and UNWIND collects nothing. -/
def Clause.isPlain : Clause → Bool
  | .read _ patterns filter =>
    patterns.all (fun w => w.elements.all (PatternElement.allKeys isKey)) &&
      Expr.optionKeys isKey filter
  | .project final w =>
    final || w.items.all (fun i => i.expr.allKeys isKey && !i.asName.any isGenerated) &&
      w.order.all (fun o => o.expr.allKeys isKey) && Expr.optionKeys isKey w.filter
  | .unwind e _ => e.allKeys isKey && e.rowwise
  | .create patterns => patterns.all fun w => w.elements.all (PatternElement.allKeys isKey)
  | .delete .. | .set _ => true

section Resolved

variable {e : PatternElement Expr}

theorem ResolvedNode.Reads.allKeys {n : ResolvedNode} (h : n.Reads e) (he : e.allKeys ok) :
    Expr.entryKeys ok n.properties := by
  obtain ⟨var, properties, rfl, -, hproperties⟩ := h
  rw [hproperties]
  exact he

theorem ResolvedRelationship.Reads.allKeys {r : ResolvedRelationship} (h : r.Reads e)
    (he : e.allKeys ok) : Expr.entryKeys ok r.properties := by
  obtain ⟨var, properties, rfl, -, hproperties⟩ := h
  rw [hproperties]
  exact he

end Resolved

theorem HopsRead.allKeys {hops : List (ResolvedRelationship × ResolvedNode)}
    {es : List (PatternElement Expr)} (h : HopsRead hops es)
    (hes : es.all (PatternElement.allKeys ok)) :
    ∀ hop ∈ hops, Expr.entryKeys ok hop.1.properties ∧ Expr.entryKeys ok hop.2.properties := by
  induction h with
  | nil => exact forall_mem_nil _
  | cons hr hn _ ih =>
    rw [all_cons, all_cons, Bool.and_eq_true, Bool.and_eq_true] at hes
    exact forall_mem_cons.mpr ⟨⟨hr.allKeys hes.1, hn.allKeys hes.2.1⟩, ih hes.2.2⟩

theorem ResolvedPattern.Reads.allKeys {p : ResolvedPattern} {w : Pattern Expr} (h : p.Reads w)
    (hw : w.elements.all (PatternElement.allKeys ok)) : p.AllKeys ok := by
  obtain ⟨e, es, helements, hstart, hhops⟩ := h
  rw [helements, all_cons, Bool.and_eq_true] at hw
  exact ⟨hstart.allKeys hw.1, hhops.allKeys hw.2⟩

theorem ResolvedPattern.allKeys_of_forall₂ {ps : List ResolvedPattern} {ws : List (Pattern Expr)}
    (h : Forall₂ ResolvedPattern.Reads ps ws)
    (hws : ws.all fun w => w.elements.all (PatternElement.allKeys ok)) :
    ∀ p ∈ ps, p.AllKeys ok := by
  induction h with
  | nil => exact forall_mem_nil _
  | cons hpw _ ih =>
    rw [all_cons, Bool.and_eq_true] at hws
    exact forall_mem_cons.mpr ⟨hpw.allKeys hws.1, ih hws.2⟩

theorem itemValue_allKeys {s : Scope} (he : e.allKeys ok) :
    Gives (fun v => v.allKeys ok) (Resolve.itemValue s clause e) := by
  refine fun v hv => ItemValue.allKeys_iff.mpr (Resolve.itemValue_all (fun x hx _ => ?_) v hv)
  rcases hx with rfl | hx
  · exact he
  · exact Expr.allKeys_part he x hx

theorem isGenerated_item {input : Scope} {final : Bool} {i : ResolvedItem} {w : ProjectionItem}
    (h : i.Reads input final w) (hw : ∀ x ∈ w.asName, isGenerated x = false) :
    isGenerated i.name = false := by
  rw [h.name, ProjectionItem.name]
  cases hname : w.asName with
  | some name => exact hw name hname
  | none => exact isGenerated_of_startsVisibly (Resolve.startsVisibly_item h.value)

theorem ResolvedProjection.named {p : ResolvedProjection} {w : Projection} {input : Scope}
    (hdistinct : p.names.Nodup)
    (hitems : ∀ i ∈ p.items, ∃ item, w.Stands item ∧ i.Reads input false item)
    (hw : w.items.all fun i => i.expr.allKeys isKey && !i.asName.any isGenerated) :
    p.Named isKey := by
  have hplain (item : ProjectionItem) (h : w.Stands item) :
      item.expr.allKeys isKey ∧ ∀ x ∈ item.asName, isGenerated x = false := by
    rcases h with h | ⟨x, rfl⟩
    · have hitem := all_eq_true.mp hw item h
      cases hname : item.asName <;> simpa [hname] using hitem
    · exact ⟨rfl, nofun⟩
  have hnames : ∀ i ∈ p.items, isGenerated i.name = false := by
    intro i hi
    obtain ⟨item, hitem, hreads⟩ := hitems i hi
    exact isGenerated_item hreads (hplain item hitem).2
  refine ⟨hdistinct, hnames, ?_, fun i hi => ?_⟩
  · exact all_eq_true.mpr (forall_mem_map.mpr fun i hi =>
      isKey_of_not_generated (hnames i hi))
  · obtain ⟨item, hitem, hreads⟩ := hitems i hi
    exact itemValue_allKeys (hplain item hitem).1 i.value hreads.value

end CypherTraversal
