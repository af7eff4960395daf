import CypherTraversal.Proofs.Grammar.Text
import CypherTraversal.Proofs.Resolved.Clauses
import Mathlib.Data.List.Nodup

/-! # Names of columns

The text of an item is the name of its column where the item has no alias. If the texts are legible
they are read back as the items, so different items have different columns. -/

namespace CypherTraversal

open List Text Query

variable {T : PlacedToken → Prop} {e : Expr} {text : String} {q : Query}

/-- The text groups the operators as the expression does and is read word by word. -/
structure Expr.IsLegible (e : Expr) : Prop where
  grouped : e.grouped Expr.unenclosed
  words : Legible (e.words Expr.unenclosed)

instance (ws : List Word) : Decidable (Legible ws) :=
  decidable_of_iff ((∀ w ∈ ws, w.legible) ∧ ws.IsChain fun v w => v.callable w)
    ⟨fun h => ⟨h.1, h.2⟩, fun h => ⟨h.words, h.calls⟩⟩

instance (e : Expr) : Decidable e.IsLegible :=
  decidable_of_iff (e.grouped Expr.unenclosed ∧ Legible (e.words Expr.unenclosed))
    ⟨fun h => ⟨h.1, h.2⟩, fun h => ⟨h.grouped, h.words⟩⟩

/-! ### Reading a text back -/

theorem Expr.Formed.parse_text (h : e.Formed T) (hlegible : e.IsLegible) :
    parse ("RETURN " ++ e.text) = .ok (.returning e) := by
  have hlexed : Lexed ("RETURN " ++ e.text).toList (.keyword .RETURN :: e.words unenclosed) := by
    have he := h.spelled hlegible.grouped hlegible.words .nil
    rw [append_nil, append_nil] at he
    rw [String.toList_append]
    exact .keyword "RETURN" (by decide) (.blank he)
  obtain ⟨ts, hts, hshown⟩ := hlexed 0
  obtain ⟨t, ts, rfl, ht, hshown⟩ := hshown.cons_inv
  obtain ⟨hopens, hleads⟩ := h.reading rfl hlegible.grouped ts hshown
  have hreadable := (hleads.of_le hopens e.rank_le (Nat.zero_le _)).readable
    (hopens.mono (Nat.zero_le _))
  change (tokenize ("RETURN " ++ e.text) >>= ofTokens) = _
  rw [tokenize, hts]
  exact ofTokens_return ht hreadable

theorem Query.item_parse_text (hq : parse text = .ok q) {cs : List Clause}
    (hcs : cs ∈ q.singles) {final : Bool} {w : Projection} (hw : .project final w ∈ cs)
    {i : ProjectionItem} (hi : i ∈ w.items) (hlegible : i.expr.IsLegible) :
    parse ("RETURN " ++ i.expr.text) = .ok (.returning i.expr) := by
  obtain ⟨tokens, -, hformed⟩ := clauses_formed hq
  have hclause : w.Formed _ := hformed (fun _ => True) (fun _ _ => trivial) cs hcs _ hw
  obtain ⟨hstar, -⟩ | hformed := (hclause.items i hi).expr
  · have htokens : tokenize ("RETURN " ++ Expr.star.text) =
        .ok [⟨.keyword .RETURN, "RETURN", 0, 6⟩, ⟨.symbol .star, "*", 7, 8⟩] := by decide +kernel
    rw [hstar, parse, htokens]
    rfl
  · exact hformed.parse_text hlegible

/-! ### Items with different names -/

namespace Resolve

variable {input : Scope}

theorem addItems_of_nodup {items : List ProjectionItem} {acc : Items}
    (hvalues : ∀ i ∈ items, ∃ v, itemValue input (projectionName true) i.expr = .ok v)
    (hnodup : (acc.items.map ResolvedItem.name ++ items.map ProjectionItem.name).Nodup) :
    ∃ acc', addItems input true items acc = .ok acc' ∧ acc'.items.map ResolvedItem.name =
      acc.items.map ResolvedItem.name ++ items.map ProjectionItem.name := by
  induction items generalizing acc with
  | nil => exact ⟨acc, rfl, (append_nil _).symm⟩
  | cons item items ih =>
    obtain ⟨⟨value, hvalue⟩, hvalues⟩ := forall_mem_cons.mp hvalues
    have hnew : acc.items.find? (fun i => i.name = item.name) = none := by
      refine find?_eq_none.mpr fun i hi hname => ?_
      exact (nodup_append.mp hnodup).2.2 i.name (mem_map_of_mem hi) item.name mem_cons_self
        (of_decide_eq_true hname)
    have hstep : ∃ acc', addItem input true acc item = .ok acc' ∧
        acc'.items.map ResolvedItem.name = acc.items.map ResolvedItem.name ++ [item.name] := by
      unfold addItem
      simp only [hvalue]
      simp only [bind, Except.bind, hnew]
      exact ⟨_, rfl, map_append⟩
    obtain ⟨acc₁, hstep, hnames₁⟩ := hstep
    rw [map_cons, append_cons, ← hnames₁] at hnodup ⊢
    obtain ⟨acc', hacc', hnames⟩ := ih hvalues hnodup
    refine ⟨acc', ?_, hnames⟩
    rw [addItems, foldlM_cons, hstep]
    exact hacc'

end Resolve

/-! ### Reading back -/

/-- **Legible items are read back from the names of their columns.** In every projection of a parsed
query, RETURN in front of the text of a legible item is parsed as the query that returns this item.
So two of them without an alias have different names if they differ. Where all items of a RETURN are
such and have values, none of them is ambiguous: each gets its column. -/
theorem Query.legible_items_read_back {text : String} {q : Query} (hq : Query.parse text = .ok q)
    {cs : List Clause} (hcs : cs ∈ q.singles) {final : Bool} {w : Projection}
    (hw : .project final w ∈ cs) :
    (∀ i ∈ w.items, i.expr.IsLegible →
      Query.parse ("RETURN " ++ i.expr.text) = .ok (.returning i.expr)) ∧
    (∀ i ∈ w.items, ∀ j ∈ w.items, i.expr.IsLegible → j.expr.IsLegible → i.asName = none →
      j.asName = none → i.name = j.name → i = j) ∧
    (final = true → (∀ i ∈ w.items, i.expr.IsLegible ∧ i.asName = none) → w.items.Nodup →
      ∀ input output, (∀ i ∈ w.items, ∃ v,
        Resolve.itemValue input (projectionName final) i.expr = .ok v) →
      ∃ acc, Resolve.addItems input final w.items { output } = .ok acc ∧
        acc.items.map ResolvedItem.name = w.items.map ProjectionItem.name) := by
  have hread : ∀ i ∈ w.items, i.expr.IsLegible → _ :=
    fun i hi hlegible => item_parse_text hq hcs hw hi hlegible
  have hdiffer : ∀ i ∈ w.items, ∀ j ∈ w.items, i.expr.IsLegible → j.expr.IsLegible →
      i.asName = none → j.asName = none → i.name = j.name → i = j := by
    intro i hi j hj hli hlj hnone hnone' hname
    have htext : i.expr.text = j.expr.text := by
      unfold ProjectionItem.name at hname
      rwa [hnone, hnone'] at hname
    have hi := hread i hi hli
    rw [htext, hread j hj hlj] at hi
    obtain ⟨e, _⟩ := i
    obtain ⟨f, _⟩ := j
    cases hnone
    cases hnone'
    cases hi
    rfl
  refine ⟨hread, hdiffer, ?_⟩
  rintro rfl hitems hnodup input output hvalues
  refine Resolve.addItems_of_nodup hvalues ?_
  exact Nodup.map_on (fun i hi j hj => hdiffer i hi j hj (hitems i hi).1 (hitems j hj).1
    (hitems i hi).2 (hitems j hj).2) hnodup

instance (cs : List Clause) {P : Projection → Prop} [DecidablePred P] :
    Decidable (∃ w, .project true w ∈ cs ∧ P w) :=
  decidable_of_iff (cs.any fun
    | .project true w => P w
    | _ => false) <| by
    rw [any_eq_true]
    constructor
    · rintro ⟨c, hc, h⟩
      split at h
      · exact ⟨_, hc, of_decide_eq_true h⟩
      · cases h
    · rintro ⟨w, hw, h⟩
      exact ⟨_, hw, decide_eq_true h⟩

theorem quoted_key_reads_back : ∃ q w,
    Query.parse ("MATCH (n) RETURN n.\x60first name\x60 = 'it\\'s', " ++
      "2 - -1 * $k ^ 2, [x IN n.tags WHERE NOT x IS NULL | \x7bsize: x\x7d]") = .ok q ∧
    .project true w ∈ q.clauses ∧ (∀ i ∈ w.items, i.expr.IsLegible ∧ i.asName = none) ∧
    w.items.map ProjectionItem.name = ["n.\x60first name\x60 = 'it\\'s'", "2 - -1 * $k ^ 2",
      "[x IN n.tags WHERE NOT x IS NULL | \x7bsize: x\x7d]"] ∧
    ∀ i ∈ w.items, Query.parse ("RETURN " ++ i.expr.text) = .ok (.returning i.expr) := by
  obtain ⟨q, hq, w, hw, hlegible, hnames⟩ : ∃ q,
      parse ("MATCH (n) RETURN n.\x60first name\x60 = 'it\\'s', " ++
        "2 - -1 * $k ^ 2, [x IN n.tags WHERE NOT x IS NULL | \x7bsize: x\x7d]") = .ok q ∧
      ∃ w, .project true w ∈ q.clauses ∧ (∀ i ∈ w.items, i.expr.IsLegible ∧ i.asName = none) ∧
      w.items.map ProjectionItem.name = ["n.\x60first name\x60 = 'it\\'s'", "2 - -1 * $k ^ 2",
        "[x IN n.tags WHERE NOT x IS NULL | \x7bsize: x\x7d]"] := by decide +kernel
  have hread := legible_items_read_back hq mem_cons_self hw
  exact ⟨q, w, hq, hw, hlegible, hnames, fun i hi => hread.1 i hi (hlegible i hi).1⟩

/-- Two products that differ only in their parentheses have one text. It is read as the second one,
and both as columns are ambiguous. -/
theorem products_share_a_column : ∃ q w e f, Query.parse "RETURN (1 + 2) * 3, 1 + 2 * 3" = .ok q ∧
    q.clauses = [.project true w] ∧ w.items = [⟨e, none⟩, ⟨f, none⟩] ∧ e ≠ f ∧ ¬ e.IsLegible ∧
    e.text = f.text ∧ Query.parse ("RETURN " ++ e.text) = .ok (.returning f) ∧
    q.resolve = .error (.ambiguous "1 + 2 * 3" "RETURN") := by
  obtain ⟨q, hq, w, hw, hlength, hitems, _, herror, rfl⟩ : ∃ q,
      parse "RETURN (1 + 2) * 3, 1 + 2 * 3" = .ok q ∧ ∃ w, .project true w ∈ q.clauses ∧
      q.clauses.length = 1 ∧
      w.items.map (fun i => (decide i.expr.IsLegible, i.expr.text, i.asName)) =
        [(false, "1 + 2 * 3", none), (true, "1 + 2 * 3", none)] ∧
      ∃ r, q.resolve = .error r ∧ r = .ambiguous "1 + 2 * 3" "RETURN" := by decide +kernel
  obtain ⟨c, hclauses⟩ := length_eq_one_iff.mp hlength
  obtain rfl : _ = c := mem_singleton.mp (hclauses ▸ hw)
  obtain ⟨⟨e, _⟩, _, hitems, he, hrest⟩ := map_eq_cons_iff.mp hitems
  obtain ⟨⟨f, _⟩, rfl, hf⟩ := map_eq_singleton_iff.mp hrest
  simp only [Prod.mk.injEq, decide_eq_false_iff_not, decide_eq_true_eq] at he hf
  obtain ⟨hillegible, hetext, rfl⟩ := he
  obtain ⟨hlegible, hftext, rfl⟩ := hf
  have hf : ⟨f, none⟩ ∈ w.items := hitems ▸ mem_of_mem_tail mem_cons_self
  have hread := item_parse_text hq mem_cons_self hw hf hlegible
  have htext : e.text = f.text := hetext.trans hftext.symm
  exact ⟨q, w, e, f, hq, hclauses, hitems, fun h => hillegible (h ▸ hlegible), hillegible, htext,
    htext ▸ hread, herror⟩

end CypherTraversal
