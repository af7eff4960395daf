import CypherTraversal.Client.Session
import CypherTraversal.Proofs.Conditions.Values
import CypherTraversal.Proofs.Expressions.Narrow

/-! # Accesses

An access looks up a key where the value of its base leads. In a map it selects the key, and what is
selected is an entry of the map or else a label of the path. -/

namespace CypherTraversal

open Run Traverser List Lowered Traversal

variable {c : LoweringContext} {base : Expr} {key : String} {ps : Parameters} {g : Graph}
  {t u : Traverser} {f : Traversal} {k : Kind} {M : List (String × Object)}

theorem Expr.ReadsAs.unique {e : Expr} {x y : Object} (hx : e.ReadsAs c g t x)
    (hy : e.ReadsAs c g t y) : x = y := by
  obtain ⟨f, hf, hx⟩ := hx
  obtain ⟨f', hf', hy⟩ := hy
  cases hf.symm.trans hf'
  cases hx.symm.trans hy
  rfl

/-! ### Lookups -/

theorem firstFound_passes {steps : List Step} {finds : List (Graph → Traverser → Option Object)}
    (h : Forall₂ (fun s m => Step.stage ps s = .process (.moveIn m)) steps finds) :
    Passes ps g [.coalesce (steps.map ([·]) ++ [constantValue .null])] (fun _ => true)
      fun t => t.moveTo ((finds.findSome? (· g t)).getD .null) := by
  refine ⟨rfl, .step rfl (.eachRow fun t _ => ?_)⟩
  induction h with
  | nil => rfl
  | @cons s m steps finds hs _ ih =>
    have hstep : Process.Sends g (fun _ => True) (run ps [s])
        fun t => ((m g t).map t.moveTo).toList := .step hs (.moveIn m)
    refine (outcome_bind_ok (hstep.one trivial)).trans ?_
    rw [findSome?_cons]
    cases m g t with
    | none => exact ih
    | some x => rfl

def Kind.lookups (key : String) : Kind → List Step
  | node | relationship => [.values key]
  | map => [.select key]
  | _ => [.values key, .select key]

def Kind.finds (key : String) : Kind → List (Graph → Traverser → Option Object)
  | node | relationship => [fun g t => (g.property? key t.object).map .ofValue]
  | map => [fun _ t => t.place.selected key]
  | _ => [fun g t => (g.property? key t.object).map .ofValue, fun _ t => t.place.selected key]

def Kind.found (k : Kind) (g : Graph) (key : String) (t : Traverser) : Object :=
  ((k.finds key).findSome? (· g t)).getD .null

theorem Kind.lookups_find (ps : Parameters) (k : Kind) (key : String) :
    Forall₂ (fun s m => Step.stage ps s = .process (.moveIn m)) (k.lookups key) (k.finds key) := by
  have hvalues : Step.stage ps (.values key) =
      .process (.moveIn fun g t => (g.property? key t.object).map .ofValue) := rfl
  have hselect : Step.stage ps (.select key) =
      .process (.moveIn fun _ t => t.place.selected key) := rfl
  cases k with
  | node | relationship => exact .cons hvalues .nil
  | map => exact .cons hselect .nil
  | _ => exact .cons hvalues (.cons hselect .nil)

theorem access_passes (hkind : baseKind c base = .ok k)
    (hf : ((Expr.access base key).lower c).value = .ok f) :
    ∃ front back, (base.lower c).value = .ok front ∧ f = front ++ back ∧
      ∀ ps g, Passes ps g back (fun _ => true) fun t => t.moveTo (k.found g key t) := by
  have hback (ps : Parameters) (g : Graph) := firstFound_passes (g := g) (k.lookups_find ps key)
  change access c (base.lower c) key = _ at hf
  rw [access, Expr.lower_expr, hkind] at hf
  obtain ⟨_, hk, hf⟩ := bind_eq_ok.mp hf
  cases hk
  cases k with
  | node | relationship | map | value =>
    obtain ⟨lookup, hlookup, hf⟩ := bind_eq_ok.mp hf
    obtain ⟨front, hfront, hf⟩ := bind_eq_ok.mp hf
    cases hlookup
    cases hf
    exact ⟨front, _, hfront, rfl, hback⟩
  | scalar | list | aggregate => cases hf

/-! ### Maps -/

theorem Kind.found_of_map (hk : k = .map ∨ k = .value) (hu : u.object = .map M) :
    k.found g key u = ((Entries.find? key M).or (u.labelled? key)).getD .null := by
  have hselected : u.place.selected key = (Entries.find? key M).or (u.labelled? key) := by
    unfold Place.selected Traverser.place
    rw [hu]
    rfl
  have hproperty : g.property? key u.object = none := by
    rw [hu]
    rfl
  obtain rfl | rfl := hk <;> simp [found, finds, hselected, hproperty]

/-- **What is read of a map.** Where the base of an access, a map or a value of unknown kind, leads
to a map, the access leads to the entry under its key. Without such an entry it leads to what the
row has under a label of that name, and to null only if there is no such label: the answer is that
of the map alone exactly where the map has the entry, or the row has nothing but null under the
label. -/
theorem map_access_reads_entry_or_label {c : LoweringContext} {base : Expr} {key : String}
    {g : Graph} {t : Traverser} {M : List (String × Object)}
    (hkind : Lowered.baseKind c base = .ok .map ∨ Lowered.baseKind c base = .ok .value)
    (hbase : base.ReadsAs c g t (.map M)) :
    (Expr.access base key).ReadsAs c g t (((Entries.find? key M).or (t.labelled? key)).getD .null) ∧
    ((Expr.access base key).ReadsAs c g t ((Entries.find? key M).getD .null) ↔
      Entries.has key M ∨ (t.labelled? key).getD .null = .null) := by
  obtain ⟨k, hk, hkind⟩ : ∃ k, (k = .map ∨ k = .value) ∧ baseKind c base = .ok k :=
    hkind.elim (fun h => ⟨_, .inl rfl, h⟩) fun h => ⟨_, .inr rfl, h⟩
  obtain ⟨front, u, hfront, hrun, hu⟩ := hbase.row
  obtain ⟨f, hf⟩ : ∃ f, ((Expr.access base key).lower c).value = .ok f := by
    change ∃ f, access c (base.lower c) key = .ok f
    rw [access, Expr.lower_expr, hkind, hfront]
    obtain rfl | rfl := hk <;> exact ⟨_, rfl⟩
  obtain ⟨front', back, hfront', rfl, hback⟩ := access_passes hkind hf
  cases hfront.symm.trans hfront'
  -- a map is only found on the path of the row, so the labels are those of the row
  have hlabel : u.labelled? key = t.labelled? key := by
    obtain hnil | ⟨u', hu', hnear⟩ := Expr.rows_of_value hfront hrun
    · cases hnil
    · cases hu'
      rw [labelled?, hnear.path_of_map hu, labelled?]
  have hreads : (Expr.access base key).ReadsAs c g t
      (((Entries.find? key M).or (t.labelled? key)).getD .null) := by
    refine ⟨front ++ back, hf, ?_⟩
    have hpasses := hback c.parameters g
    rw [objects, outcome_append hpasses.starts hrun,
      hpasses.sends.one trivial, if_pos rfl, Kind.found_of_map hk hu, hlabel]
    rfl
  refine ⟨hreads, fun h => ?_, fun h => ?_⟩
  · have heq := hreads.unique h
    cases hentry : Entries.find? key M with
    | some x => exact .inl (by rw [Entries.has, hentry]; rfl)
    | none =>
      rw [hentry] at heq
      exact .inr heq
  · have heq : (Entries.find? key M).getD .null =
        ((Entries.find? key M).or (t.labelled? key)).getD .null := by
      rw [Entries.has] at h
      cases hentry : Entries.find? key M with
      | some x => rfl
      | none =>
        rw [hentry] at h
        exact (h.resolve_left Bool.false_ne_true).symm
    rw [heq]
    exact hreads

theorem entry_is_read_beside_variable :
    let c : LoweringContext :=
      { scope := { bindings := [⟨"m", .map⟩, ⟨"b", .value⟩] }, parameters := [], current := none,
        clause := "RETURN" }
    let inner : List (String × Object) := [("b", .int 1)]
    let t : Traverser :=
      { object := .null, path := [("b", .int 2), ("m", .map [("a", .map inner)])] }
    let base : Expr := .access (.var "m") "a"
    baseKind c base = .ok .value ∧ base.ReadsAs c .modern t (.map inner) ∧
      (Expr.access base "b").ReadsAs c .modern t (.int 1) := by
  intro c inner t base
  have hbase : base.ReadsAs c .modern t (.map inner) := ⟨_, rfl, rfl⟩
  exact ⟨rfl, hbase, (map_access_reads_entry_or_label (.inr rfl) hbase).1⟩

theorem variable_is_read_for_missing_entry :
    ((Session.submit ⟨.native, true, .empty "g"⟩ "WITH {a: 1} AS m, 2 AS b RETURN m.b AS r"
      []).1.toOption.map fun table => table.rows.map fun row => (row.find? "r").map Value.text) =
        some [some "2"] := by
  decide +kernel

end CypherTraversal
