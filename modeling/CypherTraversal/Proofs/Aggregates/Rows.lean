import CypherTraversal.Proofs.Aggregates.Reductions
import CypherTraversal.Proofs.Bindings.Columns

/-! # Rows of an aggregating projection

Three projections make up an aggregation: one to a column for each item, one to the keys of a row,
and one to the results of a group. -/

namespace CypherTraversal

open Run LowerClause List

/-! ### Groups of a stream

Rows join the first group whose key is the same as theirs. So there is one group for each row whose
key has not been seen before it, in the order of these rows. -/

section Rows

variable {α : Type}

variable {alike : α → α → Bool}

section Equivalence

variable (hcomm : ∀ t u, alike t u = alike u t)
  (htrans : ∀ {t u w}, alike t u → alike u w → alike t w)

include hcomm htrans

end Equivalence
end Rows

namespace Process

section Members

variable {α : Type} (key : α → Object) (row : α → Traverser)

end Members

/-! ### Running a group step -/

section Running

variable {α : Type} {g : Graph} {key : α → Object} {row : α → Traverser}

end Running
end Process

variable {t : Traverser} {label : String} {n : Nat} {items : List ResolvedItem} {α γ : Type}
  {ps : Parameters} {g : Graph}

/-! ### Projections -/

namespace Process

theorem move_outcome {f : Traverser → Run (Option Object)} {row : α → Traverser}
    {x : α → Except Error Object} {ts : List α}
    (h : ∀ t ∈ ts, (f (row t)).outcome g = ((x t).map some, g)) :
    (move f (ts.map row)).outcome g = (ts.mapM fun t => (x t).map (row t).moveTo, g) := by
  induction ts with
  | nil => rfl
  | cons t ts ih =>
    obtain ⟨ht, hts⟩ := forall_mem_cons.mp h
    have hrest : (eachRow (fun t => do return ((← f t).map t.moveTo).toList)
        (ts.map row)).outcome g = _ := ih hts
    rw [map_cons, move, eachRow, mapM_cons, outcome_bind, outcome_bind, ht]
    cases x t with
    | error e => rfl
    | ok y =>
      show (eachRow _ (ts.map row) >>= _).outcome g = _
      rw [outcome_bind, hrest]
      cases ts.mapM fun t => (x t).map (row t).moveTo <;> rfl

theorem projectFrom_outcome (name : γ → String) {value : γ → Traversal}
    {found : γ → Except Error Object} (done : List γ) {cols : List γ}
    (h : ∀ col ∈ cols, (((value col).run ps).firstOrNull [t]).outcome g = (found col, g)) :
    (projectFrom ((done ++ cols).map fun col => (value col).run ps) t done.length
      (cols.map name)).outcome g =
        (cols.mapM fun col => (found col).map fun x => (name col, x), g) := by
  induction cols generalizing done with
  | nil => rfl
  | cons col cols ih =>
    obtain ⟨hcol, hcols⟩ := forall_mem_cons.mp h
    have hlt : done.length < ((done ++ col :: cols).map fun col => (value col).run ps).length := by
      simp
    have hprocess : ((done ++ col :: cols).map fun col => (value col).run ps)[done.length]? =
        some ((value col).run ps) := by
      simp
    have hrest := ih (done ++ [col]) hcols
    rw [length_append, length_singleton, append_assoc] at hrest
    rw [map_cons, projectFrom, Nat.mod_eq_of_lt hlt, hprocess, mapM_cons, outcome_bind,
      show keyObject (some ((value col).run ps)) t = ((value col).run ps).firstOrNull [t] from rfl,
      hcol]
    cases found col with
    | error e => rfl
    | ok x =>
      show (projectFrom _ t (done.length + 1) (cols.map name) >>= _).outcome g = _
      rw [outcome_bind, show done ++ col :: cols = done ++ ([col] ++ cols) from rfl, hrest]
      cases cols.mapM fun col => (found col).map fun x => (name col, x) <;> rfl

end Process

namespace Traversal

variable (name : γ → String) (value : γ → Traversal) (row : α → Traverser) (ts : List α)
  {cols : List γ}

theorem project_outcome (found : γ → α → Except Error Object)
    (h : ∀ t ∈ ts, ∀ col ∈ cols,
      (((value col).run ps).firstOrNull [row t]).outcome g = (found col t, g)) :
    (run ps (.project (cols.map name) :: (cols.map value).map .by) (ts.map row)).outcome g =
      (ts.mapM fun t => (cols.mapM fun col => (found col t).map fun x => (name col, x)).map
        fun es => (row t).moveTo (.map (Entries.ofList es)), g) := by
  have hrun : run ps (.project (cols.map name) :: (cols.map value).map .by) =
      Process.project (cols.map name) ((cols.map value).map fun f => .by (f.run ps)) := by
    rw [run_modulated rfl (Step.modulate_by ps (cols.map value))]
    funext us
    exact bind_pure _
  rw [hrun, Process.project, Modulator.processes_by, map_map]
  refine (Process.move_outcome (x := fun t => (cols.mapM fun col => (found col t).map
    fun x => (name col, x)).map fun es => .map (Entries.ofList es)) fun t ht => ?_).trans ?_
  · have hfrom := Process.projectFrom_outcome name [] (h t ht)
    rw [outcome_bind, show cols.map (run ps ∘ value) =
      ([] ++ cols).map fun col => (value col).run ps from rfl]
    rw [show (0 : Nat) = ([] : List γ).length from rfl, hfrom]
    cases cols.mapM fun col => (found col t).map fun x => (name col, x) <;> rfl
  · refine congrArg (fun k => (List.mapM k ts, g)) (funext fun t => ?_)
    cases cols.mapM fun col => (found col t).map fun x => (name col, x) <;> rfl

theorem project_outcome_ok (found : γ → α → Object)
    (h : ∀ t ∈ ts, ∀ col ∈ cols,
      (((value col).run ps).firstOrNull [row t]).outcome g = (.ok (found col t), g)) :
    (run ps (.project (cols.map name) :: (cols.map value).map .by) (ts.map row)).outcome g =
      (.ok (ts.map fun t =>
        (row t).moveTo (.map (Entries.ofList (cols.map fun col => (name col, found col t))))),
        g) := by
  rw [project_outcome name value row ts (fun col t => .ok (found col t)) h]
  refine congrArg (·, g) (mapM_eq_ok_map fun t _ => ?_)
  have hcols : (cols.mapM fun col => (Except.ok (found col t) : Except Error Object).map
      fun x => (name col, x)) = .ok (cols.map fun col => (name col, found col t)) :=
    mapM_eq_ok_map fun _ _ => rfl
  rw [hcols]
  rfl

/-! ### Selections -/

theorem select_outcome_map {x : α → Object}
    (h : ∀ t ∈ ts, ∃ entries, (row t).object = .map entries ∧
      Entries.find? label entries = some (x t)) :
    (run ps [.select label] (ts.map row)).outcome g =
      (.ok (ts.map fun t => (row t).moveTo (x t)), g) := by
  rw [run_step (p := .select label) rfl]
  refine (Process.move_outcome (x := fun t => .ok (x t)) fun t ht => ?_).trans ?_
  · obtain ⟨entries, hobject, hx⟩ := h t ht
    dsimp only
    rw [hobject]
    dsimp only
    rw [hx]
    rfl
  · exact congrArg (·, g) (mapM_eq_ok_map fun _ _ => rfl)

end Traversal

/-! ### Columns -/

theorem argumentColumn_inj {m : Nat} (h : argumentColumn m = argumentColumn n) : m = n := by
  have hrepr : m.repr = n.repr := (String.append_right_inj _).mp h
  have hdigits : Nat.toDigits 10 m = Nat.toDigits 10 n := by
    rw [← Nat.toList_repr, ← Nat.toList_repr, hrepr]
  rw [← Nat.ofDigitChars_toDigits (b := 10) (n := m) (by decide) (by decide), hdigits,
    Nat.ofDigitChars_toDigits (by decide) (by decide)]

theorem nodup_withColumns (hnames : (items.map ResolvedItem.name).Nodup)
    (hplain : ∀ i ∈ items, isGenerated i.name = false) (n : Nat) :
    ((withColumns n items).map Prod.snd).Nodup := by
  induction items generalizing n with
  | nil => exact nodup_nil
  | cons i items ih =>
    obtain ⟨hi, hnames⟩ := nodup_cons.mp hnames
    obtain ⟨hiplain, hplain⟩ := forall_mem_cons.mp hplain
    rw [withColumns]
    split
    · refine nodup_cons.mpr ⟨fun hmem => ?_, ih hnames hplain (n + 1)⟩
      obtain ⟨col, hcol, heq⟩ := mem_map.mp hmem
      obtain ⟨hitem, ⟨-, hname⟩ | ⟨-, m, hm, hcolumn⟩⟩ := mem_withColumns hcol
      · -- the name of an item would look like a column
        have hgenerated := hplain _ hitem
        rw [← hname, heq, isGenerated_argumentColumn] at hgenerated
        cases hgenerated
      · have hmn := argumentColumn_inj (hcolumn.symm.trans heq)
        omega
    · refine nodup_cons.mpr ⟨fun hmem => ?_, ih hnames hplain n⟩
      obtain ⟨col, hcol, heq⟩ := mem_map.mp hmem
      obtain ⟨hitem, ⟨-, hname⟩ | ⟨-, m, -, hcolumn⟩⟩ := mem_withColumns hcol
      · exact hi (mem_map.mpr ⟨col.1, hitem, hname.symm.trans heq⟩)
      · rw [show i.name = argumentColumn m from heq.symm.trans hcolumn,
          isGenerated_argumentColumn] at hiplain
        cases hiplain

end CypherTraversal
