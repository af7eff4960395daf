import CypherTraversal.Proofs.Bindings.Rows

/-! # Values of expressions on rows

On a row of a scope the value of an expression is found: the traversal leads to an object whose keys
pass the test, and what the resolver says of the kind of the expression is true of that object. -/

namespace CypherTraversal

open Run Traverser List Lowered Traversal Process

variable {name : String} {entries : List Lowered} {e : Expr} {ok : String → Bool} {ps : Parameters}
  {bs : List Binding} {b : Binding} {S : Traverser → Prop} {K : Object → Prop} {f h : Traversal}

/-! ### Objects that are found -/

def Traversal.Finds (ok : String → Bool) (ps : Parameters) (S : Traverser → Prop)
    (K : Object → Prop) (f : Traversal) : Prop :=
  ∀ t, S t → ((f.run ps).firstOrNull [t]).Ensures (Graph.AllKeys ok) K Error.Benign

theorem select_run (t : Traverser) (g : Graph) : (run ps [.select name] [t]).outcome g =
    (.ok ((t.place.selected name).map t.moveTo).toList, g) := by
  have hselect : Passes ps g [.select name] _ _ :=
    .moveIn (f := fun _ t => t.place.selected name) rfl
  rw [hselect.sends.one trivial]
  cases t.place.selected name <;> rfl

theorem select_outcome {t : Traverser} {x : Object} (h : t.place.selected name = some x)
    (g : Graph) : (run ps [.select name] [t]).outcome g = (.ok [t.moveTo x], g) := by
  rw [select_run, h]
  rfl

theorem select_nothing {t : Traverser} (h : t.place.selected name = none) (g : Graph) :
    (run ps [.select name] [t]).outcome g = (.ok [], g) := by
  rw [select_run, h]
  rfl

theorem Traverser.Row.select {t : Traverser} (ht : t.Row ok bs) (hb : b ∈ bs) (g : Graph) :
    ∃ x, t.labelled? b.name = some x ∧ b.kind.describes x ∧
      (run ps [.select b.name] [t]).outcome g = (.ok [t.moveTo x], g) := by
  obtain ⟨x, hlabelled, hselected, hdescribes⟩ := ht.selected hb
  exact ⟨x, hlabelled, hdescribes, select_outcome hselected g⟩

theorem keyObject_by (hps : ∀ p ∈ ps, p.2.allKeys ok) {fs : List Traversal}
    (hfs : ∀ f ∈ fs, f.ReadsOnly ok) {t : Traverser} (ht : t.AllKeys ok) (i : Nat) :
    (keyObject
      ((fs.map fun f => Modulator.by (f.run ps)).filterMap Modulator.process?)[i]? t).Ensures
        (Graph.AllKeys ok) (fun x => x.allKeys ok) Error.Benign := by
  rw [Modulator.processes_by]
  refine Reads.keyObject (fun q hq => ?_) ht
  obtain ⟨f, hf, rfl⟩ := mem_map.mp (mem_of_getElem? hq)
  exact (hfs f hf).reads (fun _ hg => hg) hps

def FindsFor (ok : String → Bool) (ps : Parameters) (bs : List Binding) (t : Traverser)
    (keys : List String) (fs : List Traversal) : Prop :=
  ∀ j key, keys[j]? = some key →
    let qs := (fs.map fun f => Modulator.by (f.run ps)).filterMap Modulator.process?
    (Process.keyObject qs[j % qs.length]? t).Ensures (Graph.AllKeys ok)
      (fun x => x.allKeys ok ∧ ∀ b ∈ bs, b.name = key → b.kind.describes x) Error.Benign

namespace FindsFor

variable {t : Traverser} {keys : List String} {fs : List Traversal}

theorem reads (hps : ∀ p ∈ ps, p.2.allKeys ok) (hfs : ∀ f ∈ fs, f.ReadsOnly ok)
    (ht : t.AllKeys ok) : FindsFor ok ps [] t keys fs := fun _ _ _ =>
  (keyObject_by hps hfs ht _).imp fun _ hx => ⟨hx, forall_mem_nil _⟩

theorem of_forall₂ (ht : S t)
    (h : Forall₂ (fun key f => Traversal.Finds ok ps S
      (fun x => x.allKeys ok ∧ ∀ b ∈ bs, b.name = key → b.kind.describes x) f) keys fs) :
    FindsFor ok ps bs t keys fs := by
  intro j key hkey
  dsimp only
  obtain ⟨f, hf, hfinds⟩ := getElem?_of_forall₂ h.flip hkey
  have hj : j < fs.length := (List.getElem?_eq_some_iff.mp hf).1
  rw [Modulator.processes_by, length_map, Nat.mod_eq_of_lt hj, getElem?_map, hf]
  exact hfinds t ht

theorem map (h : FindsFor ok ps bs t keys fs) (hkeys : keys.all ok)
    (hbs : ∀ b ∈ bs, b.name ∈ keys) :
    (do return some (.map (Entries.ofList (← projectFrom
        ((fs.map fun f => Modulator.by (f.run ps)).filterMap Modulator.process?) t 0 keys))) :
      Run (Option Object)).Ensures (Graph.AllKeys ok)
        (fun x => ∃ y, x = some y ∧ y.allKeys ok ∧ y.MapOf bs) Error.Benign := by
  have hentries := projectFrom_ensures 0 keys fun j key hkey => by
    rw [Nat.zero_add]
    exact h j key hkey
  refine hentries.bind fun es hes => .pure ⟨_, rfl, ?_, _, rfl, fun b hb => ?_⟩
  · refine Object.allKeys_map_iff.mpr fun e he => ?_
    have hmem := Entries.mem_ofList he
    refine ⟨all_eq_true.mp hkeys e.1 ?_, (hes.2 e hmem).1⟩
    rw [← hes.1]
    exact mem_map_of_mem hmem
  · obtain ⟨y, hy, hmem⟩ := Entries.exists_find?_ofList (hes.1.symm ▸ hbs b hb)
    exact ⟨y, hy, (hes.2 _ hmem).2 b hb rfl⟩

theorem takes (hkeys : keys.all ok) (h : ∀ t, S t → FindsFor ok ps bs t keys fs)
    (hbs : ∀ b ∈ bs, b.name ∈ keys) (hS : ∀ t, S t → t.AllKeys ok) :
    Takes ok ps S (MapRow ok bs) (.project keys :: fs.map .by) := by
  refine .modulated rfl (Step.modulate_by ps fs) (.move fun t ht => ?_)
  refine ((h t ht).map hkeys hbs).imp fun x hx y hy => ?_
  obtain ⟨z, rfl, hz, hmap⟩ := hx
  cases hy
  exact ⟨(hS t ht).moveTo hz, hmap⟩

end FindsFor

namespace Traversal.Finds

theorem of_head (h : ∀ t, S t → ((f.run ps) [t]).Ensures (Graph.AllKeys ok)
    (fun us => ∃ u, us.head? = some u ∧ K u.object) Error.Benign) : f.Finds ok ps S K := by
  intro t ht
  refine (h t ht).bind fun us hus => .pure ?_
  obtain ⟨u, hu, hobject⟩ := hus
  rw [hu]
  exact hobject

theorem and {K' : Object → Prop} (hf : f.Finds ok ps S K) (hf' : f.Finds ok ps S K') :
    f.Finds ok ps S fun x => K x ∧ K' x :=
  fun t ht => (hf t ht).and (hf' t ht)

theorem reads (hps : ∀ p ∈ ps, p.2.allKeys ok) (hf : f.ReadsOnly ok)
    (hS : ∀ t, S t → t.AllKeys ok) : f.Finds ok ps S fun x => x.allKeys ok := fun t ht =>
  Reads.keyObject (p := some (f.run ps))
    (fun q hq => by cases hq; exact hf.reads (fun _ hg => hg) hps) (hS t ht)

theorem select (hb : b ∈ bs) :
    Finds ok ps (Row ok bs) (fun x => b.kind.describes x) [.select b.name] := by
  refine of_head fun t ht => ?_
  obtain ⟨x, -, hselected, hdescribes⟩ := ht.selected hb
  exact .of_outcome (select_outcome hselected) ⟨_, rfl, hdescribes⟩

theorem constant {v : Value} (hK : K (.ofValue v)) : Finds ok ps S K (constantValue v) := by
  refine of_head fun t _ => .of_outcome (a := [t.moveTo (.ofValue v)]) (fun g => ?_) ⟨_, rfl, hK⟩
  exact Sends.one (S := fun _ => True) (.constant fun _ _ => rfl) trivial

theorem fold (hps : ∀ p ∈ ps, p.2.allKeys ok) (hf : f.ReadsOnly ok) (hS : ∀ t, S t → t.AllKeys ok) :
    Finds ok ps S (fun x => Kind.list.describes x) (f ++ [.fold]) := by
  refine of_head fun t ht => ?_
  rw [run_append (h := [.fold]) rfl]
  refine ((hf.reads (fun _ hg => hg) hps).on (hS t ht)).bind fun us _ => ?_
  exact .of_outcome (a := [{ object := .list (us.map Traverser.object) }]) (fun g => rfl)
    ⟨_, rfl, rfl⟩

theorem project {keys : List String} (hkeys : keys.all ok) {fs : List Traversal}
    (hobjects : ∀ t, S t → FindsFor ok ps bs t keys fs) (hbs : ∀ b ∈ bs, b.name ∈ keys) :
    Finds ok ps S (fun x => x.allKeys ok ∧ x.MapOf bs) (.project keys :: fs.map .by) := by
  refine of_head fun t ht => ?_
  rw [run_modulated rfl (Step.modulate_by ps fs)]
  have hmap := Process.Carries.move_ensures (f := fun t => do
    return some (.map (Entries.ofList (← projectFrom
      ((fs.map fun f => Modulator.by (f.run ps)).filterMap Modulator.process?) t 0 keys))))
    ((hobjects t ht).map hkeys hbs)
  refine hmap.bind fun us hus => .pure ?_
  obtain ⟨x, rfl, hx⟩ := hus
  exact ⟨_, rfl, hx⟩

end Traversal.Finds

/-! ### Kinds of values -/

theorem Expr.constantKind_describes (v : Value) :
    (kindIn.constantKind (some v)).describes (.ofValue v) := by
  cases v <;> rfl

theorem Lowered.mapM_by {steps : List Step}
    (h : (entries.mapM fun e => do return Step.by (← e.value)) = .ok steps) :
    ∃ fs, entries.mapM Lowered.value = .ok fs ∧ steps = fs.map .by := by
  induction entries generalizing steps with
  | nil =>
    cases h
    exact ⟨[], rfl, rfl⟩
  | cons e entries ih =>
    rw [mapM_cons] at h
    obtain ⟨s, hs, h⟩ := bind_eq_ok.mp h
    obtain ⟨rest, hrest, h⟩ := bind_eq_ok.mp h
    obtain ⟨f, hf, hs⟩ := bind_eq_ok.mp hs
    obtain ⟨fs, hfs, rfl⟩ := ih hrest
    cases hs
    cases h
    refine ⟨f :: fs, ?_, rfl⟩
    rw [mapM_cons]
    exact bind_eq_ok.mpr ⟨f, hf, bind_eq_ok.mpr ⟨fs, hfs, rfl⟩⟩

theorem Lowered.orConstant_describes {value : Except Error Traversal} {k : Kind}
    (hconstant : ∀ v, e.constant? = some v → k.describes (.ofValue v))
    (hvalue : Gives (Traversal.Finds ok ps (Row ok bs) fun x => k.describes x) value) :
    Gives (Traversal.Finds ok ps (Row ok bs) fun x => k.describes x) (orConstant e value) := by
  unfold orConstant
  split
  · rename_i v hv
    exact .ok (.constant (hconstant v hv))
  · exact hvalue

section Kinds

variable (hps : ∀ p ∈ ps, p.2.allKeys ok) (c : LoweringContext)

include hps

theorem Lowered.listValue_describes {items : List Lowered} (hitems : ∀ i ∈ items, i.ReadsOnly ok) :
    Gives (Traversal.Finds ok ps (Row ok bs) fun x => Kind.list.describes x) (listValue items) :=
  (Gives.mapM fun i hi => (hitems i hi).value).bind fun fs hfs =>
    .ok (.fold (f := [.union fs]) hps (.single (.insideEach rfl rfl hfs)) fun _ ht => ht.keys)

theorem Lowered.mapValue_describes {keys : List String} (hkeys : keys.all ok)
    (hentries : ∀ e ∈ entries, e.ReadsOnly ok) :
    Gives (Traversal.Finds ok ps (Row ok bs) fun x => Kind.map.describes x)
      (mapValue keys entries) := by
  intro f hf t ht
  obtain ⟨steps, hsteps, hf⟩ := bind_eq_ok.mp hf
  obtain ⟨fs, hfs, rfl⟩ := mapM_by hsteps
  cases hf
  have hreads := Gives.mapM (fun e he => (hentries e he).value) fs hfs
  refine (Traversal.Finds.project hkeys (fun t (ht : t.Row ok bs) => .reads hps hreads ht.keys)
    (forall_mem_nil _) t ht).imp ?_
  rintro x ⟨-, entries, rfl, -⟩
  rfl

theorem Expr.value_describes (he : e.allKeys ok) :
    Gives (Traversal.Finds ok ps (Row ok c.scope.bindings)
      fun x => (e.kindIn c.scope).describes x) (e.lower c).value := by
  -- most kinds say nothing of the object
  have hany (h : ∀ x, (e.kindIn c.scope).describes x) : Gives (Traversal.Finds ok ps
      (Row ok c.scope.bindings) fun x => (e.kindIn c.scope).describes x) (e.lower c).value := by
    intro f hf t ht
    have hreads := (lower_readsOnly c e he).value f hf
    exact (Traversal.Finds.reads hps hreads (fun _ ht => ht.keys) t ht).imp fun x _ => h x
  cases e with
  | literal s | param name | caseOf operand whens otherwise | pattern p | comprehension v s f r
  | star => exact hany fun _ => rfl
  | var name =>
    intro f hf
    rw [lower, ofVariable, ofValue] at hf
    split at hf
    · rename_i hhas
      cases hf
      obtain ⟨b, hb⟩ := Option.isSome_iff_exists.mp hhas
      have hkind : c.scope.kind? name = some b.kind := by
        rw [Scope.kind?, hb]
        rfl
      rw [kindIn, hkind]
      exact .select (b := ⟨name, b.kind⟩) (Scope.mem_of_kind? hkind)
    · cases hf
  | access base key =>
    refine hany fun x => ?_
    cases base with
    | var name =>
      rw [kindIn]
      split <;> rfl
    | _ => rfl
  | list items =>
    refine orConstant_describes (fun v hv => ?_)
      (listValue_describes hps (lowerAll_readsOnly c items he))
    obtain ⟨vs, -, rfl⟩ := Option.map_eq_some_iff.mp hv
    rfl
  | map entries =>
    refine orConstant_describes (fun v hv => ?_)
      (mapValue_describes hps (keys_of_entryKeys he) (lowerEntries_readsOnly c entries he))
    obtain ⟨vs, -, rfl⟩ := Option.map_eq_some_iff.mp hv
    rfl
  | call name args distinct =>
    by_cases hname : ScalarFunction.ofName? name = some .labels
    · rw [kindIn, hname, lower, ofCall, hname]
      refine (Lowered.ReadsOnly.firstArgument (lowerAll_readsOnly c args he)).bind fun l hl =>
        hl.value.bind fun f hf => .ok ?_
      have hlabel : Traversal.ReadsOnly ok (f ++ [.label]) := hf.append (.single (.leaf rfl rfl))
      rw [show f ++ [.label, .fold] = (f ++ [.label]) ++ [.fold] by simp]
      exact .fold hps hlabel fun _ ht => ht.keys
    · refine hany fun x => ?_
      rw [kindIn]
      split
      · contradiction
      · rfl
      · rfl
  | binary l op r =>
    cases hconstant : constant? (binary l op r) with
    | none =>
      refine hany fun x => ?_
      rw [kindIn, hconstant]
      rfl
    | some v =>
      cases op with
      | arith a =>
        rw [kindIn, lower, ofBinary, lower_expr, lower_expr]
        exact orConstant_describes
          (fun w hw => by rw [hw]; exact constantKind_describes w) (.error _)
      | _ => cases hconstant
  | unary op x =>
    cases hconstant : constant? (unary op x) with
    | none =>
      refine hany fun x => ?_
      rw [kindIn, hconstant]
      rfl
    | some v =>
      cases op with
      | negate =>
        rw [kindIn, lower, ofUnary, lower_expr]
        exact orConstant_describes
          (fun w hw => by rw [hw]; exact constantKind_describes w) (.error _)
      | _ => cases hconstant

end Kinds

end CypherTraversal
