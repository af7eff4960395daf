import CypherTraversal.Proofs.Bindings.Columns
import CypherTraversal.Proofs.Bindings.Paths
import CypherTraversal.Proofs.Bindings.Patterns

/-! # Rows of projections

A projection sorts and cuts its rows, collapses each into a map of its columns and labels them
again, so the rows of WITH hold exactly its names. -/

namespace CypherTraversal

open Run Traverser LowerClause List Traversal

variable {scopeIn : ScopeId} {done : List String} {s : Scope} {env : Env} {p : ResolvedProjection}
  {ok : String → Bool} {ps : Parameters} {bs : List Binding} {b : Binding} {I : Graph → Prop}
  {S T : Traverser → Prop}

/-! ### Order and windows -/

theorem orderKey_readsOnly (c : LoweringContext) {o : ResolvedOrder} (ho : o.expr.allKeys ok) :
    Gives (fun s => ∃ (f : Traversal) (d : SortOrder), s = .byOrder f d ∧ f.ReadsOnly ok)
      (orderKey c o) :=
  (orderKey_ends (.reads ok) (fun _ => ho) fun _ _ => trivial).gives

theorem orderRows_carries (hI : ∀ g, I g → g.AllKeys ok) (hps : ∀ p ∈ ps, p.2.allKeys ok)
    (c : LoweringContext) {order : List ResolvedOrder} (horder : ∀ o ∈ order, o.expr.allKeys ok)
    (hS : ∀ t, S t → t.AllKeys ok) :
    Gives (Carries ps I Error.Benign S S) (orderRows c order) := by
  have hmodulate (steps : List Step) (h : ∀ s ∈ steps, ∃ (f : Traversal) (d : SortOrder),
      s = .byOrder f d ∧ f.ReadsOnly ok) :
      ∃ ms, Step.Modulate ps steps ms ∧ ∀ m ∈ ms, m.Reads I ok := by
    induction steps with
    | nil => exact ⟨[], .nil, forall_mem_nil _⟩
    | cons s steps ih =>
      obtain ⟨⟨f, d, rfl, hf⟩, hsteps⟩ := forall_mem_cons.mp h
      obtain ⟨ms, hms, hreads⟩ := ih hsteps
      refine ⟨.byOrder (f.run ps) d :: ms, .cons ⟨_, rfl⟩ hms, ?_⟩
      refine forall_mem_cons.mpr ⟨fun p hp => ?_, hreads⟩
      cases hp
      exact hf.reads hI hps
  unfold orderRows
  split
  · exact .ok .nil
  · refine (Gives.mapM fun o ho => orderKey_readsOnly c (horder o ho)).bind fun steps hsteps => ?_
    obtain ⟨ms, hms, hreads⟩ := hmodulate steps hsteps
    exact .ok (.modulated rfl hms (Process.Reads.order hreads hS))

theorem window_carries {keyword : String} {step : Bound → Step}
    (hstep : ∀ n, Carries ps I Error.Benign S S [step n]) (e : Option Expr) :
    Gives (Carries ps I Error.Benign S S) (window env keyword step e) := by
  cases e with
  | none => exact .ok .nil
  | some e => exact Gives.skip fun n => .ok (hstep n)

theorem keptRows_carries (hI : ∀ g, I g → g.AllKeys ok) (hps : ∀ p ∈ ps, p.2.allKeys ok)
    (horder : ∀ o ∈ p.order, o.expr.allKeys ok) (hT : ∀ t, T t → t.AllKeys ok) :
    Gives (Carries ps I Error.Benign T T) (keptRows env p) := by
  have hdistinct : Carries ps I Error.Benign T T
      (if p.distinct then [.dedup] else []) := by
    split
    · exact .step rfl (.pick fun _ _ => Process.Reads.mem_dedup)
    · exact .nil
  refine (orderRows_carries hI hps _ horder hT).bind fun order horder => ?_
  refine (window_carries (I := I) (S := T)
    (fun n => .step rfl (Process.Reads.skip ps n)) p.skip).bind fun skip hskip => ?_
  refine (window_carries (I := I) (S := T)
    (fun n => .step rfl (Process.Reads.limit ps n)) p.limit).bind fun limit hlimit => .ok ?_
  exact ((hdistinct.append horder).append hskip).append hlimit

/-! ### Labels of a row -/

theorem Traverser.AllKeys.selected {t : Traverser} (h : t.AllKeys ok) {name : String}
    (hname : ok name = false) : t.place.selected name = t.labelled? name := by
  unfold Place.selected
  split
  · rename_i entries hobject
    cases hfind : Entries.find? name entries with
    | none => rfl
    | some y =>
      have hkeys : (Object.map entries).allKeys ok := hobject ▸ h.object
      have hok := (Object.allKeys_map_iff.mp hkeys _ (Graph.mem_of_find? hfind)).1
      rw [hname] at hok
      cases hok
  · rfl

structure Traverser.Labelling (ok : String → Bool) (bs : List Binding) (done : List String)
    (P : List (String × Object) → Object → Prop) (t : Traverser) : Prop where
  keys : t.AllKeys ok
  map : ∃ entries, t.labelled? rowLabel = some (.map entries) ∧
    (∀ b ∈ bs, ∃ y, Entries.find? b.name entries = some y ∧ b.kind.describes y) ∧
    (∀ n ∈ done, t.labelled? n = Entries.find? n entries) ∧ P entries t.object

section Labels

variable (hlabel : ok rowLabel = false)

include hlabel

theorem selectMap_takes {P : List (String × Object) → Object → Prop} :
    Takes ok ps (Labelling ok bs done P)
      (Labelling ok bs done fun entries x => x = .map entries) [.select rowLabel] := by
  refine .step rfl (.moveIn fun g _ t ht y hy => ?_)
  obtain ⟨entries, hmap, hbs, hdone, -⟩ := ht.map
  have hselected : some (Object.map entries) = some y :=
    hmap.symm.trans ((ht.keys.selected hlabel).symm.trans hy)
  cases hselected
  exact ⟨ht.keys.moveTo (ht.keys.labelled? hmap), entries, hmap, hbs, hdone, rfl⟩

theorem labelEntry_takes (hb : b ∈ bs) (hok : ok b.name) :
    Takes ok ps (Labelling ok bs done fun _ _ => True)
      (Labelling ok bs (done ++ [b.name]) fun _ _ => True)
      [.select rowLabel, .select b.name, .mark b.name] := by
  have hselect : Takes ok ps (Labelling ok bs done fun entries x => x = .map entries)
      (Labelling ok bs done fun entries x => Entries.find? b.name entries = some x)
      [.select b.name] := by
    refine .step rfl (.moveIn fun g _ t ht y hy => ?_)
    obtain ⟨entries, hmap, hbs, hdone, hobject⟩ := ht.map
    obtain ⟨z, hz, -⟩ := hbs b hb
    rw [hobject] at hy
    have hy : some z = some y := by simpa only [hz, Option.some_or] using hy
    cases hy
    exact ⟨ht.keys.moveTo (Object.allKeys_find? (hobject ▸ ht.keys.object) hz), entries, hmap, hbs,
      hdone, hz⟩
  have hmark : Takes ok ps
      (Labelling ok bs done fun entries x => Entries.find? b.name entries = some x)
      (Labelling ok bs (done ++ [b.name]) fun _ _ => True) [.mark b.name] := by
    refine .step rfl (.map fun t ht => ?_)
    obtain ⟨entries, hmap, hbs, hdone, hobject⟩ := ht.map
    have hne : rowLabel ≠ b.name := by
      rintro heq
      rw [← heq, hlabel] at hok
      cases hok
    refine ⟨ht.keys.mark b.name, entries, ?_, hbs, ?_, trivial⟩
    · rw [← hmap]
      unfold labelled? Traverser.mark
      rw [lookup_cons, beq_false_of_ne hne]
    · intro n hn
      unfold labelled? Traverser.mark
      rw [lookup_cons]
      by_cases heq : n = b.name
      · rw [heq, beq_self_eq_true]
        exact hobject.symm
      · rw [beq_false_of_ne heq]
        refine hdone n ((mem_append.mp hn).resolve_right fun h => heq ?_)
        exact mem_singleton.mp h
  exact ((selectMap_takes hlabel).append hselect).append hmark

theorem labelRow_takes (hok : ∀ b ∈ bs, ok b.name) :
    Takes ok ps (MapRow ok bs) (fun t => t.Row ok bs ∧ t.object.isMap)
      (labelRow (bs.map Binding.name)) := by
  have hmark : Takes ok ps (MapRow ok bs) (Labelling ok bs [] fun _ _ => True)
      [.mark rowLabel] := by
    refine .step rfl (.map fun t ht => ⟨ht.keys.mark rowLabel, ?_⟩)
    obtain ⟨entries, hobject, hbs⟩ := ht.map
    exact ⟨entries, hobject ▸ lookup_cons_self, hbs, forall_mem_nil _, trivial⟩
  have hentries (ds : List Binding) (hds : ∀ b ∈ ds, b ∈ bs) (done : List String) :
      Takes ok ps (Labelling ok bs done fun _ _ => True)
        (Labelling ok bs (done ++ ds.map Binding.name) fun _ _ => True)
        ((ds.map Binding.name).flatMap fun n => [.select rowLabel, .select n, .mark n]) := by
    induction ds generalizing done with
    | nil =>
      rw [map_nil, append_nil]
      exact .nil
    | cons b ds ih =>
      obtain ⟨hb, hds⟩ := forall_mem_cons.mp hds
      have hrest := ih hds (done ++ [b.name])
      rw [append_assoc] at hrest
      exact (labelEntry_takes hlabel hb (hok b hb)).append hrest
  have hrow : ∀ t, Labelling ok bs ([] ++ bs.map Binding.name)
      (fun entries x => x = .map entries) t → t.Row ok bs ∧ t.object.isMap := by
    rintro t ⟨hkeys, entries, -, hbs, hdone, hobject⟩
    have hlabelled (b : Binding) (hb : b ∈ bs) :
        t.labelled? b.name = Entries.find? b.name entries :=
      hdone b.name (mem_map_of_mem hb)
    refine ⟨⟨hkeys, fun b hb => ?_, fun b hb => ?_⟩, by rw [hobject]; rfl⟩
    · obtain ⟨y, hy, hdescribes⟩ := hbs b hb
      exact ⟨y, (hlabelled b hb).trans hy, hdescribes⟩
    · obtain ⟨y, hy, -⟩ := hbs b hb
      rw [hlabelled b hb, Place.selected, Traverser.place, hobject]
      simp only [hy, Option.some_or]
  exact ((hmark.append (hentries bs (fun _ hb => hb) [])).append (selectMap_takes hlabel)).mono
    (fun _ ht => ht) hrow

end Labels

theorem with_takes (hps : ∀ p ∈ ps, p.2.allKeys ok) (hcolumns : ∀ n, ok (argumentColumn n))
    (hlabel : ok rowLabel = false) (hp : p.Named ok) (hfinal : p.final = false)
    (horder : ∀ o ∈ p.order, o.expr.allKeys ok) (hfilter : Expr.optionKeys ok p.filter)
    (hs : env.scopes.scope scopeIn = s) (scopeOut : ScopeId)
    (current : Option String) : Gives (fun r => Takes ok ps (Row ok s.bindings)
        (fun t => t.Row ok (p.bindings s) ∧ t.object.isMap) r.1)
      (LowerClause.project env scopeIn scopeOut p current) := by
  have hlabels : Takes ok ps (MapRow ok (p.bindings s)) _ _ :=
    labelRow_takes hlabel fun b hb =>
      all_eq_true.mp hp.names b.name (ResolvedProjection.Named.name_mem hb)
  rw [map_map] at hlabels
  have hrows (c : LoweringContext) : Gives (Takes ok ps (Row ok c.scope.bindings)
      (MapRow ok (p.bindings c.scope))) (projectedRows c p) := by
    unfold projectedRows
    split
    · exact aggregateRows_takes hps c hp hcolumns
    · exact plainRows_takes hps c hp
  have hkept : Gives (Takes ok ps (MapRow ok (p.bindings s)) _) (keptRows env p) :=
    keptRows_carries (fun _ hg => hg) hps horder fun _ ht => ht.keys
  rw [project_eq, hfinal, hs]
  refine (hrows _).bind fun rows hrows => hkept.bind fun kept hkept => ?_
  exact (filterOf_filters _ hfilter).bind fun filter hfilter =>
    .ok (((hrows.append hkept).append hlabels).append (hfilter.takes hps fun _ ht => ht.1.keys))

/-! ### RETURN -/

theorem project_starts (scopeIn scopeOut : ScopeId) (current : Option String) :
    Gives (fun r => r.1.Starts ps ∧ r.2 = none) (project env scopeIn scopeOut p current) := by
  have hrows (c : LoweringContext) :
      Gives (fun f => ∃ keys fs, f = .project keys :: fs) (projectedRows c p) := by
    unfold projectedRows
    split
    · refine Gives.bind (Q := fun f => ∃ keys fs, f = .project keys :: fs)
        (Gives.skip fun _ => .ok ⟨_, _, rfl⟩) ?_
      rintro _ ⟨keys, fs, rfl⟩
      dsimp only
      split <;> exact .ok ⟨_, _, rfl⟩
    · exact Gives.skip fun _ => .ok ⟨_, _, rfl⟩
  rw [project_eq]
  refine (hrows _).bind ?_
  rintro _ ⟨keys, fs, rfl⟩ r hr
  obtain ⟨kept, -, hr⟩ := bind_eq_ok.mp hr
  cases hfinal : p.final with
  | true =>
    rw [hfinal] at hr
    cases hr
    exact ⟨rfl, rfl⟩
  | false =>
    rw [hfinal] at hr
    obtain ⟨filter, -, hr⟩ := bind_eq_ok.mp hr
    cases hr
    exact ⟨rfl, rfl⟩

theorem project_lowersToReads (hcolumns : ∀ n, ok (argumentColumn n)) (hnames : p.names.all ok)
    (hitems : ∀ i ∈ p.items, i.value.allKeys ok) (horder : ∀ o ∈ p.order, o.expr.allKeys ok)
    (hfilter : Expr.optionKeys ok p.filter) (scopeIn scopeOut : ScopeId) (current : Option String) :
    Gives (fun r => r.1.ReadsOnly ok) (LowerClause.project env scopeIn scopeOut p current) := by
  have hbound (keyword : String) (e : Expr) :
      Ends (fun _ => True) (fun _ => True) (bound env keyword e) :=
    Gives.ends fun _ _ => trivial
  exact (project_ends (.reads ok) ⟨trivial, fun n => ⟨trivial, hcolumns n⟩,
    fun i hi => ⟨⟨trivial, all_eq_true.mp hnames _ (mem_map_of_mem hi)⟩,
      ItemValue.allKeys_iff.mp (hitems i hi)⟩,
    fun o ho => ⟨fun _ => horder o ho, fun _ _ => trivial⟩, fun e _ => hbound _ e,
    fun e _ => hbound _ e, Expr.optionKeys_iff.mp hfilter⟩).gives

theorem return_carries (env : Env) (scopeIn scopeOut : ScopeId) (current : Option String) :
    Gives (fun r => Carries ps I Error.Benign S (fun _ => True) r.1)
      (LowerClause.project env scopeIn scopeOut p current) := by
  have hok (k : String) : (fun _ => true) k = true := rfl
  intro r hr
  have hreads : r.1.ReadsOnly fun _ => true :=
    project_lowersToReads (fun _ => rfl) (all_eq_true.mpr fun k _ => hok k)
      (fun i _ => i.value.allKeys_of_forall hok) (fun o _ => o.expr.allKeys_of_forall hok)
      (Expr.optionKeys_of_forall hok p.filter) scopeIn scopeOut current r hr
  have hcarries : (r.1.run ps).Reads I fun _ => true :=
    hreads.reads (fun g _ => .of_forall hok g) fun q _ => Value.allKeys_of_forall hok q.2
  exact ⟨(project_starts scopeIn scopeOut current r hr).1,
    hcarries.mono (fun t _ => .of_forall hok t) fun _ _ => trivial⟩

/-! ### UNWIND -/

theorem unwind_takes (hps : ∀ p ∈ ps, p.2.allKeys ok) (env : Env) (scopeIn : ScopeId)
    {e : Expr} (he : e.allKeys ok) (hrow : e.rowwise) {var : String} (hvar : var ∉ s.names)
    (current : Option String) :
    Gives (fun r => Takes ok ps (Row ok s.bindings)
        (fun t => t.Row ok (s.bindings ++ [⟨var, .value⟩]) ∧ t.At none) r.1)
      (LowerClause.unwind env scopeIn e var current) := by
  intro r hr
  obtain ⟨f, hf, hr⟩ := bind_eq_ok.mp hr
  cases hr
  have hitems : Takes ok ps (Row ok s.bindings)
      (fun t => t.AllKeys ok ∧ t.Labels s.bindings) [.flatMap (f ++ [.unfold])] := by
    refine .step rfl (.eachRow fun t ht => ?_)
    have hstays : f.Stays ok ps (· = t.path) :=
      Expr.lower_stays hps _ e he (.inr (e.keepsPath_of_rowwise hrow)) f hf
    have hon := (hstays.append (Stays.unfold hps)).carries.on (t := t) ⟨ht.keys, rfl⟩
    refine hon.imp fun us hus u hu => ?_
    exact ⟨(hus u hu).1, ht.labels.of_path (hus u hu).2⟩
  have hmark : Takes ok ps (fun t => t.AllKeys ok ∧ t.Labels s.bindings)
      (fun t => t.AllKeys ok ∧ t.Labels (s.bindings ++ [⟨var, .value⟩])) [.mark var] :=
    .step rfl (.map fun t ht => ⟨ht.1.mark var, ht.2.mark hvar rfl⟩)
  have hreset : Takes ok ps
      (fun t => t.AllKeys ok ∧ t.Labels (s.bindings ++ [⟨var, .value⟩]))
      (fun t => t.Row ok (s.bindings ++ [⟨var, .value⟩]) ∧ t.At none)
      [.constant (.value (.str startMark))] := by
    refine .step rfl (.move fun t ht => .pure fun y hy => ?_)
    cases hy
    exact ⟨.of_labels (ht.1.moveTo rfl) (ht.2.of_path rfl) rfl, rfl⟩
  exact (hitems.append hmark).append hreset

end CypherTraversal
