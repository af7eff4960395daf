import CypherTraversal.Proofs.Conditions.Values
import CypherTraversal.Proofs.Graph.Shelves
import Mathlib.Data.List.Induction

/-! # Adding elements

CREATE adds one element after another, each for all rows at once: first the bare elements, then one
property after another. Rows never meet in this. -/

namespace CypherTraversal

open Run LowerClause List Process

variable {e : Expr} {entries : List (String × Expr)} {f : Traversal} {key : String}
  {pairs : List (String × Value)} {c : LoweringContext} {ps : Parameters} {g h b : Graph}
  {ts us : List Traverser}

/-! ### Values of entries -/

def Expr.Yields (c : LoweringContext) (g : Graph) (t : Traverser) (e : Expr) (v : Value) : Prop :=
  ∃ f us, (e.lower c).value = .ok f ∧ (f.run c.parameters [t]).outcome g = (.ok us, g) ∧
    ((us.head?.map Traverser.object).getD .null).toValue g = .ok v

def Graph.Filling (b : Graph) (own : Object) (properties : Entries Value) (g : Graph) : Prop :=
  b.Within g ∧ g.properties? own = some properties

inductive Fills (c : LoweringContext) (filling : Entries Value → Graph → Prop) (t : Traverser) :
    List (String × Value) → List (String × Expr) → List (String × Value) → Prop
  | nil (values : List (String × Value)) : Fills c filling t values [] values
  | cons {before all : List (String × Value)} {key : String} {e : Expr} {value : Value} {g : Graph}
      {entries : List (String × Expr)} (graph : filling (propertiesOf before) g)
      (yields : e.Yields c g t value)
      (rest : Fills c filling t (before ++ [(key, value)]) entries all) :
    Fills c filling t before ((key, e) :: entries) all

theorem Expr.yields_null (he : e.constant?.any Value.isNull) (g : Graph) (t : Traverser) :
    e.Yields c g t .null := by
  obtain ⟨v, hv, hnull⟩ := (Option.any_eq_true _ _).mp he
  rw [Value.eq_null_of_isNull hnull] at hv
  exact ⟨_, _, Expr.value_of_constant hv c, constant_outcome, rfl⟩

theorem propertiesOf_append (pairs : List (String × Value)) (key : String) (value : Value) :
    propertiesOf (pairs ++ [(key, value)]) = setProperty key value (propertiesOf pairs) := by
  unfold propertiesOf
  rw [foldl_append]
  rfl

theorem mem_propertiesOf {p : String × Value} (hp : p ∈ propertiesOf pairs) :
    p.1 ∈ pairs.map Prod.fst := by
  induction pairs using List.reverseRecOn with
  | nil => cases hp
  | append_singleton pairs q ih =>
    rw [map_append, mem_append]
    rw [propertiesOf_append, setProperty] at hp
    split at hp
    · exact .inl (ih (Entries.mem_erase hp))
    · rcases Entries.mem_insert hp with rfl | hp
      · exact .inr mem_cons_self
      · exact .inl (ih hp)

theorem Entries.erase_of_new {α : Type} {entries : Entries α} (h : ∀ e ∈ entries, e.1 ≠ key) :
    entries.erase key = entries := by
  induction entries with
  | nil => rfl
  | cons e entries ih =>
    obtain ⟨he, hentries⟩ := forall_mem_cons.mp h
    rw [erase, if_neg he, ih hentries]

theorem propertiesOf_null (hkey : ∀ p ∈ pairs, p.1 ≠ key) :
    propertiesOf (pairs ++ [(key, .null)]) = propertiesOf pairs := by
  rw [propertiesOf_append, setProperty, if_pos (show Value.null.isNull from rfl)]
  refine Entries.erase_of_new fun e he heq => ?_
  obtain ⟨p, hp, hkey'⟩ := mem_map.mp (mem_propertiesOf he)
  exact hkey p hp (hkey'.trans heq)

/-! ### Rows one after another -/

theorem Process.of_setProperty_cons (hf : (e.lower c).value = .ok f) {t : Traverser}
    (hrun : (setProperty key (f.run c.parameters) (t :: ts)).outcome g = (.ok us, h)) :
    ∃ value first rest m, e.Yields c g t value ∧
      (setElement key t value).outcome g = (.ok first, m) ∧
      (setProperty key (f.run c.parameters) ts).outcome m = (.ok rest, h) ∧ us = first ++ rest := by
  obtain ⟨first, m, rest, hrow, hrest, rfl⟩ := of_outcome_both hrun
  obtain ⟨ws, m', hws, hrow⟩ := of_outcome_bind hrow
  obtain rfl : m' = g := by
    have hgraph : ((f.run c.parameters [t]).outcome g).2 = g := Expr.graph_of_value hf rfl
    rwa [show (f.run c.parameters [t]).outcome g = _ from hws] at hgraph
  cases ws with
  | nil => exact ⟨.null, first, rest, m, ⟨f, [], hf, hws, rfl⟩, hrow, hrest, rfl⟩
  | cons w ws =>
    obtain ⟨_, _, hgraph, hrow⟩ := of_outcome_bind hrow
    cases hgraph
    obtain ⟨value, hvalue, hrow⟩ := of_outcome_ofExcept hrow
    exact ⟨value, first, rest, m, ⟨f, w :: ws, hf, hws, hvalue⟩, hrow, hrest, rfl⟩

/-! ### Elements of one kind -/

namespace Shelf

variable {α β : Type} (S : Shelf α β)

structure Adds (ps : Parameters) (Q : Traverser → α → Prop) (f : Traversal) : Prop where
  starts : f.Starts ps
  rows : ∀ {g h : Graph} {ts us : List Traverser}, (f.run ps ts).outcome g = (.ok us, h) →
    S.others h = S.others g ∧ ∃ ms : List (Traverser × α), us = ms.map Prod.fst ∧
      S.held h = S.held g ++ ms.map Prod.snd ∧
      List.Forall₂ (fun t m => m.1 = t.moveTo (S.object m.2) ∧ S.properties m.2 = [] ∧ Q t m.2)
        ts ms

variable {S}

theorem of_move {Q : Traverser → α → Prop} {add : Traverser → Run (Option Object)}
    (hadd : ∀ {t : Traverser} {g h : Graph} {x : Option Object},
      (add t).outcome g = (.ok x, h) → ∃ a, x = some (S.object a) ∧ S.held h = S.held g ++ [a] ∧
        S.others h = S.others g ∧ S.properties a = [] ∧ Q t a)
    (hrun : (move add ts).outcome g = (.ok us, h)) :
    S.others h = S.others g ∧ ∃ ms : List (Traverser × α), us = ms.map Prod.fst ∧
      S.held h = S.held g ++ ms.map Prod.snd ∧
      Forall₂ (fun t m => m.1 = t.moveTo (S.object m.2) ∧ S.properties m.2 = [] ∧ Q t m.2)
        ts ms := by
  induction ts generalizing g us with
  | nil =>
    cases hrun
    exact ⟨rfl, [], rfl, (append_nil _).symm, .nil⟩
  | cons t ts ih =>
    obtain ⟨first, m, rest, hfirst, hrest, rfl⟩ := of_outcome_both hrun
    obtain ⟨x, m', hx, hfirst⟩ := of_outcome_bind hfirst
    cases hfirst
    obtain ⟨a, rfl, hheld, hothers, hproperties, hnew⟩ := hadd hx
    obtain ⟨hothers', ms, rfl, hheld', hms⟩ := ih hrest
    refine ⟨hothers'.trans hothers, (t.moveTo (S.object a), a) :: ms, rfl, ?_,
      .cons ⟨rfl, hproperties, hnew⟩ hms⟩
    rw [hheld', hheld, append_assoc]
    rfl

theorem ne_of_nodup {done rest : List α} {a : α}
    (hnodup : ((done ++ a :: rest).map S.object).Nodup) : ∀ d ∈ done, S.object d ≠ S.object a := by
  intro d hd
  rw [map_append, nodup_append] at hnodup
  exact hnodup.2.2 _ (mem_map_of_mem hd) _ (mem_map_of_mem mem_cons_self)

structure Holds (S : Shelf α β) (b : Graph) (done : List α) (ms : List (Traverser × α))
    (g : Graph) : Prop where
  held : S.held g = done ++ ms.map Prod.snd
  others : S.others g = S.others b
  nodup : ((S.held g).map S.object).Nodup
  before : S.held b <+: done
  rows : ∀ m ∈ ms, m.1.object = S.object m.2

namespace Holds

variable {done : List α} {m : Traverser × α} {ms : List (Traverser × α)}

theorem filling (hg : S.Holds b done ms g) (hm : m ∈ ms) :
    b.Filling (S.object m.2) (S.properties m.2) g := by
  obtain ⟨first, rest, rfl⟩ := append_of_mem hm
  have hheld : S.held g = (done ++ first.map Prod.snd) ++ m.2 :: rest.map Prod.snd := by
    rw [hg.held, map_append, map_cons, append_assoc]
  refine ⟨S.within (hg.before.trans ?_) hg.others, S.shows hheld (ne_of_nodup (hheld ▸ hg.nodup))⟩
  exact hg.held ▸ prefix_append _ _

theorem set (hg : S.Holds b done (m :: ms) g) {value : Value}
    (hrun : (setElement key m.1 value).outcome g = (.ok us, h)) : us = [m.1] ∧
      S.Holds b (done ++ [S.fill (setProperty key value (S.properties m.2)) m.2]) ms h := by
  obtain ⟨hfirst, hrows⟩ := forall_mem_cons.mp hg.rows
  have hheld : S.held g = done ++ m.2 :: ms.map Prod.snd := hg.held
  obtain ⟨hus, hheld', hothers⟩ := S.set hheld (ne_of_nodup (hheld ▸ hg.nodup)) hfirst hrun
  refine ⟨hus, ?_, hothers.trans hg.others, ?_, hg.before.trans (prefix_append _ _), hrows⟩
  · rw [hheld', append_assoc]
    rfl
  · have hnodup := hg.nodup
    rw [hheld, map_append, map_cons] at hnodup
    rwa [hheld', map_append, map_cons, S.object_fill]

end Holds

theorem of_property {done : List α} {ms : List (Traverser × α)} (hg : S.Holds b done ms g)
    (hf : (e.lower c).value = .ok f)
    (hrun : (Process.setProperty key (f.run c.parameters) (ms.map Prod.fst)).outcome g =
      (.ok us, h)) :
    us = ms.map Prod.fst ∧ ∃ ns, S.Holds b done ns h ∧
      Forall₂ (fun m n => n.1 = m.1 ∧ ∃ k value,
        b.Filling (S.object m.2) (S.properties m.2) k ∧ e.Yields c k m.1 value ∧
        n.2 = S.fill (setProperty key value (S.properties m.2)) m.2) ms ns := by
  induction ms generalizing g us done with
  | nil =>
    cases hrun
    exact ⟨rfl, [], hg, .nil⟩
  | cons m ms ih =>
    obtain ⟨value, first, rest, k, hyields, hset, hrest, rfl⟩ :=
      of_setProperty_cons hf hrun
    obtain ⟨rfl, hk⟩ := hg.set hset
    obtain ⟨rfl, ns, hns, hrows⟩ := ih hk hrest
    refine ⟨rfl, (m.1, S.fill (setProperty key value (S.properties m.2)) m.2) :: ns, ?_,
      .cons ⟨rfl, g, value, hg.filling mem_cons_self, hyields, rfl⟩ hrows⟩
    refine ⟨?_, hns.others, hns.nodup, hg.before, forall_mem_cons.mpr ⟨?_, hns.rows⟩⟩
    · rw [hns.held, append_assoc]
      rfl
    · rw [S.object_fill]
      exact hg.rows m mem_cons_self

theorem newProperties_cons (key : String) (e : Expr) (entries : List (String × Expr)) :
    newProperties c ((key, e) :: entries) =
      if e.constant?.any Value.isNull then newProperties c entries
      else do return .property key (← (e.lower c).value) :: (← newProperties c entries) := by
  unfold newProperties
  cases hnull : e.constant?.any Value.isNull with
  | true => rw [filter_cons_of_neg (by simp [hnull]), if_pos rfl]
  | false =>
    rw [filter_cons_of_pos (by simp [hnull]), mapM_cons, if_neg Bool.false_ne_true, bind_assoc]
    rfl

theorem of_newProperties {done : List α} {ms : List (Traverser × α)} (hg : S.Holds b done ms g)
    (hkeys : (entries.map Prod.fst).Nodup) (hf : newProperties c entries = .ok f)
    (hrun : (f.run c.parameters (ms.map Prod.fst)).outcome g = (.ok us, h)) :
    us = ms.map Prod.fst ∧ ∃ ns, S.Holds b done ns h ∧
      Forall₂ (fun m n => n.1 = m.1 ∧ ∀ before, S.properties m.2 = propertiesOf before →
        (∀ p ∈ before, p.1 ∉ entries.map Prod.fst) →
        ∃ all, Fills c (b.Filling (S.object m.2)) m.1 before entries all ∧
          n.2 = S.fill (propertiesOf all) m.2) ms ns := by
  induction entries generalizing g us f ms with
  | nil =>
    cases hf
    cases hrun
    refine ⟨rfl, ms, hg, forall₂_same.mpr fun m _ => ⟨rfl, fun before hbefore _ => ?_⟩⟩
    exact ⟨before, .nil before, by rw [← hbefore, S.fill_properties]⟩
  | cons entry entries ih =>
    obtain ⟨key, e⟩ := entry
    obtain ⟨hkey, hkeys⟩ := nodup_cons.mp hkeys
    rw [newProperties_cons] at hf
    -- the value of the first entry comes behind those before it
    have hnext {before : List (String × Value)} {value : Value}
        (hbefore : ∀ p ∈ before, p.1 ∉ key :: entries.map Prod.fst) :
        ∀ p ∈ before ++ [(key, value)], p.1 ∉ entries.map Prod.fst := by
      rw [forall_mem_append, forall_mem_singleton]
      exact ⟨fun p hp hmem => hbefore p hp (mem_cons_of_mem _ hmem), hkey⟩
    split at hf
    · -- a constant null is left out, which is what setting it would come to
      rename_i hnull
      obtain ⟨hus, ns, hns, hrows⟩ := ih hg hkeys hf hrun
      have hfilling : ∀ m ∈ ms, b.Filling (S.object m.2) (S.properties m.2) g :=
        fun m hm => hg.filling hm
      refine ⟨hus, ns, hns, ((forall₂_and_left _ _).mpr ⟨hfilling, hrows⟩).imp ?_⟩
      rintro m n ⟨hm, hn, hfills⟩
      refine ⟨hn, fun before hproperties hbefore => ?_⟩
      have hsame : propertiesOf (before ++ [(key, .null)]) = propertiesOf before :=
        propertiesOf_null fun p hp heq => hbefore p hp (heq ▸ mem_cons_self)
      obtain ⟨all, hall, hn⟩ :=
        hfills (before ++ [(key, .null)]) (hproperties.trans hsame.symm) (hnext hbefore)
      exact ⟨all, .cons (hproperties ▸ hm) (Expr.yields_null hnull g m.1) hall, hn⟩
    · obtain ⟨v, hv, hf⟩ := bind_eq_ok.mp hf
      obtain ⟨fs, hfs, hf⟩ := bind_eq_ok.mp hf
      cases hf
      obtain ⟨ws, k, hfirst, hrest⟩ := of_outcome_bind hrun
      obtain ⟨rfl, ns, hns, hset⟩ := of_property hg hv hfirst
      rw [map_eq_of_forall₂ (k := Prod.fst) hset fun m n hmn => hmn.1.symm] at hrest ⊢
      obtain ⟨hus, os, hos, hrows⟩ := ih hns hkeys hfs hrest
      refine ⟨hus, os, hos, forall₂_trans ?_ hset hrows⟩
      rintro m n o ⟨hn, k, value, hfilling, hyields, hfill⟩ ⟨ho, hfills⟩
      refine ⟨ho.trans hn, fun before hproperties hbefore => ?_⟩
      have hproperties' : S.properties n.2 = propertiesOf (before ++ [(key, value)]) := by
        rw [hfill, S.properties_fill, propertiesOf_append, hproperties]
      obtain ⟨all, hall, ho⟩ := hfills _ hproperties' (hnext hbefore)
      rw [hn, hfill, S.object_fill] at hall
      refine ⟨all, .cons (hproperties ▸ hfilling) hyields hall, ?_⟩
      rw [ho, hfill, S.fill_fill]

theorem of_element {Q : Traverser → α → Prop} {making : Traversal}
    (hmaking : S.Adds c.parameters Q making)
    (hnew : ∀ {t : Traverser} {a : α} (p : Entries Value), Q t a → Q t (S.fill p a))
    (hkeys : (entries.map Prod.fst).Nodup) (hf : newProperties c entries = .ok f) {name : String}
    (hg : g.Sound) (hspan : h.InSpan)
    (hrun : (Traversal.run c.parameters (making ++ .mark name :: f) ts).outcome g = (.ok us, h)) :
    S.others h = S.others g ∧ ∃ ms : List (Traverser × α), us = ms.map Prod.fst ∧
      S.held h = S.held g ++ ms.map Prod.snd ∧
      Forall₂ (fun t m => m.1 = (t.moveTo (S.object m.2)).mark name ∧ Q t m.2 ∧
        (h.properties? (S.object m.2)).isSome ∧
        ∃ all, Fills c (g.Filling (S.object m.2)) m.1 [] entries all ∧
          S.properties m.2 = propertiesOf all) ts ms := by
  rw [Traversal.run_append (h := .mark name :: f) rfl] at hrun
  obtain ⟨ws, k, hmade, hrun⟩ := of_outcome_bind hrun
  obtain ⟨hothers, ms, rfl, hheld, hms⟩ := hmaking.rows hmade
  have hk : Graph.Changes g k := by
    have hchanges := Graph.run_changes making c.parameters ts g
    rwa [hmade] at hchanges
  obtain ⟨_, _, hmark, hrun⟩ := of_outcome_bind hrun
  cases hmark
  have hkh : Graph.Changes k h := by
    have hchanges := Graph.run_changes f c.parameters ((ms.map Prod.fst).map (·.mark name)) k
    rwa [show (f.run c.parameters ((ms.map Prod.fst).map (·.mark name))).outcome k = (.ok us, h)
      from hrun] at hchanges
  have hmarked : S.Holds g (S.held g) (ms.map fun m => (m.1.mark name, m.2)) k := by
    refine ⟨?_, hothers, S.nodup (hg.changes hk) (hspan.of_changes hkh), prefix_rfl, ?_⟩
    · rw [hheld, map_map]
      rfl
    · refine forall_mem_map.mpr (forall₂_and_right.mp (hms.imp fun t m hm => ⟨?_, hm⟩)).1
      exact congrArg Traverser.object hm.1
  have hmarks : (ms.map Prod.fst).map (·.mark name) =
      (ms.map fun m => (m.1.mark name, m.2)).map Prod.fst := by
    rw [map_map, map_map]
    rfl
  rw [hmarks] at hrun
  obtain ⟨rfl, ns, hns, hrows⟩ := of_newProperties hmarked hkeys hf hrun
  refine ⟨hns.others, ns, map_eq_of_forall₂ hrows fun m n hmn => hmn.1.symm, hns.held, ?_⟩
  have hthere : ∀ n ∈ ns, (h.properties? (S.object n.2)).isSome := by
    intro n hn
    rw [(hns.filling hn).2]
    rfl
  refine forall₂_trans ?_ hms (forall₂_and_right.mpr ⟨hthere, forall₂_map_left_iff.mp hrows⟩)
  rintro t m n ⟨hm, hempty, ha⟩ ⟨hsome, hn, hfills⟩
  obtain ⟨all, hall, hfill⟩ := hfills [] hempty (forall_mem_nil _)
  have hobject : S.object n.2 = S.object m.2 := by rw [hfill, S.object_fill]
  refine ⟨?_, hfill ▸ hnew _ ha, hsome, all, ?_, ?_⟩
  · rw [hn, hm, hobject]
  · rw [hobject, hn]
    exact hall
  · rw [hfill, S.properties_fill]

theorem adds_vertex (label : Option String) :
    Shelf.vertices.Adds ps (fun _ v => v.label = label.getD defaultLabel) [.addVertex label] := by
  refine ⟨rfl, fun hrun => ?_⟩
  rw [Traversal.run_step (p := .addVertex label) rfl] at hrun
  refine of_move (S := Shelf.vertices) (Q := fun _ v => v.label = label.getD defaultLabel)
    (fun hadd => ?_) hrun
  cases hadd
  exact ⟨_, rfl, rfl, rfl, rfl, rfl⟩

theorem adds_edge (type source target : String) :
    Shelf.edges.Adds ps (fun t e => e.label = type ∧
        endOf t (some source) = .ok e.source ∧
        endOf t (some target) = .ok e.target)
      [.addEdge type, .fromLabel source, .toLabel target] := by
  refine ⟨rfl, fun hrun => ?_⟩
  obtain ⟨us, m, hrun, hpure⟩ := of_outcome_bind hrun
  cases hpure
  refine of_move (S := Shelf.edges) (Q := fun t e => e.label = type ∧
    endOf t (some source) = .ok e.source ∧ endOf t (some target) = .ok e.target)
    (fun hadd => ?_) hrun
  obtain ⟨v, hv, hadd⟩ := of_outcome_ofExcept hadd
  obtain ⟨w, hw, hadd⟩ := of_outcome_ofExcept hadd
  obtain ⟨_, _, hgraph, hadd⟩ := of_outcome_bind hadd
  cases hgraph
  obtain ⟨added, hadded, hadd⟩ := of_outcome_ofExcept hadd
  obtain ⟨-, -, rfl⟩ := Graph.addEdge_eq_ok hadded
  cases hadd
  exact ⟨_, rfl, rfl, rfl, rfl, rfl, hv, hw⟩

end Shelf

end CypherTraversal
