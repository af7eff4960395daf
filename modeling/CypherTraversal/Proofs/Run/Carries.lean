import CypherTraversal.Proofs.Run.Rows
import CypherTraversal.Proofs.Sorting

/-! # What processes carry along

`Process.Carries I E S T p` says that from a graph with `I` the process `p` takes rows with `S` to
rows with `T`, or fails with an error of `E`, and leaves a graph with `I` in either case. -/

namespace CypherTraversal

open Run List Step

variable {k : List Modulator → Process} {ms : List Modulator} {ps : Parameters} {s : Step}
  {t : Traverser} {I : Graph → Prop} {E : Error → Prop} {S S' T T' U : Traverser → Prop}
  {test : Traverser → Run Bool} {steps : List Step}

def Process.setElement (key : String) (t : Traverser) (value : Value) : Run (List Traverser) := do
  let g ← Run.graph
  match t.object with
  | .vertex v => Run.setGraph (← Run.ofExcept (g.setVertexProperty v key value))
  | .edge e => Run.setGraph (← Run.ofExcept (g.setEdgeProperty e key value))
  | _ => throw (.execution (.notElement key))
  return [t]

namespace Process

def Carries (I : Graph → Prop) (E : Error → Prop) (S T : Traverser → Prop) (p : Process) : Prop :=
  ∀ ts, (∀ t ∈ ts, S t) → (p ts).Ensures I (fun us => ∀ u ∈ us, T u) E

namespace Carries

variable {p q : Process}

theorem mono (h : p.Carries I E S T) (hS : ∀ t, S' t → S t) (hT : ∀ t, T t → T' t) :
    p.Carries I E S' T' :=
  fun ts hts => (h ts fun t ht => hS t (hts t ht)).imp fun _ hus u hu => hT u (hus u hu)

theorem and (h : p.Carries I E S T) (h' : p.Carries I E S T') :
    p.Carries I E S fun t => T t ∧ T' t :=
  fun ts hts => ((h ts hts).and (h' ts hts)).imp fun _ hus u hu => ⟨hus.1 u hu, hus.2 u hu⟩

theorem andThen (hp : p.Carries I E S T) (hq : q.Carries I E T U) :
    (p.andThen q).Carries I E S U :=
  fun ts hts => (hp ts hts).bind hq

theorem on (h : p.Carries I E S T) (ht : S t) : (p.on t).Ensures I (fun us => ∀ u ∈ us, T u) E :=
  h [t] (forall_mem_singleton.mpr ht)

theorem leads (h : p.Carries I E S T) (ht : S t) : (p.leads t).Ensures I (fun _ => True) E :=
  (h.on ht).bind fun _ _ => .pure trivial

theorem firstOrNull (h : p.Carries I E S T) {ts : List Traverser} (hts : ∀ t ∈ ts, S t) :
    (p.firstOrNull ts).Ensures I (fun x => x = .null ∨ ∃ u, T u ∧ u.object = x) E := by
  refine (h ts hts).bind fun us hus => .pure ?_
  cases us with
  | nil => exact .inl rfl
  | cons u us => exact .inr ⟨u, hus u mem_cons_self, rfl⟩

theorem eachRow {f : Traverser → Run (List Traverser)}
    (h : ∀ t, S t → (f t).Ensures I (fun us => ∀ u ∈ us, T u) E) :
    (eachRow f).Carries I E S T := by
  intro ts
  induction ts with
  | nil =>
    intro _
    exact .pure (forall_mem_nil _)
  | cons t ts ih =>
    intro hts
    obtain ⟨ht, hts⟩ := forall_mem_cons.mp hts
    refine (h t ht).bind fun us hus => (ih hts).bind fun ws hws => .pure ?_
    exact forall_mem_append.mpr ⟨hus, hws⟩

theorem keepIf (h : ∀ t, S t → (test t).Ensures I (fun b : Bool => b → T t) E) :
    (keep test).Carries I E S T := by
  refine eachRow fun t ht => (h t ht).bind fun b hb => .pure ?_
  cases b with
  | false => exact forall_mem_nil _
  | true => exact forall_mem_singleton.mpr (hb rfl)

theorem keep (h : ∀ t, S t → (test t).Ensures I (fun _ => True) E) : (keep test).Carries I E S S :=
  keepIf fun t ht => (h t ht).imp fun _ _ _ => ht

theorem move {f : Traverser → Run (Option Object)}
    (h : ∀ t, S t → (f t).Ensures I (fun x => ∀ y, x = some y → T (t.moveTo y)) E) :
    (move f).Carries I E S T := by
  refine eachRow fun t ht => (h t ht).bind fun x hx => .pure ?_
  cases x with
  | none => exact forall_mem_nil _
  | some y => exact forall_mem_singleton.mpr (hx y rfl)

theorem moveIn {f : Graph → Traverser → Option Object}
    (h : ∀ g, I g → ∀ t, S t → ∀ y, f g t = some y → T (t.moveTo y)) :
    (moveIn f).Carries I E S T :=
  move fun t ht => Ensures.graph.bind fun g hg => .pure (h g hg t ht)

theorem move_ensures {f : Traverser → Run (Option Object)} {K : Object → Prop}
    (h : (f t).Ensures I (fun x => ∃ y, x = some y ∧ K y) E) :
    (Process.move f [t]).Ensures I (fun us => ∃ y, us = [t.moveTo y] ∧ K y) E := by
  have hrow : (do return ((← f t).map t.moveTo).toList : Run (List Traverser)).Ensures I
      (fun us => ∃ y, us = [t.moveTo y] ∧ K y) E := by
    refine h.bind fun x hx => .pure ?_
    obtain ⟨y, rfl, hy⟩ := hx
    exact ⟨y, rfl, hy⟩
  refine hrow.bind fun us hus =>
    (Ensures.pure (Q := fun ws => ws = []) rfl).bind fun ws hws => .pure ?_
  rw [hws, append_nil]
  exact hus

theorem pick {f : List Traverser → List Traverser} (h : ∀ ts, ∀ t ∈ f ts, t ∈ ts) :
    Carries I E S S fun ts => return f ts :=
  fun ts hts => .pure fun t ht => hts t (h ts t ht)

theorem same : Carries I E S S fun ts => return ts :=
  pick fun _ _ ht => ht

theorem map {f : Traverser → Traverser} (h : ∀ t, S t → T (f t)) :
    Carries I E S T fun (ts : List Traverser) => return ts.map f :=
  fun _ hts => .pure (forall_mem_map.mpr fun t ht => h t (hts t ht))

theorem collect {f : List Object → Except Error (List Object)}
    (hok : ∀ ts : List Traverser, (∀ t ∈ ts, S t) → ∀ ys, f (ts.map Traverser.object) = .ok ys →
      ∀ y ∈ ys, T { object := y })
    (herror : ∀ xs e, f xs = .error e → E e) : (collect f).Carries I E S T := by
  intro ts hts
  refine (Ensures.ofExcept (hok ts hts) (herror _)).bind fun ys hys => .pure ?_
  exact forall_mem_map.mpr hys

/-! ### Branches -/

section Branches

variable {ps : List Process} (hps : ∀ p ∈ ps, p.Carries I E S T) {t : Traverser} (ht : S t)

include hps ht

theorem union : (union t ps).Ensures I (fun us => ∀ u ∈ us, T u) E := by
  induction ps with
  | nil => exact .pure (forall_mem_nil _)
  | cons p ps ih =>
    obtain ⟨hp, hps⟩ := forall_mem_cons.mp hps
    refine (hp.on ht).bind fun us hus => (ih hps).bind fun ws hws => .pure ?_
    exact forall_mem_append.mpr ⟨hus, hws⟩

theorem coalesce : (coalesce t ps).Ensures I (fun us => ∀ u ∈ us, T u) E := by
  induction ps with
  | nil => exact .pure (forall_mem_nil _)
  | cons p ps ih =>
    obtain ⟨hp, hps⟩ := forall_mem_cons.mp hps
    refine (hp.on ht).bind fun us hus => ?_
    split
    · exact ih hps
    · exact .pure hus

end Branches

theorem choose {test yes no : Process} (htest : test.Carries I E S' U) (hS : ∀ t, S t → S' t)
    (hyes : yes.Carries I E S T) (hno : no.Carries I E S T) :
    (choose test yes no).Carries I E S T := by
  refine eachRow fun t ht => (htest.leads (hS t ht)).bind fun b _ => ?_
  cases b with
  | false => exact hno.on ht
  | true => exact hyes.on ht

end Carries
end Process

/-! ### Traversals -/

def Step.Modulate (ps : Parameters) (steps : List Step) (ms : List Modulator) : Prop :=
  List.Forall₂ (fun s m => ∃ text, stage ps s = .modulator m text) steps ms

theorem Step.modulate_by (ps : Parameters) (fs : List Traversal) :
    Modulate ps (fs.map .by) (fs.map fun f => .by (f.run ps)) := by
  induction fs with
  | nil => exact .nil
  | cons f fs ih => exact .cons ⟨_, rfl⟩ ih

theorem Modulator.processes_by (ps : Parameters) (fs : List Traversal) :
    (fs.map fun f => Modulator.by (f.run ps)).filterMap process? = fs.map (Traversal.run ps) := by
  induction fs with
  | nil => rfl
  | cons f fs ih => exact congrArg (f.run ps :: ·) ih

theorem Traversal.run_modulated (hs : stage ps s = .modulated k) (hsteps : Modulate ps steps ms) :
    Traversal.run ps (s :: steps) = (k ms).andThen fun ts => return ts := by
  have hmodulators : Stage.modulators (stages ps steps) = ms := by
    induction hsteps with
    | nil => rfl
    | cons hr _ ih =>
      obtain ⟨text, hr⟩ := hr
      rw [stages, hr, Stage.modulators, ih]
  have htaken : Stage.runFrom true (stages ps steps) = fun ts => return ts := by
    clear hmodulators
    induction hsteps with
    | nil => rfl
    | cons hr _ ih =>
      obtain ⟨text, hr⟩ := hr
      rw [stages, hr, Stage.runFrom, ih]
  unfold run Stage.run stages
  rw [hs, Stage.runFrom, hmodulators, htaken]

theorem Step.runEach_eq_map (ps : Parameters) (fs : List Traversal) :
    runEach ps fs = fs.map (Traversal.run ps) :=
  eq_map rfl (fun _ _ => rfl) fs

structure Traversal.Carries (ps : Parameters) (I : Graph → Prop) (E : Error → Prop)
    (S T : Traverser → Prop) (f : Traversal) : Prop where
  starts : f.Starts ps
  carries : (f.run ps).Carries I E S T

namespace Traversal.Carries

variable {ps : Parameters} {f h : Traversal}

theorem nil : Carries ps I E S S [] :=
  ⟨rfl, .same⟩

theorem mono (hf : f.Carries ps I E S T) (hS : ∀ t, S' t → S t) (hT : ∀ t, T t → T' t) :
    f.Carries ps I E S' T' :=
  ⟨hf.starts, hf.carries.mono hS hT⟩

theorem append (hf : f.Carries ps I E S T) (hh : h.Carries ps I E T U) :
    Carries ps I E S U (f ++ h) := by
  refine ⟨hf.starts.append hh.starts, ?_⟩
  rw [run_append hh.starts]
  exact hf.carries.andThen hh.carries

theorem step {p : Process} (hs : stage ps s = .process p) (hp : p.Carries I E S T) :
    Carries ps I E S T [s] := by
  refine ⟨.of_process hs, ?_⟩
  rw [run_step hs]
  exact hp

theorem of_forall (h : ∀ s ∈ f, Carries ps I E S S [s]) : f.Carries ps I E S S := by
  induction f with
  | nil => exact nil
  | cons s f ih =>
    obtain ⟨hs, hf⟩ := forall_mem_cons.mp h
    exact hs.append (ih hf)

theorem modulated (hs : stage ps s = .modulated k) (hsteps : Modulate ps steps ms)
    (hk : (k ms).Carries I E S T) :
    Carries ps I E S T (s :: steps) := by
  constructor
  · unfold Starts stages
    rw [hs]
    rfl
  · rw [run_modulated hs hsteps]
    exact hk.andThen .same

section Each

variable {fs : List Traversal} (hfs : ∀ f ∈ fs, (run ps f).Carries I E S T)

include hfs

theorem runEach : ∀ p ∈ Step.runEach ps fs, p.Carries I E S T := by
  rw [runEach_eq_map]
  exact forall_mem_map.mpr hfs

theorem union : Carries ps I E S T [.union fs] :=
  .step rfl (.eachRow fun _ ht => Process.Carries.union (runEach hfs) ht)

theorem coalesce : Carries ps I E S T [.coalesce fs] :=
  .step rfl (.eachRow fun _ ht => Process.Carries.coalesce (runEach hfs) ht)

end Each

end Traversal.Carries

abbrev Traversal.Brings (ps : Parameters) (S T : Traverser → Prop) (f : Traversal) : Prop :=
  f.Carries ps (fun _ => True) (fun _ => True) S T

theorem Traversal.Carries.brings {f : Traversal} (hf : f.Carries ps (fun _ => True) E S T) :
    f.Brings ps S T :=
  ⟨hf.starts, fun ts hts => (hf.carries ts hts).mono (fun _ hus => hus) fun _ _ => trivial⟩

theorem Traversal.Starts.brings {f : Traversal} (hf : f.Starts ps) : f.Brings ps S fun _ => True :=
  ⟨hf, fun _ _ => Ensures.trivial.imp fun _ _ _ _ => trivial⟩

namespace Process

variable {Q : String → Object → Prop} {key : Object} {gs : List (Object × List Traverser)}
  {ks : List (Option Process × SortOrder)}

/-! ### Projections -/

theorem projectFrom_ensures {ps : List Process} :
    ∀ (i : Nat) (keys : List String),
      (∀ j key, keys[j]? = some key → (keyObject ps[(i + j) % ps.length]? t).Ensures I (Q key) E) →
      (projectFrom ps t i keys).Ensures I (fun es => es.map Prod.fst = keys ∧ ∀ e ∈ es, Q e.1 e.2) E
  | _, [], _ => .pure ⟨rfl, forall_mem_nil _⟩
  | i, key :: keys, h => by
    have hrest : ∀ j k, keys[j]? = some k →
        (keyObject ps[(i + 1 + j) % ps.length]? t).Ensures I (Q k) E := by
      intro j k hk
      have hj := h (j + 1) k hk
      rwa [← Nat.add_assoc, Nat.add_right_comm] at hj
    refine (h 0 key rfl).bind fun x hx =>
      (projectFrom_ensures (i + 1) keys hrest).bind fun es hes => .pure ?_
    exact ⟨by rw [map_cons, hes.1], forall_mem_cons.mpr ⟨hx, hes.2⟩⟩

theorem Carries.project {keys : List String}
    (hQ : ∀ t, S t → ∀ j key, keys[j]? = some key →
      let ps := ms.filterMap Modulator.process?
      (keyObject ps[j % ps.length]? t).Ensures I (Q key) E)
    (hT : ∀ t, S t → ∀ es : List (String × Object), es.map Prod.fst = keys →
      (∀ e ∈ es, Q e.1 e.2) → T (t.moveTo (.map (Entries.ofList es)))) :
    (project keys ms).Carries I E S T := by
  refine .move fun t ht => ?_
  have hes := projectFrom_ensures 0 keys fun j key hkey => by
    rw [Nat.zero_add]
    exact hQ t ht j key hkey
  refine hes.bind fun es hes => .pure fun y hy => ?_
  cases hy
  exact hT t ht es hes.1 hes.2

/-! ### Groups -/

section Groups

variable {K V : Object → Prop}

theorem mem_addToGroup {g : Object × List Traverser} (h : g ∈ addToGroup key t gs) :
    g ∈ gs ∨ g = (key, [t]) ∨ ∃ members, (g.1, members) ∈ gs ∧ g.2 = members ++ [t] := by
  induction gs with
  | nil => exact .inr (.inl (mem_singleton.mp h))
  | cons d gs ih =>
    obtain ⟨k, members⟩ := d
    rw [addToGroup] at h
    split at h
    · rcases mem_cons.mp h with rfl | h
      · exact .inr (.inr ⟨members, mem_cons_self, rfl⟩)
      · exact .inl (mem_cons_of_mem _ h)
    · rcases mem_cons.mp h with rfl | h
      · exact .inl mem_cons_self
      · rcases ih h with h | h | ⟨ms, hms, hg⟩
        · exact .inl (mem_cons_of_mem _ h)
        · exact .inr (.inl h)
        · exact .inr (.inr ⟨ms, mem_cons_of_mem _ hms, hg⟩)

def GroupsOf (K : Object → Prop) (S : Traverser → Prop) (gs : List (Object × List Traverser)) :
    Prop :=
  ∀ g ∈ gs, K g.1 ∧ ∀ t ∈ g.2, S t

theorem GroupsOf.add (h : GroupsOf K S gs)
    (hkey : K key) (ht : S t) : GroupsOf K S (addToGroup key t gs) := by
  intro g hg
  rcases mem_addToGroup hg with hg | rfl | ⟨members, hmembers, hg⟩
  · exact h g hg
  · exact ⟨hkey, forall_mem_singleton.mpr ht⟩
  · refine ⟨(h _ hmembers).1, ?_⟩
    rw [hg]
    exact forall_mem_append.mpr ⟨(h _ hmembers).2, forall_mem_singleton.mpr ht⟩

theorem groupMembers_ensures {key : Option Process}
    (hkey : ∀ t, S t → (keyObject key t).Ensures I K E) :
    ∀ (ts : List Traverser) (gs : List (Object × List Traverser)), (∀ t ∈ ts, S t) →
      GroupsOf K S gs → (groupMembers key ts gs).Ensures I (GroupsOf K S) E
  | [], _, _, hgs => .pure hgs
  | t :: ts, gs, hts, hgs => by
    obtain ⟨ht, hts⟩ := forall_mem_cons.mp hts
    exact (hkey t ht).bind fun x hx => groupMembers_ensures hkey ts _ hts (hgs.add hx ht)

theorem groupObjects_ensures {p : Option Process}
    (hp : ∀ ts, (∀ t ∈ ts, S t) → (groupObject p ts).Ensures I V E) :
    ∀ gs : List (Object × List Traverser), GroupsOf K S gs →
      (groupObjects p gs).Ensures I (fun xs => ∀ x ∈ xs, K x.1 ∧ V x.2) E
  | [], _ => .pure (forall_mem_nil _)
  | (key, members) :: gs, hgs => by
    obtain ⟨⟨hkey, hmembers⟩, hgs⟩ := forall_mem_cons.mp hgs
    refine (hp members hmembers).bind fun x hx =>
      (groupObjects_ensures hp gs hgs).bind fun xs hxs => .pure ?_
    exact forall_mem_cons.mpr ⟨⟨hkey, hx⟩, hxs⟩

theorem Carries.group
    (hkey : ∀ t, S t → (keyObject (ms.filterMap Modulator.process?).head? t).Ensures I K E)
    (hvalue : ∀ ts, (∀ t ∈ ts, S t) →
      (groupObject (ms.filterMap Modulator.process?)[1]? ts).Ensures I V E)
    (hT : ∀ gs : List (Object × Object), (∀ g ∈ gs, K g.1 ∧ V g.2) → T { object := .groups gs }) :
    (group ms).Carries I E S T := by
  intro ts hts
  have hnone : GroupsOf K S [] := forall_mem_nil _
  refine (groupMembers_ensures hkey ts [] hts hnone).bind fun gs hgs =>
    (groupObjects_ensures hvalue gs hgs).bind fun xs hxs => .pure ?_
  exact forall_mem_singleton.mpr (hT xs hxs)

end Groups

/-! ### Orders -/

theorem keyObjects_ensures (h : ∀ k ∈ ks, (keyObject k.1 t).Ensures I (fun _ => True) E) :
    (keyObjects t ks).Ensures I (fun _ => True) E := by
  induction ks with
  | nil => exact .pure trivial
  | cons k ks ih =>
    obtain ⟨hk, hks⟩ := forall_mem_cons.mp h
    exact hk.bind fun _ _ => (ih hks).bind fun _ _ => .pure trivial

theorem withKeys_ensures (h : ∀ t, S t → ∀ k ∈ ks, (keyObject k.1 t).Ensures I (fun _ => True) E) :
    ∀ ts, (∀ t ∈ ts, S t) → (withKeys ks ts).Ensures I (fun xs => ∀ x ∈ xs, S x.2) E
  | [], _ => .pure (forall_mem_nil _)
  | t :: ts, hts => by
    obtain ⟨ht, hts⟩ := forall_mem_cons.mp hts
    refine (keyObjects_ensures (h t ht)).bind fun _ _ =>
      (withKeys_ensures h ts hts).bind fun xs hxs => .pure ?_
    exact forall_mem_cons.mpr ⟨ht, hxs⟩

theorem Carries.order
    (h : ∀ t, S t → ∀ k ∈ sortKeys ms, (keyObject k.1 t).Ensures I (fun _ => True) E) :
    (order ms).Carries I E S S := by
  intro ts hts
  refine (withKeys_ensures h ts hts).bind fun xs hxs => .pure ?_
  exact forall_mem_map.mpr fun x hx => hxs x (Sorting.mem_sort hx)

end Process

end CypherTraversal
