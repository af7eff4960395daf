import CypherTraversal.Proofs.Run.Errors
import CypherTraversal.Proofs.Run.Bonded
import CypherTraversal.Proofs.Run.Keys

/-! # Traversals that only read

A traversal without steps that change the graph leaves it as it is, however the steps are nested.
It does not fail because an object is not a vertex or not an element, and if the keys of the maps
that it writes down pass a test, then so do the keys of all maps that it comes across. -/

namespace CypherTraversal

open Run List Object Error

variable {ts : List Traverser} {t : Traverser} {p : Option Process} {S : Traverser → Prop}
  {xs : List Object} {y : Object}

/-! ### Steps -/

def Step.readsOnly (ok : String → Bool) : Step → Bool
  | inject vs => vs.all (Value.allKeys ok)
  | constant (.value v) => v.allKeys ok
  | project keys => keys.all ok
  | addVertex _ | addEdge _ | property _ _ => false
  | _ => true

def Traversal.ReadsOnly (ok : String → Bool) (f : Traversal) : Prop :=
  f.Every fun s => s.readsOnly ok

def Step.ReadsOnly (ok : String → Bool) (s : Step) : Prop :=
  s.Every fun r => r.readsOnly ok

/-! ### Processes -/

abbrev Process.Reads (I : Graph → Prop) (ok : String → Bool) (p : Process) : Prop :=
  p.Carries I Error.Benign (Traverser.AllKeys ok) (Traverser.AllKeys ok)

def Modulator.Reads (I : Graph → Prop) (ok : String → Bool) (m : Modulator) : Prop :=
  ∀ p, m.process? = some p → p.Reads I ok

namespace Process.Reads

variable {ok : String → Bool} {I : Graph → Prop}

theorem fold : Process.Reads I ok (collect fun xs => .ok [.list xs]) := by
  refine .collect (fun ts hts ys hys => ?_) fun _ _ he => by cases he
  cases hys
  refine forall_mem_singleton.mpr (.fresh (allKeys_list_iff.mpr ?_))
  exact forall_mem_map.mpr fun t ht => (hts t ht).object

theorem foldl_mem {f : Object → Object → Object} (hf : ∀ a b, f a b = a ∨ f a b = b)
    (xs : List Object) (x : Object) : xs.foldl f x ∈ x :: xs := by
  induction xs generalizing x with
  | nil => exact mem_cons_self
  | cons y ys ih =>
    rw [foldl_cons]
    rcases mem_cons.mp (ih (f x y)) with h | h
    · rw [h]
      rcases hf x y with hxy | hxy
      · rw [hxy]
        exact mem_cons_self
      · rw [hxy]
        exact mem_cons_of_mem x mem_cons_self
    · exact mem_cons_of_mem x (mem_cons_of_mem y h)

theorem mem_of_least (h : y ∈ least xs) : y ∈ xs := by
  cases xs with
  | nil => cases h
  | cons x xs =>
    cases h
    refine foldl_mem (fun a b => ?_) xs x
    split <;> simp

theorem mem_of_greatest (h : y ∈ greatest xs) : y ∈ xs := by
  cases xs with
  | nil => cases h
  | cons x xs =>
    cases h
    refine foldl_mem (fun a b => ?_) xs x
    split <;> simp

theorem mem_reduce {r : Reduction} {ys : List Object} (h : reduce r xs = .ok ys) (hy : y ∈ ys) :
    (∃ s, y = .scalar s) ∨ y ∈ xs := by
  cases r with
  | count =>
    cases h
    exact .inl ⟨_, mem_singleton.mp hy⟩
  | min =>
    cases h
    exact .inr (mem_of_least (Option.mem_toList.mp hy))
  | max =>
    cases h
    exact .inr (mem_filter.mp (mem_of_greatest (Option.mem_toList.mp hy))).1
  | sum =>
    obtain ⟨ns, -, h⟩ := bind_eq_ok.mp h
    split at h
    · cases h
      cases hy
    · obtain ⟨n, -, h⟩ := bind_eq_ok.mp h
      cases h
      exact .inl ⟨n, mem_singleton.mp hy⟩
  | mean =>
    obtain ⟨ns, -, h⟩ := bind_eq_ok.mp h
    dsimp only at h
    split at h
    · cases h
      cases hy
    · cases h
      exact .inl ⟨_, mem_singleton.mp hy⟩

theorem mem_dedup (h : t ∈ Process.dedup ts) : t ∈ ts := by
  have hfold (us : List Traverser) (acc : List Object × List Traverser)
      (hacc : ∀ u ∈ acc.2, u ∈ ts) (hus : ∀ u ∈ us, u ∈ ts) :
      ∀ u ∈ (us.foldl (fun (acc : List Object × List Traverser) (t : Traverser) =>
        if acc.1.any fun x => x == t.object then acc else (t.object :: acc.1, t :: acc.2)) acc).2,
        u ∈ ts := by
    induction us generalizing acc with
    | nil => exact hacc
    | cons u us ih =>
      obtain ⟨hu, hus⟩ := forall_mem_cons.mp hus
      rw [foldl_cons]
      refine ih _ ?_ hus
      split
      · exact hacc
      · exact forall_mem_cons.mpr ⟨hu, hacc⟩
  exact hfold ts ([], []) (forall_mem_nil _) (fun _ hu => hu) t (mem_reverse.mp h)

section Windows

variable (ps : Parameters) {S : Traverser → Prop}

theorem skip (n : Bound) : (skip ps n).Carries I Benign S S := by
  intro ts hts
  refine (Ensures.ofExcept (fun _ _ => trivial) (n.count_benign ps "SKIP")).bind fun k _ => .pure ?_
  exact fun t ht => hts t (mem_of_mem_drop ht)

theorem limit (n : Bound) : (limit ps n).Carries I Benign S S := by
  intro ts hts
  refine (Ensures.ofExcept (fun _ _ => trivial) (n.count_benign ps "LIMIT")).bind fun k _ =>
    .pure ?_
  exact fun t ht => hts t (mem_of_mem_take ht)

end Windows

/-! ### Modulated steps -/

theorem keyObject (hp : ∀ q, p = some q → q.Reads I ok) (ht : t.AllKeys ok) :
    (keyObject p t).Ensures I (fun x => x.allKeys ok) Benign := by
  cases p with
  | none => exact .pure ht.object
  | some q =>
    refine ((hp q rfl).firstOrNull (forall_mem_singleton.mpr ht)).imp ?_
    rintro x (rfl | ⟨u, hu, rfl⟩)
    · rfl
    · exact hu.object

theorem groupObject (hp : ∀ q, p = some q → q.Reads I ok) (hts : ∀ t ∈ ts, t.AllKeys ok) :
    (groupObject p ts).Ensures I (fun x => x.allKeys ok) Benign := by
  cases p with
  | none =>
    refine .pure (allKeys_list_iff.mpr ?_)
    exact forall_mem_map.mpr fun t ht => (hts t ht).object
  | some q =>
    refine ((hp q rfl).firstOrNull hts).imp ?_
    rintro x (rfl | ⟨u, hu, rfl⟩)
    · rfl
    · exact hu.object

section Modulators

variable {ms : List Modulator} (hms : ∀ m ∈ ms, m.Reads I ok)

include hms

theorem order (hS : ∀ t, S t → t.AllKeys ok) : (order ms).Carries I Benign S S := by
  refine .order fun t ht k hk => ?_
  refine (keyObject (fun q hq => ?_) (hS t ht)).imp fun _ _ => trivial
  unfold sortKeys at hk
  split at hk
  · rw [mem_singleton.mp hk] at hq
    cases hq
  · obtain ⟨⟨p, o⟩, hp, rfl⟩ := mem_map.mp hk
    obtain ⟨m, hm, hsort⟩ := mem_filterMap.mp hp
    cases hq
    refine hms m hm p ?_
    cases m with
    | «by» p | byOrder p o => cases hsort; rfl
    | fromLabel l | toLabel l => cases hsort

end Modulators

end Process.Reads

/-! ### Whole traversals -/

/-- Rows with maps whose keys pass, beside rows that differ from them in the path. -/
def Bond.keyed {I : Graph → Prop} {ok : String → Bool} (hI : ∀ g, I g → g.AllKeys ok)
    (error : Error → Error → Prop) {F : Traverser → Traverser}
    {P : List (String × Object) → List (String × Object)}
    (hF : ∀ u, F u = { u with path := P u.path }) (hP : P [] = []) : Bond where
  graph := I
  later _ _ := True
  row _ u v := u.AllKeys ok ∧ v = F u
  object _ x := x.allKeys ok
  error := error
  later_refl _ := trivial
  later_trans _ _ := trivial
  row_later h _ := h
  object_later h _ := h
  same h := by rw [h.2, hF]
  object_of_row h := h.1.object
  moveTo h hx := ⟨h.1.moveTo hx, by rw [h.2, hF, hF]; rfl⟩
  fresh hx := ⟨.fresh hx, by rw [hF, hP]⟩
  scalar _ _ := rfl
  list h := Object.allKeys_list_iff.mpr h
  groups h := Object.allKeys_groups_iff.mpr h
  part h hy := Object.allKeys_parts h hy
  side h hy := Object.allKeys_sides? h hy
  entry h hy := Object.allKeys_find? h hy
  vertex _ _ := rfl
  edges d labels _ h := by
    rw [h.2, hF]
    unfold Graph.edgesFrom
    dsimp only
    split
    · exact forall₂_map_same fun e _ => ⟨⟨rfl, h.1.path⟩, by rw [hF]⟩
    · exact .nil
  endpoint e _ h := ⟨by rw [h.2, hF]; rfl, fun _ _ => rfl⟩
  property hg hv := by
    rw [Object.allKeys_ofValue]
    exact (hI _ hg).property? hv

def Bond.reading {I : Graph → Prop} {ok : String → Bool} (hI : ∀ g, I g → g.AllKeys ok) : Bond :=
  .keyed hI (fun d e => d = e ∧ d.Benign) (F := id) (P := id) (fun _ => rfl) rfl

section Reading

variable {I : Graph → Prop} {ok : String → Bool} {ps : Parameters}
  (hI : ∀ g, I g → g.AllKeys ok) (hps : ∀ p ∈ ps, p.2.allKeys ok)

theorem Operand.resolve_allKeys (hps : ∀ p ∈ ps, p.2.allKeys ok) {o : Operand}
    (ho : (Step.constant o).readsOnly ok) (ht : t.AllKeys ok) :
    Gives (fun x => x.allKeys ok) (o.resolve ps t) := by
  intro x hx
  cases o with
  | value v =>
    cases hx
    rw [allKeys_ofValue]
    exact ho
  | parameter name =>
    obtain ⟨v, hv, hx⟩ := bind_eq_ok.mp hx
    cases hx
    unfold Parameters.value at hv
    split at hv
    · rename_i w hw
      cases hv
      rw [allKeys_ofValue]
      exact hps _ (Graph.mem_of_find? hw)
    · cases hv
  | label name =>
    cases hx
    cases hl : t.labelled? name with
    | none => rfl
    | some x => exact ht.labelled? hl

theorem Step.allKeys_of_project {keys : List String} (h : (Step.project keys).readsOnly ok)
    {es : List (String × Object)} (hkeys : es.map Prod.fst = keys)
    (hes : ∀ e ∈ es, e.2.allKeys ok) : (Object.map (Entries.ofList es)).allKeys ok := by
  refine allKeys_map_iff.mpr fun e he => ?_
  have he := Entries.mem_ofList he
  refine ⟨all_eq_true.mp h e.1 ?_, hes e he⟩
  rw [← hkeys]
  exact mem_map_of_mem he

theorem Process.reduce_allKeys (r : Reduction) (hxs : ∀ x ∈ xs, x.allKeys ok) :
    Gives (fun ys => ∀ y ∈ ys, y.allKeys ok) (reduce r xs) := by
  intro ys hys y hy
  rcases Process.Reads.mem_reduce hys hy with ⟨s, rfl⟩ | hy
  · rfl
  · exact hxs y hy

theorem Step.allKeys_of_inject {vs : List Value} (h : (Step.inject vs).readsOnly ok) {v : Value}
    (hv : v ∈ vs) : (ofValue v).allKeys ok := by
  rw [allKeys_ofValue]
  exact all_eq_true.mp h v hv

theorem Bond.reading_answers {α : Type} {Q : α → Prop} {r : Except Error α}
    (h : FailsWith Benign r) (hQ : Gives Q r) : (Bond.reading hI).Answers Q r r :=
  ⟨rfl, fun e he => ⟨rfl, h e he⟩, hQ⟩

include hps in
theorem Step.bonded_of_readsOnly {s : Step} (hs : s.readsOnly ok) :
    s.Bonded (.reading hI) ps ps := by
  have answers {α : Type} {r : Except Error α} (h : FailsWith Benign r) :
      (Bond.reading hI).Answers (fun _ => True) r r :=
    Bond.reading_answers hI h fun _ _ => trivial
  cases s
  case inject vs => exact fun g v hv => allKeys_of_inject hs hv
  case hasPredicate key p | is p | wherePredicate p =>
    rintro g _ u ⟨-, rfl⟩ x
    exact answers (p.test_benign ps u x)
  case mark l =>
    rintro g _ u ⟨hu, rfl⟩
    exact ⟨hu.mark l, rfl⟩
  case select l =>
    rintro g _ u ⟨hu, rfl⟩
    exact ⟨rfl, fun y hy => hu.labelled? hy⟩
  case constant o =>
    rintro g _ u ⟨hu, rfl⟩
    exact Bond.reading_answers hI (o.resolve_benign ps u) (o.resolve_allKeys hps hs hu)
  case project keys => exact fun g es hkeys hes => allKeys_of_project hs hkeys hes
  case reduce r =>
    exact fun g xs hxs => Bond.reading_answers hI (Process.reduce_ofObject r xs).benign
      (Process.reduce_allKeys r hxs)
  case skip n => exact answers (n.count_benign ps _)
  case limit n => exact answers (n.count_benign ps _)
  case range low high => exact ⟨answers (low.count_benign ps _), answers (high.count_benign ps _)⟩
  case addVertex | addEdge | property => cases hs
  all_goals trivial

end Reading

theorem Traversal.ReadsOnly.reads {I : Graph → Prop} {ok : String → Bool} {ps : Parameters}
    (hI : ∀ g, I g → g.AllKeys ok) (hps : ∀ p ∈ ps, p.2.allKeys ok) {f : Traversal}
    (hf : f.ReadsOnly ok) : (f.run ps).Reads I ok := by
  have hstray (text : String) :
      (Bond.reading hI).error (.strayModulator text) (.strayModulator text) := ⟨rfl, nofun, nofun⟩
  have hrun : (f.run ps).Lockstep (.reading hI) (f.run ps) :=
    run_lockstep f (fun s hs => ⟨Step.bonded_of_readsOnly hI hps (hf s hs), fun _ _ => .inr hstray⟩)
      (.inr hstray)
  intro ts hts g hg
  obtain ⟨h, -, hh, ⟨us, vs, hus, -, hrows⟩ | ⟨e, _, he, -, -, hE⟩⟩ :=
    hrun g hg ts ts (forall₂_same.mpr fun t ht => ⟨hts t ht, rfl⟩)
  · exact ⟨h, hh, .inl ⟨us, hus, ((forall₂_and_left ..).mp hrows).1⟩⟩
  · exact ⟨h, hh, .inr ⟨e, he, hE⟩⟩

/-! ### Filters -/

def Step.isFilter : Step → Bool
  | hasLabel _ | has _ | hasNot _ | hasPredicate .. | is _ | wherePredicate _ => true
  | .filter _ | .not _ | .and _ | .or _ | identity => true
  | _ => false

theorem Process.keep_sublist {test : Traverser → Run Bool} {us : List Traverser} {g g' : Graph}
    (h : (keep test ts).outcome g = (.ok us, g')) : us <+ ts := by
  induction ts generalizing us g with
  | nil =>
    cases h
    exact .slnil
  | cons t ts ih =>
    obtain ⟨first, m, rest, hfirst, hrest, rfl⟩ := of_outcome_both h
    obtain ⟨b, m', hb, hfirst⟩ := of_outcome_bind hfirst
    cases hfirst
    cases b with
    | true => exact (ih hrest).cons_cons t
    | false => exact (ih hrest).cons t

theorem Step.stage_of_isFilter (ps : Parameters) {s : Step} (hs : s.isFilter) :
    ∃ p, stage ps s = .process p ∧ ∀ {ts us : List Traverser} {g g' : Graph},
      (p ts).outcome g = (.ok us, g') → us <+ ts := by
  cases s
  case hasLabel | has | hasNot | hasPredicate | is | wherePredicate | filter | not | and | or =>
    exact ⟨_, rfl, Process.keep_sublist⟩
  case identity =>
    refine ⟨_, rfl, fun h => ?_⟩
    cases h
    exact .refl _
  all_goals cases hs

structure Traversal.Filters (ok : String → Bool) (f : Traversal) : Prop where
  isFilter : ∀ s ∈ f, s.isFilter
  readsOnly : f.ReadsOnly ok

namespace Traversal.Filters

variable {I : Graph → Prop} {ok : String → Bool} {ps : Parameters} {s : Step} {f h : Traversal}

theorem nil : Filters ok [] :=
  ⟨forall_mem_nil _, .nil⟩

theorem append (hf : f.Filters ok) (hh : h.Filters ok) : Filters ok (f ++ h) :=
  ⟨forall_mem_append.mpr ⟨hf.isFilter, hh.isFilter⟩, hf.readsOnly.append hh.readsOnly⟩

theorem single (hs : s.isFilter) (hreads : s.ReadsOnly ok) : Filters ok [s] :=
  ⟨forall_mem_singleton.mpr hs, .single hreads⟩

theorem rows (hf : ∀ s ∈ f, s.isFilter) : f.Starts ps ∧ ∀ {ts us : List Traverser} {g g' : Graph},
    (f.run ps ts).outcome g = (.ok us, g') → us <+ ts := by
  induction f with
  | nil =>
    refine ⟨rfl, fun hrun => ?_⟩
    cases hrun
    exact .refl _
  | cons s f ih =>
    obtain ⟨hs, hf⟩ := forall_mem_cons.mp hf
    obtain ⟨p, hp, hkeeps⟩ := Step.stage_of_isFilter ps hs
    obtain ⟨hstarts, hrows⟩ := ih hf
    refine ⟨(Starts.of_process hp).append hstarts, fun hrun => ?_⟩
    rw [← singleton_append, run_append hstarts, run_step hp] at hrun
    obtain ⟨ws, m, hws, hrun⟩ := of_outcome_bind hrun
    exact (hrows hrun).trans (hkeeps hws)

theorem carries (hf : f.Filters ok) (hI : ∀ g, I g → g.AllKeys ok) (hps : ∀ p ∈ ps, p.2.allKeys ok)
    (hS : ∀ t, S t → t.AllKeys ok) : f.Carries ps I Benign S S := by
  refine ⟨(rows hf.isFilter).1, fun ts hts g hg => ?_⟩
  obtain ⟨h, hh, ⟨us, hus, -⟩ | herror⟩ :=
    hf.readsOnly.reads hI hps ts (fun t ht => hS t (hts t ht)) g hg
  · exact ⟨h, hh, .inl ⟨us, hus, fun u hu => hts u (((rows hf.isFilter).2 hus).subset hu)⟩⟩
  · exact ⟨h, hh, .inr herror⟩

end Traversal.Filters

end CypherTraversal
