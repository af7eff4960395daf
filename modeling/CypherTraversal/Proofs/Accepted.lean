import CypherTraversal.Proofs.Answers
import CypherTraversal.Proofs.Traversal.Every
import CypherTraversal.Traversal.Restricted

/-! # What the restricted library accepts

The reasons for which a traversal is refused, the form in which the others are written, and a
decision for each step between the two. -/

namespace CypherTraversal

open List Step Traversal

variable {place : GroupPlace} {s : Step} {ss t : Traversal} {α β : Type}

/-! ### Reasons -/

inductive Value.HoldsMap : Value → Prop
  | map (entries : List (String × Value)) : HoldsMap (.map entries)
  | item {items : List Value} {v : Value} (hv : v ∈ items) (h : v.HoldsMap) : HoldsMap (.list items)

inductive Step.PredicateBarred : Step → Prop
  | text {s : Step} {m : TextMatch} {o : Operand} (hp : s.predicate? = some (.text m o)) :
    PredicateBarred s
  | operand {s : Step} {p : Predicate} {v : Value} (hp : s.predicate? = some p)
      (hv : .value v ∈ p.operands) (h : v.HoldsMap) : PredicateBarred s

inductive Step.SourceBarred : Step → Prop
  | constant {v : Value} (h : v.HoldsMap) : SourceBarred (.constant (.value v))
  | inject {vs : List Value} {v : Value} (hv : v ∈ vs) (h : v.HoldsMap) : SourceBarred (.inject vs)
  | skip (name : String) : SourceBarred (.skip (.parameter name))

inductive Traversal.KeysGroup : Traversal → Prop
  | project (keys : List String) (rest : Traversal) : KeysGroup (.project keys :: rest)
  | select (label : String) (rest : Traversal) : KeysGroup (.select label :: rest)

inductive Traversal.Misgrouped (t : Traversal) : Prop
  | key {key : Traversal} (h : [.group, .by key] <:+: t) (hkey : ¬ key.KeysGroup)
  | rows {key rows : Traversal} (h : [.group, .by key, .by rows] <:+: t) (hrows : rows ≠ [.fold])

/-- Some step, at some depth, is not in the restricted library. -/
inductive Traversal.Refused : Traversal → Prop
  | predicate {t : Traversal} {s : Step} (hs : s ∈ t) (h : s.PredicateBarred) : Refused t
  | source {t : Traversal} {s : Step} (hs : s ∈ t) (h : s.SourceBarred) : Refused t
  | group {t : Traversal} (h : t.Misgrouped) : Refused t
  | inside {t f : Traversal} {s : Step} (hs : s ∈ t) (hf : f ∈ s.inside) (h : f.Refused) : Refused t

/-! ### The written form -/

namespace Step

mutual

def respelled : Step → List Step
  | values key => [properties key, value]
  | skip n => [range n (.literal (-1))]
  | .filter t => [.filter (respelledAll t)]
  | .not t => [.not (respelledAll t)]
  | .and ts => [.and (respelledEach ts)]
  | .or ts => [.or (respelledEach ts)]
  | .by t => [.by (respelledAll t)]
  | byOrder t o => [byOrder (respelledAll t) o]
  | union ts => [union (respelledEach ts)]
  | coalesce ts => [coalesce (respelledEach ts)]
  | choose c y n => [choose (respelledAll c) (respelledAll y) (respelledAll n)]
  | flatMap t => [flatMap (respelledAll t)]
  | property key t => [property key (respelledAll t)]
  | s => [s]

/-- The form of a traversal in the restricted library. -/
def respelledAll : List Step → List Step
  | [] => []
  | s :: ss => respelled s ++ respelledAll ss

def respelledEach : List (List Step) → List (List Step)
  | [] => []
  | t :: ts => respelledAll t :: respelledEach ts

end

end Step

/-- A step that the restricted library has. -/
structure Step.Restricted (s : Step) : Prop where
  not_values : ∀ key, s ≠ .values key
  not_skip : ∀ n, s ≠ .skip n

namespace Step

variable {s : Step}

theorem restricted_or (s : Step) :
    (∃ key, s = .values key) ∨ (∃ n, s = .skip n) ∨ s.Restricted := by
  by_cases hvalues : ∃ key, s = .values key
  · exact .inl hvalues
  by_cases hskip : ∃ n, s = .skip n
  · exact .inr (.inl hskip)
  · exact .inr (.inr ⟨fun key h => hvalues ⟨key, h⟩, fun n h => hskip ⟨n, h⟩⟩)

theorem Restricted.mapInside (hs : s.Restricted) (F : Traversal → Traversal) :
    (s.mapInside F).Restricted := by
  obtain ⟨hvalues, hskip⟩ := hs
  cases s <;> constructor <;> first | exact hvalues | exact hskip | simp [mapInside]

theorem respelledEach_eq_map (ts : List Traversal) : respelledEach ts = ts.map respelledAll :=
  eq_map rfl (fun _ _ => rfl) ts

theorem Restricted.respelled_eq (hs : s.Restricted) : respelled s = [s.mapInside respelledAll] := by
  cases s
  case values key => exact absurd rfl (hs.not_values key)
  case skip n => exact absurd rfl (hs.not_skip n)
  case and | or | union | coalesce => simp only [respelled, respelledEach_eq_map, Step.mapInside]
  all_goals rfl

end Step

theorem Traversal.Every.respelledAll {P Q : Step → Prop}
    (hvalues : ∀ key, P (.values key) → Q (.properties key) ∧ Q .value)
    (hskip : ∀ n, P (.skip n) → Q (.range n (.literal (-1))))
    (hother : ∀ s F, s.Restricted → P s → Q (s.mapInside F)) {t : Traversal} (ht : t.Every P) :
    Every Q (respelledAll t) := by
  induction t using induction_inside with
  | h t ih =>
    have hsteps (s : Step) (hs : s ∈ t) : Every Q (respelled s) := by
      obtain ⟨hown, hinside⟩ := ht.of_mem hs
      obtain ⟨key, rfl⟩ | ⟨n, rfl⟩ | hrestricted := s.restricted_or
      · obtain ⟨hproperties, hvalue⟩ := hvalues key hown
        exact .cons (.leaf rfl hproperties) (.single (.leaf rfl hvalue))
      · exact .single (.leaf rfl (hskip n hown))
      · rw [hrestricted.respelled_eq]
        refine .single (.of_inside (hother s _ hrestricted hown) ?_)
        rw [inside_mapInside]
        exact forall_mem_map.mpr fun f hf => ih s hs f hf (hinside f hf)
    clear ih ht
    induction t with
    | nil => exact .nil
    | cons s ss ihss =>
      obtain ⟨hs, hss⟩ := forall_mem_cons.mp hsteps
      exact .append hs (ihss hss)

theorem Traversal.respelledAll_restricted (t : Traversal) :
    Traversal.Every Restricted (respelledAll t) := by
  have hany : t.Every fun _ => True := fun _ _ => trivial
  refine hany.respelledAll (fun key _ => ⟨⟨?_, ?_⟩, ⟨?_, ?_⟩⟩) (fun n _ => ⟨?_, ?_⟩)
    fun s F hs _ => hs.mapInside F
  all_goals simp

/-! ### Decisions -/

def Decides (x : Except Error α) (a : α) (reason : Prop) : Prop :=
  (x = .ok a ∧ ¬ reason) ∨ ∃ construct, x = .error (notRestricted construct) ∧ reason

namespace Decides

variable {x : Except Error α} {a : α} {b : β} {A B : Prop}

theorem ok (a : α) : Decides (.ok a) a False :=
  .inl ⟨rfl, id⟩

theorem congr (h : Decides x a A) (hAB : A ↔ B) : Decides x a B := by
  rwa [propext hAB] at h

theorem bind {f : α → Except Error β} (hx : Decides x a A) (hf : Decides (f a) b B) :
    Decides (x >>= f) b (A ∨ B) := by
  obtain ⟨rfl, hA⟩ | ⟨construct, rfl, hA⟩ := hx
  · obtain ⟨hb, hB⟩ | ⟨construct, he, hB⟩ := hf
    · exact .inl ⟨hb, not_or.mpr ⟨hA, hB⟩⟩
    · exact .inr ⟨construct, he, .inr hB⟩
  · exact .inr ⟨construct, rfl, .inl hA⟩

theorem map (hx : Decides x a A) (f : α → β) : Decides (do return f (← x)) (f a) A :=
  (hx.bind (ok (f a))).congr (or_iff_left id)

theorem ite {c : Bool} {construct : String} (h : c ↔ A) :
    Decides (if c then .error (notRestricted construct) else .ok a) a A := by
  cases c with
  | true => exact .inr ⟨construct, rfl, h.mp rfl⟩
  | false => exact .inl ⟨rfl, fun hA => Bool.false_ne_true (h.mpr hA)⟩

theorem forM {f : α → Except Error Unit} {P : α → Prop} {xs : List α}
    (h : ∀ x ∈ xs, Decides (f x) () (P x)) : Decides (xs.forM f) () (∃ x ∈ xs, P x) := by
  induction xs with
  | nil => exact (ok ()).congr ⟨False.elim, fun ⟨_, hx, _⟩ => not_mem_nil hx⟩
  | cons x xs ih =>
    obtain ⟨hx, hxs⟩ := forall_mem_cons.mp h
    exact (hx.bind (ih hxs)).congr (exists_mem_cons_iff ..).symm

end Decides

/-! ### Single steps -/

namespace Value

mutual

theorem holdsMap_iff : ∀ v : Value, v.holdsMap ↔ v.HoldsMap
  | scalar s => ⟨fun h => absurd h Bool.false_ne_true, by rintro ⟨⟩⟩
  | map entries => ⟨fun _ => .map entries, fun _ => rfl⟩
  | list items => by
    rw [holdsMap, someHoldsMap_iff items]
    constructor
    · rintro ⟨v, hv, h⟩
      exact .item hv h
    · rintro (_ | ⟨hv, h⟩)
      exact ⟨_, hv, h⟩

theorem someHoldsMap_iff : ∀ vs : List Value, someHoldsMap vs ↔ ∃ v ∈ vs, v.HoldsMap
  | [] => by simp [someHoldsMap]
  | v :: vs => by
    rw [someHoldsMap, Bool.or_eq_true, holdsMap_iff v, someHoldsMap_iff vs, exists_mem_cons_iff]

end

end Value

theorem Operand.checkRestricted_decides (o : Operand) :
    Decides o.checkRestricted () (∃ v, o = .value v ∧ v.HoldsMap) := by
  cases o with
  | value v =>
    refine .ite (v.holdsMap_iff.trans ⟨fun h => ⟨v, rfl, h⟩, ?_⟩)
    rintro ⟨_, ⟨⟩, h⟩
    exact h
  | parameter name | label name =>
    refine (Decides.ok ()).congr ⟨False.elim, ?_⟩
    rintro ⟨_, ⟨⟩, -⟩

theorem Predicate.checkRestricted_decides (p : Predicate) : Decides p.checkRestricted ()
    ((∃ m o, p = .text m o) ∨ ∃ v, .value v ∈ p.operands ∧ v.HoldsMap) := by
  have hoperands : Decides (p.operands.forM Operand.checkRestricted) ()
      (∃ v, .value v ∈ p.operands ∧ v.HoldsMap) := by
    refine (Decides.forM fun o _ => o.checkRestricted_decides).congr ⟨?_, ?_⟩
    · rintro ⟨_, ho, v, rfl, hv⟩
      exact ⟨v, ho, hv⟩
    · rintro ⟨v, hv, h⟩
      exact ⟨_, hv, v, rfl, h⟩
  cases p with
  | text m o => cases m <;> exact .inr ⟨_, rfl, .inl ⟨_, o, rfl⟩⟩
  | compare | between | within | without =>
    refine hoperands.congr (or_iff_right ?_).symm
    rintro ⟨_, _, ⟨⟩⟩

namespace Step

theorem checkRestricted_decides (s : Step) : Decides s.checkRestricted () s.PredicateBarred := by
  unfold checkRestricted
  cases hp : s.predicate? with
  | none =>
    refine (Decides.ok ()).congr ⟨False.elim, fun h => ?_⟩
    cases h with
    | text hp' | operand hp' => cases hp.symm.trans hp'
  | some p =>
    refine p.checkRestricted_decides.congr ⟨?_, fun h => ?_⟩
    · rintro (⟨m, o, rfl⟩ | ⟨v, hv, h⟩)
      · exact .text hp
      · exact .operand hp hv h
    · cases h with
      | text hp' =>
        cases hp.symm.trans hp'
        exact .inl ⟨_, _, rfl⟩
      | operand hp' hv h =>
        cases hp.symm.trans hp'
        exact .inr ⟨_, hv, h⟩

end Step

/-! ### The modulators of groups -/

namespace GroupPlace

def after : GroupPlace → Step → GroupPlace
  | _, .group => .key
  | .key, .by _ => .rows
  | _, _ => .outside

inductive Rejects : GroupPlace → Step → Prop
  | key {t : Traversal} (h : ¬ t.KeysGroup) : Rejects .key (.by t)
  | rows {t : Traversal} (h : t ≠ [.fold]) : Rejects .rows (.by t)

def Misplaced : GroupPlace → Traversal → Prop
  | .outside, _ => False
  | .key, t => (∃ key : Traversal, [.by key] <+: t ∧ ¬ key.KeysGroup) ∨
    ∃ key rows : Traversal, [.by key, .by rows] <+: t ∧ rows ≠ [.fold]
  | .rows, t => ∃ rows : Traversal, [.by rows] <+: t ∧ rows ≠ [.fold]

theorem isGroupKey_iff : isGroupKey t ↔ t.KeysGroup := by
  constructor
  · intro h
    unfold isGroupKey at h
    split at h
    · exact .project _ _
    · exact .select _ _
    · cases h
  · rintro (⟨keys, rest⟩ | ⟨label, rest⟩) <;> rfl

theorem isGroupRows_iff : isGroupRows t ↔ t = [.fold] := by
  constructor
  · intro h
    unfold isGroupRows at h
    split at h
    · rfl
    · cases h
  · rintro rfl
    rfl

theorem next_decides (place : GroupPlace) (s : Step) :
    Decides (place.next s) (place.after s) (place.Rejects s) := by
  have hok {q : GroupPlace} (h : place.next s = .ok q) (hq : place.after s = q)
      (hr : ¬ place.Rejects s) : Decides (place.next s) (place.after s) (place.Rejects s) :=
    .inl ⟨hq ▸ h, hr⟩
  cases s
  case «by» t =>
    cases place with
    | outside => exact hok rfl rfl fun h => by cases h
    | key =>
      by_cases ht : isGroupKey t
      · refine hok (if_pos ht) rfl fun h => ?_
        cases h with
        | key h => exact h (isGroupKey_iff.mp ht)
      · exact .inr ⟨_, if_neg ht, .key fun h => ht (isGroupKey_iff.mpr h)⟩
    | rows =>
      by_cases ht : isGroupRows t
      · refine hok (if_pos ht) rfl fun h => ?_
        cases h with
        | rows h => exact h (isGroupRows_iff.mp ht)
      · exact .inr ⟨_, if_neg ht, .rows fun h => ht (isGroupRows_iff.mpr h)⟩
  all_goals cases place <;> exact hok rfl rfl fun h => by cases h

theorem misplaced_by (place : GroupPlace) (t ss : Traversal) :
    place.Misplaced (.by t :: ss) ↔ place.Rejects (.by t) ∨ (place.after (.by t)).Misplaced ss := by
  cases place with
  | outside => exact ⟨False.elim, fun h => h.elim (fun h => by cases h) id⟩
  | key =>
    constructor
    · rintro (⟨key, hkey, h⟩ | ⟨key, rows, hrows, h⟩)
      · obtain ⟨⟨⟩, -⟩ := cons_prefix_cons.mp hkey
        exact .inl (.key h)
      · obtain ⟨⟨⟩, htail⟩ := cons_prefix_cons.mp hrows
        exact .inr ⟨rows, htail, h⟩
    · rintro (⟨⟨h⟩⟩ | ⟨rows, hrows, h⟩)
      · exact .inl ⟨t, cons_prefix_cons.mpr ⟨rfl, nil_prefix⟩, h⟩
      · exact .inr ⟨t, rows, cons_prefix_cons.mpr ⟨rfl, hrows⟩, h⟩
  | rows =>
    constructor
    · rintro ⟨rows, hrows, h⟩
      obtain ⟨⟨⟩, -⟩ := cons_prefix_cons.mp hrows
      exact .inl (.rows h)
    · rintro ((_ | ⟨h⟩) | ⟨⟨⟩⟩)
      exact ⟨t, cons_prefix_cons.mpr ⟨rfl, nil_prefix⟩, h⟩

theorem Misplaced.exists_by (h : place.Misplaced (s :: ss)) : ∃ t, s = .by t := by
  cases place with
  | outside => cases h
  | key =>
    obtain ⟨key, hkey, -⟩ | ⟨key, rows, hrows, -⟩ := h
    · exact ⟨key, (cons_prefix_cons.mp hkey).1.symm⟩
    · exact ⟨key, (cons_prefix_cons.mp hrows).1.symm⟩
  | rows =>
    obtain ⟨rows, hrows, -⟩ := h
    exact ⟨rows, (cons_prefix_cons.mp hrows).1.symm⟩

theorem misplaced_cons (place : GroupPlace) (s : Step) (ss : Traversal) :
    place.Misplaced (s :: ss) ∨ (s = .group ∧ key.Misplaced ss) ↔
      place.Rejects s ∨ (place.after s).Misplaced ss := by
  have hother (hby : ∀ t, s ≠ .by t) : ¬ place.Misplaced (s :: ss) ∧ ¬ place.Rejects s := by
    refine ⟨fun h => ?_, fun h => ?_⟩
    · obtain ⟨t, ht⟩ := h.exists_by
      exact hby t ht
    · cases h <;> exact hby _ rfl
  cases s
  case «by» t => rw [misplaced_by, or_iff_left (fun h => by cases h.1)]
  case group =>
    obtain ⟨hmisplaced, hrejects⟩ := hother fun _ h => by cases h
    rw [or_iff_right hmisplaced, or_iff_right hrejects, and_iff_right rfl]
    cases place <;> rfl
  all_goals
    obtain ⟨hmisplaced, hrejects⟩ := hother fun _ h => by cases h
    rw [or_iff_right hmisplaced, or_iff_right hrejects]
    refine ⟨fun h => absurd h.1 (by simp), fun h => ?_⟩
    cases place <;> cases h

end GroupPlace

namespace Traversal

def RefusedFrom (place : GroupPlace) (t : Traversal) : Prop :=
  place.Misplaced t ∨ t.Refused

theorem misgrouped_cons :
    Misgrouped (s :: ss) ↔ (s = .group ∧ GroupPlace.key.Misplaced ss) ∨ Misgrouped ss := by
  constructor
  · rintro (⟨h, hkey⟩ | ⟨h, hrows⟩)
    · obtain h | h := infix_cons_iff.mp h
      · obtain ⟨rfl, hfront⟩ := cons_prefix_cons.mp h
        exact .inl ⟨rfl, .inl ⟨_, hfront, hkey⟩⟩
      · exact .inr (.key h hkey)
    · obtain h | h := infix_cons_iff.mp h
      · obtain ⟨rfl, hfront⟩ := cons_prefix_cons.mp h
        exact .inl ⟨rfl, .inr ⟨_, _, hfront, hrows⟩⟩
      · exact .inr (.rows h hrows)
  · rintro (⟨rfl, ⟨key, h, hkey⟩ | ⟨key, rows, h, hrows⟩⟩ | (⟨h, hkey⟩ | ⟨h, hrows⟩))
    · exact .key (infix_cons_iff.mpr (.inl (cons_prefix_cons.mpr ⟨rfl, h⟩))) hkey
    · exact .rows (infix_cons_iff.mpr (.inl (cons_prefix_cons.mpr ⟨rfl, h⟩))) hrows
    · exact .key (infix_cons_iff.mpr (.inr h)) hkey
    · exact .rows (infix_cons_iff.mpr (.inr h)) hrows

theorem not_refused_nil : ¬ Refused [] := by
  rintro (⟨⟨⟩, -⟩ | ⟨⟨⟩, -⟩ | ⟨⟨h, -⟩ | ⟨h, -⟩⟩ | ⟨⟨⟩, -, -⟩)
  · cases infix_nil.mp h
  · cases infix_nil.mp h

theorem refused_cons :
    Refused (s :: ss) ↔ s.PredicateBarred ∨ s.SourceBarred ∨ (∃ f ∈ s.inside, f.Refused) ∨
      (s = .group ∧ GroupPlace.key.Misplaced ss) ∨ Refused ss := by
  constructor
  · intro h
    cases h with
    | predicate hs h =>
      obtain rfl | hs := mem_cons.mp hs
      · exact .inl h
      · exact .inr (.inr (.inr (.inr (.predicate hs h))))
    | source hs h =>
      obtain rfl | hs := mem_cons.mp hs
      · exact .inr (.inl h)
      · exact .inr (.inr (.inr (.inr (.source hs h))))
    | group h =>
      obtain h | h := misgrouped_cons.mp h
      · exact .inr (.inr (.inr (.inl h)))
      · exact .inr (.inr (.inr (.inr (.group h))))
    | inside hs hf h =>
      obtain rfl | hs := mem_cons.mp hs
      · exact .inr (.inr (.inl ⟨_, hf, h⟩))
      · exact .inr (.inr (.inr (.inr (.inside hs hf h))))
  · rintro (h | h | ⟨f, hf, h⟩ | h | h)
    · exact .predicate mem_cons_self h
    · exact .source mem_cons_self h
    · exact .inside mem_cons_self hf h
    · exact .group (misgrouped_cons.mpr (.inl h))
    · cases h with
      | predicate hs h => exact .predicate (mem_cons_of_mem s hs) h
      | source hs h => exact .source (mem_cons_of_mem s hs) h
      | group h => exact .group (misgrouped_cons.mpr (.inr h))
      | inside hs hf h => exact .inside (mem_cons_of_mem s hs) hf h

theorem refusedFrom_cons : RefusedFrom place (s :: ss) ↔ s.PredicateBarred ∨ place.Rejects s ∨
      (s.SourceBarred ∨ ∃ f ∈ s.inside, f.Refused) ∨ RefusedFrom (place.after s) ss := by
  have hplace := place.misplaced_cons s ss
  unfold RefusedFrom
  rw [refused_cons]
  grind

end Traversal

/-! ### Traversals -/

namespace Step

theorem restrictEach_decides {fs : List Traversal} (ih : ∀ f ∈ fs,
    Decides (restrictFrom .outside f) (respelledAll f) (Refused f)) :
    Decides (restrictEach fs) (respelledEach fs) (∃ f ∈ fs, Refused f) := by
  induction fs with
  | nil => exact (Decides.ok []).congr ⟨False.elim, fun ⟨_, hf, _⟩ => not_mem_nil hf⟩
  | cons f fs ihfs =>
    obtain ⟨hf, hfs⟩ := forall_mem_cons.mp ih
    exact (hf.bind ((ihfs hfs).map (respelledAll f :: ·))).congr (exists_mem_cons_iff ..).symm

theorem restrict_decides
    (ih : ∀ f ∈ s.inside, Decides (restrictFrom .outside f) (respelledAll f) (Refused f)) :
    Decides (restrict s) (respelled s) (s.SourceBarred ∨ ∃ f ∈ s.inside, Refused f) := by
  cases s
  case constant o =>
    refine (o.checkRestricted_decides.map fun _ => [constant o]).congr ⟨?_, ?_⟩
    · rintro ⟨v, rfl, h⟩
      exact .inl (.constant h)
    · rintro (⟨⟨h⟩⟩ | ⟨_, ⟨⟩, -⟩)
      exact ⟨_, rfl, h⟩
  case inject vs =>
    refine Decides.ite ?_
    rw [any_eq_true]
    constructor
    · rintro ⟨v, hv, h⟩
      exact .inl (.inject hv (v.holdsMap_iff.mp h))
    · rintro ((_ | ⟨hv, h⟩) | ⟨_, ⟨⟩, -⟩)
      exact ⟨_, hv, (Value.holdsMap_iff _).mpr h⟩
  case skip n =>
    cases n with
    | parameter name => exact .inr ⟨_, rfl, .inl (.skip name)⟩
    | literal n =>
      refine (Decides.ok [range (.literal n) (.literal (-1))]).congr ⟨False.elim, ?_⟩
      rintro (⟨⟨⟩⟩ | ⟨_, ⟨⟩, -⟩)
  case filter t | not t | «by» t | byOrder t o | flatMap t | property key t =>
    refine ((ih t mem_cons_self).map _).congr (Iff.trans ?_ (or_iff_right ?_).symm)
    · simp [inside]
    · rintro ⟨⟩
  case and ts | or ts | union ts | coalesce ts =>
    refine ((restrictEach_decides ih).map _).congr (or_iff_right ?_).symm
    rintro ⟨⟩
  case choose c y n =>
    obtain ⟨hc, hrest⟩ := forall_mem_cons.mp ih
    obtain ⟨hy, hrest⟩ := forall_mem_cons.mp hrest
    have hn := forall_mem_singleton.mp hrest
    refine (hc.bind (hy.bind (hn.map _))).congr (Iff.trans ?_ (or_iff_right ?_).symm)
    · simp [inside]
    · rintro ⟨⟩
  all_goals
    refine (Decides.ok _).congr ⟨False.elim, ?_⟩
    rintro (⟨⟨⟩⟩ | ⟨_, ⟨⟩, -⟩)

end Step

namespace Traversal

theorem restrictFrom_decides (t : Traversal) : ∀ place : GroupPlace,
    Decides (restrictFrom place t) (respelledAll t) (t.RefusedFrom place) := by
  induction t using induction_inside with
  | h t ih =>
    have hinside (s : Step) (hs : s ∈ t) : ∀ f ∈ s.inside,
        Decides (restrictFrom .outside f) (respelledAll f) f.Refused :=
      fun f hf => (ih s hs f hf .outside).congr (or_iff_right id)
    clear ih
    induction t with
    | nil =>
      refine fun place => (Decides.ok []).congr ⟨False.elim, ?_⟩
      rintro (h | h)
      · cases place <;> simp [GroupPlace.Misplaced] at h
      · exact not_refused_nil h
    | cons s ss ihss =>
      obtain ⟨hs, hss⟩ := forall_mem_cons.mp hinside
      intro place
      refine (s.checkRestricted_decides.bind ((place.next_decides s).bind
        ((restrict_decides hs).bind ((ihss hss (place.after s)).map _)))).congr ?_
      exact refusedFrom_cons.symm

theorem eq_respelled_of_restrictFrom {t' : Traversal} (h : restrictFrom place t = .ok t') :
    t' = respelledAll t := by
  obtain ⟨hok, -⟩ | ⟨construct, herror, -⟩ := t.restrictFrom_decides place
  · exact Except.ok.inj (h.symm.trans hok)
  · cases h.symm.trans herror

end Traversal

/-! ### Writing a second time -/

namespace Step

variable {F : Traversal → Traversal}

theorem mapInside_eq_self (h : ∀ f ∈ s.inside, F f = f) : s.mapInside F = s := by
  cases s
  case and ts | or ts | union ts | coalesce ts =>
    exact congrArg _ (map_congr_left h |>.trans ts.map_id)
  all_goals simp_all [inside, mapInside]

theorem PredicateBarred.of_mapInside (h : (s.mapInside F).PredicateBarred) : s.PredicateBarred := by
  have hp : (s.mapInside F).predicate? = s.predicate? := by cases s <;> rfl
  cases h with
  | text h => exact .text (hp ▸ h)
  | operand h hv hmap => exact .operand (hp ▸ h) hv hmap

theorem SourceBarred.of_mapInside (h : (s.mapInside F).SourceBarred) : s.SourceBarred := by
  cases s <;> first | exact h | cases h

end Step

theorem GroupPlace.after_mapInside (place : GroupPlace) (s : Step) (F : Traversal → Traversal) :
    place.after (s.mapInside F) = place.after s := by
  cases s <;> cases place <;> rfl

theorem GroupPlace.Rejects.of_respelled (h : place.Rejects (s.mapInside respelledAll)) :
    place.Rejects s := by
  cases s
  case «by» t =>
    cases h with
    | key h =>
      refine .key fun ht => h ?_
      rcases ht with ⟨keys, rest⟩ | ⟨label, rest⟩ <;> constructor
    | rows h =>
      refine .rows fun ht => h ?_
      rw [ht]
      rfl
  all_goals first | exact h | cases h

namespace Traversal

theorem respelledAll_eq_self (ht : t.Every Restricted) : respelledAll t = t := by
  induction t using induction_inside with
  | h t ih =>
    have hsteps (s : Step) (hs : s ∈ t) : respelled s = [s] := by
      obtain ⟨hown, hinside⟩ := ht.of_mem hs
      rw [hown.respelled_eq, mapInside_eq_self fun f hf => ih s hs f hf (hinside f hf)]
    rw [eq_flatMap (F := respelledAll) rfl fun _ _ => rfl, flatMap_congr hsteps, flatMap_singleton']

theorem RefusedFrom.of_respelled (t : Traversal) : ∀ place : GroupPlace,
    RefusedFrom place (respelledAll t) → t.RefusedFrom place := by
  induction t using induction_inside with
  | h t ih =>
    have hinside (s : Step) (hs : s ∈ t) : ∀ f ∈ s.inside, Refused (respelledAll f) → f.Refused :=
      fun f hf h => (ih s hs f hf .outside (.inr h)).resolve_left id
    clear ih
    induction t with
    | nil => exact fun _ h => h
    | cons s ss ihss =>
      obtain ⟨hs, hss⟩ := forall_mem_cons.mp hinside
      intro place h
      refine refusedFrom_cons.mpr ?_
      obtain ⟨key, rfl⟩ | ⟨n, rfl⟩ | hrestricted := s.restricted_or
      · obtain (⟨⟨⟩⟩ | ⟨⟨⟩, -, -⟩) | ⟨⟨⟩⟩ | (⟨⟨⟩⟩ | ⟨_, ⟨⟩, -⟩) | h := refusedFrom_cons.mp h
        obtain (⟨⟨⟩⟩ | ⟨⟨⟩, -, -⟩) | ⟨⟨⟩⟩ | (⟨⟨⟩⟩ | ⟨_, ⟨⟩, -⟩) | h := refusedFrom_cons.mp h
        exact .inr (.inr (.inr (ihss hss _ (by cases place <;> exact h))))
      · obtain (⟨⟨⟩⟩ | ⟨⟨⟩, -, -⟩) | ⟨⟨⟩⟩ | (⟨⟨⟩⟩ | ⟨_, ⟨⟩, -⟩) | h := refusedFrom_cons.mp h
        exact .inr (.inr (.inr (ihss hss _ (by cases place <;> exact h))))
      · rw [respelledAll, hrestricted.respelled_eq, singleton_append] at h
        obtain h | h | (h | ⟨_, hf, h⟩) | h := refusedFrom_cons.mp h
        · exact .inl h.of_mapInside
        · exact .inr (.inl h.of_respelled)
        · exact .inr (.inr (.inl (.inl h.of_mapInside)))
        · obtain ⟨f, hfs, rfl⟩ := mem_map.mp (s.inside_mapInside _ ▸ hf)
          exact .inr (.inr (.inl (.inr ⟨f, hfs, hs f hfs h⟩)))
        · rw [place.after_mapInside] at h
          exact .inr (.inr (.inr (ihss hss _ h)))

theorem restrictFrom_again (t : Traversal) (place : GroupPlace) (t' : Traversal)
    (h : restrictFrom place t = .ok t') : restrictFrom place t' = .ok t' := by
  obtain rfl := eq_respelled_of_restrictFrom h
  obtain ⟨-, hallowed⟩ | ⟨construct, herror, -⟩ := t.restrictFrom_decides place
  · obtain ⟨hok, -⟩ | ⟨construct, -, hrefused⟩ :=
      restrictFrom_decides (respelledAll t) place
    · rwa [respelledAll_eq_self t.respelledAll_restricted] at hok
    · exact absurd (.of_respelled t place hrefused) hallowed
  · cases h.symm.trans herror

end Traversal

/-! ### Acceptance -/

/-- **The restricted library accepts exactly what is not refused.** A traversal fails, always with
an error that names the restricted library, if and only if at some depth it has a text match, a map
among its operands, constants or injected values, a skip by a parameter, or a group with a modulator
that is no key or does not fold. Otherwise values and skips are spelled out at every depth, all
other steps stay in their order, and writing the result a second time changes nothing. -/
theorem restrict_accepts_unrefused (t : Traversal) :
    ((∃ e, t.restrict = .error e) ↔ t.Refused) ∧
    (∀ e, t.restrict = .error e → ∃ construct, e = .notInFlavor construct "cosmosdb") ∧
    ∀ t', t.restrict = .ok t' → t'.Every Step.Restricted ∧ t' = Step.respelledAll t ∧
      t'.restrict = .ok t' := by
  have hdecides : Decides t.restrict (respelledAll t) t.Refused :=
    (t.restrictFrom_decides .outside).congr (or_iff_right id)
  refine ⟨⟨?_, ?_⟩, ?_, ?_⟩
  · rintro ⟨e, he⟩
    obtain ⟨hok, -⟩ | ⟨construct, -, hrefused⟩ := hdecides
    · cases he.symm.trans hok
    · exact hrefused
  · intro hrefused
    obtain ⟨-, h⟩ | ⟨construct, herror, -⟩ := hdecides
    · exact absurd hrefused h
    · exact ⟨_, herror⟩
  · intro e he
    obtain ⟨hok, -⟩ | ⟨construct, herror, -⟩ := hdecides
    · cases he.symm.trans hok
    · exact ⟨construct, Except.error.inj (he.symm.trans herror)⟩
  · intro t' ht'
    have hspelled := eq_respelled_of_restrictFrom ht'
    exact ⟨hspelled ▸ t.respelledAll_restricted, hspelled, t.restrictFrom_again .outside t' ht'⟩

theorem hidden_map_is_refused :
    (∃ construct, Traversal.restrict [.vertices, .union [[.order, .byOrder
        [.constant (.value (.list [.int 1, .list [.map []]]))] .asc], [.identity]]] =
      .error (.notInFlavor construct "cosmosdb")) ∧
    ∃ t', Traversal.restrict [.vertices, .group, .by [.project ["n"], .by [.values "name"]],
        .by [.fold], .unfold, .skip (.literal 1)] = .ok t' ∧
      t'.Every Step.Restricted ∧ t'.restrict = .ok t' := by
  have hrefused : Refused [.vertices, .union [[.order, .byOrder
      [.constant (.value (.list [.int 1, .list [.map []]]))] .asc], [.identity]]] := by
    refine .inside (.tail _ (.head _)) (.head _) (.inside (.tail _ (.head _)) (.head _) ?_)
    exact .source (.head _) (.constant (.item (.tail _ (.head _)) (.item (.head _) (.map []))))
  obtain ⟨e, he⟩ := (restrict_accepts_unrefused _).1.mpr hrefused
  obtain ⟨construct, rfl⟩ := (restrict_accepts_unrefused _).2.1 e he
  obtain ⟨hrestricted, -, hagain⟩ := (restrict_accepts_unrefused
    [.vertices, .group, .by [.project ["n"], .by [.values "name"]], .by [.fold], .unfold,
      .skip (.literal 1)]).2.2 _ rfl
  exact ⟨⟨construct, he⟩, _, rfl, hrestricted, hagain⟩

end CypherTraversal
