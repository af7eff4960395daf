import CypherTraversal.Traversal.Step

/-! # All steps of a traversal

A property of steps that a traversal has in every place, the traversals inside its steps
included. -/

namespace CypherTraversal

open List

/-! ### Traversals inside steps -/

namespace Step

/-- The traversals that are arguments of a step. -/
def inside : Step → List Traversal
  | .filter t | .not t | .by t | byOrder t _ | flatMap t | property _ t => [t]
  | .and ts | .or ts | union ts | coalesce ts => ts
  | choose c y n => [c, y, n]
  | _ => []

def mapInside (F : Traversal → Traversal) : Step → Step
  | .filter t => .filter (F t)
  | .not t => .not (F t)
  | .by t => .by (F t)
  | byOrder t o => byOrder (F t) o
  | flatMap t => flatMap (F t)
  | property key t => property key (F t)
  | .and ts => .and (ts.map F)
  | .or ts => .or (ts.map F)
  | union ts => union (ts.map F)
  | coalesce ts => coalesce (ts.map F)
  | choose c y n => choose (F c) (F y) (F n)
  | s => s

theorem inside_mapInside (F : Traversal → Traversal) (s : Step) :
    (s.mapInside F).inside = s.inside.map F := by
  cases s <;> rfl

theorem mapInside_self (s : Step) : s.mapInside (fun f => f) = s := by
  cases s <;> simp [mapInside]

theorem visitEach_eq (fs : List Traversal) : visitEach fs = fs.flatMap visitAll := by
  induction fs with
  | nil => rfl
  | cons f fs ih => rw [visitEach, ih, flatMap_cons]

theorem visit_eq (s : Step) : visit s = s :: s.inside.flatMap visitAll := by
  cases s <;> simp [visit, inside, visitEach_eq]

theorem sizeOf_of_mem_inside {s : Step} {f : Traversal} (h : f ∈ s.inside) :
    sizeOf f < sizeOf s := by
  cases s
  case and ts | or ts | union ts | coalesce ts =>
    have hf : sizeOf f < sizeOf ts := sizeOf_lt_of_mem h
    simp only [and.sizeOf_spec, or.sizeOf_spec, union.sizeOf_spec, coalesce.sizeOf_spec]
    omega
  all_goals simp only [inside, mem_cons, not_mem_nil, or_false] at h
  case choose =>
    simp only [choose.sizeOf_spec]
    obtain rfl | rfl | rfl := h <;> omega
  all_goals
    subst h
    simp +arith

end Step

theorem Traversal.induction_inside {Q : Traversal → Prop}
    (h : ∀ f : Traversal, (∀ s ∈ f, ∀ g ∈ s.inside, Q g) → Q f) (f : Traversal) : Q f :=
  h f fun s hs g hg =>
    have : sizeOf g < sizeOf f :=
      Nat.lt_trans (Step.sizeOf_of_mem_inside hg) (sizeOf_lt_of_mem hs)
    induction_inside h g
termination_by sizeOf f

/-! ### All steps -/

theorem Step.visitAll_append (f h : Traversal) : visitAll (f ++ h) = visitAll f ++ visitAll h := by
  induction f with
  | nil => rfl
  | cons s f ih => rw [cons_append, visitAll, ih, visitAll, append_assoc]

def Step.Every (P : Step → Prop) (s : Step) : Prop :=
  ∀ r ∈ visit s, P r

/-- All steps pass, at every depth. -/
def Traversal.Every (P : Step → Prop) (f : Traversal) : Prop :=
  ∀ s ∈ Step.visitAll f, P s

variable {P : Step → Prop} {s : Step} {f h k : Traversal} {fs : List Traversal}

namespace Traversal.Every

theorem nil : Every P [] :=
  forall_mem_nil _

theorem cons (hs : s.Every P) (hf : f.Every P) : Every P (s :: f) :=
  forall_mem_append.mpr ⟨hs, hf⟩

theorem single (hs : s.Every P) : Every P [s] :=
  cons hs nil

theorem append (hf : f.Every P) (hh : h.Every P) : Every P (f ++ h) := by
  unfold Every
  rw [Step.visitAll_append]
  exact forall_mem_append.mpr ⟨hf, hh⟩

theorem of_forall (hf : ∀ s ∈ f, s.Every P) : f.Every P := by
  induction f with
  | nil => exact nil
  | cons s f ih =>
    obtain ⟨hs, hf⟩ := forall_mem_cons.mp hf
    exact cons hs (ih hf)

theorem each (hfs : ∀ f ∈ fs, f.Every P) : ∀ r ∈ Step.visitEach fs, P r := by
  induction fs with
  | nil => exact forall_mem_nil _
  | cons f fs ih =>
    obtain ⟨hf, hfs⟩ := forall_mem_cons.mp hfs
    exact forall_mem_append.mpr ⟨hf, ih hfs⟩

theorem of_mem (hf : f.Every P) (hs : s ∈ f) : P s ∧ ∀ g ∈ s.inside, g.Every P := by
  induction f with
  | nil => cases hs
  | cons r f ih =>
    obtain ⟨hr, hf⟩ := forall_mem_append.mp hf
    obtain rfl | hs := mem_cons.mp hs
    · rw [Step.visit_eq, forall_mem_cons] at hr
      exact ⟨hr.1, fun g hg t ht => hr.2 t (mem_flatMap.mpr ⟨g, hg, ht⟩)⟩
    · exact ih hf hs

end Traversal.Every

namespace Step.Every

theorem of_inside (hs : P s) (h : ∀ g ∈ s.inside, g.Every P) : s.Every P := by
  unfold Every
  rw [visit_eq]
  refine forall_mem_cons.mpr ⟨hs, fun r hr => ?_⟩
  obtain ⟨g, hg, hr⟩ := mem_flatMap.mp hr
  exact h g hg r hr

theorem leaf (hvisit : visit s = [s]) (hs : P s) : s.Every P := by
  unfold Every
  rw [hvisit]
  exact forall_mem_singleton.mpr hs

theorem inside (hvisit : visit s = s :: visitAll f) (hs : P s) (hf : f.Every P) : s.Every P := by
  unfold Every
  rw [hvisit]
  exact forall_mem_cons.mpr ⟨hs, hf⟩

theorem insideEach (hvisit : visit s = s :: visitEach fs) (hs : P s)
    (hfs : ∀ f ∈ fs, f.Every P) : s.Every P := by
  unfold Every
  rw [hvisit]
  exact forall_mem_cons.mpr ⟨hs, Traversal.Every.each hfs⟩

theorem choose (hs : P (.choose f h k)) (hf : f.Every P) (hh : h.Every P) (hk : k.Every P) :
    Every P (.choose f h k) :=
  forall_mem_cons.mpr ⟨hs, forall_mem_append.mpr ⟨forall_mem_append.mpr ⟨hf, hh⟩, hk⟩⟩

end Step.Every

/-! ### Modulators -/

variable {ms : List Step} {s : Step}

namespace Step

def isModulator : Step → Bool
  | .by _ | byOrder .. | fromLabel _ | toLabel _ => true
  | _ => false

def isModulated : Step → Bool
  | project _ | group | order | addEdge _ => true
  | _ => false

def Takes : Step → List Step → Prop
  | project keys, ms => ms.length = keys.length ∧ ∀ m ∈ ms, ∃ f, m = .by f
  | group, ms => ms.length = 2 ∧ ∀ m ∈ ms, ∃ f, m = .by f
  | order, ms => ms ≠ [] ∧ ∀ m ∈ ms, ∃ f o, m = byOrder f o
  | addEdge _, ms => ∃ source target, ms = [fromLabel source, toLabel target]
  | s, ms => s.isModulator = false ∧ ms = []

theorem Takes.isModulator_eq (h : s.Takes ms) : s.isModulator = false := by
  cases s
  case project | group | order | addEdge => rfl
  all_goals exact h.1

theorem Takes.forall_isModulator (h : s.Takes ms) : ∀ m ∈ ms, m.isModulator := by
  cases s
  case project | group =>
    intro m hm
    obtain ⟨f, rfl⟩ := h.2 m hm
    rfl
  case order =>
    intro m hm
    obtain ⟨f, o, rfl⟩ := h.2 m hm
    rfl
  case addEdge =>
    obtain ⟨source, target, rfl⟩ := h
    exact forall_mem_cons.mpr ⟨rfl, forall_mem_singleton.mpr rfl⟩
  all_goals
    rw [h.2]
    exact forall_mem_nil _

theorem Takes.isModulated (h : s.Takes ms) (hms : ms ≠ []) : s.isModulated := by
  cases s
  case project | group | order | addEdge => rfl
  all_goals exact absurd h.2 hms

end Step

inductive Traversal.Modulated : Traversal → Prop
  | nil : Modulated []
  | cons {s : Step} {ms : List Step} {f : Traversal} (takes : s.Takes ms) (rest : Modulated f) :
    Modulated (s :: (ms ++ f))

namespace Traversal

/-- Each modulator is behind a step that takes it. -/
structure InPlace (f : Traversal) : Prop where
  modulator : ∀ a m b, f = a ++ m :: b → m.isModulator →
    ∃ (c : Traversal) (s : Step) (ms : List Step),
      a = c ++ s :: ms ∧ s.isModulated ∧ ∀ r ∈ ms, r.isModulator
  takes : ∀ a s b, f = a ++ s :: b → s.isModulator = false → s.Takes (b.takeWhile Step.isModulator)

namespace Modulated

variable {f h : Traversal}

theorem block (hs : s.Takes ms) : Modulated (s :: ms) := by
  have hblock := cons hs nil
  rwa [append_nil] at hblock

theorem single (hs : s.Takes []) : Modulated [s] :=
  block hs

theorem append (hf : f.Modulated) (hh : h.Modulated) : Modulated (f ++ h) := by
  induction hf with
  | nil => exact hh
  | cons hs _ ih =>
    rw [cons_append, append_assoc]
    exact cons hs ih

theorem takeWhile_eq_nil (hf : f.Modulated) : f.takeWhile Step.isModulator = [] := by
  cases hf with
  | nil => rfl
  | cons hs _ => rw [takeWhile_cons, hs.isModulator_eq, if_neg Bool.false_ne_true]

theorem takeWhile_append (hf : f.Modulated) (hs : s.Takes ms) :
    (ms ++ f).takeWhile Step.isModulator = ms := by
  rw [takeWhile_append_of_pos hs.forall_isModulator, hf.takeWhile_eq_nil, append_nil]

theorem inPlace (hf : f.Modulated) : f.InPlace := by
  induction hf with
  | nil =>
    have hnil (a : Traversal) (r : Step) (b : Traversal) (h : [] = a ++ r :: b) : False := by
      cases a <;> cases h
    exact ⟨fun a m b h => (hnil a m b h).elim, fun a s b h => (hnil a s b h).elim⟩
  | @cons s ms f hs hf ih =>
    -- what is behind `s` is one of its modulators, or it stands in the rest
    have hbehind (a : Traversal) (r : Step) (b : Traversal) (h : ms ++ f = a ++ r :: b) :
        (∃ c, ms = a ++ r :: c) ∨ ∃ c, a = ms ++ c ∧ f = c ++ r :: b := by
      obtain ⟨c, rfl, hc⟩ | ⟨c, rfl, hc⟩ := append_eq_append_iff.mp h
      · exact .inr ⟨c, rfl, hc⟩
      · cases c with
        | nil => exact .inr ⟨[], by simp, by simpa using hc.symm⟩
        | cons m c =>
          obtain ⟨rfl, -⟩ := List.cons.inj hc
          exact .inl ⟨c, rfl⟩
    constructor
    · intro a m b h hm
      cases a with
      | nil =>
        obtain ⟨rfl, -⟩ := List.cons.inj h
        rw [hs.isModulator_eq] at hm
        cases hm
      | cons r a =>
        obtain ⟨rfl, hrest⟩ := List.cons.inj h
        obtain ⟨c, rfl⟩ | ⟨c, rfl, hc⟩ := hbehind a m b hrest
        · refine ⟨[], s, a, rfl, hs.isModulated (by simp), fun r hr => ?_⟩
          exact hs.forall_isModulator r (mem_append_left _ hr)
        · obtain ⟨d, r, rs, rfl, hr, hrs⟩ := ih.modulator c m b hc hm
          exact ⟨s :: (ms ++ d), r, rs, by simp, hr, hrs⟩
    · intro a r b h hr
      cases a with
      | nil =>
        obtain ⟨rfl, rfl⟩ := List.cons.inj h
        rw [hf.takeWhile_append hs]
        exact hs
      | cons s' a =>
        obtain ⟨rfl, hrest⟩ := List.cons.inj h
        obtain ⟨c, rfl⟩ | ⟨c, rfl, hc⟩ := hbehind a r b hrest
        · rw [hs.forall_isModulator r (by simp)] at hr
          cases hr
        · exact ih.takes c r b hc hr

end Modulated
end Traversal

end CypherTraversal
