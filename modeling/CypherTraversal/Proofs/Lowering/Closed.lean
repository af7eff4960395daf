import CypherTraversal.Proofs.Lowering.Windows
import CypherTraversal.Proofs.Traversal.Every

/-! # Classes that lowering stays in

A class of traversals that is closed under the ways in which lowering puts steps together holds
all that lowering makes. -/

namespace CypherTraversal

open List

/-! ### The data of steps -/

structure Vocabulary where
  operand : Operand → Prop
  constant : Operand → Prop
  bound : Bound → Prop
  label : String → Prop
  key : String → Prop
  writes : Prop

def Step.Spelled (v : Vocabulary) : Step → Prop
  | .constant o => v.constant o
  | .is p | .hasPredicate _ p => ∀ o ∈ p.operands, v.operand o
  | .wherePredicate p => ∃ l, p.operands = [.label l] ∧ v.label l
  | .skip n | .limit n => v.bound n
  | .range low high => v.bound low ∧ v.bound high
  | .mark l | .select l => v.label l
  | .project keys => ∀ k ∈ keys, v.key k
  | .inject vs => vs = [.str startMark]
  | .addVertex _ | .addEdge _ | .fromLabel _ | .toLabel _ | .property .. => v.writes
  | _ => True

def Operand.Known (names : List String) : Operand → Prop
  | value _ => True
  | parameter name => name ∈ names
  | label _ => False

structure Bound.Known (ps : Parameters) (names : List String) (n : Bound) : Prop where
  counts : n.Counts ps
  parameters : n.parameters ⊆ names

def Vocabulary.known (ps : Parameters) (names : List String) : Vocabulary where
  operand := Operand.Known names
  constant := Operand.Known names
  bound := Bound.Known ps names
  label _ := True
  key _ := True
  writes := True

abbrev Step.Known (ps : Parameters) (names : List String) (s : Step) : Prop :=
  s.Spelled (.known ps names)

namespace Step

def isAlone : Step → Bool
  | .filter _ | .not _ | .and _ | .or _ | union _ | coalesce _ | choose .. | flatMap _ | property ..
  | .by _ | byOrder .. | fromLabel _ | toLabel _ | project _ | group | order | addEdge _ => false
  | _ => true

variable {s : Step} (h : s.isAlone)

include h

theorem visit_of_isAlone : visit s = [s] := by
  cases s <;> first | rfl | cases h

theorem inside_of_isAlone : s.inside = [] := by
  cases s <;> first | rfl | cases h

theorem takes_of_isAlone : s.Takes [] := by
  cases s <;> first | exact ⟨rfl, rfl⟩ | cases h

end Step

/-! ### Closed classes -/

structure ClosedUnderLowering (v : Vocabulary) (P : Traversal → Prop) : Prop where
  alone : ∀ {s : Step}, s.isAlone → s.Spelled v → P [s]
  append : ∀ {f h : Traversal}, P f → P h → P (f ++ h)
  filter : ∀ {f : Traversal}, P f → P [.filter f]
  not : ∀ {f : Traversal}, P f → P [.not f]
  or : ∀ {fs : List Traversal}, (∀ f ∈ fs, P f) → P [.or fs]
  union : ∀ {fs : List Traversal}, (∀ f ∈ fs, P f) → P [.union fs]
  coalesce : ∀ {fs : List Traversal}, (∀ f ∈ fs, P f) → P [.coalesce fs]
  choose : ∀ {test yes no : Traversal}, P test → P yes → P no → P [.choose test yes no]
  flatMap : ∀ {f : Traversal}, P f → P [.flatMap f]
  property : v.writes → ∀ (key : String) {f : Traversal}, P f → P [.property key f]
  project : ∀ {keys : List String} {ms : List Step}, (∀ k ∈ keys, v.key k) →
    ms.length = keys.length → (∀ m ∈ ms, ∃ f, m = .by f ∧ P f) → P (.project keys :: ms)
  group : ∀ {key rows : Traversal}, P key → P rows → P [.group, .by key, .by rows]
  order : ∀ {ms : List Step}, ms ≠ [] → (∀ m ∈ ms, ∃ f o, m = .byOrder f o ∧ P f) → P (.order :: ms)
  addEdge : v.writes → ∀ type source target : String,
    P [.addEdge type, .fromLabel source, .toLabel target]

def Traversal.InOrEmpty (P : Traversal → Prop) (f : Traversal) : Prop :=
  f ≠ [] → P f

namespace ClosedUnderLowering

variable {v : Vocabulary} {P : Traversal → Prop} (hP : ClosedUnderLowering v P)

include hP

theorem cons {s : Step} {f : Traversal} (hs : s.isAlone) (hspelled : s.Spelled v) (hf : P f) :
    P (s :: f) :=
  hP.append (hP.alone hs hspelled) hf

theorem appendInOrEmpty {f h : Traversal} (hf : P f) (hh : h.InOrEmpty P) : P (f ++ h) := by
  by_cases hh' : h = []
  · rwa [hh', append_nil]
  · exact hP.append hf (hh hh')

theorem orEmptyAppend {f h : Traversal} (hf : f.InOrEmpty P) (hh : P h) : P (f ++ h) := by
  by_cases hf' : f = []
  · rwa [hf']
  · exact hP.append (hf hf') hh

theorem appendOrEmpty {f h : Traversal} (hf : f.InOrEmpty P) (hh : h.InOrEmpty P) :
    Traversal.InOrEmpty P (f ++ h) := by
  intro hne
  by_cases hf' : f = []
  · subst hf'
    exact hh hne
  · exact hP.appendInOrEmpty (hf hf') hh

theorem flattenOrEmpty {fs : List Traversal} (hfs : ∀ f ∈ fs, f.InOrEmpty P) :
    Traversal.InOrEmpty P fs.flatten := by
  induction fs with
  | nil => exact fun h => absurd rfl h
  | cons f fs ih =>
    obtain ⟨hf, hfs⟩ := forall_mem_cons.mp hfs
    exact hP.appendOrEmpty hf (ih hfs)

end ClosedUnderLowering

theorem ClosedUnderLowering.every {v : Vocabulary} {Q : Step → Prop}
    (hQ : ∀ s : Step, s.Spelled v → Q s) : ClosedUnderLowering v (Traversal.Every Q) where
  alone hs hspelled := .single (.leaf (Step.visit_of_isAlone hs) (hQ _ hspelled))
  append := .append
  filter hf := .single (.inside rfl (hQ _ trivial) hf)
  not hf := .single (.inside rfl (hQ _ trivial) hf)
  or hfs := .single (.insideEach rfl (hQ _ trivial) hfs)
  union hfs := .single (.insideEach rfl (hQ _ trivial) hfs)
  coalesce hfs := .single (.insideEach rfl (hQ _ trivial) hfs)
  choose htest hyes hno := .single (.choose (hQ _ trivial) htest hyes hno)
  flatMap hf := .single (.inside rfl (hQ _ trivial) hf)
  property hwrites _ _ hf := .single (.inside rfl (hQ _ hwrites) hf)
  project hkeys _ hms := by
    refine .cons (.leaf rfl (hQ _ hkeys)) (.of_forall fun m hm => ?_)
    obtain ⟨f, rfl, hf⟩ := hms m hm
    exact .inside rfl (hQ _ trivial) hf
  group hkey hrows := .cons (.leaf rfl (hQ _ trivial)) (.cons (.inside rfl (hQ _ trivial) hkey)
    (.single (.inside rfl (hQ _ trivial) hrows)))
  order _ hms := by
    refine .cons (.leaf rfl (hQ _ trivial)) (.of_forall fun m hm => ?_)
    obtain ⟨f, o, rfl, hf⟩ := hms m hm
    exact .inside rfl (hQ _ trivial) hf
  addEdge hwrites _ _ _ := .cons (.leaf rfl (hQ _ hwrites)) (.cons (.leaf rfl (hQ _ hwrites))
    (.single (.leaf rfl (hQ _ hwrites))))

theorem Traversal.InOrEmpty.nil {P : Traversal → Prop} : InOrEmpty P [] :=
  fun h => absurd rfl h

theorem Traversal.InOrEmpty.of_nil {P : Traversal → Prop} {f : Traversal} (hf : f.InOrEmpty P)
    (hnil : P []) : P f := by
  by_cases h : f = []
  · rwa [h]
  · exact hf h

/-! ### Traversals that are built well -/

structure Traversal.WellBuilt (ps : Parameters) (names : List String) (f : Traversal) : Prop where
  nonempty : f ≠ []
  modulated : f.Modulated
  every : f.Every fun s => s.Known ps names ∧ ∀ h ∈ s.inside, h ≠ [] ∧ h.Modulated

namespace Traversal.WellBuilt

variable {ps : Parameters} {names : List String} {f : Traversal} {fs : List Traversal}

theorem inside {s : Step} (hvisit : s.visit = s :: Step.visitAll f) (hinside : s.inside = [f])
    (hknown : s.Known ps names) (hf : f.WellBuilt ps names) :
    s.Every fun s => s.Known ps names ∧ ∀ h ∈ s.inside, h ≠ [] ∧ h.Modulated := by
  refine .inside hvisit ⟨hknown, ?_⟩ hf.every
  rw [hinside]
  exact forall_mem_singleton.mpr ⟨hf.nonempty, hf.modulated⟩

theorem around {s : Step} (hvisit : s.visit = s :: Step.visitAll f) (hinside : s.inside = [f])
    (htakes : s.Takes []) (hknown : s.Known ps names) (hf : f.WellBuilt ps names) :
    WellBuilt ps names [s] :=
  ⟨cons_ne_nil _ _, .single htakes, .single (inside hvisit hinside hknown hf)⟩

theorem aroundEach {s : Step} (hvisit : s.visit = s :: Step.visitEach fs) (hinside : s.inside = fs)
    (htakes : s.Takes []) (hknown : s.Known ps names) (hfs : ∀ f ∈ fs, f.WellBuilt ps names) :
    WellBuilt ps names [s] := by
  refine ⟨cons_ne_nil _ _, .single htakes, .single (.insideEach hvisit ⟨hknown, ?_⟩
    fun f hf => (hfs f hf).every)⟩
  rw [hinside]
  exact fun f hf => ⟨(hfs f hf).nonempty, (hfs f hf).modulated⟩

theorem block {s : Step} {ms : List Step} (hvisit : s.visit = [s]) (hinside : s.inside = [])
    (htakes : s.Takes ms) (hknown : s.Known ps names)
    (hms : ∀ m ∈ ms, m.Every fun s => s.Known ps names ∧ ∀ h ∈ s.inside, h ≠ [] ∧ h.Modulated) :
    WellBuilt ps names (s :: ms) := by
  refine ⟨cons_ne_nil _ _, .block htakes, .cons (.leaf hvisit ⟨hknown, ?_⟩) (.of_forall hms)⟩
  rw [hinside]
  exact forall_mem_nil _

theorem blockBy {s : Step} {ms : List Step} (hvisit : s.visit = [s]) (hinside : s.inside = [])
    (htakes : (∀ m ∈ ms, ∃ f, m = .by f) → s.Takes ms) (hknown : s.Known ps names)
    (hms : ∀ m ∈ ms, ∃ f, m = .by f ∧ WellBuilt ps names f) : WellBuilt ps names (s :: ms) := by
  refine block hvisit hinside (htakes fun m hm => ?_) hknown fun m hm => ?_
  · obtain ⟨f, rfl, -⟩ := hms m hm
    exact ⟨f, rfl⟩
  · obtain ⟨f, rfl, hf⟩ := hms m hm
    exact inside rfl rfl trivial hf

theorem closed : ClosedUnderLowering (.known ps names) (WellBuilt ps names) where
  alone hs hknown := block (Step.visit_of_isAlone hs) (Step.inside_of_isAlone hs)
    (Step.takes_of_isAlone hs) hknown (forall_mem_nil _)
  append hf hh := ⟨append_ne_nil_of_left_ne_nil hf.nonempty _,
    hf.modulated.append hh.modulated, hf.every.append hh.every⟩
  filter := around rfl rfl ⟨rfl, rfl⟩ trivial
  not := around rfl rfl ⟨rfl, rfl⟩ trivial
  or := aroundEach rfl rfl ⟨rfl, rfl⟩ trivial
  union := aroundEach rfl rfl ⟨rfl, rfl⟩ trivial
  coalesce := aroundEach rfl rfl ⟨rfl, rfl⟩ trivial
  choose htest hyes hno := by
    refine ⟨cons_ne_nil _ _, .single ⟨rfl, rfl⟩,
      .single (.choose ⟨trivial, ?_⟩ htest.every hyes.every hno.every)⟩
    have hshape {f : Traversal} (hf : f.WellBuilt ps names) : f ≠ [] ∧ f.Modulated :=
      ⟨hf.nonempty, hf.modulated⟩
    exact forall_mem_cons.mpr ⟨hshape htest, forall_mem_cons.mpr
      ⟨hshape hyes, forall_mem_singleton.mpr (hshape hno)⟩⟩
  flatMap := around rfl rfl ⟨rfl, rfl⟩ trivial
  property _ _ := around rfl rfl ⟨rfl, rfl⟩ trivial
  project hkeys hlength hms := blockBy rfl rfl (fun hby => ⟨hlength, hby⟩) hkeys hms
  group hkey hrows := blockBy rfl rfl (fun hby => ⟨rfl, hby⟩) trivial <|
    forall_mem_cons.mpr ⟨⟨_, rfl, hkey⟩, forall_mem_singleton.mpr ⟨_, rfl, hrows⟩⟩
  order hne hms := by
    refine block rfl rfl ⟨hne, fun m hm => ?_⟩ trivial fun m hm => ?_
    · obtain ⟨f, o, rfl, -⟩ := hms m hm
      exact ⟨f, o, rfl⟩
    · obtain ⟨f, o, rfl, hf⟩ := hms m hm
      exact inside rfl rfl trivial hf
  addEdge _ type source target := by
    refine block rfl rfl ⟨source, target, rfl⟩ trivial ?_
    exact forall_mem_cons.mpr ⟨.leaf rfl ⟨trivial, forall_mem_nil _⟩,
      forall_mem_singleton.mpr (.leaf rfl ⟨trivial, forall_mem_nil _⟩)⟩

end Traversal.WellBuilt

end CypherTraversal
