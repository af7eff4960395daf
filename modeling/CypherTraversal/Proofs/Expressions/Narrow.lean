import CypherTraversal.Proofs.Bindings.Rows

/-! # One row at most

From a row the value of an expression leads to one row or to none. The row is on the path of the row
that it comes from, unless it was collected: then it is on the empty path, at a list, or at null if
something was looked up in the list. -/

namespace CypherTraversal

open Run List Traverser Traversal

variable {S T U : Traverser → Prop} {ps : Parameters} {t : Traverser} {ts us : List Traverser}

/-! ### Narrow processes -/

def Few (S : Traverser → Prop) (ts : List Traverser) : Prop :=
  ts = [] ∨ ∃ t, ts = [t] ∧ S t

theorem Few.nil : Few S [] :=
  .inl rfl

theorem Few.one (ht : S t) : Few S [t] :=
  .inr ⟨t, rfl, ht⟩

theorem Few.mono (h : Few S ts) (hT : ∀ t, S t → T t) : Few T ts :=
  h.imp_right fun ⟨t, hts, ht⟩ => ⟨t, hts, hT t ht⟩

namespace Process

def Narrows (S T : Traverser → Prop) (p : Process) : Prop :=
  ∀ ts, Few S ts → (p ts).Ensures (fun _ => True) (Few T) fun _ => True

namespace Narrows

variable {p q : Process}

theorem on (hp : p.Narrows S T) (ht : S t) :
    (p.on t).Ensures (fun _ => True) (Few T) fun _ => True :=
  hp [t] (.one ht)

theorem andThen (hp : p.Narrows S T) (hq : q.Narrows T U) : (p.andThen q).Narrows S U :=
  fun ts hts => (hp ts hts).bind hq

theorem eachRow {f : Traverser → Run (List Traverser)}
    (h : ∀ t, S t → (f t).Ensures (fun _ => True) (Few T) fun _ => True) :
    (eachRow f).Narrows S T := by
  rintro ts (rfl | ⟨t, rfl, ht⟩)
  · exact .pure .nil
  · refine (h t ht).bind fun us hus =>
      (Ensures.pure (Q := (· = [])) rfl).bind fun rest hrest => .pure ?_
    rw [hrest, append_nil]
    exact hus

theorem keep (test : Traverser → Run Bool) : (keep test).Narrows S S := by
  refine eachRow fun t ht => Ensures.trivial.bind fun b _ => .pure ?_
  cases b with
  | false => exact .nil
  | true => exact .one ht

theorem move {f : Traverser → Run (Option Object)}
    (h : ∀ t, S t → (f t).Ensures (fun _ => True) (fun x => ∀ y, x = some y → T (t.moveTo y))
      fun _ => True) : (move f).Narrows S T := by
  refine eachRow fun t ht => (h t ht).bind fun x hx => .pure ?_
  cases x with
  | none => exact .nil
  | some y => exact .one (hx y rfl)

theorem moveIn {f : Graph → Traverser → Option Object}
    (h : ∀ g t, S t → ∀ y, f g t = some y → T (t.moveTo y)) : (moveIn f).Narrows S T :=
  move fun t ht => Ensures.graph.bind fun g _ => .pure (h g t ht)

theorem choose {test yes no : Process} (hyes : yes.Narrows S T) (hno : no.Narrows S T) :
    (choose test yes no).Narrows S T := by
  refine eachRow fun t ht => Ensures.trivial.bind fun b _ => ?_
  cases b with
  | false => exact hno.on ht
  | true => exact hyes.on ht

theorem coalesce {qs : List Process} (hqs : ∀ q ∈ qs, q.Narrows S T) (ht : S t) :
    (coalesce t qs).Ensures (fun _ => True) (Few T) fun _ => True := by
  induction qs with
  | nil => exact .pure .nil
  | cons q qs ih =>
    obtain ⟨hq, hqs⟩ := forall_mem_cons.mp hqs
    refine (hq.on ht).bind fun us hus => ?_
    split
    · exact ih hqs
    · exact .pure hus

end Narrows
end Process

/-! ### Narrow traversals -/

structure Traversal.Narrows (ps : Parameters) (S T : Traverser → Prop) (f : Traversal) : Prop where
  starts : f.Starts ps
  narrows : (f.run ps).Narrows S T

namespace Traversal.Narrows

variable {f h : Traversal} {s : Step}

theorem append (hf : f.Narrows ps S T) (hh : h.Narrows ps T U) : Narrows ps S U (f ++ h) := by
  refine ⟨hf.starts.append hh.starts, ?_⟩
  rw [run_append hh.starts]
  exact hf.narrows.andThen hh.narrows

theorem step {p : Process} (hs : Step.stage ps s = .process p) (hp : p.Narrows S T) :
    Narrows ps S T [s] := by
  refine ⟨.of_process hs, ?_⟩
  rw [run_step hs]
  exact hp

theorem is (p : Predicate) : Narrows ps S S [.is p] :=
  step rfl (.keep _)

theorem coalesce {fs : List Traversal} (hfs : ∀ f ∈ fs, f.Narrows ps S T) :
    Narrows ps S T [.coalesce fs] := by
  have hruns : ∀ p ∈ Step.runEach ps fs, p.Narrows S T := by
    rw [Step.runEach_eq_map]
    exact forall_mem_map.mpr fun f hf => (hfs f hf).narrows
  exact .step rfl (.eachRow fun t ht => Process.Narrows.coalesce hruns ht)

theorem fold (hf : f.Starts ps) (hT : ∀ items, T { object := .list items }) :
    Narrows ps S T (f ++ [.fold]) := by
  have hfold : Starts ps [.fold] := rfl
  refine ⟨hf.append hfold, ?_⟩
  rw [run_append hfold]
  intro ts _
  exact Ensures.trivial.bind fun us _ => .pure (.one (hT _))

theorem constant (hST : ∀ t, S t → ∀ y, T (t.moveTo y)) (o : Operand) :
    Narrows ps S T [.constant o] :=
  step rfl (.move fun t ht => Ensures.trivial.mono (fun _ _ y _ => hST t ht y) fun _ _ => trivial)

theorem project (hST : ∀ t, S t → ∀ y, T (t.moveTo y)) (keys : List String) (fs : List Traversal) :
    Narrows ps S T (.project keys :: fs.map .by) := by
  refine ⟨rfl, ?_⟩
  rw [run_modulated rfl (Step.modulate_by ps fs)]
  refine Process.Narrows.andThen (T := T) (.move fun t ht => ?_) fun ts hts => .pure hts
  exact Ensures.trivial.mono (fun _ _ y _ => hST t ht y) fun _ _ => trivial

end Traversal.Narrows

/-! ### Paths -/

variable {p : List (String × Object)}

def Traverser.Near (p : List (String × Object)) (t : Traverser) : Prop :=
  t.path = p ∨ t.path = [] ∧ (t.object = .null ∨ ∃ items, t.object = .list items)

theorem Traverser.Near.path_of_map {entries : List (String × Object)} (h : t.Near p)
    (hmap : t.object = .map entries) : t.path = p := by
  rcases h with h | ⟨-, hnull | ⟨items, hlist⟩⟩
  · exact h
  · rw [hmap] at hnull
    cases hnull
  · rw [hmap] at hlist
    cases hlist

theorem Process.Narrows.near {f : Graph → Traverser → Option Object}
    (hnone : ∀ g t, t.path = [] → (t.object = .null ∨ ∃ items, t.object = .list items) →
      f g t = none) : (Process.moveIn f).Narrows (Near p) (Near p) := by
  refine .moveIn fun g t ht y hy => ?_
  rcases ht with hpath | ⟨hpath, hobject⟩
  · exact .inl hpath
  · rw [hnone g t hpath hobject] at hy
    cases hy

namespace Traversal

theorem selects_near (name : String) : Narrows ps (Near p) (Near p) [.select name] := by
  refine .step rfl (.near fun g t hpath hobject => ?_)
  have hnone : t.labelled? name = none := by
    rw [labelled?, hpath]
    rfl
  rcases hobject with hobject | ⟨items, hobject⟩
  · rw [hobject]
    exact hnone
  · rw [hobject]
    exact hnone

theorem element_near {s : Step} {m : Graph → Object → Option Object}
    (hs : Step.stage ps s = .process (.moveIn fun g t => m g t.object))
    (hnull : ∀ g, m g .null = none) (hlist : ∀ g items, m g (.list items) = none) :
    Narrows ps (Near p) (Near p) [s] := by
  refine .step hs (.near fun g t _ hobject => ?_)
  rcases hobject with hobject | ⟨items, hobject⟩
  · rw [hobject]
    exact hnull g
  · rw [hobject]
    exact hlist g items

theorem null_near : Narrows ps (Near p) (Near p) (constantValue .null) := by
  refine .step rfl (.move fun t ht => .pure fun y hy => ?_)
  cases hy
  exact ht.imp_right fun h => ⟨h.1, .inl rfl⟩

end Traversal

/-! ### Expressions -/

section Expressions

variable (ps) (p) (c : LoweringContext)

theorem Expr.lowersNarrow :
    LowersRelated c c (fun _ => True) (fun _ => True) (fun _ => True) (fun _ => True) Eq
      (Both (Narrows ps (·.path = p) (Near p)))
      (Narrows ps (Near p) (Near p))
      (Both (Narrows ps (·.path = p) (Near p))) where
  known _ := trivial
  scalar s := ⟨rfl, .constant (fun _ ht _ => .inl ht) _⟩
  choose := by
    rintro _ _ _ _ _ _ rfl ⟨rfl, hf⟩ ⟨rfl, hh⟩
    exact ⟨rfl, .step rfl (.choose hf.narrows hh.narrows)⟩
  coalesce h :=
    have ⟨heq, hfs⟩ := forall₂_both h
    ⟨by rw [heq], .coalesce hfs⟩
  union {fs _} h :=
    have ⟨heq, _⟩ := forall₂_both h
    ⟨by rw [heq], .fold (f := [.union fs]) rfl fun items => .inr ⟨rfl, .inr ⟨items, rfl⟩⟩⟩
  behind hf hh := ⟨by rw [hf.1], hf.2.append hh⟩
  steps := .append
  values key := element_near (m := fun g x => (g.property? key x).map .ofValue) rfl
    (fun _ => rfl) fun _ _ => rfl
  null := null_near
  lookup := .coalesce
  is _ := .is _
  id := element_near (m := fun _ x => Process.identifier? x) rfl (fun _ => rfl) fun _ _ => rfl
  label := element_near (m := fun g x => (g.label? x).map .str) rfl (fun _ => rfl) fun _ _ => rfl
  fold := .fold (f := []) rfl fun items => .inr ⟨rfl, .inr ⟨items, rfl⟩⟩
  filter hf := by rw [hf.1]
  not hf := by rw [hf]
  or hfs := by rw [forall₂_eq_eq_eq] at hfs; rw [hfs]
  both hf hh := by rw [hf, hh]
  empty hf := by rw [hf]
  keep hf hh _ _ := by rw [hf.1, hh.1]
  isNull _ := rfl
  clause := rfl
  kind? _ := rfl
  mismatch _ _ := trivial
  fits _ := .inr fun _ => trivial
  part _ _ _ := trivial
  constant _ _ := ⟨rfl, .constant (fun _ ht _ => .inl ht) _⟩
  var _ := ⟨rfl, .step rfl (.moveIn fun _ _ ht _ _ => .inl ht)⟩
  param _ := ⟨trivial, rfl, .constant (fun _ ht _ => .inl ht) _⟩
  key _ := selects_near _
  project _ h _ :=
    have ⟨heq, _⟩ := forall₂_both h
    ⟨by rw [heq], .project (fun _ ht _ => .inl ht) _ _⟩
  element _ _ := rfl

theorem Expr.value_narrows (e : Expr) :
    Gives (Narrows ps (·.path = p) (Near p)) (e.lower c).value := by
  have hrelated := lower_related_of (lowersNarrow ps p c)
    (fun _ _ => consults_of_parts fun _ _ => ⟨trivial, trivial⟩) e trivial
  exact (Meet.ends hrelated.value fun _ _ h => h.2).gives

end Expressions

variable {c : LoweringContext} {e : Expr} {f : Traversal} {g g' : Graph}

theorem Expr.value_few (hf : (e.lower c).value = .ok f) :
    f.Narrows ps (fun _ => True) fun _ => True := by
  have hnarrows (p : List (String × Object)) := e.value_narrows ps p c f hf
  refine ⟨(hnarrows []).starts, ?_⟩
  rintro ts (rfl | ⟨t, rfl, -⟩)
  · exact ((hnarrows []).narrows [] .nil).imp fun _ h => h.mono fun _ _ => trivial
  · exact ((hnarrows t.path).narrows [t] (.one rfl)).imp fun _ h => h.mono fun _ _ => trivial

theorem Expr.rows_of_value (hf : (e.lower c).value = .ok f)
    (hrun : (f.run ps [t]).outcome g = (.ok us, g')) : Few (Near t.path) us :=
  (((e.value_narrows ps t.path c f hf).narrows [t] (.one rfl)).of_ok trivial hrun).2

end CypherTraversal
