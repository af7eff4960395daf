import CypherTraversal.Proofs.Run.Rows
import CypherTraversal.Traversal.Condition

/-! # Traversals that decide

A traversal decides a row when it lets the row pass as it is, or lets nothing pass, and leaves the
graph alone. Conditions are made of such traversals: a conjunction decides as all of its parts do,
a disjunction as one of them does. -/

namespace CypherTraversal

open Run List

variable {s : Step} {us : List Traverser} {fs : List Traversal} {c d : Condition}

namespace Traversal

structure Decides (ps : Parameters) (g : Graph) (t : Traverser) (f : Traversal) (b : Bool) : Prop
    where
  starts : f.Starts ps
  sends : Process.Sends g (· = t) (f.run ps) fun u => if b then [u] else []

namespace Decides

variable {ps : Parameters} {g : Graph} {t : Traverser} {f h : Traversal} {a b : Bool}

theorem one (hf : f.Decides ps g t b) :
    (f.run ps [t]).outcome g = (.ok (if b then [t] else []), g) :=
  hf.sends.one rfl

theorem leads (hf : f.Decides ps g t b) : ((f.run ps).leads t).outcome g = (.ok b, g) := by
  rw [hf.sends.leads rfl]
  cases b <;> rfl

theorem nil : Decides ps g t [] true :=
  ⟨rfl, .same⟩

theorem identity : Decides ps g t [.identity] true :=
  ⟨rfl, .same⟩

theorem unique (ha : f.Decides ps g t a) (hb : f.Decides ps g t b) : a = b := by
  have h := ha.leads
  rw [hb.leads] at h
  cases h
  rfl

theorem step {test : Traverser → Run Bool} (hs : Step.stage ps s = .process (Process.keep test))
    (htest : (test t).outcome g = (.ok b, g)) : Decides ps g t [s] b :=
  ⟨.of_process hs, .step hs (.keep fun _ hu => hu ▸ htest)⟩

theorem keepIn {test : Graph → Object → Bool}
    (hs : Step.stage ps s = .process (Process.keepIn test)) (hb : test g t.object = b) :
    Decides ps g t [s] b :=
  step hs (congrArg (fun r => (Except.ok r, g)) hb)

theorem is {p : Predicate} (hp : p.test ps t t.object = .ok b) : Decides ps g t [.is p] b :=
  step rfl (by rw [outcome_ofExcept, hp])

theorem append (hf : f.Decides ps g t a) (hh : h.Decides ps g t b) :
    Decides ps g t (f ++ h) (a && b) := by
  refine ⟨hf.starts.append hh.starts, ?_⟩
  rw [run_append hh.starts]
  refine (hf.sends.andThen hh.sends ?_).congr fun u _ => ?_
  · intro u hu w hw
    cases a
    · cases hw
    · exact (mem_singleton.mp hw).trans hu
  · cases a <;> simp

theorem not (hf : f.Decides ps g t b) : Decides ps g t [.not f] !b :=
  step rfl (outcome_bind_ok hf.leads)

theorem filter (hf : (f.run ps [t]).outcome g = (.ok us, g)) :
    Decides ps g t [.filter f] (!us.isEmpty) :=
  step rfl (outcome_bind_ok hf)

theorem filterAt {u : Traverser} (hf : (f.run ps [t]).outcome g = (.ok [u], g))
    (hh : h.Decides ps g u b) : Decides ps g t [.filter (f ++ h)] b := by
  have hboth : (Traversal.run ps (f ++ h) [t]).outcome g = (.ok (if b then [u] else []), g) :=
    (outcome_append hh.starts hf).trans hh.one
  have hfilter := filter hboth
  cases b <;> exact hfilter

theorem filterAny {test : Traverser → Bool} {F : Traverser → Traverser}
    (hf : (f.run ps [t]).outcome g = (.ok us, g)) (hh : h.Passes ps g test F) :
    Decides ps g t [.filter (f ++ h)] (us.any test) := by
  have hpassing : (!((us.filter test).map F).isEmpty) = us.any test := by
    rw [isEmpty_map, Bool.not_eq_eq_eq_not, Bool.eq_iff_iff]
    simp
  rw [← hpassing]
  exact filter ((outcome_append hh.starts hf).trans (hh.outcome us))

theorem after {x : Object} (hf : Process.Sends g (· = t) (f.run ps) fun u => [u.moveTo x])
    (hh : h.Decides ps g (t.moveTo x) b) : Decides ps g t [.filter (f ++ h)] b :=
  filterAt (hf.one rfl) hh

theorem someLeads {bs : List Bool} (hfs : Forall₂ (Decides ps g t) fs bs) :
    (Process.someLeads t (Step.runEach ps fs)).outcome g = (.ok (bs.any id), g) := by
  induction hfs with
  | nil => rfl
  | @cons f b fs bs hf _ ih =>
    refine (outcome_bind_ok hf.leads).trans ?_
    cases b
    · exact ih
    · rfl

theorem or {bs : List Bool} (hfs : Forall₂ (Decides ps g t) fs bs) :
    Decides ps g t [.or fs] (bs.any id) :=
  step rfl (someLeads hfs)

end Decides
end Traversal

namespace Condition

def Decides (ps : Parameters) (g : Graph) (t : Traverser) (c : Condition) (b : Bool) : Prop :=
  c.filter.Decides ps g t b

variable {ps : Parameters} {g : Graph} {t : Traverser}

theorem always_decides : always.Decides ps g t true :=
  Traversal.Decides.nil

theorem never_decides : never.Decides ps g t false :=
  Traversal.Decides.identity.not

theorem decided_decides (b : Bool) : Decides ps g t (if b then always else never) b := by
  cases b
  · exact never_decides
  · exact always_decides

theorem test_decides {f : Traversal} {b : Bool} (hf : f.Decides ps g t b) :
    (test f).Decides ps g t b :=
  hf

variable {cs : List Condition} {bs : List Bool}

theorem allSteps_decides (h : Forall₂ (Decides ps g t) cs bs) :
    match allSteps cs with
    | none => bs.all id = false
    | some f => f.Decides ps g t (bs.all id) := by
  induction h with
  | nil => exact .nil
  | @cons c b cs bs hc _ ih =>
    cases c with
    | never =>
      rw [hc.unique never_decides]
      rfl
    | always =>
      rw [hc.unique always_decides]
      exact ih
    | test f =>
      rw [allSteps]
      cases hsteps : allSteps cs with
      | none =>
        rw [hsteps] at ih
        exact (congrArg (b && ·) ih).trans (Bool.and_false b)
      | some rest =>
        rw [hsteps] at ih
        exact Traversal.Decides.append hc ih

theorem all_decides (h : Forall₂ (Decides ps g t) cs bs) : (all cs).Decides ps g t (bs.all id) := by
  have hsteps := allSteps_decides h
  unfold all
  generalize allSteps cs = steps at hsteps ⊢
  rcases steps with _ | _ | ⟨s, f⟩
  · rw [show bs.all id = false from hsteps]
    exact never_decides
  · exact hsteps
  · exact hsteps

theorem both_decide {a b : Bool} (hc : c.Decides ps g t a)
    (hd : d.Decides ps g t b) : (all [c, d]).Decides ps g t (a && b) := by
  rw [← Bool.and_true b]
  exact all_decides (.cons hc (.cons hd .nil))

theorem anyTests_decides (h : Forall₂ (Decides ps g t) cs bs) :
    match anyTests cs with
    | none => bs.any id = true
    | some fs => ∃ ds, Forall₂ (Traversal.Decides ps g t) fs ds ∧ ds.any id = bs.any id := by
  induction h with
  | nil => exact ⟨[], .nil, rfl⟩
  | @cons c b cs bs hc _ ih =>
    cases c with
    | always =>
      rw [hc.unique always_decides]
      rfl
    | never =>
      rw [hc.unique never_decides]
      exact ih
    | test f =>
      rw [anyTests]
      cases htests : anyTests cs with
      | none =>
        rw [htests] at ih
        exact (congrArg (b || ·) ih).trans (Bool.or_true b)
      | some fs =>
        rw [htests] at ih
        obtain ⟨ds, hds, hany⟩ := ih
        exact ⟨b :: ds, .cons hc hds, congrArg (b || ·) hany⟩

theorem any_decides (h : Forall₂ (Decides ps g t) cs bs) : (any cs).Decides ps g t (bs.any id) := by
  have htests := anyTests_decides h
  unfold any
  generalize anyTests cs = tests at htests ⊢
  rcases tests with _ | _ | ⟨f, _ | ⟨f', fs⟩⟩
  · rw [show bs.any id = true from htests]
    exact always_decides
  · obtain ⟨ds, hds, hany⟩ := htests
    cases hds
    rw [← hany]
    exact never_decides
  · obtain ⟨ds, hds, hany⟩ := htests
    obtain ⟨b, ds, hf, hnil, rfl⟩ := forall₂_cons_left_iff.mp hds
    obtain rfl := forall₂_nil_left_iff.mp hnil
    rw [← hany, any_cons, any_nil, Bool.or_false]
    exact hf
  · obtain ⟨ds, hds, hany⟩ := htests
    rw [← hany]
    exact Traversal.Decides.or hds

theorem either_decides {a b : Bool} (hc : c.Decides ps g t a)
    (hd : d.Decides ps g t b) : (any [c, d]).Decides ps g t (a || b) := by
  rw [← Bool.or_false b]
  exact any_decides (.cons hc (.cons hd .nil))

end Condition
end CypherTraversal
