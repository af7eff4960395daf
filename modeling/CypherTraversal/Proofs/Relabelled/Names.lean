import Mathlib.Logic.Function.Basic
import CypherTraversal.Proofs.Bindings.Plain
import CypherTraversal.Proofs.Expressions.Matched

/-! # Names of elements

A node or relationship without a name gets one with a number. A renaming of such names leaves every
other name alone: the names that a query writes, the texts that stand for the columns it does not
name, and the labels that a traversal makes for itself. -/

namespace CypherTraversal

open LowerClause List

variable {name : String} {e : Expr}

/-! ### Names of elements -/

def elementLead : String := generatedLead ++ "UNNAMED"

/-- The generated name of an unnamed element. -/
def elementName (n : Nat) : String :=
  elementLead ++ toString n

def isNoElement (name : String) : Bool :=
  !elementLead.toList.isPrefixOf name.toList

theorem elementName_injective : Function.Injective elementName := by
  intro m n h
  have hdigits : Nat.toDigits 10 m = Nat.toDigits 10 n := by
    have hnumber : toString m = toString n := (String.append_right_inj elementLead).mp h
    rwa [Nat.toString_eq_ofList_toDigits, Nat.toString_eq_ofList_toDigits,
      String.ofList_inj] at hnumber
  calc
    m = Nat.ofDigitChars 10 (Nat.toDigits 10 m) 0 := Nat.ofDigitChars_ten_toDigits.symm
    _ = Nat.ofDigitChars 10 (Nat.toDigits 10 n) 0 := by rw [hdigits]
    _ = n := Nat.ofDigitChars_ten_toDigits

theorem isNoElement_elementName (n : Nat) : isNoElement (elementName n) = false := by
  unfold isNoElement elementName
  rw [String.toList_append, Bool.not_eq_false', isPrefixOf_iff_prefix]
  exact prefix_append _ _

theorem isNoElement_of_not_generated (h : isGenerated name = false) : isNoElement name := by
  unfold isNoElement isGenerated at *
  rw [Bool.not_eq_true', Bool.eq_false_iff] at *
  intro hlead
  have hname := isPrefixOf_iff_prefix.mp hlead
  have hblanks : generatedLead.toList <+: elementLead.toList := ⟨"UNNAMED".toList, rfl⟩
  exact h <| isPrefixOf_iff_prefix.mpr (hblanks.trans hname)

theorem isNoElement_argumentColumn (n : Nat) : isNoElement (argumentColumn n) := by
  unfold isNoElement argumentColumn
  rw [String.toList_append, String.toList_append, append_assoc]
  rfl

structure RenamesElements (ρ : String → String) : Prop where
  injective : Function.Injective ρ
  keeps : ∀ n, isNoElement n → ρ n = n
  elements : ∀ n, isNoElement n = false → isNoElement (ρ n) = false

theorem RenamesElements.eq_iff {ρ : String → String} (hρ : RenamesElements ρ) {x : String}
    (hx : isNoElement x) (y : String) : ρ y = x ↔ y = x := by
  constructor
  · intro h
    exact hρ.injective (h.trans (hρ.keeps x hx).symm)
  · rintro rfl
    exact hρ.keeps y hx

noncomputable def shiftElements (k : Nat) : String → String :=
  Function.extend elementName (fun n => elementName (n + k)) id

theorem shiftElements_elementName (k n : Nat) :
    shiftElements k (elementName n) = elementName (n + k) :=
  elementName_injective.extend_apply _ _ n

theorem shiftElements_of_ne {k : Nat} (h : ∀ n, elementName n ≠ name) :
    shiftElements k name = name :=
  Function.extend_apply' _ _ _ fun ⟨n, hn⟩ => h n hn

theorem renames_shiftElements (k : Nat) : RenamesElements (shiftElements k) := by
  have hcases : ∀ x, (∃ n, elementName n = x) ∨ ∀ n, elementName n ≠ x := fun x =>
    (em (∃ n, elementName n = x)).imp_right not_exists.mp
  refine ⟨fun x y h => ?_, fun x hx => ?_, fun x hx => ?_⟩
  · rcases hcases x with ⟨m, rfl⟩ | hx <;> rcases hcases y with ⟨n, rfl⟩ | hy
    · rw [shiftElements_elementName, shiftElements_elementName] at h
      rw [Nat.add_right_cancel (elementName_injective h)]
    · rw [shiftElements_elementName, shiftElements_of_ne hy] at h
      exact absurd h (hy _)
    · rw [shiftElements_elementName, shiftElements_of_ne hx] at h
      exact absurd h.symm (hx _)
    · rwa [shiftElements_of_ne hx, shiftElements_of_ne hy] at h
  · refine shiftElements_of_ne ?_
    rintro n rfl
    rw [isNoElement_elementName] at hx
    cases hx
  · rcases hcases x with ⟨n, rfl⟩ | hne
    · rw [shiftElements_elementName]
      exact isNoElement_elementName _
    · rwa [shiftElements_of_ne hne]

/-! ### Names that are written -/

section Written

variable (ok : String → Bool)

def Expr.namesPass (e : Expr) : Bool :=
  e.names.all ok && e.allKeys ok

def propertiesPass (entries : List (String × Expr)) : Bool :=
  entries.all fun p => ok p.1 && p.2.namesPass ok

def PatternElement.namesPass : PatternElement Expr → Bool
  | .node var _ properties => var.all ok && propertiesPass ok (properties.getD [])
  | .relationship var _ _ properties _ => var.all ok && propertiesPass ok (properties.getD [])

def Clause.namesPass : Clause → Bool
  | .read _ patterns filter =>
    patterns.all (fun w => w.elements.all (PatternElement.namesPass ok)) &&
      filter.all (Expr.namesPass ok)
  | .project _ w =>
    w.items.all (fun i => i.expr.namesPass ok && i.asName.all ok) &&
      w.order.all (fun o => o.expr.namesPass ok) && w.filter.all (Expr.namesPass ok)
  | .unwind e x => e.namesPass ok && ok x
  | .create patterns => patterns.all fun w => w.elements.all (PatternElement.namesPass ok)
  | .delete .. | .set _ => true

/-- All names and keys that the query writes pass. -/
def Query.namesPass (q : Query) : Bool :=
  q.singles.all fun cs => cs.all (Clause.namesPass ok)

def ItemValue.namesPass : ItemValue → Bool
  | .expr e => e.namesPass ok
  | .aggregate a => a.argument.all (Expr.namesPass ok)

structure ResolvedPattern.PropertiesPass (p : ResolvedPattern) : Prop where
  start : propertiesPass ok p.start.properties
  hops : ∀ h ∈ p.hops, propertiesPass ok h.1.properties ∧ propertiesPass ok h.2.properties

structure ResolvedProjection.NamesPass (p : ResolvedProjection) : Prop where
  items : ∀ i ∈ p.items, ok i.name ∧ i.value.namesPass ok
  order : ∀ o ∈ p.order, o.expr.namesPass ok ∧ ∀ c, o.column = some c → ok c
  filter : p.filter.all (Expr.namesPass ok)

def ResolvedClause.NamesPass (r : ResolvedClause) : Prop :=
  match r.body with
  | .read patterns filter =>
    (∀ p ∈ patterns, p.PropertiesPass ok) ∧ filter.all (Expr.namesPass ok)
  | .project p => p.NamesPass ok
  | .unwind e x => e.namesPass ok ∧ ok x
  | .create _ => False

end Written

section Passing

variable {ok : String → Bool}

theorem Expr.namesPass_iff : e.namesPass ok ↔ (∀ n ∈ e.names, ok n) ∧ e.allKeys ok := by
  rw [namesPass, Bool.and_eq_true_iff, all_eq_true]

theorem Expr.optionKeys_of_namesPass {e : Option Expr} (h : e.all (namesPass ok)) :
    optionKeys ok e := by
  cases e with
  | none => rfl
  | some e => exact (namesPass_iff.mp h).2

theorem entryKeys_of_propertiesPass {entries : List (String × Expr)}
    (h : propertiesPass ok entries) : Expr.entryKeys ok entries := by
  refine Expr.entryKeys_iff.mpr fun p hp => ?_
  obtain ⟨hkey, hvalue⟩ := Bool.and_eq_true_iff.mp (all_eq_true.mp h p hp)
  exact ⟨hkey, (Expr.namesPass_iff.mp hvalue).2⟩

end Passing

end CypherTraversal
