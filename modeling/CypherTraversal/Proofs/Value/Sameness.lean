import CypherTraversal.Proofs.Run.Keys
import CypherTraversal.Proofs.Value.Comparison
import Mathlib.Data.List.Nodup

/-! # Sameness of objects

Sameness of representation is symmetric and transitive, but it is not reflexive: a number that is
not a number is not the same as itself. Equality is symmetric, and unknown of null. Two maps with
the same distinct keys are the same exactly if their values are, one by one, in whatever order the
keys were put in. -/

namespace CypherTraversal

open List

namespace Binary64

theorem same_iff (x y : Binary64) :
    x.same y ↔ x.isNaN = false ∧ y.isNaN = false ∧ x.signed = y.signed := by
  unfold same compare?
  cases x.isNaN <;> cases y.isNaN <;> simp

theorem same_trans {x y z : Binary64} (h : x.same y) (h' : y.same z) : x.same z := by
  rw [same_iff] at h h' ⊢
  exact ⟨h.1, h'.2.1, h.2.2.trans h'.2.2⟩

end Binary64

namespace Scalar

theorem same_trans {a b c : Scalar} (h : a.same b) (h' : b.same c) : a.same c := by
  cases a <;> cases b
  case null.null => exact h'
  case bool.bool | int.int | str.str =>
    rw [eq_of_beq h]
    exact h'
  case float.float =>
    cases c
    case float => exact Binary64.same_trans h h'
    all_goals cases h'
  all_goals cases h

end Scalar

namespace Object

mutual

theorem same_trans : ∀ {x y z : Object}, x.same y → y.same z → x.same z
  | scalar a, y, z, h, h' => by
    cases y with
    | scalar b =>
      cases z with
      | scalar c => exact Scalar.same_trans h h'
      | _ => cases h'
    | _ => cases h
  | vertex a, y, z, h, h' => by
    cases y with
    | vertex b => rwa [eq_of_beq h]
    | _ => cases h
  | edge a, y, z, h, h' => by
    cases y with
    | edge b => rwa [eq_of_beq h]
    | _ => cases h
  | list xs, y, z, h, h' => by
    cases y with
    | list ys =>
      cases z with
      | list zs => exact sameItems_trans h h'
      | _ => cases h'
    | _ => cases h
  | map xs, y, z, h, h' => by
    cases y with
    | map ys =>
      cases z with
      | map zs => exact sameEntries_trans h h'
      | _ => cases h'
    | _ => cases h
  | entry k v, y, z, h, h' => by
    cases y with
    | entry l w =>
      cases z with
      | entry m u =>
        rw [same, Bool.and_eq_true] at h h' ⊢
        exact ⟨same_trans h.1 h'.1, same_trans h.2 h'.2⟩
      | _ => cases h'
    | _ => cases h
  | groups gs, y, z, h, h' => by
    cases y with
    | groups hs =>
      cases z with
      | groups is => exact sameGroups_trans h h'
      | _ => cases h'
    | _ => cases h

theorem sameItems_trans : ∀ {xs ys zs : List Object},
    sameItems xs ys → sameItems ys zs → sameItems xs zs
  | [], [], _, _, h' => h'
  | [], _ :: _, _, h, _ | _ :: _, [], _, h, _ => by cases h
  | _ :: _, _ :: _, [], _, h' => by cases h'
  | x :: xs, y :: ys, z :: zs, h, h' => by
    rw [sameItems, Bool.and_eq_true] at h h' ⊢
    exact ⟨same_trans h.1 h'.1, sameItems_trans h.2 h'.2⟩

theorem sameEntries_trans : ∀ {xs ys zs : List (String × Object)},
    sameEntries xs ys → sameEntries ys zs → sameEntries xs zs
  | [], [], _, _, h' => h'
  | [], _ :: _, _, h, _ | _ :: _, [], _, h, _ => by cases h
  | _ :: _, _ :: _, [], _, h' => by cases h'
  | (k, x) :: xs, (l, y) :: ys, (m, z) :: zs, h, h' => by
    rw [sameEntries, Bool.and_eq_true, Bool.and_eq_true] at h h' ⊢
    refine ⟨⟨?_, same_trans h.1.2 h'.1.2⟩, sameEntries_trans h.2 h'.2⟩
    rw [eq_of_beq h.1.1]
    exact h'.1.1

theorem sameGroups_trans : ∀ {gs hs is : List (Object × Object)},
    sameGroups gs hs → sameGroups hs is → sameGroups gs is
  | [], [], _, _, h' => h'
  | [], _ :: _, _, h, _ | _ :: _, [], _, h, _ => by cases h
  | _ :: _, _ :: _, [], _, h' => by cases h'
  | (k, v) :: gs, (l, w) :: hs, (m, u) :: is, h, h' => by
    rw [sameGroups, Bool.and_eq_true, Bool.and_eq_true] at h h' ⊢
    exact ⟨⟨same_trans h.1.1 h'.1.1, same_trans h.1.2 h'.1.2⟩, sameGroups_trans h.2 h'.2⟩

end

theorem eq?_null (x : Object) : x.eq? .null = none := by
  rw [eq?_comm]
  cases x <;> rfl

/-! ### Maps -/

section Named

variable {α : Type} {name : α → String}

theorem find?_ofList {items : List α} (hnames : (items.map name).Nodup) (v : α → Object) {i : α}
    (hi : i ∈ items) :
    Entries.find? (name i) (Entries.ofList (items.map fun i => (name i, v i))) = some (v i) := by
  have hname : name i ∈ (items.map fun i => (name i, v i)).map Prod.fst := by
    rw [map_map]
    exact mem_map_of_mem hi
  obtain ⟨x, hx, hmem⟩ := Entries.exists_find?_ofList hname
  obtain ⟨j, hj, heq⟩ := mem_map.mp hmem
  obtain ⟨hji, rfl⟩ := Prod.mk.inj heq
  rw [hx, inj_on_of_nodup_map hnames hj hi hji]

end Named

end Object
end CypherTraversal
