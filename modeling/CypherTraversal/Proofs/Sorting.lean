import CypherTraversal.Sorting
import Mathlib.Data.List.Forall2

/-! # Sorting

Lists whose elements are related in turn, and compare alike where they are related, are sorted
alike. The elements of a sorted list are those of the list, none of them is in front of a smaller
one, and those that compare equal are in the order in which they were. -/

namespace CypherTraversal.Sorting

open List

variable {α β : Type} {xs : List α} {ys : List β} {p : α → Bool}

section Related

variable {R : α → β → Prop} {cmp : α → α → Ordering} {cmp' : β → β → Ordering}
  (hcmp : ∀ a b c d, R a b → R c d → cmp a c = cmp' b d)

include hcmp

theorem insertDescending_rel {x : α} {y : β} (hxy : R x y) (h : Forall₂ R xs ys) :
    Forall₂ R (insertDescending cmp x xs) (insertDescending cmp' y ys) := by
  induction h with
  | nil => exact .cons hxy .nil
  | cons hzw hrest ih =>
    rw [insertDescending, insertDescending, hcmp _ _ _ _ hxy hzw]
    split
    · exact .cons hzw ih
    · exact .cons hxy (.cons hzw hrest)

theorem sort_rel (h : Forall₂ R xs ys) : Forall₂ R (sort cmp xs) (sort cmp' ys) := by
  have hfold {as : List α} {bs : List β} (hacc : Forall₂ R as bs) :
      Forall₂ R (xs.foldl (fun sorted x => insertDescending cmp x sorted) as)
        (ys.foldl (fun sorted x => insertDescending cmp' x sorted) bs) := by
    induction h generalizing as bs with
    | nil => exact hacc
    | cons hxy _ ih => exact ih (insertDescending_rel hcmp hxy hacc)
  exact rel_reverse (hfold .nil)

end Related

theorem sort_map {cmp : β → β → Ordering} (f : α → β) (xs : List α) :
    sort cmp (xs.map f) = (sort (fun a b => cmp (f a) (f b)) xs).map f := by
  have hrel : Forall₂ (fun a b => f a = b) (sort (fun a b => cmp (f a) (f b)) xs)
      (sort cmp (xs.map f)) := by
    refine sort_rel ?_ (forall₂_map_right_iff.mpr (forall₂_same.mpr fun _ _ => rfl))
    rintro a _ c _ rfl rfl
    rfl
  exact (forall₂_eq_eq_eq ▸ forall₂_map_left_iff.mpr hrel).symm

section Members

variable {cmp cmp' : α → α → Ordering}

theorem sort_congr (h : ∀ a ∈ xs, ∀ b ∈ xs, cmp a b = cmp' a b) : sort cmp xs = sort cmp' xs := by
  have hrel : Forall₂ (fun a b => a = b ∧ a ∈ xs) (sort cmp xs) (sort cmp' xs) := by
    refine sort_rel ?_ (forall₂_same.mpr fun _ hx => ⟨rfl, hx⟩)
    rintro a _ c _ ⟨rfl, ha⟩ ⟨rfl, hc⟩
    exact h a ha c hc
  exact forall₂_eq_eq_eq ▸ hrel.imp fun _ _ h => h.1

theorem insertDescending_perm (x : α) (ys : List α) :
    (insertDescending cmp x ys).Perm (x :: ys) := by
  induction ys with
  | nil => exact .rfl
  | cons y ys ih =>
    rw [insertDescending]
    split
    · exact (ih.cons y).trans (.swap x y ys)
    · exact .rfl

theorem sort_perm (xs : List α) : (sort cmp xs).Perm xs := by
  have hfold (acc : List α) :
      (xs.foldl (fun sorted x => insertDescending cmp x sorted) acc).Perm (xs ++ acc) := by
    induction xs generalizing acc with
    | nil => exact .rfl
    | cons x xs ih =>
      exact (ih _).trans (((insertDescending_perm x acc).append_left xs).trans perm_middle)
  exact (reverse_perm _).trans ((hfold []).trans (.of_eq (append_nil xs)))

theorem mem_sort {y : α} (h : y ∈ sort cmp xs) : y ∈ xs :=
  (sort_perm xs).mem_iff.mp h

theorem insertDescending_filter (hp : ∀ x y, p x → p y → cmp x y ≠ .lt) (x : α) (ys : List α) :
    (insertDescending cmp x ys).filter p = (x :: ys).filter p := by
  induction ys with
  | nil => rfl
  | cons y ys ih =>
    rw [insertDescending]
    split
    · rename_i hlt
      rw [filter_cons, ih]
      by_cases hx : p x
      · rw [if_neg fun hy => hp x y hx hy hlt, filter_cons, filter_cons, filter_cons,
          if_neg fun hy => hp x y hx hy hlt]
      · simp only [filter_cons, if_neg hx]
    · rfl

theorem filter_sort (hp : ∀ x y, p x → p y → cmp x y ≠ .lt) (xs : List α) :
    (sort cmp xs).filter p = xs.filter p := by
  have hfold (acc : List α) :
      (xs.foldl (fun sorted x => insertDescending cmp x sorted) acc).filter p =
        (xs.filter p).reverse ++ acc.filter p := by
    induction xs generalizing acc with
    | nil => rfl
    | cons x xs ih =>
      rw [foldl_cons, ih, insertDescending_filter hp, filter_cons, filter_cons]
      split
      · rw [reverse_cons, append_assoc]
        rfl
      · rfl
  rw [sort, filter_reverse, hfold, filter_nil, append_nil, reverse_reverse]

/-- Only comparisons of elements of a list count. -/
theorem sort_attach (xs : List α) :
    sort cmp xs = (sort (fun a b : { x // x ∈ xs } => cmp a b) xs.attach).map Subtype.val := by
  rw [← sort_map, attach_map_subtype_val]

theorem filter_sort_members (hp : ∀ x ∈ xs, ∀ y ∈ xs, p x → p y → cmp x y ≠ .lt) :
    (sort cmp xs).filter p = xs.filter p := by
  have hmembers (a b : { x // x ∈ xs }) : (p ∘ Subtype.val) a → (p ∘ Subtype.val) b →
      cmp a b ≠ .lt := hp a a.2 b b.2
  rw [sort_attach, filter_map, filter_sort hmembers, ← filter_map, attach_map_subtype_val]

theorem insertDescending_pairwise (hswap : ∀ a b, cmp b a = (cmp a b).swap)
    (htrans : ∀ a b c, cmp a b ≠ .gt → cmp b c ≠ .gt → cmp a c ≠ .gt) {x : α} {ys : List α}
    (h : ys.Pairwise fun a b => cmp b a ≠ .gt) :
    (insertDescending cmp x ys).Pairwise fun a b => cmp b a ≠ .gt := by
  induction h with
  | nil => exact pairwise_singleton _ x
  | @cons y ys hy hys ih =>
    rw [insertDescending]
    split
    · rename_i hlt
      refine .cons (fun z hz => ?_) ih
      rcases mem_cons.mp ((insertDescending_perm x ys).mem_iff.mp hz) with rfl | hz
      · rw [hlt]
        exact Ordering.noConfusion
      · exact hy z hz
    · rename_i hlt
      have hyx : cmp y x ≠ .gt := fun h => hlt (by rw [hswap y x, h]; rfl)
      refine .cons (forall_mem_cons.mpr ⟨hyx, fun z hz => ?_⟩) (.cons hy hys)
      exact htrans z y x (hy z hz) hyx

theorem sort_pairwise (hswap : ∀ a b, cmp b a = (cmp a b).swap) (htrans : ∀ a ∈ xs, ∀ b ∈ xs,
      ∀ c ∈ xs, cmp a b ≠ .gt → cmp b c ≠ .gt → cmp a c ≠ .gt) :
    (sort cmp xs).Pairwise fun a b => cmp a b ≠ .gt := by
  rw [sort_attach, pairwise_map, sort, pairwise_reverse]
  refine foldlRecOn xs.attach _ .nil fun _ h a _ => insertDescending_pairwise ?_ ?_ h
  · exact fun a b => hswap a b
  · exact fun a b c => htrans a a.2 b b.2 c c.2

end Members
end CypherTraversal.Sorting
