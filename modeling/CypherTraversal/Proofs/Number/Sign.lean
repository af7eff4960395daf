import CypherTraversal.Number.Text

/-! # Signs and magnitudes

A number is its sign together with its magnitude. -/

namespace CypherTraversal.Binary64

variable (x : Binary64)

theorem magnitude_lt : x.magnitude < signWeight :=
  Nat.mod_lt _ (by decide)

theorem make_isNegative_magnitude : make x.isNegative x.magnitude = x := by
  have hlt : x.bits.toNat < 2 * signWeight := x.bits.toNat_lt
  have hbits : (if x.isNegative then signWeight + x.magnitude else x.magnitude) = x.bits.toNat := by
    unfold isNegative magnitude
    by_cases h : signWeight ≤ x.bits.toNat
    · rw [if_pos (decide_eq_true h), Nat.mod_eq_sub_mod h, Nat.mod_eq_of_lt (by omega)]
      omega
    · rw [if_neg (by simpa using h), Nat.mod_eq_of_lt (by omega)]
  obtain ⟨bits⟩ := x
  unfold make
  rw [hbits, UInt64.ofNat_toNat]

section Make

variable {m : Nat} (negative : Bool) (hm : m < signWeight)

include hm

theorem toNat_make : (make negative m).bits.toNat =
    if negative then signWeight + m else m := by
  refine UInt64.toNat_ofNat_of_lt' ?_
  have hsize : UInt64.size = 2 * signWeight := rfl
  split <;> omega

theorem isNegative_make : (make negative m).isNegative = negative := by
  unfold isNegative
  rw [toNat_make negative hm]
  cases negative with
  | false => simpa using hm
  | true => simp

theorem magnitude_make : (make negative m).magnitude = m := by
  unfold magnitude
  rw [toNat_make negative hm]
  cases negative with
  | false => exact Nat.mod_eq_of_lt hm
  | true =>
    rw [if_pos rfl, Nat.add_mod_left]
    exact Nat.mod_eq_of_lt hm

end Make

theorem neg_neg : x.neg.neg = x := by
  unfold neg
  rw [isNegative_make _ x.magnitude_lt, magnitude_make _ x.magnitude_lt, Bool.not_not]
  exact make_isNegative_magnitude x

theorem toText_of_isNegative (hneg : x.isNegative) (hnan : x.neg.isNaN = false)
    (style : DecimalStyle) : x.toText style = "-" ++ x.neg.toText style := by
  have hmagnitude : x.neg.magnitude = x.magnitude := magnitude_make _ x.magnitude_lt
  have hsign : x.neg.isNegative = false := by
    rw [neg, isNegative_make _ x.magnitude_lt, hneg, Bool.not_true]
  simp only [toText, isNaN, isInfinite, isZero, hmagnitude, hsign, hneg, if_true] at hnan ⊢
  simp only [hnan, Bool.false_eq_true, if_false, String.empty_append]
  split
  · rfl
  · split <;> rfl

end CypherTraversal.Binary64
