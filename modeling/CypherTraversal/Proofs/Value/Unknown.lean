import CypherTraversal.Proofs.Value.Linear

/-! # Null as an unknown value

What is known of values with nulls in them stays so when other values take the place of the nulls.
Of values without floating point numbers, equality is known to be true just of a value and itself,
if there is no null in it. -/

namespace CypherTraversal

/-! ### Values in place of nulls -/

namespace Value

mutual

/-- `a.Fills a'` says that `a'` is `a` with values in place of some of its nulls. -/
def Fills : Value → Value → Prop
  | scalar s, v => s = .null ∨ v = scalar s
  | list xs, list ys => ItemsFill xs ys
  | map xs, map ys => EntriesFill xs ys
  | _, _ => False

def ItemsFill : List Value → List Value → Prop
  | [], [] => True
  | x :: xs, y :: ys => Fills x y ∧ ItemsFill xs ys
  | _, _ => False

def EntriesFill : List (String × Value) → List (String × Value) → Prop
  | [], [] => True
  | (k, x) :: xs, (l, y) :: ys => k = l ∧ Fills x y ∧ EntriesFill xs ys
  | _, _ => False

end

theorem ItemsFill.length : ∀ {xs ys : List Value}, ItemsFill xs ys → xs.length = ys.length
  | [], [], _ => rfl
  | _ :: _, _ :: _, h => congrArg (· + 1) (ItemsFill.length h.2)

theorem EntriesFill.keys : ∀ {xs ys : List (String × Value)}, EntriesFill xs ys →
    xs.map Prod.fst = ys.map Prod.fst
  | [], [], _ => rfl
  | (_, _) :: _, (_, _) :: _, h => List.cons_eq_cons.mpr ⟨h.1, EntriesFill.keys h.2.2⟩

section Scalars

variable {s : Scalar} {b b' : Value} {r : Bool} (h : r ∈ (scalar s).eq? b)

include h

theorem Fills.of_known (hs : (scalar s).Fills b') : b' = scalar s := by
  rcases hs with rfl | hs
  · cases b <;> cases h
  · exact hs

theorem eq?_scalar_known (hb : b.Fills b') : r ∈ (scalar s).eq? b' := by
  cases b with
  | scalar t =>
    rw [eq?_comm] at h
    obtain rfl := Fills.of_known h hb
    rwa [eq?_comm]
  | list ys =>
    cases b' with
    | list ys' => cases s <;> exact h
    | _ => cases hb
  | map ys =>
    cases b' with
    | map ys' => cases s <;> exact h
    | _ => cases hb

end Scalars
end Value

/-! ### What is known -/

namespace Truth

variable {x y x' y' : Option Bool}

theorem both_eq_true : both x y = some true ↔ x = some true ∧ y = some true := by
  rcases x with _ | _ | _ <;> rcases y with _ | _ | _ <;> simp [both]

theorem both_eq_false : both x y = some false ↔ x = some false ∨ y = some false := by
  rcases x with _ | _ | _ <;> rcases y with _ | _ | _ <;> simp [both]

theorem both_known (hx : ∀ r ∈ x, r ∈ x') (hy : ∀ r ∈ y, r ∈ y') : ∀ r ∈ both x y, r ∈ both x' y'
  | true, h => both_eq_true.mpr ((both_eq_true.mp h).imp (hx true) (hy true))
  | false, h => both_eq_false.mpr ((both_eq_false.mp h).imp (hx false) (hy false))

end Truth

namespace Value

mutual

theorem eq?_known : ∀ {a b a' b' : Value}, a.Fills a' → b.Fills b' → ∀ r ∈ a.eq? b, r ∈ a'.eq? b'
  | scalar _, _, _, _, ha, hb, _, h => by
    rw [Fills.of_known h ha]
    exact eq?_scalar_known h hb
  | list _, scalar _, _, _, ha, hb, _, h | map _, scalar _, _, _, ha, hb, _, h => by
    rw [eq?_comm] at h ⊢
    rw [Fills.of_known h hb]
    exact eq?_scalar_known h ha
  | list _, map _, list _, map _, _, _, _, h | map _, list _, map _, list _, _, _, _, h => h
  | list _, list _, list _, list _, ha, hb, r, h => by
    rw [eq?] at h ⊢
    rw [← ha.length, ← hb.length]
    split at h <;> rename_i hlength
    · rw [if_pos hlength]
      exact eqItems?_known ha hb r h
    · rwa [if_neg hlength]
  | map _, map _, map _, map _, ha, hb, r, h => by
    rw [eq?] at h ⊢
    rw [← ha.keys, ← hb.keys]
    split at h <;> rename_i hkeys
    · rw [if_pos hkeys]
      exact eqEntries?_known ha hb r h
    · rwa [if_neg hkeys]

theorem eqItems?_known : ∀ {xs ys xs' ys' : List Value}, ItemsFill xs xs' → ItemsFill ys ys' →
    ∀ r ∈ eqItems? xs ys, r ∈ eqItems? xs' ys'
  | [], _, [], _, _, _, _, h | _ :: _, [], _ :: _, [], _, _, _, h => h
  | _ :: _, _ :: _, _ :: _, _ :: _, hx, hy, r, h =>
    Truth.both_known (eq?_known hx.1 hy.1) (eqItems?_known hx.2 hy.2) r h

theorem eqEntries?_known : ∀ {xs ys xs' ys' : List (String × Value)}, EntriesFill xs xs' →
    EntriesFill ys ys' → ∀ r ∈ eqEntries? xs ys, r ∈ eqEntries? xs' ys'
  | [], _, [], _, _, _, _, h | _ :: _, [], _ :: _, [], _, _, _, h => h
  | (_, _) :: _, (_, _) :: _, (_, _) :: _, (_, _) :: _, hx, hy, r, h =>
    Truth.both_known (eq?_known hx.2.1 hy.2.1) (eqEntries?_known hx.2.2 hy.2.2) r h

end

mutual

theorem compare?_known : ∀ {a b a' b' : Value}, a.Fills a' → b.Fills b' →
    ∀ o ∈ a.compare? b, o ∈ a'.compare? b'
  | scalar s, scalar t, _, _, ha, hb, o, h => by
    rcases ha with rfl | rfl
    · cases t <;> cases h
    · rcases hb with rfl | rfl
      · cases s <;> cases h
      · exact h
  | list _, list _, list _, list _, ha, hb, o, h => compareItems?_known ha hb o h

theorem compareItems?_known : ∀ {xs ys xs' ys' : List Value}, ItemsFill xs xs' → ItemsFill ys ys' →
    ∀ o ∈ compareItems? xs ys, o ∈ compareItems? xs' ys'
  | [], [], [], [], _, _, _, h | [], _ :: _, [], _ :: _, _, _, _, h
  | _ :: _, [], _ :: _, [], _, _, _, h => h
  | x :: _, y :: _, _ :: _, _ :: _, hx, hy, o, h => by
    rw [compareItems?] at h ⊢
    have hknown := compare?_known hx.1 hy.1
    rcases hxy : compare? x y with _ | _ | _ | _ <;> rw [hxy] at h hknown
    case none => cases h
    all_goals rw [hknown _ rfl]
    case some.eq => exact compareItems?_known hx.2 hy.2 o h
    all_goals exact h

end

/-! ### What is known to be equal -/

mutual

theorem eq?_of_compare? : ∀ {a b : Value}, a.compare? b = some .eq → a.eq? b = some true
  | scalar s, scalar t, h => by
    cases s <;> cases t <;> try cases h
    case bool.bool | int.int | str.str =>
      exact congrArg some (beq_iff_eq.mpr (Std.LawfulEqOrd.eq_of_compare (Option.some.inj h)))
    all_goals
      refine congrArg some ?_
      exact beq_iff_eq.mpr h
  | list xs, list ys, h => by
    obtain ⟨hlength, hitems⟩ := eqItems?_of_compareItems? h
    rw [eq?, if_pos hlength, hitems]

theorem eqItems?_of_compareItems? : ∀ {xs ys : List Value}, compareItems? xs ys = some .eq →
    xs.length = ys.length ∧ eqItems? xs ys = some true
  | [], [], _ => ⟨rfl, rfl⟩
  | x :: xs, y :: ys, h => by
    rw [compareItems?] at h
    rcases hxy : compare? x y with _ | _ | _ | _ <;> rw [hxy] at h
    case some.eq =>
      obtain ⟨hlength, hitems⟩ := eqItems?_of_compareItems? h
      exact ⟨congrArg (· + 1) hlength, Truth.both_eq_true.mpr ⟨eq?_of_compare? hxy, hitems⟩⟩
    all_goals cases h

end

mutual

theorem of_eq?_true : ∀ {a b : Value}, a.Floatless → b.Floatless → a.eq? b = some true →
    a = b ∧ a.Leaves (· ≠ .null)
  | scalar s, scalar t, ha, hb, h => by
    cases s <;> cases t <;> try cases h
    case bool.bool | int.int | str.str =>
      rw [beq_iff_eq.mp (Option.some.inj h)]
      exact ⟨rfl, fun h => by cases h⟩
    all_goals first | cases ha; done | cases hb
  | list xs, list ys, ha, hb, h => by
    rw [eq?] at h
    split at h
    · rename_i hlength
      obtain ⟨rfl, hnull⟩ := of_eqItems?_true ha hb hlength h
      exact ⟨rfl, hnull⟩
    · cases h
  | map xs, map ys, ha, hb, h => by
    rw [eq?] at h
    split at h
    · rename_i hkeys
      obtain ⟨rfl, hnull⟩ := of_eqEntries?_true ha hb hkeys h
      exact ⟨rfl, hnull⟩
    · cases h
  | scalar s, list _, _, _, h | scalar s, map _, _, _, h | list _, scalar s, _, _, h
  | map _, scalar s, _, _, h => by cases s <;> cases h

theorem of_eqItems?_true : ∀ {xs ys : List Value}, ItemLeaves (·.isFloat = false) xs →
    ItemLeaves (·.isFloat = false) ys → xs.length = ys.length → eqItems? xs ys = some true →
    xs = ys ∧ ItemLeaves (· ≠ .null) xs
  | [], [], _, _, _, _ => ⟨rfl, trivial⟩
  | _ :: _, _ :: _, hx, hy, hlength, h => by
    obtain ⟨hhead, htail⟩ := Truth.both_eq_true.mp h
    obtain ⟨rfl, hnull⟩ := of_eq?_true hx.1 hy.1 hhead
    obtain ⟨rfl, hnulls⟩ := of_eqItems?_true hx.2 hy.2 (Nat.succ.inj hlength) htail
    exact ⟨rfl, hnull, hnulls⟩

theorem of_eqEntries?_true : ∀ {xs ys : List (String × Value)}, EntryLeaves (·.isFloat = false) xs →
    EntryLeaves (·.isFloat = false) ys → xs.map Prod.fst = ys.map Prod.fst →
    eqEntries? xs ys = some true → xs = ys ∧ EntryLeaves (· ≠ .null) xs
  | [], [], _, _, _, _ => ⟨rfl, trivial⟩
  | (_, _) :: _, (_, _) :: _, hx, hy, hkeys, h => by
    obtain ⟨hkey, htails⟩ := List.cons.inj hkeys
    obtain ⟨hhead, htail⟩ := Truth.both_eq_true.mp h
    obtain ⟨rfl, hnull⟩ := of_eq?_true hx.1 hy.1 hhead
    obtain ⟨rfl, hnulls⟩ := of_eqEntries?_true hx.2 hy.2 htails htail
    exact ⟨congrArg (fun k => (k, _) :: _) hkey, hnull, hnulls⟩

end

mutual

theorem eq?_self : ∀ {a : Value}, a.Floatless → a.Leaves (· ≠ .null) → a.eq? a = some true
  | scalar s, ha, hnull => by
    cases s with
    | null => exact absurd rfl hnull
    | float => cases ha
    | _ => exact congrArg some (beq_self_eq_true _)
  | list _, ha, hnull => (if_pos rfl).trans (eqItems?_self ha hnull)
  | map _, ha, hnull => (if_pos rfl).trans (eqEntries?_self ha hnull)

theorem eqItems?_self : ∀ {xs : List Value}, ItemLeaves (·.isFloat = false) xs →
    ItemLeaves (· ≠ .null) xs → eqItems? xs xs = some true
  | [], _, _ => rfl
  | _ :: _, hx, hnull =>
    Truth.both_eq_true.mpr ⟨eq?_self hx.1 hnull.1, eqItems?_self hx.2 hnull.2⟩

theorem eqEntries?_self : ∀ {xs : List (String × Value)}, EntryLeaves (·.isFloat = false) xs →
    EntryLeaves (· ≠ .null) xs → eqEntries? xs xs = some true
  | [], _, _ => rfl
  | (_, _) :: _, hx, hnull =>
    Truth.both_eq_true.mpr ⟨eq?_self hx.1 hnull.1, eqEntries?_self hx.2 hnull.2⟩

end

end Value

/-- **A null in a comparison stands for any value.** An answer about values holds for all values
that have something in place of their nulls. Exchanged sides answer alike, the other way round. Of
values without floating point numbers, those are known to be equal that are one value without a
null; so are any that neither is in front of the other. -/
theorem answers_hold_for_any_nulls (a b : Value) :
    (∀ a' b', a.Fills a' → b.Fills b' →
      (∀ r, a.eq? b = some r → a'.eq? b' = some r) ∧
      ∀ o, a.compare? b = some o → a'.compare? b' = some o) ∧
    a.eq? b = b.eq? a ∧ b.compare? a = (a.compare? b).map Ordering.swap ∧
    (a.compare? b = some .eq → a.eq? b = some true) ∧
    (a.Floatless → b.Floatless → (a.eq? b = some true ↔ a = b ∧ a.Leaves (· ≠ .null))) := by
  refine ⟨fun a' b' ha hb => ⟨Value.eq?_known ha hb, Value.compare?_known ha hb⟩, a.eq?_comm b,
    a.compare?_swap b, Value.eq?_of_compare?, fun ha hb => ⟨Value.of_eq?_true ha hb, ?_⟩⟩
  rintro ⟨rfl, hnull⟩
  exact Value.eq?_self ha hnull

theorem difference_beside_nulls :
    Value.eq? (.list [.str "x", .int 1]) (.list [.map [], .int 2]) = some false := by
  have hnulls := (answers_hold_for_any_nulls (.list [.null, .int 1]) (.list [.null, .int 2])).1
  exact (hnulls (.list [.str "x", .int 1]) (.list [.map [], .int 2]) ⟨.inl rfl, .inr rfl, trivial⟩
    ⟨.inl rfl, .inr rfl, trivial⟩).1 false rfl

end CypherTraversal
