import Mathlib.Data.List.Forall2

/-! # Computations that may fail

Where a sequence of computations has an answer, each of them has one. -/

namespace CypherTraversal

open List

section Answers

variable {ε α β γ σ : Type} {E : ε → Prop} {x : Except ε α} {f : α → Except ε β} {a : α} {b : β}
  {e : ε} {R : α → β → Prop} {xs : List α} {ys : List β} {zs : List γ} {s s' : σ}

theorem iff_forall_mem {F : List α → Bool} {b : Bool} {P : α → Prop} (hnil : F [] = b)
    (hcons : ∀ a as, F (a :: as) = b ↔ P a ∧ F as = b) : F xs = b ↔ ∀ a ∈ xs, P a := by
  induction xs with
  | nil => exact iff_of_true hnil (forall_mem_nil P)
  | cons a as ih => rw [hcons, forall_mem_cons, ih]

theorem eq_map {F : List α → List β} {k : α → β} (hnil : F [] = [])
    (hcons : ∀ a as, F (a :: as) = k a :: F as) (xs : List α) : F xs = xs.map k := by
  induction xs with
  | nil => exact hnil
  | cons a as ih => rw [hcons, map_cons, ih]

theorem eq_flatMap {F : List α → List β} {k : α → List β} (hnil : F [] = [])
    (hcons : ∀ a as, F (a :: as) = k a ++ F as) (xs : List α) : F xs = xs.flatMap k := by
  induction xs with
  | nil => exact hnil
  | cons a as ih => rw [hcons, flatMap_cons, ih]

theorem bind_eq_ok : x >>= f = .ok b ↔ ∃ a, x = .ok a ∧ f a = .ok b := by
  cases x with
  | error e =>
    constructor
    · intro h
      cases h
    · rintro ⟨_, h, -⟩
      cases h
  | ok a =>
    constructor
    · intro h
      exact ⟨a, rfl, h⟩
    · rintro ⟨a', ha, h⟩
      cases ha
      exact h

theorem bind_both {k : α → Except ε γ} {d : γ} (hf : x >>= f = .ok b) (hk : x >>= k = .ok d) :
    ∃ a, x = .ok a ∧ f a = .ok b ∧ k a = .ok d := by
  cases x with
  | error e => cases hf
  | ok a => exact ⟨a, rfl, hf, hk⟩

theorem pure_eq_ok {b : α} : (pure a : Except ε α) = .ok b ↔ a = b :=
  ⟨Except.ok.inj, congrArg _⟩

theorem map_eq_ok {f : α → β} : f <$> x = .ok b ↔ ∃ a, x = .ok a ∧ f a = b := by
  simp only [map_eq_pure_bind, bind_eq_ok, pure_eq_ok]

theorem exists_ok_of_isOk (h : x.isOk) : ∃ a, x = .ok a := by
  cases x with
  | error e => cases h
  | ok a => exact ⟨a, rfl⟩

/-! ### Statements that can be run -/

instance decidableOk {P : α → Prop} [DecidablePred P] : Decidable (∃ a, x = .ok a ∧ P a) :=
  match x with
  | .error _ => isFalse nofun
  | .ok a => decidable_of_iff (P a) ⟨fun h => ⟨a, rfl, h⟩, fun ⟨_, rfl, h⟩ => h⟩

instance decidableError {P : ε → Prop} [DecidablePred P] : Decidable (∃ e, x = .error e ∧ P e) :=
  match x with
  | .error e => decidable_of_iff (P e) ⟨fun h => ⟨e, rfl, h⟩, fun ⟨_, rfl, h⟩ => h⟩
  | .ok _ => isFalse nofun

instance decidableSome {x : Option α} {P : α → Prop} [DecidablePred P] :
    Decidable (∃ a, x = some a ∧ P a) :=
  match x with
  | none => isFalse nofun
  | some a => decidable_of_iff (P a) ⟨fun h => ⟨a, rfl, h⟩, fun ⟨_, rfl, h⟩ => h⟩

/-! ### Lists of answers -/

theorem mapM_eq_ok : xs.mapM f = .ok ys ↔ Forall₂ (fun x y => f x = .ok y) xs ys := by
  induction xs generalizing ys with
  | nil => rw [mapM_nil, pure_eq_ok, forall₂_nil_left_iff, eq_comm]
  | cons x xs ih =>
    rw [mapM_cons, bind_eq_ok, forall₂_cons_left_iff]
    constructor
    · rintro ⟨y, hy, h⟩
      obtain ⟨ys', hys, h⟩ := bind_eq_ok.mp h
      exact ⟨y, ys', hy, ih.mp hys, (pure_eq_ok.mp h).symm⟩
    · rintro ⟨y, ys', hy, hys, rfl⟩
      exact ⟨y, hy, bind_eq_ok.mpr ⟨ys', ih.mpr hys, rfl⟩⟩

theorem mapM_eq_ok_map {k : α → β} (h : ∀ x ∈ xs, f x = .ok (k x)) :
    xs.mapM f = .ok (xs.map k) :=
  mapM_eq_ok.mpr (forall₂_map_right_iff.mpr (forall₂_same.mpr h))

theorem exists_mapM_eq_ok (h : ∀ x ∈ xs, ∃ y, f x = .ok y) : ∃ ys, xs.mapM f = .ok ys := by
  induction xs with
  | nil => exact ⟨[], rfl⟩
  | cons x xs ih =>
    obtain ⟨⟨y, hy⟩, hxs⟩ := forall_mem_cons.mp h
    obtain ⟨ys, hys⟩ := ih hxs
    exact ⟨y :: ys, mapM_eq_ok.mpr (.cons hy (mapM_eq_ok.mp hys))⟩

theorem getElem?_of_forall₂ (h : Forall₂ R xs ys) {i : Nat} (hy : ys[i]? = some b) :
    ∃ x, xs[i]? = some x ∧ R x b := by
  induction h generalizing i with
  | nil => cases hy
  | cons hxy _ ih =>
    cases i with
    | zero =>
      cases hy
      exact ⟨_, rfl, hxy⟩
    | succ i => exact ih hy

theorem mem_of_forall₂ (h : Forall₂ R xs ys) (hy : b ∈ ys) : ∃ x ∈ xs, R x b := by
  obtain ⟨i, hi⟩ := mem_iff_getElem?.mp hy
  obtain ⟨x, hx, hxy⟩ := getElem?_of_forall₂ h hi
  exact ⟨x, mem_of_getElem? hx, hxy⟩

theorem take_cons_drop {i : Nat} (h : xs[i]? = some a) :
    xs.take i ++ a :: xs.drop (i + 1) = xs := by
  obtain ⟨hi, rfl⟩ := List.getElem?_eq_some_iff.mp h
  rw [← drop_eq_getElem_cons hi, take_append_drop]

theorem forall₂_trans {S : β → γ → Prop} {T : α → γ → Prop}
    (h : ∀ x y z, R x y → S y z → T x z) (hxy : Forall₂ R xs ys) (hyz : Forall₂ S ys zs) :
    Forall₂ T xs zs := by
  induction hxy generalizing zs with
  | nil =>
    cases hyz
    exact .nil
  | cons hx _ ih =>
    cases hyz with
    | cons hy hyz => exact .cons (h _ _ _ hx hy) (ih hyz)

theorem forall₂_and_right {Q : β → Prop} :
    Forall₂ (fun x y => Q y ∧ R x y) xs ys ↔ (∀ y ∈ ys, Q y) ∧ Forall₂ R xs ys :=
  ⟨fun h => ((forall₂_and_left ..).mp h.flip).imp_right .flip,
    fun h => .flip ((forall₂_and_left ..).mpr (h.imp_right .flip))⟩

theorem map_eq_of_forall₂ {f : α → γ} {k : β → γ} (h : Forall₂ R xs ys)
    (hR : ∀ x y, R x y → f x = k y) : xs.map f = ys.map k := by
  rw [← forall₂_eq_eq_eq]
  exact rel_map hR h

theorem forall₂_map_same {S : β → γ → Prop} {f : α → β} {k : α → γ} (h : ∀ x ∈ xs, S (f x) (k x)) :
    Forall₂ S (xs.map f) (xs.map k) :=
  forall₂_map_left_iff.mpr (forall₂_map_right_iff.mpr (forall₂_same.mpr h))

theorem forall₂_concat {zs : List β} (h : Forall₂ R (xs ++ [a]) zs) :
    ∃ ys y, zs = ys ++ [y] ∧ Forall₂ R xs ys ∧ R a y := by
  induction xs generalizing zs with
  | nil =>
    obtain ⟨y, ys, hy, hnil, rfl⟩ := forall₂_cons_left_iff.mp h
    cases hnil
    exact ⟨[], y, rfl, .nil, hy⟩
  | cons a xs ih =>
    obtain ⟨b, zs, hab, hrest, rfl⟩ := forall₂_cons_left_iff.mp h
    obtain ⟨ys, y, rfl, hys, hy⟩ := ih hrest
    exact ⟨b :: ys, y, rfl, .cons hab hys, hy⟩

theorem forM_eq_ok {f : α → Except ε Unit} : xs.forM f = .ok () ↔ ∀ x ∈ xs, f x = .ok () := by
  induction xs with
  | nil => simp [pure, Except.pure]
  | cons x xs ih =>
    rw [forM_eq_forM, forM_cons, bind_eq_ok, forall_mem_cons]
    constructor
    · rintro ⟨_, hx, hxs⟩
      exact ⟨hx, ih.mp hxs⟩
    · rintro ⟨hx, hxs⟩
      exact ⟨(), hx, ih.mpr hxs⟩

def FailsWith (E : ε → Prop) (x : Except ε α) : Prop :=
  ∀ e, x = .error e → E e

namespace FailsWith

theorem ok (a : α) : FailsWith E (.ok a : Except ε α) := by
  intro e he
  cases he

theorem error (he : E e) : FailsWith E (.error e : Except ε α) := by
  intro d hd
  cases hd
  exact he

theorem mono {D : ε → Prop} (hx : FailsWith E x) (hE : ∀ e, E e → D e) : FailsWith D x :=
  fun e he => hE e (hx e he)

theorem bind (hx : FailsWith E x) (hf : ∀ a, FailsWith E (f a)) : FailsWith E (x >>= f) := by
  cases x with
  | error e => exact error (hx e rfl)
  | ok a => exact hf a

theorem mapM (hf : ∀ a ∈ xs, FailsWith E (f a)) : FailsWith E (xs.mapM f) := by
  induction xs with
  | nil => exact ok _
  | cons x xs ih =>
    obtain ⟨hx, hxs⟩ := forall_mem_cons.mp hf
    rw [mapM_cons]
    exact hx.bind fun _ => (ih hxs).bind fun _ => ok _

theorem foldlM {f : β → α → Except ε β} (hf : ∀ b a, FailsWith E (f b a)) (xs : List α) (b : β) :
    FailsWith E (xs.foldlM f b) := by
  induction xs generalizing b with
  | nil => exact ok _
  | cons x xs ih =>
    exact (hf b x).bind ih

end FailsWith

def Gives (Q : α → Prop) (x : Except ε α) : Prop :=
  ∀ a, x = .ok a → Q a

namespace Gives

variable {Q S : α → Prop} {R : β → Prop}

theorem ok (ha : Q a) : Gives Q (.ok a : Except ε α) := by
  intro b hb
  cases hb
  exact ha

theorem error (e : ε) : Gives Q (.error e : Except ε α) := by
  intro a ha
  cases ha

theorem bind (hx : Gives Q x) (hf : ∀ a, Q a → Gives R (f a)) : Gives R (x >>= f) := by
  cases x with
  | error e => exact error e
  | ok a => exact hf a (hx a rfl)

theorem skip (hf : ∀ a, Gives R (f a)) : Gives R (x >>= f) := by
  cases x with
  | error e => exact error e
  | ok a => exact hf a

theorem forall₂ {r : α → β → Prop} (hf : ∀ a ∈ xs, Gives (r a) (f a)) :
    Gives (Forall₂ r xs) (xs.mapM f) := by
  induction xs with
  | nil => exact ok .nil
  | cons a xs ih =>
    obtain ⟨ha, hxs⟩ := forall_mem_cons.mp hf
    rw [mapM_cons]
    exact ha.bind fun b hb => (ih hxs).bind fun bs hbs => ok (.cons hb hbs)

theorem mapM (hf : ∀ a ∈ xs, Gives R (f a)) : Gives (fun bs => ∀ b ∈ bs, R b) (xs.mapM f) := by
  intro bs hbs b hb
  obtain ⟨a, -, hab⟩ := mem_of_forall₂ (forall₂ hf bs hbs) hb
  exact hab

theorem mono (hx : Gives Q x) (hQ : ∀ a, Q a → S a) : Gives S x :=
  fun a ha => hQ a (hx a ha)

end Gives

def Ends (E : ε → Prop) (Q : α → Prop) : Except ε α → Prop
  | .ok a => Q a
  | .error e => E e

namespace Ends

variable {Q : α → Prop} {R : β → Prop}

theorem bind (hx : Ends E Q x) (hf : ∀ a, Q a → Ends E R (f a)) : Ends E R (x >>= f) := by
  cases x with
  | error e => exact hx
  | ok a => exact hf a hx

theorem mapM (hf : ∀ a ∈ xs, Ends E R (f a)) : Ends E (fun bs => ∀ b ∈ bs, R b) (xs.mapM f) := by
  induction xs with
  | nil => exact forall_mem_nil R
  | cons a xs ih =>
    obtain ⟨ha, hxs⟩ := forall_mem_cons.mp hf
    rw [mapM_cons]
    exact ha.bind fun b hb => (ih hxs).bind fun bs hbs => forall_mem_cons.mpr ⟨hb, hbs⟩

theorem mapM_length (hf : ∀ a ∈ xs, Ends E R (f a)) :
    Ends E (fun bs => (∀ b ∈ bs, R b) ∧ bs.length = xs.length) (xs.mapM f) := by
  have hall := mapM hf
  cases hxs : xs.mapM f with
  | error e =>
    rw [hxs] at hall
    exact hall
  | ok bs =>
    rw [hxs] at hall
    exact ⟨hall, (mapM_eq_ok.mp hxs).length_eq.symm⟩

theorem mono {D : ε → Prop} {S : α → Prop} (hx : Ends E Q x) (hE : ∀ e, E e → D e)
    (hQ : ∀ a, Q a → S a) : Ends D S x := by
  cases x with
  | error e => exact hE e hx
  | ok a => exact hQ a hx

theorem gives (hx : Ends E Q x) : Gives Q x := by
  cases x with
  | error e => exact .error e
  | ok a => exact .ok hx

end Ends

theorem Gives.ends {Q : α → Prop} (hx : Gives Q x) : Ends (fun _ => True) Q x := by
  cases x with
  | error e => trivial
  | ok a => exact hx a rfl

inductive Meet (E : ε → Prop) (R : α → β → Prop) : Except ε α → Except ε β → Prop
  | ok {a : α} {b : β} (h : R a b) : Meet E R (.ok a) (.ok b)
  | error {e : ε} (h : E e) : Meet E R (.error e) (.error e)

namespace Meet

variable {δ : Type} {S : γ → δ → Prop} {y : Except ε β}

theorem bind {f : α → Except ε γ} {k : β → Except ε δ} (h : Meet E R x y)
    (hf : ∀ a b, R a b → Meet E S (f a) (k b)) : Meet E S (x >>= f) (y >>= k) := by
  cases h with
  | ok h => exact hf _ _ h
  | error he => exact .error he

theorem map {f : α → γ} {k : β → δ} (h : Meet E R x y) (hf : ∀ a b, R a b → S (f a) (k b)) :
    Meet E S (f <$> x) (k <$> y) := by
  cases h with
  | ok h => exact .ok (hf _ _ h)
  | error he => exact .error he

theorem mapM {f : α → Except ε γ} {k : β → Except ε δ}
    (h : Forall₂ (fun a b => Meet E S (f a) (k b)) xs ys) :
    Meet E (fun as bs => as.length = xs.length ∧ Forall₂ S as bs) (xs.mapM f) (ys.mapM k) := by
  induction h with
  | nil => exact .ok ⟨rfl, .nil⟩
  | cons h _ ih =>
    rw [mapM_cons, mapM_cons]
    exact h.bind fun a b hab => ih.bind fun as bs hbs =>
      .ok ⟨congrArg (· + 1) hbs.1, .cons hab hbs.2⟩

theorem eq {R : α → α → Prop} {y : Except ε α} (h : Meet E R x y) (hR : ∀ a b, R a b → a = b) :
    x = y := by
  cases h with
  | ok h => rw [hR _ _ h]
  | error => rfl

theorem ends {R : α → α → Prop} {Q : α → Prop} (h : Meet E R x x) (hR : ∀ a b, R a b → Q a) :
    Ends E Q x := by
  cases x with
  | ok a =>
    cases h with
    | ok h => exact hR _ _ h
  | error e =>
    cases h with
    | error h => exact h

end Meet

theorem run_bind_eq_ok {x : StateT σ (Except ε) α} {f : α → StateT σ (Except ε) β} :
    (x >>= f) s = .ok (b, s') ↔ ∃ a m, x s = .ok (a, m) ∧ f a m = .ok (b, s') := by
  refine (bind_eq_ok (x := x s) (f := fun r => f r.1 r.2)).trans ?_
  exact ⟨fun ⟨r, hr, h⟩ => ⟨r.1, r.2, hr, h⟩, fun ⟨a, m, ha, h⟩ => ⟨(a, m), ha, h⟩⟩

theorem run_mapM_eq_ok {f : α → StateT σ (Except ε) β} {R : σ → σ → Prop} (hrefl : ∀ s, R s s)
    (htrans : ∀ {a b c}, R a b → R b c → R a c) (hf : ∀ {x a y b}, f x a = .ok (y, b) → R a b)
    (h : xs.mapM f s = .ok (ys, s')) :
    R s s' ∧ Forall₂ (fun x y => ∃ a b, f x a = .ok (y, b) ∧ R b s') xs ys := by
  induction xs generalizing s ys with
  | nil =>
    cases h
    exact ⟨hrefl _, .nil⟩
  | cons x xs ih =>
    rw [mapM_cons] at h
    obtain ⟨y, m, hy, h⟩ := run_bind_eq_ok.mp h
    obtain ⟨ys, m', hys, h⟩ := run_bind_eq_ok.mp h
    cases h
    obtain ⟨hrest, hall⟩ := ih hys
    exact ⟨htrans (hf hy) hrest, .cons ⟨s, m, hy, hrest⟩ hall⟩

theorem liftM_eq_ok : (liftM x : StateT σ (Except ε) α) s = .ok (a, s') ↔ x = .ok a ∧ s' = s := by
  cases x with
  | error e =>
    constructor
    · intro h
      cases h
    · rintro ⟨h, -⟩
      cases h
  | ok b =>
    constructor
    · intro h
      cases h
      exact ⟨rfl, rfl⟩
    · rintro ⟨h, rfl⟩
      cases h
      rfl

end Answers
end CypherTraversal
