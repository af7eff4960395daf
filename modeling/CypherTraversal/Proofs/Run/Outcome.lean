import CypherTraversal.Run.Traversal

/-! # Outcomes of computations

A computation on a graph ends with an answer or an error, and with the graph that it leaves. -/

namespace CypherTraversal

variable {e : Error} {g h : Graph}

namespace Run

variable {α β : Type}

/-- How a computation ends on a graph, and the graph that it leaves. -/
def outcome (x : Run α) (g : Graph) : Except Error α × Graph :=
  x.run.run g

@[simp]
theorem outcome_pure (a : α) (g : Graph) : (pure a : Run α).outcome g = (.ok a, g) := rfl

@[simp]
theorem outcome_graph (g : Graph) : graph.outcome g = (.ok g, g) := rfl

@[simp]
theorem outcome_setGraph (g h : Graph) : (setGraph h).outcome g = (.ok (), h) := rfl

@[simp]
theorem outcome_ofExcept (x : Except Error α) (g : Graph) : (ofExcept x).outcome g = (x, g) := rfl

theorem outcome_bind (x : Run α) (f : α → Run β) (g : Graph) :
    (x >>= f).outcome g =
      match x.outcome g with
      | (.ok a, h) => (f a).outcome h
      | (.error e, h) => (.error e, h) := by
  rcases hx : x.outcome g with ⟨r, h⟩
  replace hx : x.run.run g = (r, h) := hx
  show (x >>= f).run.run g = _
  rw [ExceptT.run_bind, StateT.run_bind, hx]
  cases r <;> rfl

theorem outcome_bind_ok {x : Run α} {f : α → Run β} {a : α} (hx : x.outcome g = (.ok a, h)) :
    (x >>= f).outcome g = (f a).outcome h := by
  rw [outcome_bind, hx]

theorem outcome_bind_error {x : Run α} {f : α → Run β} (hx : x.outcome g = (.error e, h)) :
    (x >>= f).outcome g = (.error e, h) := by
  rw [outcome_bind, hx]

theorem of_outcome_bind {x : Run α} {f : α → Run β} {b : β}
    (hrun : (x >>= f).outcome g = (.ok b, h)) :
    ∃ a m, x.outcome g = (.ok a, m) ∧ (f a).outcome m = (.ok b, h) := by
  rcases hx : x.outcome g with ⟨r, m⟩
  cases r with
  | error e =>
    rw [outcome_bind_error hx] at hrun
    cases hrun
  | ok a =>
    rw [outcome_bind_ok hx] at hrun
    exact ⟨a, m, rfl, hrun⟩

theorem of_outcome_both {γ : Type} {x : Run α} {f : α → Run β} {k : α → β → γ} {c : γ}
    (hrun : (x >>= fun a => f a >>= fun b => pure (k a b) : Run γ).outcome g = (.ok c, h)) :
    ∃ a m b, x.outcome g = (.ok a, m) ∧ (f a).outcome m = (.ok b, h) ∧ k a b = c := by
  obtain ⟨a, m, ha, hrun⟩ := of_outcome_bind hrun
  obtain ⟨b, m', hb, hrun⟩ := of_outcome_bind hrun
  cases hrun
  exact ⟨a, m, b, ha, hb, rfl⟩

theorem of_outcome_ofExcept {x : Except Error α} {f : α → Run β} {b : β}
    (hrun : (ofExcept x >>= f).outcome g = (.ok b, h)) :
    ∃ a, x = .ok a ∧ (f a).outcome g = (.ok b, h) := by
  obtain ⟨a, m, hx, hrun⟩ := of_outcome_bind hrun
  rw [outcome_ofExcept, Prod.mk.injEq] at hx
  exact ⟨a, hx.1, hx.2 ▸ hrun⟩

/-! ### What computations ensure -/

def Ensures (I : Graph → Prop) (Q : α → Prop) (E : Error → Prop) (x : Run α) : Prop :=
  ∀ g, I g → ∃ h, I h ∧
    ((∃ a, x.outcome g = (.ok a, h) ∧ Q a) ∨ (∃ e, x.outcome g = (.error e, h) ∧ E e))

namespace Ensures

variable {I : Graph → Prop} {Q Q' : α → Prop} {R : β → Prop} {E E' : Error → Prop} {x : Run α}

theorem pure {a : α} (h : Q a) : (Pure.pure a : Run α).Ensures I Q E :=
  fun g hg => ⟨g, hg, Or.inl ⟨a, rfl, h⟩⟩

theorem throw (h : E e) : (MonadExcept.throw e : Run α).Ensures I Q E :=
  fun g hg => ⟨g, hg, Or.inr ⟨e, rfl, h⟩⟩

theorem graph : Run.graph.Ensures I I E :=
  fun g hg => ⟨g, hg, Or.inl ⟨g, rfl, hg⟩⟩

theorem setGraph (h : I g) : (Run.setGraph g).Ensures I (fun _ => True) E :=
  fun _ _ => ⟨g, h, Or.inl ⟨(), rfl, trivial⟩⟩

theorem ofExcept {r : Except Error α} (hok : ∀ a, r = .ok a → Q a)
    (herror : ∀ e, r = .error e → E e) : (Run.ofExcept r).Ensures I Q E := by
  intro g hg
  cases r with
  | ok a => exact ⟨g, hg, Or.inl ⟨a, rfl, hok a rfl⟩⟩
  | error e => exact ⟨g, hg, Or.inr ⟨e, rfl, herror e rfl⟩⟩

theorem bind {f : α → Run β} (hx : x.Ensures I Q E) (hf : ∀ a, Q a → (f a).Ensures I R E) :
    (x >>= f).Ensures I R E := by
  intro g hg
  obtain ⟨h, hh, ⟨a, hr, ha⟩ | ⟨e, hr, he⟩⟩ := hx g hg
  · rw [outcome_bind_ok hr]
    exact hf a ha h hh
  · exact ⟨h, hh, Or.inr ⟨e, outcome_bind_error hr, he⟩⟩

theorem mono (hx : x.Ensures I Q E) (hQ : ∀ a, Q a → Q' a) (hE : ∀ e, E e → E' e) :
    x.Ensures I Q' E' := by
  intro g hg
  obtain ⟨h, hh, ⟨a, hr, ha⟩ | ⟨e, hr, he⟩⟩ := hx g hg
  · exact ⟨h, hh, Or.inl ⟨a, hr, hQ a ha⟩⟩
  · exact ⟨h, hh, Or.inr ⟨e, hr, hE e he⟩⟩

theorem imp (hx : x.Ensures I Q E) (hQ : ∀ a, Q a → Q' a) : x.Ensures I Q' E :=
  hx.mono hQ fun _ he => he

theorem and (hx : x.Ensures I Q E) (hx' : x.Ensures I Q' E) :
    x.Ensures I (fun a => Q a ∧ Q' a) E := by
  intro g hg
  obtain ⟨h, hh, ⟨a, hr, ha⟩ | ⟨e, hr, he⟩⟩ := hx g hg
  · obtain ⟨h', -, ⟨a', hr', ha'⟩ | ⟨e, hr', -⟩⟩ := hx' g hg
    · rw [hr] at hr'
      cases hr'
      exact ⟨h, hh, Or.inl ⟨a, hr, ha, ha'⟩⟩
    · rw [hr] at hr'
      cases hr'
  · exact ⟨h, hh, Or.inr ⟨e, hr, he⟩⟩

theorem of_outcome {a : α} (hx : ∀ g, x.outcome g = (.ok a, g)) (ha : Q a) : x.Ensures I Q E :=
  fun g hg => ⟨g, hg, Or.inl ⟨a, hx g, ha⟩⟩

theorem of_ok {a : α} (hx : x.Ensures I Q E) (hg : I g) (hr : x.outcome g = (.ok a, h)) :
    I h ∧ Q a := by
  obtain ⟨h', hh, ⟨b, hr', hb⟩ | ⟨e, hr', -⟩⟩ := hx g hg
  · rw [hr] at hr'; cases hr'; exact ⟨hh, hb⟩
  · rw [hr] at hr'; cases hr'

theorem of_error (hx : x.Ensures I Q E) (hg : I g) (hr : x.outcome g = (.error e, h)) :
    I h ∧ E e := by
  obtain ⟨h', hh, ⟨b, hr', -⟩ | ⟨d, hr', hd⟩⟩ := hx g hg
  · rw [hr] at hr'; cases hr'
  · rw [hr] at hr'; cases hr'; exact ⟨hh, hd⟩

theorem trivial : x.Ensures (fun _ => True) (fun _ => True) fun _ => True := by
  intro g _
  rcases hx : x.outcome g with ⟨r, h⟩
  cases r with
  | ok a => exact ⟨h, .intro, .inl ⟨a, rfl, .intro⟩⟩
  | error e => exact ⟨h, .intro, .inr ⟨e, rfl, .intro⟩⟩

end Ensures

end Run
end CypherTraversal
