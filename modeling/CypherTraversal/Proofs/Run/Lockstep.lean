import CypherTraversal.Proofs.Run.Carries

/-! # Computations in lockstep

Two computations keep pace if they end both well or both badly, with related answers, graphs and
errors. Each process keeps pace with itself under any bond that respects what it looks at. -/

namespace CypherTraversal

open Run List Modulator

variable {n : Bound} {ks ls : List (Option Process × SortOrder)}

/-! ### Bonds -/

structure Pace where
  graph : Graph → Prop
  later : Graph → Graph → Prop
  error : Error → Error → Prop
  later_refl (g : Graph) : later g g
  later_trans {g h k : Graph} : later g h → later h k → later g k

/-- A relation between rows that goes on while the graph changes. -/
structure Pace.Link (P : Pace) where
  row : Graph → Traverser → Traverser → Prop
  row_later {g h : Graph} {u v : Traverser} : row g u v → P.later g h → row h u v

theorem Pace.Link.rows_later {P : Pace} (S : P.Link) {g h : Graph} {us vs : List Traverser}
    (hrows : Forall₂ (S.row g) us vs) (hlater : P.later g h) : Forall₂ (S.row h) us vs :=
  hrows.imp fun _ _ hrow => S.row_later hrow hlater

structure Pace.Answers {α : Type} (P : Pace) (Q : α → Prop) (r s : Except Error α) : Prop where
  eq : r = s
  fails : FailsWith (fun e => P.error e e) r
  gives : Gives Q r

structure Bond extends Pace where
  row : Graph → Traverser → Traverser → Prop
  object : Graph → Object → Prop
  row_later {g h : Graph} {u v : Traverser} : row g u v → later g h → row h u v
  object_later {g h : Graph} {x : Object} : object g x → later g h → object h x
  same {g : Graph} {u v : Traverser} : row g u v → u.object = v.object
  object_of_row {g : Graph} {u v : Traverser} : row g u v → object g u.object
  moveTo {g : Graph} {u v : Traverser} {x : Object} : row g u v → object g x →
    row g (u.moveTo x) (v.moveTo x)
  fresh {g : Graph} {x : Object} : object g x → row g { object := x } { object := x }
  scalar (g : Graph) (s : Scalar) : object g (.scalar s)
  list {g : Graph} {xs : List Object} : (∀ x ∈ xs, object g x) → object g (.list xs)
  groups {g : Graph} {gs : List (Object × Object)} :
    (∀ e ∈ gs, object g e.1 ∧ object g e.2) → object g (.groups gs)
  part {g : Graph} {x y : Object} : object g x → y ∈ Process.parts x → object g y
  side {g : Graph} {x y : Object} {c : Column} : object g x → Process.sides? c x = some y →
    object g y
  entry {g : Graph} {es : List (String × Object)} {key : String} {y : Object} :
    object g (.map es) → Entries.find? key es = some y → object g y
  vertex {g : Graph} {v : Vertex} : graph g → v ∈ g.vertices → object g (.vertex v.id)
  edges {g : Graph} {u v : Traverser} (d : Direction) (labels : List String) : graph g →
    row g u v → List.Forall₂ (row g) (g.edgesFrom d labels u) (g.edgesFrom d labels v)
  endpoint {g : Graph} {u v : Traverser} (e : Endpoint) : graph g → row g u v →
    g.endpoint? e u = g.endpoint? e v ∧ ∀ w, g.endpoint? e u = some w → object g (.vertex w)
  property {g : Graph} {x : Object} {key : String} {v : Value} : graph g →
    g.property? key x = some v → object g (.ofValue v)

namespace Bond

variable {B : Bond} {g h : Graph} {us vs : List Traverser}

abbrev Rows (B : Bond) (g : Graph) : List Traverser → List Traverser → Prop :=
  List.Forall₂ (B.row g)

def At (B : Bond) (g : Graph) (x y : Object) : Prop :=
  x = y ∧ B.object g x

abbrev link (B : Bond) : B.toPace.Link :=
  ⟨B.row, B.row_later⟩

theorem rows_later (hrows : B.Rows g us vs) (hlater : B.later g h) : B.Rows h us vs :=
  B.link.rows_later hrows hlater

theorem objects_eq (hrows : B.Rows g us vs) :
    us.map Traverser.object = vs.map Traverser.object :=
  map_eq_of_forall₂ hrows fun _ _ hrow => B.same hrow

theorem objects_at (hrows : B.Rows g us vs) : ∀ x ∈ us.map Traverser.object, B.object g x := by
  induction hrows with
  | nil => exact forall_mem_nil _
  | cons hrow _ ih => exact forall_mem_cons.mpr ⟨B.object_of_row hrow, ih⟩

def ofRows (graph : Graph → Prop) (row : Traverser → Traverser → Prop)
    (error : Error → Error → Prop)
    (same : ∀ {u v}, row u v → u.object = v.object)
    (moveTo : ∀ {u v} x, row u v → row (u.moveTo x) (v.moveTo x))
    (fresh : ∀ x, row { object := x } { object := x })
    (edges : ∀ {u v} (g : Graph) d labels, row u v →
      List.Forall₂ row (g.edgesFrom d labels u) (g.edgesFrom d labels v))
    (endpoint : ∀ {u v} (g : Graph) e, row u v → g.endpoint? e u = g.endpoint? e v) : Bond where
  graph := graph
  later _ _ := True
  row _ := row
  object _ _ := True
  error := error
  later_refl _ := trivial
  later_trans _ _ := trivial
  row_later hrow _ := hrow
  object_later _ _ := trivial
  same := same
  object_of_row _ := trivial
  moveTo hrow _ := moveTo _ hrow
  fresh _ := fresh _
  scalar _ _ := trivial
  list _ := trivial
  groups _ := trivial
  part _ _ := trivial
  side _ _ := trivial
  entry _ _ := trivial
  vertex _ _ := trivial
  edges d labels _ hrow := edges _ d labels hrow
  endpoint e _ hrow := ⟨endpoint _ e hrow, fun _ _ => trivial⟩
  property _ _ := trivial

def equal (graph : Graph → Prop) (error : Error → Error → Prop) : Bond :=
  ofRows graph (· = ·) error (congrArg _) (fun _ h => h ▸ rfl) (fun _ => rfl)
    (fun g d labels h => h ▸ List.forall₂_refl (g.edgesFrom d labels _)) fun _ _ h => congrArg _ h

theorem rows_equal : List.Forall₂ (· = ·) us vs ↔ us = vs :=
  iff_of_eq (congrFun₂ (forall₂_eq_eq_eq (α := Traverser)) us vs)

end Bond

/-! ### Computations -/

namespace Run

variable {α α' β β' : Type} {B : Pace} {R : Graph → α → β → Prop} {S : Graph → α' → β' → Prop}
  {g : Graph} {x : Run α} {y : Run β}

def Lockstep (B : Pace) (R : Graph → α → β → Prop) (g : Graph) (x : Run α) (y : Run β) : Prop :=
  ∃ h, B.later g h ∧ B.graph h ∧
    ((∃ a b, x.outcome g = (.ok a, h) ∧ y.outcome g = (.ok b, h) ∧ R h a b) ∨
      ∃ d e, x.outcome g = (.error d, h) ∧ y.outcome g = (.error e, h) ∧ B.error d e)

namespace Lockstep

theorem pure (hg : B.graph g) {a : α} {b : β} (h : R g a b) :
    Lockstep B R g (Pure.pure a) (Pure.pure b) :=
  ⟨g, B.later_refl g, hg, .inl ⟨a, b, rfl, rfl, h⟩⟩

theorem throw (hg : B.graph g) {d e : Error} (h : B.error d e) :
    Lockstep B R g (MonadExcept.throw d) (MonadExcept.throw e) :=
  ⟨g, B.later_refl g, hg, .inr ⟨d, e, rfl, rfl, h⟩⟩

theorem bind {f : α → Run α'} {k : β → Run β'} (hx : Lockstep B R g x y)
    (hf : ∀ h a b, B.later g h → B.graph h → R h a b → Lockstep B S h (f a) (k b)) :
    Lockstep B S g (x >>= f) (y >>= k) := by
  obtain ⟨h, hlater, hh, ⟨a, b, ha, hb, hab⟩ | ⟨d, e, hd, he, hde⟩⟩ := hx
  · obtain ⟨h', hlater', hh', hend⟩ := hf h a b hlater hh hab
    refine ⟨h', B.later_trans hlater hlater', hh', ?_⟩
    rwa [outcome_bind_ok ha, outcome_bind_ok hb]
  · exact ⟨h, hlater, hh, .inr ⟨d, e, outcome_bind_error hd, outcome_bind_error he, hde⟩⟩

theorem map {f : α → α'} {k : β → β'} (hx : Lockstep B R g x y)
    (hf : ∀ h a b, B.later g h → R h a b → S h (f a) (k b)) :
    Lockstep B S g (x >>= fun a => Pure.pure (f a)) (y >>= fun b => Pure.pure (k b)) :=
  hx.bind fun h a b hlater hh hab => .pure hh (hf h a b hlater hab)

theorem mono {T : Graph → α → β → Prop} (hx : Lockstep B R g x y)
    (h : ∀ m a b, B.later g m → R m a b → T m a b) : Lockstep B T g x y := by
  obtain ⟨m, hlater, hm, ⟨a, b, ha, hb, hab⟩ | hfails⟩ := hx
  · exact ⟨m, hlater, hm, .inl ⟨a, b, ha, hb, h m a b hlater hab⟩⟩
  · exact ⟨m, hlater, hm, .inr hfails⟩

theorem onGraph {f : Graph → Run α} {k : Graph → Run β} (hf : Lockstep B R g (f g) (k g)) :
    Lockstep B R g (Run.graph >>= f) (Run.graph >>= k) := by
  obtain ⟨h, hlater, hh, hend⟩ := hf
  refine ⟨h, hlater, hh, ?_⟩
  rwa [outcome_bind_ok (outcome_graph g), outcome_bind_ok (outcome_graph g)]

theorem answer (hg : B.graph g) {Q : α → Prop} {r s : Except Error α} (hr : B.Answers Q r s) :
    Lockstep B (fun _ a b => a = b ∧ Q a) g (Run.ofExcept r) (Run.ofExcept s) := by
  obtain ⟨rfl, hfails, hgives⟩ := hr
  cases r with
  | ok a => exact ⟨g, B.later_refl g, hg, .inl ⟨a, a, rfl, rfl, rfl, hgives a rfl⟩⟩
  | error e => exact ⟨g, B.later_refl g, hg, .inr ⟨e, e, rfl, rfl, hfails e rfl⟩⟩

theorem onExcept (hg : B.graph g) {Q : α' → Prop} {r s : Except Error α'} (hr : B.Answers Q r s)
    {f : α' → Run α} {k : α' → Run β} (hf : ∀ a, Q a → Lockstep B R g (f a) (k a)) :
    Lockstep B R g (Run.ofExcept r >>= f) (Run.ofExcept s >>= k) := by
  obtain ⟨rfl, hfails, hgives⟩ := hr
  cases r with
  | ok a => exact hf a (hgives a rfl)
  | error e => exact ⟨g, B.later_refl g, hg, .inr ⟨e, e, rfl, rfl, hfails e rfl⟩⟩

theorem onChange {h : Graph} (hlater : B.later g h) {f : Unit → Run α} {k : Unit → Run β}
    (hf : Lockstep B R h (f ()) (k ())) :
    Lockstep B R g (Run.setGraph h >>= f) (Run.setGraph h >>= k) := by
  obtain ⟨h', hlater', hh', hend⟩ := hf
  refine ⟨h', B.later_trans hlater hlater', hh', ?_⟩
  rwa [outcome_bind_ok (outcome_setGraph g h), outcome_bind_ok (outcome_setGraph g h)]

theorem ite {c : Bool} {x' : Run α} {y' : Run β} (h : Lockstep B R g x y)
    (h' : Lockstep B R g x' y') :
    Lockstep B R g (if c then x else x') (if c then y else y') := by
  cases c with
  | true => exact h
  | false => exact h'

end Lockstep
end Run

/-! ### Processes -/

namespace Process

variable {P : Pace} {S T U : P.Link} {p q p' q' : Process} {g : Graph} {u v : Traverser}

def InStep (S T : P.Link) (p q : Process) : Prop :=
  ∀ g, P.graph g → ∀ us vs, List.Forall₂ (S.row g) us vs →
    Run.Lockstep P (fun h => List.Forall₂ (T.row h)) g (p us) (q vs)

namespace InStep

theorem pick {f k : List Traverser → List Traverser}
    (h : ∀ g us vs, Forall₂ (S.row g) us vs → Forall₂ (T.row g) (f us) (k vs)) :
    InStep S T (fun ts => return f ts) (fun ts => return k ts) :=
  fun g hg us vs hrows => .pure hg (h g us vs hrows)

theorem same : InStep S S (fun ts => return ts) (fun ts => return ts) :=
  pick fun _ _ _ hrows => hrows

theorem andThen (hp : p.InStep S T q) (hp' : p'.InStep T U q') :
    (p.andThen p').InStep S U (q.andThen q') :=
  fun g hg us vs hrows => (hp g hg us vs hrows).bind fun h ws zs _ hh hws => hp' h hh ws zs hws

theorem on (hp : p.InStep S T q) (hg : P.graph g) (hrow : S.row g u v) :
    Run.Lockstep P (fun h => Forall₂ (T.row h)) g (p.on u) (q.on v) :=
  hp g hg [u] [v] (.cons hrow .nil)

theorem leads (hp : p.InStep S T q) (hg : P.graph g) (hrow : S.row g u v) :
    Run.Lockstep P (fun _ => (· = ·)) g (p.leads u) (q.leads v) := by
  refine (hp.on hg hrow).map fun h us vs _ hrows => ?_
  cases hrows <;> rfl

theorem eachRow {f k : Traverser → Run (List Traverser)}
    (h : ∀ g u v, P.graph g → S.row g u v →
      Run.Lockstep P (fun h => Forall₂ (T.row h)) g (f u) (k v)) :
    (eachRow f).InStep S T (eachRow k) := by
  intro g hg us vs hrows
  induction us generalizing g vs with
  | nil =>
    cases hrows
    exact .pure hg .nil
  | cons u us ih =>
    cases hrows with
    | cons hrow hrows =>
      refine (h g u _ hg hrow).bind fun m fs ks hlater hm hfirst =>
        (ih m hm _ (S.rows_later hrows hlater)).map fun n rs ss hlater' hrest => ?_
      exact rel_append (T.rows_later hfirst hlater') hrest

theorem keep {test test' : Traverser → Run Bool}
    (h : ∀ g u v, P.graph g → S.row g u v →
      Run.Lockstep P (fun _ => (· = ·)) g (test u) (test' v)) :
    (keep test).InStep S S (keep test') := by
  refine eachRow fun g u v hg hrow => (h g u v hg hrow).map ?_
  rintro m b _ hlater rfl
  cases b with
  | true => exact .cons (S.row_later hrow hlater) .nil
  | false => exact .nil

theorem move {f k : Traverser → Run (Option Object)}
    (h : ∀ g u v, P.graph g → S.row g u v → Run.Lockstep P
      (fun h => Option.Rel fun x y => T.row h (u.moveTo x) (v.moveTo y)) g (f u) (k v)) :
    (move f).InStep S T (move k) := by
  refine eachRow fun g u v hg hrow => (h g u v hg hrow).map fun m x y _ hxy => ?_
  cases hxy with
  | none => exact .nil
  | some hxy => exact .cons hxy .nil

section Branches

variable {ps qs : List Process} (h : Forall₂ (InStep S T) ps qs) (hg : P.graph g)
  (hrow : S.row g u v)

include h hg hrow

theorem allLead : Run.Lockstep P (fun _ => (· = ·)) g (allLead u ps) (allLead v qs) := by
  induction h generalizing g with
  | nil => exact .pure hg rfl
  | cons hp _ ih =>
    refine (hp.leads hg hrow).bind ?_
    rintro m a _ hlater hm rfl
    exact .ite (ih hm (S.row_later hrow hlater)) (.pure hm rfl)

theorem someLeads : Run.Lockstep P (fun _ => (· = ·)) g (someLeads u ps) (someLeads v qs) := by
  induction h generalizing g with
  | nil => exact .pure hg rfl
  | cons hp _ ih =>
    refine (hp.leads hg hrow).bind ?_
    rintro m a _ hlater hm rfl
    exact .ite (.pure hm rfl) (ih hm (S.row_later hrow hlater))

theorem union : Run.Lockstep P (fun h => Forall₂ (T.row h)) g (union u ps) (union v qs) := by
  induction h generalizing g with
  | nil => exact .pure hg .nil
  | cons hp _ ih =>
    refine (hp.on hg hrow).bind fun m us vs hlater hm hfirst =>
      (ih hm (S.row_later hrow hlater)).map fun n ws zs hlater' hrest => ?_
    exact rel_append (T.rows_later hfirst hlater') hrest

theorem coalesce :
    Run.Lockstep P (fun h => Forall₂ (T.row h)) g (coalesce u ps) (coalesce v qs) := by
  induction h generalizing g with
  | nil => exact .pure hg .nil
  | cons hp _ ih =>
    refine (hp.on hg hrow).bind fun m us vs hlater hm hrows => ?_
    cases hrows with
    | nil => exact ih hm (S.row_later hrow hlater)
    | cons hfirst hrest => exact .pure hm (.cons hfirst hrest)

end Branches

theorem choose {test test' : Process} (htest : test.InStep S U test') (hyes : p.InStep S T q)
    (hno : p'.InStep S T q') : (choose test p p').InStep S T (choose test' q q') := by
  refine eachRow fun g u v hg hrow => (htest.leads hg hrow).bind ?_
  rintro m a _ hlater hm rfl
  exact .ite (hyes.on hm (S.row_later hrow hlater)) (hno.on hm (S.row_later hrow hlater))

end InStep

abbrev Lockstep (B : Bond) : Process → Process → Prop :=
  InStep B.link B.link

namespace Lockstep

variable {B : Bond}

theorem firstOrNull (hp : p.Lockstep B q) (hg : B.graph g) {us vs : List Traverser}
    (hrows : B.Rows g us vs) :
    Run.Lockstep B.toPace B.At g (p.firstOrNull us) (q.firstOrNull vs) := by
  refine (hp g hg us vs hrows).map fun h ws zs _ hws => ?_
  cases hws with
  | nil => exact ⟨rfl, B.scalar h .null⟩
  | cons hrow _ => exact ⟨B.same hrow, B.object_of_row hrow⟩

theorem keepIn (test : Graph → Object → Bool) : (keepIn test).Lockstep B (keepIn test) :=
  .keep fun _ _ _ hg hrow => .onGraph (.pure hg (by rw [B.same hrow]))

theorem move {f k : Traverser → Run (Option Object)}
    (h : ∀ g u v, B.graph g → B.row g u v →
      Run.Lockstep B.toPace (fun h => Option.Rel (B.At h)) g (f u) (k v)) :
    (move f).Lockstep B (move k) := by
  refine InStep.move fun g u v hg hrow => (h g u v hg hrow).mono fun m x y hlater hxy => ?_
  cases hxy with
  | none => exact .none
  | some hxy =>
    obtain ⟨rfl, hx⟩ := hxy
    exact .some (B.moveTo (B.row_later hrow hlater) hx)

theorem moveIn {f k : Graph → Traverser → Option Object}
    (h : ∀ g u v, B.graph g → B.row g u v → f g u = k g v ∧ ∀ y, f g u = some y → B.object g y) :
    (moveIn f).Lockstep B (moveIn k) := by
  refine move fun g u v hg hrow => .onGraph (.pure hg ?_)
  obtain ⟨heq, hobject⟩ := h g u v hg hrow
  rw [← heq]
  cases hx : f g u with
  | none => exact .none
  | some x => exact .some ⟨rfl, hobject x hx⟩

theorem moveAt {f : Graph → Object → Option Object}
    (h : ∀ g x y, B.graph g → B.object g x → f g x = some y → B.object g y) :
    (Process.moveIn fun g t => f g t.object).Lockstep B (Process.moveIn fun g t => f g t.object) :=
  moveIn fun g u v hg hrow =>
    ⟨by rw [B.same hrow], fun y hy => h g _ y hg (B.object_of_row hrow) hy⟩

theorem collect {f : List Object → Except Error (List Object)}
    (h : ∀ g xs, (∀ x ∈ xs, B.object g x) →
      B.Answers (fun ys => ∀ y ∈ ys, B.object g y) (f xs) (f xs)) :
    (collect f).Lockstep B (collect f) := by
  intro g hg us vs hrows
  unfold Process.collect
  rw [← B.objects_eq hrows]
  exact .onExcept hg (h g _ (B.objects_at hrows)) fun ys hys =>
    .pure hg (forall₂_map_same fun y hy => B.fresh (hys y hy))

/-! ### Duplicates and windows -/

theorem dedup :
    Lockstep B (fun ts => return Process.dedup ts) fun ts => return Process.dedup ts := by
  refine .pick fun g us vs hrows => ?_
  -- the same objects have been seen in both streams
  have hfold (xs : List Object) (as bs : List Traverser) (hacc : B.Rows g as bs) :
      B.Rows g
        (us.foldl (fun (acc : List Object × List Traverser) (t : Traverser) =>
          if acc.1.any fun x => x == t.object then acc else (t.object :: acc.1, t :: acc.2))
          (xs, as)).2
        (vs.foldl (fun (acc : List Object × List Traverser) (t : Traverser) =>
          if acc.1.any fun x => x == t.object then acc else (t.object :: acc.1, t :: acc.2))
          (xs, bs)).2 := by
    induction hrows generalizing xs as bs with
    | nil => exact hacc
    | cons hrow _ ih =>
      rw [foldl_cons, foldl_cons]
      rw [B.same hrow]
      split
      · exact ih xs as bs hacc
      · exact ih _ _ _ (.cons hrow hacc)
  exact rel_reverse (hfold [] [] [] .nil)

theorem window {r s : Except Error Nat} (hr : B.Answers (fun _ => True) r s)
    {f : Nat → List Traverser → List Traverser}
    (hf : ∀ g n us vs, B.Rows g us vs → B.Rows g (f n us) (f n vs)) :
    Lockstep B (fun ts => do return f (← Run.ofExcept r) ts)
      fun ts => do return f (← Run.ofExcept s) ts :=
  fun g hg us vs hrows => .onExcept hg hr fun n _ => .pure hg (hf g n us vs hrows)

theorem skip {ps qs : Parameters}
    (h : B.Answers (fun _ => True) (n.count ps "SKIP") (n.count qs "SKIP")) :
    (skip ps n).Lockstep B (skip qs n) :=
  window (f := List.drop) h fun _ _ _ _ hrows => forall₂_drop _ hrows

theorem limit {ps qs : Parameters}
    (h : B.Answers (fun _ => True) (n.count ps "LIMIT") (n.count qs "LIMIT")) :
    (limit ps n).Lockstep B (limit qs n) :=
  window (f := List.take) h fun _ _ _ _ hrows => forall₂_take _ hrows

theorem range {ps qs : Parameters} {low high : Bound}
    (hlow : B.Answers (fun _ => True) (low.count ps "range") (low.count qs "range"))
    (hhigh : B.Answers (fun _ => True) (high.count ps "range") (high.count qs "range")) :
    (range ps low high).Lockstep B (range qs low high) := by
  intro g hg us vs hrows
  refine .onExcept hg hlow fun first _ => .ite ?_ (.onExcept hg hhigh fun last _ => ?_)
  · exact .pure hg (forall₂_drop first hrows)
  · exact .pure hg (forall₂_take _ (forall₂_drop first hrows))

end Lockstep
end Process

/-! ### Modulated steps -/

inductive Modulator.Lockstep (B : Bond) : Modulator → Modulator → Prop
  | by {p q : Process} (h : p.Lockstep B q) : Lockstep B (.by p) (.by q)
  | byOrder {p q : Process} (h : p.Lockstep B q) (o : SortOrder) :
    Lockstep B (.byOrder p o) (.byOrder q o)
  | fromLabel (l : String) : Lockstep B (.fromLabel l) (.fromLabel l)
  | toLabel (l : String) : Lockstep B (.toLabel l) (.toLabel l)

theorem forall₂_getElem? {α : Type} {R : α → α → Prop} {xs ys : List α} (h : Forall₂ R xs ys)
    (i : Nat) : Option.Rel R xs[i]? ys[i]? := by
  induction h generalizing i with
  | nil => exact .none
  | cons hx _ ih =>
    cases i with
    | zero => exact .some hx
    | succ i => exact ih i

namespace Process.Lockstep

variable {B : Bond} {g : Graph} {u v : Traverser} {us vs : List Traverser} {ms ns : List Modulator}
  {p q : Option Process} (h : Option.Rel (Process.Lockstep B) p q) (hg : B.graph g)
  (hms : Forall₂ (Modulator.Lockstep B) ms ns)

include h hg in
theorem keyObject (hrow : B.row g u v) :
    Run.Lockstep B.toPace B.At g (keyObject p u) (keyObject q v) := by
  cases h with
  | none => exact .pure hg ⟨B.same hrow, B.object_of_row hrow⟩
  | some h => exact h.firstOrNull hg (.cons hrow .nil)

def EntriesAt (B : Bond) (keys : List String) (g : Graph) (es fs : List (String × Object)) : Prop :=
  es = fs ∧ es.map Prod.fst = keys ∧ ∀ e ∈ es, B.object g e.2

theorem projectFrom {ps qs : List Process} (h : Forall₂ (Process.Lockstep B) ps qs)
    (hg : B.graph g) (hrow : B.row g u v) (i : Nat) (keys : List String) :
    Run.Lockstep B.toPace (EntriesAt B keys) g
      (projectFrom ps u i keys) (projectFrom qs v i keys) := by
  induction keys generalizing g i with
  | nil => exact .pure hg ⟨rfl, rfl, forall_mem_nil _⟩
  | cons key keys ih =>
    have hi : Option.Rel (Process.Lockstep B) ps[i % ps.length]? qs[i % qs.length]? := by
      rw [h.length_eq]
      exact forall₂_getElem? h _
    refine (keyObject hi hg hrow).bind ?_
    rintro m x _ hlater hm ⟨rfl, hx⟩
    refine (ih hm (B.row_later hrow hlater) (i + 1)).map ?_
    rintro n es _ hlater' ⟨rfl, hkeys, hes⟩
    refine ⟨rfl, by rw [map_cons, hkeys], ?_⟩
    exact forall_mem_cons.mpr ⟨B.object_later hx hlater', hes⟩

include hms in
theorem processes :
    Forall₂ (Process.Lockstep B) (ms.filterMap process?) (ns.filterMap process?) := by
  refine rel_filterMap (fun m n hm => ?_) hms
  cases hm with
  | «by» h | byOrder h o => exact .some h
  | fromLabel l | toLabel l => exact .none

include hms in
theorem project {keys : List String} (hkeys : ∀ g (es : List (String × Object)),
      es.map Prod.fst = keys → (∀ e ∈ es, B.object g e.2) → B.object g (.map (Entries.ofList es))) :
    (project keys ms).Lockstep B (project keys ns) := by
  refine move fun g u v hg hrow => (projectFrom (processes hms) hg hrow 0 keys).map ?_
  rintro m es _ - ⟨rfl, hfst, hes⟩
  exact .some ⟨rfl, hkeys m es hfst hes⟩

def GroupsAt (B : Bond) (g : Graph) : List (Object × List Traverser) →
    List (Object × List Traverser) → Prop :=
  List.Forall₂ fun a b => B.At g a.1 b.1 ∧ B.Rows g a.2 b.2

variable {as bs : List (Object × List Traverser)}

theorem GroupsAt.later (h : GroupsAt B g as bs) {m : Graph} (hlater : B.later g m) :
    GroupsAt B m as bs :=
  h.imp fun _ _ hab => ⟨⟨hab.1.1, B.object_later hab.1.2 hlater⟩, B.rows_later hab.2 hlater⟩

theorem GroupsAt.add (h : GroupsAt B g as bs) {key : Object} (hkey : B.object g key)
    (hrow : B.row g u v) : GroupsAt B g (addToGroup key u as) (addToGroup key v bs) := by
  induction h with
  | nil => exact .cons ⟨⟨rfl, hkey⟩, .cons hrow .nil⟩ .nil
  | @cons a b as bs hab hrest ih =>
    obtain ⟨k, members⟩ := a
    obtain ⟨l, members'⟩ := b
    obtain ⟨⟨rfl, hk⟩, hmembers⟩ : B.At g k l ∧ B.Rows g members members' := hab
    rw [addToGroup, addToGroup]
    split
    · exact .cons ⟨⟨rfl, hk⟩, rel_append hmembers (.cons hrow .nil)⟩ hrest
    · exact .cons ⟨⟨rfl, hk⟩, hmembers⟩ ih

include h hg in
theorem groupMembers (hrows : B.Rows g us vs) (hgroups : GroupsAt B g as bs) :
    Run.Lockstep B.toPace (GroupsAt B) g (groupMembers p us as) (groupMembers q vs bs) := by
  induction us generalizing g vs as bs with
  | nil =>
    cases hrows
    exact .pure hg hgroups
  | cons u us ih =>
    cases hrows with
    | cons hrow hrows =>
      refine (keyObject h hg hrow).bind ?_
      rintro m x _ hlater hm ⟨rfl, hx⟩
      exact ih hm (B.rows_later hrows hlater)
        ((hgroups.later hlater).add hx (B.row_later hrow hlater))

include h hg in
theorem groupObject (hrows : B.Rows g us vs) :
    Run.Lockstep B.toPace B.At g (groupObject p us) (groupObject q vs) := by
  cases h with
  | none =>
    refine .pure hg ⟨?_, B.list (B.objects_at hrows)⟩
    rw [B.objects_eq hrows]
  | some h => exact h.firstOrNull hg hrows

include h hg in
theorem groupObjects (hgroups : GroupsAt B g as bs) :
    Run.Lockstep B.toPace (fun h xs ys => xs = ys ∧ ∀ x ∈ xs, B.object h x.1 ∧ B.object h x.2) g
      (groupObjects p as) (groupObjects q bs) := by
  induction as generalizing g bs with
  | nil =>
    cases hgroups
    exact .pure hg ⟨rfl, forall_mem_nil _⟩
  | cons a as ih =>
    cases hgroups with
    | @cons _ b _ bs hab hrest =>
      obtain ⟨key, members⟩ := a
      obtain ⟨_, members'⟩ := b
      obtain ⟨⟨rfl, hkey⟩, hmembers⟩ : B.At g key _ ∧ B.Rows g members members' := hab
      refine (groupObject h hg hmembers).bind ?_
      rintro m x _ hlater hm ⟨rfl, hx⟩
      refine (ih hm (GroupsAt.later hrest hlater)).map ?_
      rintro n xs _ hlater' ⟨rfl, hxs⟩
      refine ⟨rfl, forall_mem_cons.mpr ⟨⟨?_, B.object_later hx hlater'⟩, hxs⟩⟩
      exact B.object_later hkey (B.later_trans hlater hlater')

include hms in
theorem group : (group ms).Lockstep B (group ns) := by
  intro g hg us vs hrows
  have hps := processes hms
  have hhead : Option.Rel (Process.Lockstep B) (ms.filterMap process?).head?
      (ns.filterMap process?).head? := by
    simpa only [head?_eq_getElem?] using forall₂_getElem? hps 0
  refine (groupMembers hhead hg hrows .nil).bind fun m as bs _ hm hgroups =>
    (groupObjects (forall₂_getElem? hps 1) hm hgroups).map ?_
  rintro n xs _ - ⟨rfl, hxs⟩
  exact .cons (B.fresh (B.groups hxs)) .nil

def KeysAlike (B : Bond) (k l : Option Process × SortOrder) : Prop :=
  Option.Rel (Process.Lockstep B) k.1 l.1 ∧ k.2 = l.2

include hms in
theorem sortKeys : Forall₂ (KeysAlike B) (sortKeys ms) (sortKeys ns) := by
  have hkeys : Forall₂ (fun k l : Process × SortOrder => k.1.Lockstep B l.1 ∧ k.2 = l.2)
      (ms.filterMap sortKey?) (ns.filterMap sortKey?) := by
    refine rel_filterMap (fun m n hm => ?_) hms
    cases hm with
    | «by» h | byOrder h o => exact .some ⟨h, rfl⟩
    | fromLabel l | toLabel l => exact .none
  cases hms with
  | nil => exact .cons ⟨.none, rfl⟩ .nil
  | cons _ _ =>
    exact rel_map (fun _ _ hk => ⟨.some hk.1, hk.2⟩) hkeys

theorem keyObjects (h : Forall₂ (KeysAlike B) ks ls) (hg : B.graph g) (hrow : B.row g u v) :
    Run.Lockstep B.toPace (fun _ => (· = ·)) g (keyObjects u ks) (keyObjects v ls) := by
  induction h generalizing g with
  | nil => exact .pure hg rfl
  | @cons k l _ _ hk _ ih =>
    obtain ⟨p, o⟩ := k
    obtain ⟨q, _⟩ := l
    obtain ⟨hpq, rfl⟩ : Option.Rel (Process.Lockstep B) p q ∧ o = _ := hk
    refine (keyObject hpq hg hrow).bind ?_
    rintro m x _ hlater hm ⟨rfl, -⟩
    refine (ih hm (B.row_later hrow hlater)).map ?_
    rintro n xs _ - rfl
    rfl

theorem withKeys (h : Forall₂ (KeysAlike B) ks ls) (hg : B.graph g) (hrows : B.Rows g us vs) :
    Run.Lockstep B.toPace (fun h => Forall₂ fun a b => a.1 = b.1 ∧ B.row h a.2 b.2) g
      (withKeys ks us) (withKeys ls vs) := by
  induction us generalizing g vs with
  | nil =>
    cases hrows
    exact .pure hg .nil
  | cons u us ih =>
    cases hrows with
    | cons hrow hrows =>
      refine (keyObjects h hg hrow).bind ?_
      rintro m key _ hlater hm rfl
      refine (ih hm (B.rows_later hrows hlater)).map fun n xs ys hlater' hxs => ?_
      exact .cons ⟨rfl, B.row_later hrow (B.later_trans hlater hlater')⟩ hxs

include hms in
theorem order : (order ms).Lockstep B (order ns) := by
  intro g hg us vs hrows
  refine (withKeys (sortKeys hms) hg hrows).map fun m xs ys _ hxs => ?_
  refine rel_map (fun _ _ hab => hab.2) (Sorting.sort_rel (fun a b c d hab hcd => ?_) hxs)
  rw [hab.1, hcd.1]

include hms in
theorem sourceLabel? : sourceLabel? ms = sourceLabel? ns := by
  unfold Process.sourceLabel?
  generalize (none : Option String) = found
  induction hms generalizing found with
  | nil => rfl
  | cons hm _ ih => cases hm <;> exact ih _

include hms in
theorem targetLabel? : targetLabel? ms = targetLabel? ns := by
  unfold Process.targetLabel?
  generalize (none : Option String) = found
  induction hms generalizing found with
  | nil => rfl
  | cons hm _ ih => cases hm <;> exact ih _

theorem setProperty {key : String}
    (hset : ∀ g u v, B.graph g → B.row g u v → ∀ value,
      Run.Lockstep B.toPace B.Rows g (setElement key u value) (setElement key v value))
    (hvalue : ∀ g x, B.graph g → B.object g x → B.Answers (fun _ => True) (x.toValue g)
      (x.toValue g)) {p q : Process} (h : p.Lockstep B q) :
    (setProperty key p).Lockstep B (setProperty key q) := by
  refine .eachRow fun g u v hg hrow => (h.on hg hrow).bind fun m us vs hlater hm hrows => ?_
  -- the value comes from the first row, or is null; what follows is the same
  cases hrows with
  | nil => exact hset m u v hm (B.row_later hrow hlater) .null
  | cons hfirst _ =>
    have hanswers := hvalue m _ hm (B.object_of_row hfirst)
    nth_rewrite 2 [B.same hfirst] at hanswers
    exact .onGraph (.onExcept hm hanswers fun value _ =>
      hset m u v hm (B.row_later hrow hlater) value)

end Process.Lockstep
end CypherTraversal
