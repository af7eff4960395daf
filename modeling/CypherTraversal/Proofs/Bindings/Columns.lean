import CypherTraversal.Proofs.Bindings.Values
import CypherTraversal.Proofs.Lowering.Composed

/-! # Columns of projected rows

The values of the items of a projection become the entries of a map. Where some items are
aggregates, rows of keys and arguments are grouped first, and the entries are taken from the keys
and the totals of a group. -/

namespace CypherTraversal

open Run Traverser LowerClause List Traversal

variable {v : ItemValue} {n : Nat} {items : List ResolvedItem} {ok : String → Bool}
  {ps : Parameters} {bs : List Binding} {b : Binding} {S T : Traverser → Prop} {K : Object → Prop}

/-! ### Items -/

def ResolvedItem.binding (input : Scope) (i : ResolvedItem) : Binding :=
  ⟨i.name, Resolve.itemKind input i.value⟩

def ItemValue.allKeys (ok : String → Bool) : ItemValue → Bool
  | expr e => e.allKeys ok
  | aggregate a => Expr.optionKeys ok a.argument

theorem ItemValue.allKeys_iff : v.allKeys ok ↔ v.All fun e => e.allKeys ok := by
  cases v with
  | expr e => exact Iff.rfl
  | aggregate a => exact Expr.optionKeys_iff

theorem ItemValue.allKeys_of_forall (hok : ∀ k, ok k) : ∀ v : ItemValue, v.allKeys ok
  | expr e => e.allKeys_of_forall hok
  | aggregate a => Expr.optionKeys_of_forall hok a.argument

/-! ### Clauses that only read -/

def Vocabulary.reads (ok : String → Bool) : Vocabulary where
  operand _ := True
  constant o := (Step.constant o).readsOnly ok
  bound _ := True
  label _ := True
  key k := ok k
  writes := False

theorem LowersInto.reads (ok : String → Bool) :
    LowersInto (.reads ok) (fun _ e => e.allKeys ok) (fun _ => True) (Filters ok)
      (ReadsOnly ok) where
  toClosedUnderLowering := .every fun s hs => by
    cases s
    case constant => exact hs
    case project keys => exact all_eq_true.mpr hs
    case inject vs =>
      cases hs
      rfl
    case addVertex | addEdge | fromLabel | toLabel | property => cases hs
    all_goals rfl
  within c := Expr.readsWithin ok c
  filters := Filters.readsOnly

theorem argumentValue_readsOnly (c : LoweringContext) (hv : v.allKeys ok) :
    Gives (ReadsOnly ok) (argumentValue c v) :=
  (argumentValue_ends (.reads ok) (ItemValue.allKeys_iff.mp hv)).gives

theorem argumentValue_finds (hps : ∀ p ∈ ps, p.2.allKeys ok) (c : LoweringContext)
    (hv : v.allKeys ok) :
    Gives (Traversal.Finds ok ps (Row ok c.scope.bindings)
      fun x => x.allKeys ok ∧ (Resolve.itemKind c.scope v).describes x) (argumentValue c v) := by
  intro f hf
  have hreads : f.Finds ok ps (Row ok c.scope.bindings) fun x => x.allKeys ok :=
    .reads hps (argumentValue_readsOnly c hv f hf) fun _ ht => ht.keys
  cases v with
  | expr e => exact hreads.and (Expr.value_describes hps c hv f hf)
  | aggregate a => exact fun t ht => (hreads t ht).imp fun _ hx => ⟨hx, rfl⟩

/-! ### Columns -/

theorem isGenerated_argumentColumn (n : Nat) : isGenerated (argumentColumn n) := by
  unfold isGenerated argumentColumn
  rw [String.toList_append, String.toList_append, append_assoc]
  rfl

theorem mem_withColumns_of_plain {i : ResolvedItem}
    (hi : i ∈ items) (hplain : i.value.isAggregate = false) :
    (i, i.name) ∈ withColumns n items := by
  rw [← map_fst_withColumns n items] at hi
  obtain ⟨col, hcol, rfl⟩ := mem_map.mp hi
  rcases (mem_withColumns hcol).2 with ⟨-, hname⟩ | ⟨haggregate, -⟩
  · exact hname ▸ hcol
  · rw [hplain] at haggregate
    cases haggregate

theorem name_mem_withColumns {i : ResolvedItem}
    (hi : i ∈ items) (hplain : i.value.isAggregate = false) :
    i.name ∈ (withColumns n items).map Prod.snd :=
  mem_map_of_mem (mem_withColumns_of_plain hi hplain)

/-! ### Maps of rows -/

namespace Traversal.Finds

theorem moveIn {s : Step} {m : Graph → Traverser → Option Object} {f : Traversal}
    (hs : Step.stage ps s = .process (.moveIn m)) (hstarts : f.Starts ps)
    (hm : ∀ g t, S t → ∃ y, m g t = some y ∧ T (t.moveTo y)) (hf : f.Finds ok ps T K) :
    Finds ok ps S K (s :: f) := by
  intro t ht g hg
  obtain ⟨y, hy, hT⟩ := hm g t ht
  have hstep : (run ps [s] [t]).outcome g = (.ok [t.moveTo y], g) := by
    rw [(Passes.moveIn hs).sends.one trivial, hy]
    rfl
  have hrun : ((run ps (s :: f)).firstOrNull [t]).outcome g =
      ((f.run ps).firstOrNull [t.moveTo y]).outcome g := by
    rw [show s :: f = [s] ++ f from rfl, run_append hstarts, Process.firstOrNull,
      Process.andThen, bind_assoc, outcome_bind_ok hstep, Process.firstOrNull]
  rw [hrun]
  exact hf _ hT g hg

theorem selectEntry (hb : b ∈ bs) :
    Finds ok ps (MapRow ok bs)
      (fun x => x.allKeys ok ∧ ∀ d ∈ bs, d.name = b.name → d.kind.describes x)
      [.select b.name] := by
  refine of_head fun t ht => ?_
  obtain ⟨entries, hobject, hentries⟩ := ht.map
  obtain ⟨y, hy, -⟩ := hentries b hb
  have hselected : t.place.selected b.name = some y := by
    rw [Place.selected, Traverser.place, hobject]
    simp only [hy, Option.some_or]
  refine .of_outcome (select_outcome hselected)
    ⟨_, rfl, Object.allKeys_find? (hobject ▸ ht.keys.object) hy, ?_⟩
  intro d hd hname
  obtain ⟨z, hz, hdescribes⟩ := hentries d hd
  rw [hname, hy] at hz
  cases hz
  exact hdescribes

end Traversal.Finds

structure ResolvedProjection.Named (ok : String → Bool) (p : ResolvedProjection) : Prop where
  distinct : p.names.Nodup
  plain : ∀ i ∈ p.items, isGenerated i.name = false
  names : p.names.all ok
  values : ∀ i ∈ p.items, i.value.allKeys ok

/-- The columns that a projection groups by. -/
def ResolvedProjection.keyItems (p : ResolvedProjection) : List ResolvedItem :=
  p.items.filter fun i => !i.value.isAggregate

abbrev ResolvedProjection.bindings (p : ResolvedProjection) (input : Scope) : List Binding :=
  p.items.map (ResolvedItem.binding input)

abbrev ResolvedProjection.keyBindings (p : ResolvedProjection) (input : Scope) : List Binding :=
  p.keyItems.map (ResolvedItem.binding input)

namespace ResolvedProjection.Named

variable {p : ResolvedProjection} {i : ResolvedItem} {input : Scope}

theorem binding_eq (hp : p.Named ok) (hi : i ∈ p.items)
    (hb : b ∈ p.bindings input) (hname : b.name = i.name) :
    b = i.binding input := by
  obtain ⟨j, hj, rfl⟩ := mem_map.mp hb
  rw [inj_on_of_nodup_map hp.distinct hj hi hname]

theorem name_mem (hb : b ∈ p.bindings input) : b.name ∈ p.names := by
  obtain ⟨j, hj, rfl⟩ := mem_map.mp hb
  exact mem_map_of_mem hj

end ResolvedProjection.Named

structure Traverser.EntryRow (ok : String → Bool) (bs : List Binding) (t : Traverser) : Prop where
  keys : t.AllKeys ok
  entry : ∃ k v, t.object = .entry k v ∧ k.MapOf bs

theorem groupRows_takes (hps : ∀ p ∈ ps, p.2.allKeys ok) {names : List String}
    (hnames : names.all ok) (hbs : bs.map Binding.name = names) :
    Takes ok ps (MapRow ok bs) (EntryRow ok bs)
      [.group, .by (.project names :: names.map fun k => .by [.select k]), .by [.fold],
        .unfold] := by
  have hkey : Traversal.Finds ok ps (MapRow ok bs) (fun x => x.allKeys ok ∧ x.MapOf bs)
      (.project names :: names.map fun k => .by [.select k]) := by
    rw [show (names.map fun k => Step.by [.select k]) =
      (names.map fun k => [Step.select k]).map .by by rw [map_map]; rfl]
    refine .project hnames (fun t ht => .of_forall₂ ht ?_) fun b hb => ?_
    · refine forall₂_map_right_iff.mpr (forall₂_same.mpr fun k hk => ?_)
      rw [← hbs] at hk
      obtain ⟨b, hb, rfl⟩ := mem_map.mp hk
      exact .selectEntry hb
    · rw [← hbs]
      exact mem_map_of_mem hb
  have hgroup : Takes ok ps (MapRow ok bs)
      (fun t => t.AllKeys ok ∧ ∃ gs, t.object = .groups gs ∧ ∀ g ∈ gs, g.1.MapOf bs)
      [.group, .by (.project names :: names.map fun k => .by [.select k]), .by [.fold]] := by
    refine .modulated rfl (.cons ⟨_, rfl⟩ (.cons ⟨_, rfl⟩ .nil)) ?_
    refine .group (K := fun x => x.allKeys ok ∧ x.MapOf bs) (V := fun x => x.allKeys ok)
      hkey (fun ts hts => ?_) fun gs hgs => ?_
    · refine Process.Reads.groupObject (fun q hq => ?_) fun t ht => (hts t ht).keys
      cases hq
      exact ReadsOnly.reads (fun _ hg => hg) hps (.single (.leaf rfl rfl))
    · exact ⟨.fresh (Object.allKeys_groups_iff.mpr fun g hg => ⟨(hgs g hg).1.1, (hgs g hg).2⟩),
        gs, rfl, fun g hg => (hgs g hg).1.2⟩
  refine hgroup.append (h := [.unfold]) (.step rfl (.eachRow fun t ht => .pure ?_))
  obtain ⟨hkeys, gs, hobject, hgs⟩ := ht
  refine forall_mem_map.mpr fun x hx =>
    ⟨hkeys.moveTo (Object.allKeys_parts hkeys.object hx), ?_⟩
  rw [hobject] at hx
  obtain ⟨g, hg, rfl⟩ := mem_map.mp hx
  exact ⟨g.1, g.2, rfl, hgs g hg⟩

section Rows

variable (hps : ∀ p ∈ ps, p.2.allKeys ok) (c : LoweringContext) {p : ResolvedProjection}
  (hp : p.Named ok)

include hps hp

theorem plainRows_takes :
    Gives (Takes ok ps (Row ok c.scope.bindings)
      (MapRow ok (p.bindings c.scope))) (plainRows c p) := by
  have hvalues : Gives (Forall₂ (fun i f => Traversal.Finds ok ps (Row ok c.scope.bindings)
      (fun x => x.allKeys ok ∧ ∀ b ∈ p.bindings c.scope,
        b.name = i.name → b.kind.describes x) f) p.items)
      (p.items.mapM fun i => argumentValue c i.value) :=
    .forall₂ fun i hi f hf t ht =>
      (argumentValue_finds hps c (hp.values i hi) f hf t ht).imp
        fun x hx => ⟨hx.1, fun b hb hname => by rw [hp.binding_eq hi hb hname]; exact hx.2⟩
  refine hvalues.bind fun fs hfs => .ok (FindsFor.takes hp.names (fun t ht => ?_)
    (fun b hb => ResolvedProjection.Named.name_mem hb) fun _ ht => ht.keys)
  exact .of_forall₂ ht (forall₂_map_left_iff.mpr hfs)

/-! ### Groups -/

omit hps in
theorem columns_take {value : ResolvedItem × String → Traversal} (hS : ∀ t, S t → t.AllKeys ok)
    (hvalue : ∀ col ∈ withColumns 0 p.items, Traversal.Finds ok ps S
      (fun x => x.allKeys ok ∧ (col.1.binding c.scope).kind.describes x) (value col)) :
    Takes ok ps S (MapRow ok (p.bindings c.scope))
      (.project p.names :: ((withColumns 0 p.items).map value).map .by) := by
  refine FindsFor.takes hp.names (fun t ht => .of_forall₂ ht ?_)
    (fun b hb => ResolvedProjection.Named.name_mem hb) hS
  rw [names_eq_withColumns]
  refine forall₂_map_same fun col hcol t ht => ?_
  refine (hvalue col hcol t ht).imp fun x hx => ⟨hx.1, fun b hb hname => ?_⟩
  rw [hp.binding_eq (mem_withColumns hcol).1 hb hname]
  exact hx.2

theorem groupItems_take :
    Takes ok ps (EntryRow ok (p.keyBindings c.scope))
      (MapRow ok (p.bindings c.scope))
      (.project p.names :: (withColumns 0 p.items).map groupItem) := by
  rw [map_groupItem]
  refine columns_take c hp (fun _ ht => ht.keys) fun col hcol => ?_
  cases hvalue : col.1.value with
  | aggregate a =>
    have hreads := Traversal.Finds.reads hps (groupValue_in (.reads ok) col trivial trivial)
      fun t (ht : EntryRow ok (p.keyBindings c.scope) t) => ht.keys
    rw [ResolvedItem.binding, hvalue]
    exact fun t ht => (hreads t ht).imp fun _ hx => ⟨hx, rfl⟩
  | expr e =>
    have hkey : col.1.binding c.scope ∈ p.keyBindings c.scope := by
      refine mem_map_of_mem (mem_filter.mpr ⟨(mem_withColumns hcol).1, ?_⟩)
      rw [hvalue]
      rfl
    rw [groupValue, hvalue]
    refine .moveIn (T := MapRow ok (p.keyBindings c.scope)) rfl rfl
      (fun g t ht => ?_) fun t ht => ?_
    · obtain ⟨k, v, hobject, hmap⟩ := ht.entry
      refine ⟨k, by rw [hobject]; rfl, ht.keys.moveTo ?_, hmap⟩
      exact (Object.allKeys_entry_iff.mp (hobject ▸ ht.keys.object)).1
    · exact (Traversal.Finds.selectEntry hkey t ht).imp fun x hx => ⟨hx.1, hx.2 _ hkey rfl⟩

theorem totalItems_take (haggregate : ∀ i ∈ p.items, i.value.isAggregate) :
    Takes ok ps (AllKeys ok) (MapRow ok (p.bindings c.scope))
      (.project p.names :: (withColumns 0 p.items).flatMap totalItem) := by
  rw [flatMap_totalItem fun col hcol => haggregate _ (mem_withColumns hcol).1]
  refine columns_take c hp (fun _ ht => ht) fun col hcol t ht => ?_
  have htotal : (totalValue col).ReadsOnly ok := (totalValue_in (.reads ok) trivial).of_nil .nil
  refine (Traversal.Finds.reads hps htotal (fun _ ht => ht) t ht).imp fun x hx => ⟨hx, ?_⟩
  have hvalue := haggregate _ (mem_withColumns hcol).1
  rw [ResolvedItem.binding]
  cases hkind : col.1.value with
  | aggregate a => rfl
  | expr e =>
    rw [hkind] at hvalue
    cases hvalue

variable (hcolumns : ∀ n, ok (argumentColumn n))

include hcolumns

theorem argumentRows_takes :
    Gives (Takes ok ps (Row ok c.scope.bindings)
      (MapRow ok (p.keyBindings c.scope)))
      (argumentRows c (withColumns 0 p.items)) := by
  have hvalues : Gives (Forall₂ (fun col f => Traversal.Finds ok ps (Row ok c.scope.bindings)
      (fun x => x.allKeys ok ∧ ∀ b ∈ p.keyBindings c.scope,
        b.name = col.2 → b.kind.describes x) f) (withColumns 0 p.items))
      ((withColumns 0 p.items).mapM fun (col : ResolvedItem × String) =>
        argumentValue c col.1.value) :=
    .forall₂ fun col hcol f hf t ht => by
      obtain ⟨hitem, hname⟩ := mem_withColumns hcol
      refine (argumentValue_finds hps c (hp.values _ hitem) f hf t ht).imp
        fun x hx => ⟨hx.1, fun b hb heq => ?_⟩
      have hb' := map_subset _ (filter_subset_self _) hb
      rcases hname with ⟨-, hname⟩ | ⟨-, m, -, hname⟩
      · rw [hp.binding_eq hitem hb' (heq.trans hname)]
        exact hx.2
      · -- a column that was made for an aggregate is no name of an item
        obtain ⟨j, hj, rfl⟩ := mem_map.mp hb'
        have hplain := hp.plain j hj
        rw [show j.name = argumentColumn m from heq.trans hname] at hplain
        rw [isGenerated_argumentColumn] at hplain
        cases hplain
  refine hvalues.bind fun fs hfs => .ok (FindsFor.takes ?_ (fun t ht => ?_) (fun b hb => ?_)
    fun _ ht => ht.keys)
  · refine all_eq_true.mpr (forall_mem_map.mpr fun col hcol => ?_)
    obtain ⟨hitem, ⟨-, hname⟩ | ⟨-, m, -, hname⟩⟩ := mem_withColumns hcol
    · rw [hname]
      exact all_eq_true.mp hp.names _ (mem_map_of_mem hitem)
    · rw [hname]
      exact hcolumns m
  · exact .of_forall₂ ht (forall₂_map_left_iff.mpr hfs)
  · obtain ⟨i, hi, rfl⟩ := mem_map.mp hb
    obtain ⟨hitem, hplain⟩ := mem_filter.mp hi
    exact name_mem_withColumns hitem (by simpa using hplain)

theorem aggregateRows_takes :
    Gives (Takes ok ps (Row ok c.scope.bindings)
      (MapRow ok (p.bindings c.scope))) (aggregateRows c p) := by
  refine (argumentRows_takes hps c hp hcolumns).bind fun rows hrows => ?_
  have hkeys : (p.items.filter fun i => !i.value.isAggregate).map ResolvedItem.name =
    (p.keyBindings c.scope).map Binding.name := by
      rw [map_map]
      rfl
  dsimp only
  split
  · rename_i hempty
    have haggregate : ∀ i ∈ p.items, i.value.isAggregate := by
      simpa using hempty
    have hfold : Takes ok ps (MapRow ok (p.keyBindings c.scope)) (AllKeys ok) [.fold] :=
      .step rfl (Process.Reads.fold.mono (fun _ ht => ht.keys) fun _ ht => ht)
    rw [append_assoc]
    exact .ok (hrows.append (hfold.append (totalItems_take hps c hp haggregate)))
  · have hnames :
        ((p.items.filter fun i => !i.value.isAggregate).map ResolvedItem.name).all ok := by
      refine all_eq_true.mpr fun name hname => all_eq_true.mp hp.names name ?_
      exact map_subset _ (filter_subset_self _) hname
    rw [append_assoc]
    exact .ok (hrows.append ((groupRows_takes hps hnames hkeys.symm).append
      (groupItems_take hps c hp)))

end Rows

end CypherTraversal
