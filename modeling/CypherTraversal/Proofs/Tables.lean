import CypherTraversal.Proofs.Creation.Effect
import CypherTraversal.Proofs.Relabelled.Union

/-! # Tables and their columns

The columns of a result are known when a query is resolved, the keys of its rows after a run. The
last projection of a single query leads to maps under its names, and all that comes
behind it, up to the end of the query, picks from these rows or puts them in another order. -/

namespace CypherTraversal

open Run List Traverser Resolve Traversal

variable {T : Traverser → Prop} {columns : List String} {g : Graph} {p : ResolvedProjection}
  {ps : Parameters} {q : Query} {r : ResolvedQuery} {rs : List ResolvedClause} {text : String}
  {values : List Value}

/-! ### Keys of entries -/

namespace Entries

variable {α : Type}

theorem keys_insert {key : String} {v : α} {entries : Entries α} (h : key ∉ entries.keys) :
    (insert key v entries).keys.Perm (key :: entries.keys) := by
  induction entries with
  | nil => exact .refl _
  | cons e rest ih =>
    obtain ⟨k, w⟩ := e
    obtain ⟨hk, hrest⟩ := not_or.mp (mem_cons.not.mp h)
    rw [insert, if_neg hk]
    split
    · exact .refl _
    · exact ((ih hrest).cons k).trans (.swap key k (keys rest))

theorem keys_foldl_insert {pairs : List (String × α)} {acc : Entries α}
    (h : (acc.keys ++ pairs.map Prod.fst).Nodup) :
    (pairs.foldl (fun entries p => insert p.1 p.2 entries) acc).keys.Perm
      (acc.keys ++ pairs.map Prod.fst) := by
  induction pairs generalizing acc with
  | nil => rw [map_nil, append_nil]; exact .refl _
  | cons p pairs ih =>
    have hmiddle : (acc.keys ++ p.1 :: pairs.map Prod.fst).Perm
        ((p.1 :: acc.keys) ++ pairs.map Prod.fst) := perm_middle
    have hdistinct := hmiddle.nodup_iff.mp h
    have hkeys : (insert p.1 p.2 acc).keys.Perm (p.1 :: acc.keys) :=
      keys_insert fun hp => (nodup_cons.mp hdistinct).1 (mem_append_left _ hp)
    have hnext := hkeys.append_right (pairs.map Prod.fst)
    exact (ih (hnext.nodup_iff.mpr hdistinct)).trans (hnext.trans hmiddle.symm)

theorem keys_ofList {pairs : List (String × α)} (h : (pairs.map Prod.fst).Nodup) :
    (ofList pairs).keys.Perm (pairs.map Prod.fst) :=
  keys_foldl_insert (show (keys [] ++ pairs.map Prod.fst).Nodup from h)

theorem has_of_mem_keys {key : String} {entries : Entries α} (h : key ∈ entries.keys) :
    has key entries := by
  induction entries with
  | nil => cases h
  | cons e rest ih =>
    obtain ⟨k, v⟩ := e
    unfold has find?
    split
    · rfl
    · rename_i hne
      rcases mem_cons.mp h with h | h
      · exact absurd h.symm hne
      · exact ih h

end Entries

/-! ### Rows -/

def Traverser.HasColumns (names : List String) (t : Traverser) : Prop :=
  ∃ entries, t.object = .map entries ∧ (Entries.keys entries).Perm names

namespace Traversal

variable {ps : Parameters} {T : Traverser → Prop}

theorem project_columns {names : List String} (hnames : names.Nodup) {steps : List Step}
    {ms : List Modulator} (hsteps : Step.Modulate ps steps ms) :
    Brings ps (fun _ => True) (HasColumns names) (.project names :: steps) := by
  refine .modulated rfl hsteps (Process.Carries.project (Q := fun _ _ => True) ?_ ?_)
  · exact fun t _ j key _ => Ensures.trivial
  · intro t _ es hes _
    refine ⟨Entries.ofList es, rfl, ?_⟩
    rw [← hes] at hnames ⊢
    exact Entries.keys_ofList hnames

def LeadsTo (ps : Parameters) (T : Traverser → Prop) (f : Traversal) : Prop :=
  (f.run ps).Carries (fun _ => True) (fun _ => True) (fun _ => True) T

theorem Brings.behind {front last : Traversal} (hlast : last.Brings ps (fun _ => True) T) :
    LeadsTo ps T (front ++ last) := by
  unfold LeadsTo
  rw [run_append hlast.starts]
  exact Process.Carries.andThen (fun _ _ => Ensures.trivial.imp fun _ _ _ _ => trivial)
    hlast.carries

end Traversal

namespace LowerClause

variable {ps : Parameters} {env : Env} {c : LoweringContext}

theorem modulate_totalItems (columns : List (ResolvedItem × String)) :
    ∃ ms, Step.Modulate ps (columns.flatMap totalItem) ms := by
  induction columns with
  | nil => exact ⟨[], .nil⟩
  | cons column columns ih =>
    obtain ⟨ms, hms⟩ := ih
    rw [flatMap_cons]
    unfold totalItem
    split
    · exact ⟨_ :: ms, .cons ⟨_, rfl⟩ hms⟩
    · exact ⟨ms, hms⟩

theorem modulate_groupItems (columns : List (ResolvedItem × String)) :
    ∃ ms, Step.Modulate ps (columns.map groupItem) ms := by
  induction columns with
  | nil => exact ⟨[], .nil⟩
  | cons column columns ih =>
    obtain ⟨ms, hms⟩ := ih
    rw [map_cons]
    unfold groupItem
    split
    · exact ⟨_ :: ms, .cons ⟨_, rfl⟩ hms⟩
    · exact ⟨_ :: ms, .cons ⟨_, rfl⟩ hms⟩

theorem projectedRows_columns (hnames : p.names.Nodup) :
    Gives (Brings ps (fun _ => True) (HasColumns p.names)) (projectedRows c p) := by
  intro f hf
  unfold projectedRows at hf
  split at hf
  · -- the last step of both forms, with its modulators, is a projection of the names
    have hlast (rows front : Traversal) {steps : Traversal} (hrows : rows.Starts ps)
        (hfront : front.Starts ps) (hsteps : ∃ ms, Step.Modulate ps steps ms) :
        Brings ps (fun _ => True) (HasColumns p.names)
          (rows ++ (front ++ .project p.names :: steps)) := by
      obtain ⟨ms, hms⟩ := hsteps
      have hproject := Traversal.project_columns hnames hms
      refine ⟨hrows.append (hfront.append hproject.starts), ?_⟩
      rw [← append_assoc]
      exact hproject.behind
    obtain ⟨rows, hrows, hf⟩ := bind_eq_ok.mp hf
    obtain ⟨values, -, hrows⟩ := bind_eq_ok.mp hrows
    cases hrows
    dsimp only at hf
    split at hf
    all_goals
      cases hf
      rw [append_assoc]
    · exact hlast _ [.fold] rfl rfl (modulate_totalItems _)
    · exact hlast _ [.group, .by _, .by _, .unfold] rfl rfl (modulate_groupItems _)
  · obtain ⟨values, -, hf⟩ := bind_eq_ok.mp hf
    cases hf
    exact Traversal.project_columns hnames (Step.modulate_by ps values)

theorem project_columns (hfinal : p.final) (hnames : p.names.Nodup) (scopeIn scopeOut : ScopeId)
    (current : Option String) :
    Gives (fun x => Brings ps (fun _ => True) (HasColumns p.names) x.1)
      (project env scopeIn scopeOut p current) := by
  have hkeys (k : String) : (fun _ => true) k := rfl
  have hkept : Gives (Brings ps (HasColumns p.names)
      (HasColumns p.names)) (keptRows env p) :=
    (keptRows_carries (fun g _ => .of_forall hkeys g) (fun p _ => p.2.allKeys_of_forall hkeys)
      (fun o _ => o.expr.allKeys_of_forall hkeys) fun t _ => .of_forall hkeys t).mono
        fun f hf => hf.brings
  rw [project_eq, hfinal]
  exact (projectedRows_columns hnames).bind fun rows hrows => hkept.bind fun kept hkept =>
    .ok (hrows.append hkept)

end LowerClause

/-! ### Single queries -/

inductive Resolve.Closes : List ResolvedClause → Prop
  | project {rs : List ResolvedClause} {r : ResolvedClause} {p : ResolvedProjection}
      (body : r.body = .project p) (final : p.final) (names : p.names.Nodup) : Closes (rs ++ [r])
  | create {rs : List ResolvedClause} {r : ResolvedClause} {patterns : List ResolvedPattern}
      (body : r.body = .create patterns) : Closes (rs ++ [r])

theorem Query.resolve_closes (hq : Query.parse text = .ok q) (h : q.resolve = .ok r) :
    ∀ rs ∈ r.branches, Closes rs := by
  intro rs hrs
  obtain ⟨cs, hcs, st, st', hbranch, -⟩ := mem_of_forall₂ (Query.resolve_from h) hrs
  have halternate := patterns_alternate hq cs hcs
  obtain ⟨-, -, -, hall, -⟩ := branch_eq_ok halternate hbranch
  obtain ⟨first, last, rfl, hlast⟩ := checkClauses_last (branch_run hbranch).1
  obtain ⟨rs, r, rfl, -, hr⟩ := forall₂_concat hall
  rcases hlast with ⟨w, rfl⟩ | ⟨ws, rfl⟩
  · cases hr with
    | project body final _ _ _ distinct _ _ _ => exact .project body final distinct
  · cases hr with
    | create body _ _ _ _ _ => exact .create body

theorem Resolve.Closes.columns_nodup (h : Closes rs) : (columnsOf rs).Nodup := by
  unfold columnsOf
  cases h with
  | project body final names =>
    rw [getLast?_concat, Option.map_some, body]
    exact names
  | create body =>
    rw [getLast?_concat, Option.map_some, body]
    exact nodup_nil

namespace LowerClause

variable {ps : Parameters} {env : Env}

theorem branch_create {r : ResolvedClause} (hr : r.isCreate) :
    Gives (Traversal.LeadsTo ps fun _ => False) (branch env (rs ++ [r])) := by
  intro f hf
  obtain ⟨front, current, k, after, -, -, rfl⟩ := branch_concat hf
  have hnone : Brings ps (fun _ => True) (fun _ => False)
      [.barrier, .limit (.literal 0)] :=
    ⟨rfl, fun ts _ => .pure (forall_mem_nil _)⟩
  rw [if_pos hr, ← append_assoc]
  exact hnone.behind

theorem branch_columns (h : Closes rs) :
    Gives (Traversal.LeadsTo ps (HasColumns (columnsOf rs))) (branch env rs) := by
  cases h with
  | @project rs r p body final names =>
    intro f hf
    obtain ⟨front, current, k, after, -, hk, rfl⟩ := branch_concat hf
    have hcolumns : columnsOf (rs ++ [r]) = p.names := by
      rw [columnsOf, getLast?_concat, Option.map_some, body]
    have hcreate : r.isCreate = false := by rw [ResolvedClause.isCreate, body]
    rw [clause, body] at hk
    rw [hcolumns, hcreate, if_neg Bool.false_ne_true, append_nil]
    exact (project_columns final names r.scopeIn r.scopeOut current _ hk).behind
  | @create rs r patterns body =>
    intro f hf
    have hcreate : r.isCreate := by rw [ResolvedClause.isCreate, body]
    exact Process.Carries.mono (branch_create hcreate f hf) (fun _ ht => ht) fun _ => False.elim

end LowerClause

theorem ResolvedQuery.joinBranches_leadsTo (q : ResolvedQuery) {fs : List Traversal}
    (h : ∀ f ∈ fs, f.LeadsTo ps T) : (q.joinBranches fs).LeadsTo ps T := by
  have hstart {f : Traversal} (hf : f.LeadsTo ps T) :
      Traversal.LeadsTo ps T (.inject [.str startMark] :: f) :=
    Process.Carries.andThen (fun _ _ => Ensures.trivial.imp fun _ _ _ _ => trivial) hf
  have hunion : Brings ps (fun _ => True) T [.union fs] := .union h
  unfold joinBranches
  split
  · have hf := h _ mem_cons_self
    split
    · exact hf
    · exact hstart hf
  · refine hstart (hunion.append ?_).carries
    split
    · exact .step rfl (.pick fun _ _ => Process.Reads.mem_dedup)
    · exact .nil

/-! ### Answers -/

theorem Object.keys_toEntries {entries : List (String × Object)} {values : List (String × Value)}
    (h : toEntries g entries = .ok values) : Entries.keys values = Entries.keys entries := by
  rw [toEntries_eq_mapM, mapM_eq_ok] at h
  refine (map_eq_of_forall₂ h fun e v hv => ?_).symm
  obtain ⟨_, -, hv⟩ := bind_eq_ok.mp hv
  cases hv
  rfl

theorem Traverser.HasColumns.toValues {us : List Traverser} (hus : ∀ u ∈ us, u.HasColumns columns)
    (h : Object.toValues g (us.map Traverser.object) = .ok values) :
    ∃ rows : List (Entries Value), values = rows.map .map ∧ ∀ r ∈ rows, r.keys.Perm columns := by
  induction us generalizing values with
  | nil =>
    cases h
    exact ⟨[], rfl, forall_mem_nil _⟩
  | cons u us ih =>
    obtain ⟨⟨entries, hobject, hkeys⟩, hus⟩ := forall_mem_cons.mp hus
    rw [map_cons, hobject] at h
    obtain ⟨v, hv, h⟩ := bind_eq_ok.mp h
    obtain ⟨vs, hvs, h⟩ := bind_eq_ok.mp h
    cases h
    obtain ⟨row, hrow, hv⟩ := bind_eq_ok.mp hv
    cases hv
    obtain ⟨rows, rfl, hrows⟩ := ih hus hvs
    refine ⟨row :: rows, rfl, forall_mem_cons.mpr ⟨?_, hrows⟩⟩
    rw [Object.keys_toEntries hrow]
    exact hkeys

theorem Table.row_map {row : Entries Value} (h : row.keys.Perm columns) :
    Table.row columns (.map row) = row := by
  have hall : (columns.all fun c => Entries.has c row) = true :=
    all_eq_true.mpr fun c hc => Entries.has_of_mem_keys (h.mem_iff.mpr hc)
  unfold Table.row
  dsimp only
  rw [if_pos hall, filter_eq_self]
  exact fun e he => contains_iff_mem.mpr (h.mem_iff.mp (mem_map_of_mem he))

theorem Table.ofValues_map {rows : List (Entries Value)} (h : ∀ r ∈ rows, r.keys.Perm columns) :
    Table.ofValues columns (rows.map .map) = ⟨columns, rows⟩ := by
  have hrows : (rows.map Value.map).map (Table.row columns) = rows := by
    rw [map_map]
    exact (map_congr_left fun r hr => Table.row_map (h r hr)).trans (map_id rows)
  rw [Table.ofValues, hrows]

theorem Traversal.LeadsTo.execute {f : Traversal} (hf : f.LeadsTo ps T) {g' : Graph}
    (hrun : f.execute ps g = (.ok values, g')) :
    ∃ us : List Traverser, (∀ u ∈ us, T u) ∧
      Object.toValues g' (us.map Traverser.object) = .ok values := by
  obtain ⟨us, h, hus, hvalues⟩ := of_outcome_bind hrun
  have hkind := (hf f.input fun _ _ => trivial).of_ok trivial hus
  have hrows : (Object.toValues h (us.map Traverser.object), h) = (.ok values, g') := hvalues
  obtain ⟨hanswer, rfl⟩ := Prod.mk.inj hrows
  exact ⟨us, hkind.2, hanswer⟩

theorem Query.lower_columns (hq : Query.parse text = .ok q) (hr : q.resolve = .ok r)
    {l : LoweredQuery} (hl : r.lower ps = .ok l) :
    l.columns.Nodup ∧ l.traversal.LeadsTo ps (HasColumns l.columns) := by
  obtain ⟨-, -, hl⟩ := bind_eq_ok.mp hl
  obtain ⟨fs, hfs, hl⟩ := bind_eq_ok.mp hl
  cases hl
  have hcloses := Query.resolve_closes hq hr
  obtain ⟨first, rest, hbranches, hcolumns, hrest⟩ := Query.resolve_columns hr
  have hsame : ∀ rs ∈ r.branches, columnsOf rs = r.columns := by
    rw [hbranches]
    exact forall_mem_cons.mpr ⟨hcolumns.symm, fun rs hrs => (hrest rs hrs).1⟩
  constructor
  · exact hcolumns ▸ (hcloses first (hbranches ▸ mem_cons_self)).columns_nodup
  · refine r.joinBranches_leadsTo (Gives.mapM (fun rs hrs => ?_) fs hfs)
    rw [← hsame rs hrs]
    exact LowerClause.branch_columns (hcloses rs hrs)

theorem Query.lower_create (hq : Query.parse text = .ok q) (hr : q.resolve = .ok r)
    {l : LoweredQuery} (hl : r.lower ps = .ok l) {cs : List Clause} {ws : List (Pattern Expr)}
    (hlast : q.singles.getLast? = some (cs ++ [.create ws])) :
    l.columns = [] ∧ l.traversal.LeadsTo ps fun _ => False := by
  obtain ⟨-, rs, c, hbranches, hcolumns, -, -, hcreate⟩ := Query.single_of_create hq hr hlast
  obtain ⟨-, -, hl⟩ := bind_eq_ok.mp hl
  obtain ⟨fs, hfs, hl⟩ := bind_eq_ok.mp hl
  cases hl
  rw [hbranches] at hfs
  refine ⟨hcolumns, r.joinBranches_leadsTo (Gives.mapM (forall_mem_singleton.mpr ?_) fs hfs)⟩
  exact LowerClause.branch_create hcreate.isCreate_eq

theorem Session.submit_eq_ok {s s' : Session} {table : Table}
    (h : s.submit text ps = (.ok table, s')) :
    ∃ p t values, s.prepare text ps = .ok p ∧ p.traversal? = some t ∧
      t.execute p.parameters s.graph = (.ok values, s'.graph) ∧
      table = Table.ofValues p.columns values := by
  unfold Session.submit at h
  split at h
  · cases h
  · rename_i p hp
    split at h
    · cases h
    · rename_i t ht
      rcases hrun : t.execute p.parameters s.graph with ⟨answer, g'⟩
      rw [hrun] at h
      cases answer with
      | error e => cases h
      | ok values =>
        cases h
        exact ⟨p, t, values, hp, ht, hrun, rfl⟩

/-- **The rows of a table have exactly its columns,** which all differ: what a run answers are the
rows of the table as they are, and no value has to stand alone under the first column. After CREATE
there are neither columns nor rows. -/
theorem Session.submit_columns {s s' : Session} {text : String} {ps : Parameters} {table : Table}
    (h : s.submit text ps = (.ok table, s')) :
    table.columns.Nodup ∧ (∀ r ∈ table.rows, r.keys.Perm table.columns) ∧
      (∃ p t, s.prepare text ps = .ok p ∧ p.traversal? = some t ∧ p.columns = table.columns ∧
        t.execute p.parameters s.graph = (.ok (table.rows.map .map), s'.graph)) ∧
      ∀ q cs ws, Query.parse text = .ok q → q.singles.getLast? = some (cs ++ [.create ws]) →
        table.columns = [] ∧ table.rows = [] := by
  obtain ⟨p, t, values, hp, ht, hrun, htable⟩ := submit_eq_ok h
  obtain ⟨q, r, l, hq, hr, hl, hps, hcolumns, -, htraversal⟩ :=
    compile_eq_ok (compile_of_prepare hp)
  have hexecute := execute_of_restricted (htraversal t ht) hrun
  rw [hps] at hexecute
  obtain ⟨hnodup, hleads⟩ := Query.lower_columns hq hr hl
  obtain ⟨us, hus, hvalues⟩ := hleads.execute hexecute
  obtain ⟨rows, rfl, hrows⟩ := HasColumns.toValues hus hvalues
  rw [hcolumns, Table.ofValues_map hrows] at htable
  subst htable
  refine ⟨hnodup, hrows, ⟨p, t, hp, ht, hcolumns, hrun⟩, fun q' cs ws hq' hlast => ?_⟩
  cases hq.symm.trans hq'
  obtain ⟨hnone, hleads⟩ := Query.lower_create hq hr hl hlast
  obtain ⟨us, hus, hvalues⟩ := hleads.execute hexecute
  refine ⟨hnone, ?_⟩
  cases us with
  | nil => cases rows with
    | nil => rfl
    | cons row rows => cases hvalues
  | cons u us => exact absurd List.mem_cons_self (hus u)

theorem languages_have_columns :
    let text := "MATCH (n) RETURN n.lang AS lang, count(*) AS total
      UNION MATCH (n:software) RETURN n.lang AS lang, count(n) AS total"
    (∃ table s', Session.submit ⟨.cosmosdb, true, .modern⟩ text [] = (.ok table, s') ∧
      table.columns = ["lang", "total"] ∧ table.rows.length = 2 ∧ table.columns.Nodup ∧
      ∀ r ∈ table.rows, r.keys.Perm table.columns) ∧
    ∃ table s', Session.submit ⟨.native, true, .modern⟩
      "MATCH (n) CREATE (m), (n)-[:owns]->(m)" [] = (.ok table, s') ∧
      table.columns = [] ∧ table.rows = [] := by
  intro text
  have hok {s : Session} {text : String} {table : Table} (h : (s.submit text []).1 = .ok table) :
      s.submit text [] = (.ok table, (s.submit text []).2) := Prod.ext h rfl
  constructor
  · obtain ⟨table, htable, hcolumns, hlength⟩ :
        ∃ table, (Session.submit ⟨.cosmosdb, true, .modern⟩ text []).1 = .ok table ∧
        table.columns = ["lang", "total"] ∧ table.rows.length = 2 := by decide +kernel
    have hsubmit := hok htable
    obtain ⟨hnodup, hrows, -⟩ := Session.submit_columns hsubmit
    exact ⟨table, _, hsubmit, hcolumns, hlength, hnodup, hrows⟩
  · let text := "MATCH (n) CREATE (m), (n)-[:owns]->(m)"
    obtain ⟨table, htable, q, hq, cs, hcs, c, hc, hcreate⟩ :
        ∃ table, (Session.submit ⟨.native, true, .modern⟩ text []).1 = .ok table ∧
        ∃ q, Query.parse text = .ok q ∧ ∃ cs, q.singles.getLast? = some cs ∧
        ∃ c, cs.getLast? = some c ∧ c.isCreate := by decide +kernel
    have hsubmit := hok htable
    cases c with
    | create ws =>
      rw [← List.dropLast_append_getLast? _ hc] at hcs
      obtain ⟨-, -, -, hnone⟩ := Session.submit_columns hsubmit
      exact ⟨table, _, hsubmit, hnone q _ ws hq hcs⟩
    | _ => cases hcreate

end CypherTraversal
