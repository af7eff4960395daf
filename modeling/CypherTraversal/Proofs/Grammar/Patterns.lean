import CypherTraversal.Proofs.Grammar.Parts

/-! # How patterns and parentheses are read

A parenthesis opens a node of a pattern or an expression. It is read as a node when one can be read
there and a relationship starts behind it. -/

namespace CypherTraversal.Parser

open List CypherTraversal.Expr

variable {es : List (PatternElement Expr)} {es? : Option (List (String × Expr))}
  {l? : Option PathLength} {ls : List String} {x? : Option String} {style : Expr → Bool}
  {t : PlacedToken} {ts us rest : List PlacedToken} {n : Nat}

/-! ### What stands in a node and in a relationship -/

theorem varName?_run (hts : Shown ts (variableWords x?))
    (hrest : Heads (fun k => k.isName = false) rest) : varName? (ts ++ rest) = .ok (x?, rest) := by
  cases x? with
  | none =>
    obtain rfl := hts.nil_inv
    exact varName?_none hrest
  | some x =>
    obtain ⟨t, rfl, ht⟩ := hts.singleton_inv
    exact varName?_name ht

theorem labels_run (hts : Shown ts (labelWords ls)) (hn : ts.length < n)
    (hrest : Heads (· ≠ .symbol .colon) rest) : labels n (ts ++ rest) = .ok (ls, rest) := by
  induction ls generalizing ts n with
  | nil =>
    obtain rfl := hts.nil_inv
    obtain _ | n := n
    · omega
    exact run_bind (eat_away hrest)
  | cons l ls ih =>
    obtain ⟨t, ts, rfl, ht, hts⟩ := hts.cons_inv
    obtain ⟨u, ts, rfl, hu, hts⟩ := hts.cons_inv
    simp only [length_cons] at hn
    obtain _ | n := n
    · omega
    refine run_then (eat_eq ht) (run_then (name_key hu) ?_)
    exact run_bind (ih hts (by omega))

theorem moreTypes_run (hts : Shown ts (moreTypeWords ls)) (hn : ts.length < n)
    (hrest : Heads (· ≠ .symbol .pipe) rest) : moreTypes n (ts ++ rest) = .ok (ls, rest) := by
  induction ls generalizing ts n with
  | nil =>
    obtain rfl := hts.nil_inv
    obtain _ | n := n
    · omega
    exact run_bind (eat_away hrest)
  | cons l ls ih =>
    obtain ⟨t, ts, rfl, ht, hts⟩ := hts.cons_inv
    obtain ⟨u, ts, rfl, hu, hts⟩ := hts.cons_inv
    simp only [length_cons] at hn
    obtain _ | n := n
    · omega
    refine run_then (eat_eq ht) ?_
    refine run_then (eat_away (.cons (hu.ne_symbol _))) (run_then (name_key hu) ?_)
    exact run_bind (ih hts (by omega))

theorem types_run (hts : Shown ts (typeWords ls)) (hn : ts.length < n)
    (hcolon : Heads (· ≠ .symbol .colon) rest) (hpipe : Heads (· ≠ .symbol .pipe) rest) :
    types n (ts ++ rest) = .ok (ls, rest) := by
  cases ls with
  | nil =>
    obtain rfl := hts.nil_inv
    exact run_bind (eat_away hcolon)
  | cons l ls =>
    obtain ⟨t, ts, rfl, ht, hts⟩ := hts.cons_inv
    obtain ⟨u, ts, rfl, hu, hts⟩ := hts.cons_inv
    simp only [length_cons] at hn
    refine run_then (eat_eq ht) (run_then (name_key hu) ?_)
    exact run_bind (moreTypes_run hts (by omega) hpipe)

theorem lengthBound_run {b : Option Nat} (hb : IsBound b) (hts : Shown ts (boundWords b))
    (hrest : Heads (fun k => ∀ i, k ≠ .integer i) rest) :
    lengthBound (ts ++ rest) = .ok (b, rest) := by
  cases b with
  | none =>
    obtain rfl := hts.nil_inv
    cases rest with
    | nil => rfl
    | cons t rest =>
      obtain ⟨token, _⟩ := t
      cases token with
      | integer i => exact absurd rfl (hrest.head i)
      | _ => rfl
  | some b =>
    obtain ⟨t, rfl, ht⟩ := hts.singleton_inv
    obtain ⟨_, _⟩ := t
    cases ht
    have hle : b ≤ 0xffffffff := hb b rfl
    refine run_then (a := some (.integer b)) rfl ?_
    change (if b ≤ 0xffffffff then _ else _ : Parser (Option Nat)) _ = _
    rw [if_pos hle]
    rfl

theorem pathLength_run (hl : ∀ l ∈ l?, IsBound l.min ∧ IsBound l.max)
    (hts : Shown ts (lengthWords l?)) (hinteger : Heads (fun k => ∀ i, k ≠ .integer i) rest)
    (hstar : Heads (· ≠ .symbol .star) rest) (hdots : Heads (· ≠ .symbol .doubleDot) rest) :
    pathLength (ts ++ rest) = .ok (l?, rest) := by
  cases l? with
  | none =>
    obtain rfl := hts.nil_inv
    exact run_bind (eat_away hstar)
  | some l =>
    obtain ⟨min, max⟩ := l
    obtain ⟨hmin, hmax⟩ := hl _ rfl
    obtain ⟨t, ts, rfl, ht, hts⟩ := hts.cons_inv
    obtain ⟨us, vs, rfl, hus, hvs⟩ := hts.append_inv
    rw [pathLength, cons_append, append_assoc]
    refine run_then (eat_eq ht) ?_
    split at hvs
    · rename_i heq
      obtain rfl : max = min := heq
      obtain rfl := hvs.nil_inv
      refine run_then (lengthBound_run hmin hus hinteger) ?_
      exact run_bind (eat_away hdots)
    · obtain ⟨u, vs, rfl, hu, hvs⟩ := hvs.cons_inv
      refine run_then (lengthBound_run hmin hus (.of_token hu fun i h => by cases h)) ?_
      refine run_then (eat_eq hu) ?_
      exact run_bind (lengthBound_run hmax hvs hinteger)

theorem properties_run (hes : ∀ es ∈ es?, ∀ i ∈ es, PartReadable style i.2)
    (hts : Shown ts (propertyWords style es?)) (hn : 32 * ts.length + 1 ≤ n)
    (hrest : Heads (· ≠ .symbol .leftBrace) rest) :
    properties n (ts ++ rest) = .ok (es?, rest) := by
  obtain _ | n := n
  · omega
  cases es? with
  | none =>
    obtain rfl := hts.nil_inv
    exact run_bind (check_away hrest)
  | some es =>
    have hrun : entries n (ts ++ rest) = .ok (es, rest) :=
      entries_run (hes es rfl) hts (by omega)
    obtain ⟨t, ts, rfl, ht, -⟩ := hts.cons_inv
    exact run_then (check_eq ht) (run_bind hrun)

/-! ### First words -/

theorem head?_labelWords (ls : List String) : ∀ w ∈ (labelWords ls).head?, w = .symbol .colon := by
  cases ls <;> simp [labelWords]

theorem head?_typeWords (ls : List String) : ∀ w ∈ (typeWords ls).head?, w = .symbol .colon := by
  cases ls <;> simp [typeWords]

theorem head?_lengthWords (l? : Option PathLength) :
    ∀ w ∈ (lengthWords l?).head?, w = .symbol .star := by
  cases l? <;> simp [lengthWords, PathLength.words]

theorem head?_propertyWords (es? : Option (List (String × Expr))) :
    ∀ w ∈ (propertyWords style es?).head?, w = .symbol .leftBrace := by
  cases es? <;> simp [propertyWords]

/-! ### Nodes and relationships -/

theorem node_run (hes : ∀ es ∈ es?, ∀ i ∈ es, PartReadable style i.2)
    (hts : Shown ts (elementWords style (.node x? ls es?))) (hn : 32 * ts.length ≤ n) :
    node n (ts ++ rest) = .ok (.node x? ls es?, rest) := by
  obtain ⟨t, ts, rfl, ht, hts⟩ := hts.cons_inv
  obtain ⟨xs, ts, rfl, hxs, hts⟩ := hts.append_inv
  obtain ⟨us, ts, rfl, hus, hts⟩ := hts.append_inv
  obtain ⟨ps, ts, rfl, hps, hts⟩ := hts.append_inv
  obtain ⟨u, rfl, hu⟩ := hts.singleton_inv
  simp only [length_append, length_cons, length_nil] at hn
  obtain _ | n := n
  · omega
  have hbrace {P : Token → Prop} (h1 : P (.symbol .leftBrace)) (h2 : P (.symbol .rightParen)) :
      Heads P (ps ++ u :: rest) :=
    hps.heads_symbol (head?_propertyWords es?) h1 (.of_token hu h2)
  have hcolon : Heads (fun k => k.isName = false) (us ++ (ps ++ u :: rest)) :=
    hus.heads_symbol (head?_labelWords ls) rfl (hbrace rfl rfl)
  simp only [cons_append, append_assoc, nil_append]
  refine run_then (expect_eq ht _) ?_
  refine run_then (varName?_run hxs hcolon) ?_
  refine run_then (labels_run hus (by omega) (hbrace (by decide) (by decide))) ?_
  refine run_then (properties_run hes hps (by omega) (.of_token hu (by decide))) ?_
  exact run_bind (expect_eq hu _)

theorem relationshipDetail_run {arrow dash : Direction} {s : Symbol} {what : String}
    (hes : ∀ es ∈ es?, ∀ i ∈ es, PartReadable style i.2)
    (hl : ∀ l ∈ l?, IsBound l.min ∧ IsBound l.max) (hs : s = .dashArrow ∨ s = .minus) (hts : Shown
      ts (.symbol .leftBracket :: (variableWords x? ++ (typeWords ls ++ (lengthWords l? ++
      (propertyWords style es? ++ [.symbol .rightBracket, .symbol s]))))))
    (hn : 32 * ts.length ≤ n) : relationshipDetail n arrow dash what (ts ++ rest) =
      .ok (.relationship x? ls (if s = .dashArrow then arrow else dash) es? l?, rest) := by
  obtain ⟨t, ts, rfl, ht, hts⟩ := hts.cons_inv
  obtain ⟨xs, ts, rfl, hxs, hts⟩ := hts.append_inv
  obtain ⟨us, ts, rfl, hus, hts⟩ := hts.append_inv
  obtain ⟨vs, ts, rfl, hvs, hts⟩ := hts.append_inv
  obtain ⟨ps, ts, rfl, hps, hts⟩ := hts.append_inv
  obtain ⟨u, ts, rfl, hu, hts⟩ := hts.cons_inv
  obtain ⟨w, rfl, hw⟩ := hts.singleton_inv
  simp only [length_append, length_cons, length_nil] at hn
  obtain _ | n := n
  · omega
  have hbrace {P : Token → Prop} (h1 : P (.symbol .leftBrace)) (h2 : P (.symbol .rightBracket)) :
      Heads P (ps ++ u :: w :: rest) :=
    hps.heads_symbol (head?_propertyWords es?) h1 (.of_token hu h2)
  have hstar {P : Token → Prop} (h1 : P (.symbol .star)) (h2 : P (.symbol .leftBrace))
      (h3 : P (.symbol .rightBracket)) : Heads P (vs ++ (ps ++ u :: w :: rest)) :=
    hvs.heads_symbol (head?_lengthWords l?) h1 (hbrace h2 h3)
  have hcolon : Heads (fun k => k.isName = false) (us ++ (vs ++ (ps ++ u :: w :: rest))) :=
    hus.heads_symbol (head?_typeWords ls) rfl (hstar rfl rfl rfl)
  simp only [cons_append, append_assoc, nil_append]
  refine run_then (expect_eq ht _) ?_
  refine run_then (varName?_run hxs hcolon) ?_
  refine run_then (types_run hus (by omega) (hstar (by decide) (by decide) (by decide))
    (hstar (by decide) (by decide) (by decide))) ?_
  refine run_then (pathLength_run hl hvs (hbrace (fun _ h => by cases h) fun _ h => by cases h)
    (hbrace (by decide) (by decide)) (hbrace (by decide) (by decide))) ?_
  refine run_then (properties_run hes hps (by omega) (.of_token hu (by decide))) ?_
  refine run_then (expect_eq hu _) ?_
  rcases hs with rfl | rfl
  · exact run_bind (eat_eq hw)
  · exact run_then (eat_away (.of_token hw (by decide))) (run_bind (expect_eq hw _))

theorem relationship_run {d : Direction} (hes : ∀ es ∈ es?, ∀ i ∈ es, PartReadable style i.2)
    (hl : ∀ l ∈ l?, IsBound l.min ∧ IsBound l.max)
    (hts : Shown ts (elementWords style (.relationship x? ls d es? l?))) (hn : 32 * ts.length ≤ n) :
    relationship n (ts ++ rest) = .ok (.relationship x? ls d es? l?, rest) := by
  obtain ⟨t, us, rfl, ht, hus⟩ := hts.cons_inv
  simp only [length_cons] at hn
  obtain _ | n := n
  · omega
  obtain ⟨_, _⟩ := t
  cases d with
  | outgoing =>
    cases ht
    exact relationshipDetail_run hes hl (.inl rfl) hus (by omega)
  | incoming | both =>
    cases ht
    exact relationshipDetail_run hes hl (.inr rfl) hus (by omega)

theorem startsRelationship_shown {e : PatternElement Expr} (he : e.IsRelationship)
    (hts : Shown ts (elementWords style e)) (rest : List PlacedToken) :
    startsRelationship (ts ++ rest) = true := by
  obtain ⟨x?, ls, d, es?, l?, rfl⟩ := he
  obtain ⟨t, ts, rfl, ht, hts⟩ := hts.cons_inv
  obtain ⟨u, ts, rfl, hu, hts⟩ := hts.cons_inv
  obtain ⟨token, _⟩ := t
  obtain ⟨_, _⟩ := u
  cases ht
  cases hu
  cases d <;> rfl

/-! ### Patterns -/

structure ElementReadable (style : Expr → Bool) (e : PatternElement Expr) : Prop where
  properties : ∀ es ∈ e.properties?, ∀ i ∈ es, PartReadable style i.2
  length : ∀ x? ls d es? l, e = .relationship x? ls d es? (some l) → IsBound l.min ∧ IsBound l.max

theorem hops_run (hhops : PatternHops es) (hes : ∀ e ∈ es, ElementReadable style e)
    (hts : Shown ts (elementsWords style es)) (hn : 32 * ts.length + 1 ≤ n)
    (hrest : startsRelationship rest = false) : hops n (ts ++ rest) = .ok (es, rest) := by
  induction hhops generalizing ts n with
  | nil =>
    obtain rfl := hts.nil_inv
    obtain _ | n := n
    · omega
    refine run_then (a := rest) rfl ?_
    rw [if_neg (by rw [hrest]; decide)]
    rfl
  | cons hr hnode _ ih =>
    obtain ⟨hrelationship, hbehind⟩ := forall_mem_cons.mp hes
    obtain ⟨htarget, htail⟩ := forall_mem_cons.mp hbehind
    obtain ⟨rs, us, rfl, hrs, hus⟩ := hts.append_inv
    obtain ⟨ns, us, rfl, hns, hmore⟩ := hus.append_inv
    simp only [length_append] at hn
    obtain _ | n := n
    · omega
    have hstarts := startsRelationship_shown hr hrs (ns ++ (us ++ rest))
    obtain ⟨x?, ls, d, es?, l?, rfl⟩ := hr
    obtain ⟨y?, ms, fs?, rfl⟩ := hnode
    simp only [append_assoc]
    refine run_then (a := rs ++ (ns ++ (us ++ rest))) rfl ?_
    rw [if_pos hstarts]
    refine run_then (relationship_run hrelationship.properties ?_ hrs ?_) ?_
    · rintro l rfl
      exact hrelationship.length _ _ _ _ _ rfl
    · omega
    refine run_then (node_run htarget.properties hns ?_) ?_
    · omega
    refine run_bind (ih htail hmore ?_)
    have hpos : 0 < rs.length := by
      obtain ⟨t, us, rfl, -, -⟩ := hrs.cons_inv
      exact Nat.succ_pos _
    omega

theorem pattern_run {first : PatternElement Expr} (hfirst : first.IsNode) (hhops : PatternHops es)
    (hread : ElementReadable style first) (hes : ∀ e ∈ es, ElementReadable style e) (hne : es ≠ [])
    (hts : Shown ts (elementsWords style (first :: es))) (hn : 32 * ts.length + 1 ≤ n)
    (hrest : startsRelationship rest = false) :
    lookahead (node n) startsRelationship (ts ++ rest) = .ok (true, ts ++ rest) ∧
      patternFrom n (ts ++ rest) = .ok ({ path := none, elements := first :: es }, rest) := by
  obtain ⟨x?, ls, es?, rfl⟩ := hfirst
  obtain ⟨ns, us, rfl, hns, hus⟩ := hts.append_inv
  have hvar : varBefore? (.symbol .equals) (ns ++ (us ++ rest)) =
      .ok (none, ns ++ (us ++ rest)) := by
    obtain ⟨t, ns, rfl, ht, -⟩ := hns.cons_inv
    exact varBefore?_of_first (.of_token ht rfl)
  have hpos : 0 < ns.length := by
    obtain ⟨t, ns, rfl, -, -⟩ := hns.cons_inv
    exact Nat.succ_pos _
  simp only [length_append] at hn
  have hnode (m : Nat) (hm : n ≤ m + 1) :
      node m (ns ++ (us ++ rest)) = .ok (.node x? ls es?, us ++ rest) :=
    node_run hread.properties hns (by omega)
  rw [append_assoc]
  constructor
  · have hstarts : startsRelationship (us ++ rest) = true := by
      cases hhops with
      | nil => exact absurd rfl hne
      | cons hr _ _ =>
        obtain ⟨rs, us, rfl, hrs, -⟩ := hus.append_inv
        rw [append_assoc]
        exact startsRelationship_shown hr hrs _
    rw [lookahead, hnode n (Nat.le_succ n)]
    exact congrArg (fun b => Except.ok (b, ns ++ (us ++ rest))) hstarts
  · obtain _ | n := n
    · omega
    refine run_then hvar (run_then (hnode n le_rfl) ?_)
    refine run_bind (hops_run hhops hes hus ?_ hrest)
    omega

theorem pattern_leads {p : Pattern Expr} (hpath : p.path = none) (halternates : p.Alternates)
    (hlength : 1 < p.elements.length) (hes : ∀ e ∈ p.elements, ElementReadable style e)
    (hts : Shown ts (words style (.pattern p))) : Leads 11 (.pattern p) ts := by
  obtain ⟨path, elements⟩ := p
  obtain rfl : path = none := hpath
  obtain ⟨first, hops, rfl, hfirst, hhops⟩ := halternates
  obtain ⟨hread, hes⟩ := forall_mem_cons.mp hes
  have hne : hops ≠ [] := by
    rintro rfl
    exact absurd hlength (Nat.lt_irrefl 1)
  refine .of_atom fun n rest hn hrest => ?_
  obtain ⟨hlook, hrun⟩ := pattern_run hfirst hhops hread hes hne hts hn (hrest.edge rfl)
  obtain ⟨t, us, rfl, ht⟩ : ∃ t us, ts = t :: us ∧ t.token = .symbol .leftParen := by
    obtain ⟨x?, ls, es?, rfl⟩ := hfirst
    obtain ⟨t, us, rfl, ht, -⟩ := hts.cons_inv
    exact ⟨t, us, rfl, ht⟩
  rw [cons_append, atom_paren ht]
  exact run_then hlook (run_bind hrun)

/-! ### Parentheses -/

theorem nodeRest_fails
    (hts : Heads (· ∉ [.symbol .colon, .symbol .leftBrace, .symbol .rightParen]) ts) : ∃ e, (do
      let labels ← labels n
      let properties ← properties n
      expect (.symbol .rightParen) "`)`"
      return .node x? labels properties : Parser (PatternElement Expr)) ts = .error e := by
  have hlabels : labels n ts = .ok ([], ts) := by
    cases n with
    | zero => rfl
    | succ n => exact run_bind (eat_away (hts.mono fun k hk heq => hk (by simp [heq])))
  cases n with
  | zero => exact ⟨_, run_then hlabels (run_bind_error (e := unexpected _ ts) rfl)⟩
  | succ n =>
    have hproperties : properties (n + 1) ts = .ok (none, ts) :=
      run_bind (check_away (hts.mono fun k hk heq => hk (by simp [heq])))
    have hparen := expect_away (k := .symbol .rightParen)
      (hts.mono fun k hk heq => hk (by simp [heq])) "`)`"
    exact ⟨_, run_then hlabels (run_then hproperties (run_bind_error hparen))⟩

theorem node_fails {ws : List Word} (ht : t.token = .symbol .leftParen) (hts : Shown ts ws)
    (hws : startsNode ws = false) (n : Nat) (rest : List PlacedToken) :
    ∃ e, node n (t :: (ts ++ rest)) = .error e := by
  cases n with
  | zero => exact ⟨_, rfl⟩
  | succ n =>
    rw [node, run_bind (expect_eq ht _)]
    cases ws with
    | nil => cases hws
    | cons w ws =>
      obtain ⟨u, us, rfl, hu, hus⟩ := hts.cons_inv
      rw [cons_append]
      cases w with
      | name x =>
        rw [run_bind (varName?_name hu)]
        cases ws with
        | nil => cases hws
        | cons v vs =>
          obtain ⟨u', us, rfl, hu', -⟩ := hus.cons_inv
          refine nodeRest_fails (.cons ?_)
          cases v with
          | symbol s =>
            rw [show u'.token = .symbol s from hu']
            simpa [startsNode, Word.continuesNode] using hws
          | name y => rcases hu' with h | h <;> simp [h]
          | key y => rcases hu' with (h | h) | ⟨k, h, -⟩ <;> simp [h]
          | _ => simp [show u'.token = _ from hu']
      | key x => cases hws
      | symbol s =>
        have htoken : u.token = .symbol s := hu
        rw [run_bind (varName?_none (.of_token htoken rfl))]
        refine nodeRest_fails (.cons ?_)
        rw [htoken]
        simpa [startsNode, Word.continuesNode] using hws
      | _ =>
        have htoken : u.token = _ := hu
        rw [run_bind (varName?_none (.of_token htoken rfl))]
        exact nodeRest_fails (.cons (by simp [htoken]))

theorem enclosed_leads {e : Expr} {ws : List Word} (hws : startsNode ws = false)
    (he : ∀ us, Shown us ws → Leads 0 e us) (hts : Shown ts (enclose true ws)) : Leads 11 e ts := by
  obtain ⟨t, ts, rfl, ht, hts⟩ := hts.cons_inv
  obtain ⟨us, vs, rfl, hus, hvs⟩ := hts.append_inv
  obtain ⟨u, rfl, hu⟩ := hvs.singleton_inv
  refine .of_atom fun n rest hn hrest => ?_
  simp only [length_append, length_cons, length_nil] at hn
  rw [cons_append, atom_paren ht, append_assoc, singleton_append]
  have hlook : lookahead (node n) startsRelationship (t :: (us ++ u :: rest)) =
      .ok (false, t :: (us ++ u :: rest)) := by
    obtain ⟨err, herr⟩ := node_fails ht hus hws n (u :: rest)
    rw [lookahead, herr]
  have hrun : binary n .or (us ++ u :: rest) = .ok (e, u :: rest) := by
    refine (he us hus).run (k := 0) (by decide) ?_ (.of_closed (.of_token hu rfl))
    omega
  refine run_then hlook (run_then (a := ()) rfl (run_then hrun ?_))
  exact run_bind (expect_eq hu _)

end CypherTraversal.Parser
