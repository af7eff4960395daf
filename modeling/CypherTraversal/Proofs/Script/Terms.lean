import CypherTraversal.Text.Quoted
import Mathlib.Data.List.Basic
import Mathlib.Tactic.SplitIfs

/-! # The grammar of scripts

A script is made of quoted texts, words, lists, maps and chains of calls. What a term is written as
determines the term and where it ends, whatever follows in a script (`Term.Written.reads`). -/

namespace CypherTraversal.Script

open List Text

variable {c : Char} {r r' : List Char}

/-! ### Words -/

def isDelimiter (c : Char) : Bool :=
  ['\'', '[', ']', '(', ')', ',', ':'].contains c

def isCloser (c : Char) : Bool :=
  [',', ')', ']'].contains c

structure IsWord (w : List Char) : Prop where
  nonempty : w ≠ []
  plain : ∀ c ∈ w, isDelimiter c = false

def Closes (r : List Char) : Prop :=
  ∀ c ∈ r.head?, isCloser c

theorem closes_cons : Closes (c :: r) ↔ isCloser c := by
  simp [Closes]

theorem isDelimiter_of_isCloser (h : isCloser c) : isDelimiter c := by
  simp only [isCloser, isDelimiter, contains_eq_mem, mem_cons, decide_eq_true_eq] at h ⊢
  tauto

theorem run_prefix {p : Char → Bool} {v w : List Char} (hv : ∀ c ∈ v, p c) (hw : ∀ c ∈ w, p c)
    (hr : ∀ c ∈ r.head?, p c = false) (hr' : ∀ c ∈ r'.head?, p c = false) (h : v ++ r = w ++ r') :
    v = w ∧ r = r' := by
  have htake {x y : List Char} (hx : ∀ c ∈ x, p c) (hy : ∀ c ∈ y.head?, p c = false) :
      (x ++ y).takeWhile p = x := by
    rw [takeWhile_append_of_pos hx]
    cases y with
    | nil => simp
    | cons c y => simp [hy c rfl]
  have hvw : v = w := by rw [← htake hv hr, h, htake hw hr']
  subst hvw
  exact ⟨rfl, append_cancel_left h⟩

theorem IsWord.eq_of_append {v w : List Char} (hv : IsWord v) (hw : IsWord w)
    (hr : ∀ c ∈ r.head?, isDelimiter c) (hr' : ∀ c ∈ r'.head?, isDelimiter c)
    (h : v ++ r = w ++ r') :
    v = w ∧ r = r' :=
  run_prefix (p := fun c => !isDelimiter c) (fun c hc => by rw [hv.plain c hc]; rfl)
    (fun c hc => by rw [hw.plain c hc]; rfl) (fun c hc => by rw [hr c hc]; rfl)
    (fun c hc => by rw [hr' c hc]; rfl) h

/-! ### Quoted texts -/

def unescape : Char → Char
  | 'n' => '\n'
  | 'r' => '\r'
  | 't' => '\t'
  | c => c

/-- A quoted text as a script reader takes it, and what is behind it. -/
def unquote : List Char → List Char × List Char
  | [] => ([], [])
  | '\\' :: c :: r => (unescape c :: (unquote r).1, (unquote r).2)
  | c :: r => if c = '\'' then ([], r) else (c :: (unquote r).1, (unquote r).2)

theorem quoteChar_cases (c : Char) :
    (∃ d, quoteChar c = ['\\', d] ∧ unescape d = c) ∨ quoteChar c = [c] ∧ c ≠ '\\' ∧ c ≠ '\'' := by
  unfold quoteChar
  split_ifs <;> simp_all [unescape]

theorem unquote_flatMap_quoteChar (cs r : List Char) :
    unquote (cs.flatMap quoteChar ++ '\'' :: r) = (cs, r) := by
  induction cs with
  | nil => cases r <;> simp [unquote]
  | cons c cs ih =>
    obtain ⟨d, hc, hd⟩ | ⟨hc, hslash, hquote⟩ := quoteChar_cases c
    · simp [hc, unquote, ih, hd]
    · simp [hc, unquote, hslash, hquote, ih]

theorem quote_prefix {s t : String} (h : (quote s).toList ++ r = (quote t).toList ++ r') :
    s = t ∧ r = r' := by
  simp only [quote, String.toList_ofList, cons_append, append_assoc,
    List.cons.injEq, true_and, nil_append] at h
  have hread := congrArg unquote h
  rw [unquote_flatMap_quoteChar, unquote_flatMap_quoteChar, Prod.mk.injEq, String.toList_inj]
    at hread
  exact hread

/-! ### Terms -/

inductive Term where
  | text (s : String)
  | word (w : String)
  | list (items : List Term)
  | map (entries : List (String × Term))
  | chain (head : String) (calls : List (String × List Term))

variable {cs ds : List (String × List Term)} {t : Term}

def commas : List (List Char) → List Char
  | [] => []
  | x :: xs => x ++ xs.flatMap (',' :: ' ' :: ·)

section Commas

variable {α : Type} {w : α → List Char} {as bs : List α} {c : Char} {r r' : List Char}

theorem commas_cons_append (x : List Char) (xs : List (List Char)) (z : List Char) :
    commas (x :: xs) ++ z = x ++ (xs.flatMap (',' :: ' ' :: ·) ++ z) :=
  append_assoc ..

theorem closes_more (hc : isCloser c) (xs : List (List Char)) :
    Closes (xs.flatMap (',' :: ' ' :: ·) ++ c :: r) := by
  cases xs with
  | nil => exact closes_cons.mpr hc
  | cons x xs => exact closes_cons.mpr rfl

theorem more_prefix (hc : isCloser c) (hcomma : c ≠ ',')
    (hread : ∀ a ∈ as, ∀ b ∈ bs, ∀ x y, Closes x → Closes y → w a ++ x = w b ++ y → a = b ∧ x = y)
    (h : (as.map w).flatMap (',' :: ' ' :: ·) ++ c :: r =
      (bs.map w).flatMap (',' :: ' ' :: ·) ++ c :: r') : as = bs ∧ r = r' := by
  induction as generalizing bs with
  | nil =>
    cases bs with
    | nil => exact ⟨rfl, (List.cons.inj h).2⟩
    | cons b bs => exact absurd (List.cons.inj h).1 hcomma
  | cons a as ih =>
    cases bs with
    | nil => exact absurd (List.cons.inj h).1.symm hcomma
    | cons b bs =>
      simp only [map_cons, flatMap_cons, cons_append, append_assoc, List.cons.injEq, true_and] at h
      obtain ⟨rfl, hrest⟩ := hread a mem_cons_self b mem_cons_self _ _
        (closes_more hc _) (closes_more hc _) h
      exact (ih (fun a ha b hb => hread a (.tail _ ha) b (.tail _ hb)) hrest).imp_left
        (congrArg (a :: ·))

theorem commas_prefix (hc : isCloser c) (hcomma : c ≠ ',')
    (hread : ∀ a ∈ as, ∀ b ∈ bs, ∀ x y, Closes x → Closes y → w a ++ x = w b ++ y → a = b ∧ x = y)
    (has : ∀ a ∈ as, ∀ x, ¬ Closes (w a ++ x)) (hbs : ∀ b ∈ bs, ∀ x, ¬ Closes (w b ++ x))
    (h : commas (as.map w) ++ c :: r = commas (bs.map w) ++ c :: r') : as = bs ∧ r = r' := by
  cases as with
  | nil =>
    cases bs with
    | nil => exact ⟨rfl, (List.cons.inj h).2⟩
    | cons b bs =>
      rw [map_cons, commas_cons_append] at h
      exact absurd (h.subst (motive := Closes) (closes_cons.mpr hc)) (hbs b mem_cons_self _)
  | cons a as =>
    rw [map_cons, commas_cons_append] at h
    cases bs with
    | nil =>
      exact absurd (h.symm.subst (motive := Closes) (closes_cons.mpr hc)) (has a mem_cons_self _)
    | cons b bs =>
      rw [map_cons, commas_cons_append] at h
      obtain ⟨rfl, hrest⟩ := hread a mem_cons_self b mem_cons_self _ _
        (closes_more hc _) (closes_more hc _) h
      have hmore := more_prefix hc hcomma (fun a ha b hb => hread a (.tail _ ha) b (.tail _ hb))
        hrest
      exact hmore.imp_left (congrArg (a :: ·))

end Commas

namespace Term

mutual

def chars : Term → List Char
  | text s => (Text.quote s).toList
  | word w => w.toList
  | list items => '[' :: (commas (charsEach items) ++ [']'])
  | map [] => ['[', ':', ']']
  | map (e :: es) => '[' :: (commas (charsEntries (e :: es)) ++ [']'])
  | chain head calls => head.toList ++ charsCalls calls

def charsEach : List Term → List (List Char)
  | [] => []
  | t :: ts => chars t :: charsEach ts

def charsEntries : List (String × Term) → List (List Char)
  | [] => []
  | (k, t) :: es => ((Text.quote k).toList ++ ':' :: ' ' :: chars t) :: charsEntries es

def charsCalls : List (String × List Term) → List Char
  | [] => []
  | (n, ts) :: cs => '.' :: (n.toList ++ '(' :: (commas (charsEach ts) ++ ')' :: charsCalls cs))

end

def charsEntry (e : String × Term) : List Char :=
  (Text.quote e.1).toList ++ ':' :: ' ' :: e.2.chars

theorem charsEach_eq (ts : List Term) : charsEach ts = ts.map chars := by
  induction ts with
  | nil => rfl
  | cons t ts ih => rw [charsEach, ih, map_cons]

theorem charsEntries_eq (es : List (String × Term)) : charsEntries es = es.map charsEntry := by
  induction es with
  | nil => rfl
  | cons e es ih => rw [charsEntries, ih, map_cons, charsEntry]

inductive Written : Term → Prop
  | text (s : String) : Written (text s)
  | word {w : String} (hw : IsWord w.toList) : Written (word w)
  | list {items : List Term} (hitems : ∀ t ∈ items, t.Written) : Written (list items)
  | map {entries : List (String × Term)} (hentries : ∀ e ∈ entries, e.2.Written) :
    Written (map entries)
  | chain {head : String} {calls : List (String × List Term)} (hhead : IsWord head.toList)
    (hdot : '.' ∉ head.toList) (hcalls : calls ≠ []) (hnames : ∀ c ∈ calls, IsWord c.1.toList)
    (hterms : ∀ c ∈ calls, ∀ t ∈ c.2, t.Written) : Written (chain head calls)

def Opens : Term → Char → Prop
  | text _, c => c = '\''
  | list _, c | map _, c => c = '['
  | word _, c | chain _ _, c => isDelimiter c = false

theorem Written.opens (ht : t.Written) : ∃ c cs, t.chars = c :: cs ∧ t.Opens c := by
  have hword {w : List Char} (hw : IsWord w) (r : List Char) :
      ∃ c cs, w ++ r = c :: cs ∧ isDelimiter c = false := by
    obtain ⟨c, cs, rfl⟩ := exists_cons_of_ne_nil hw.nonempty
    exact ⟨c, cs ++ r, rfl, hw.plain c mem_cons_self⟩
  cases ht with
  | text s => exact ⟨_, _, by rw [chars, quote, String.toList_ofList], rfl⟩
  | word hw =>
    obtain ⟨c, cs, h, hc⟩ := hword hw []
    exact ⟨c, cs, by rw [chars, ← h, append_nil], hc⟩
  | list _ => exact ⟨_, _, by rw [chars], rfl⟩
  | @map entries _ =>
    cases entries <;> exact ⟨_, _, by rw [chars], rfl⟩
  | chain hhead _ _ _ _ =>
    obtain ⟨c, cs, h, hc⟩ := hword hhead _
    exact ⟨c, cs, by rw [chars, h], hc⟩

theorem Opens.not_isCloser (h : t.Opens c) : isCloser c = false := by
  cases t with
  | text s | list items | map entries => cases h; rfl
  | word w | chain head calls =>
    exact Bool.eq_false_iff.mpr fun hc => by
      rw [Opens, isDelimiter_of_isCloser hc] at h
      cases h

theorem Written.not_closes (ht : t.Written) (r : List Char) : ¬ Closes (t.chars ++ r) := by
  obtain ⟨c, cs, h, hc⟩ := ht.opens
  rw [h, cons_append, closes_cons, hc.not_isCloser]
  exact Bool.false_ne_true

theorem Written.opens_same {u : Term} (ht : t.Written) (hu : u.Written)
    (h : t.chars ++ r = u.chars ++ r') : ∃ c, t.Opens c ∧ u.Opens c := by
  obtain ⟨c, cs, htc, hc⟩ := ht.opens
  obtain ⟨d, ds, hud, hd⟩ := hu.opens
  rw [htc, hud] at h
  exact ⟨c, hc, (List.cons.inj h).1 ▸ hd⟩

def Reads (t : Term) : Prop :=
  ∀ u : Term, u.Written → ∀ r r' : List Char, Closes r → Closes r' →
    t.chars ++ r = u.chars ++ r' → t = u ∧ r = r'

theorem charsEntry_not_closes (e : String × Term) (r : List Char) :
    ¬ Closes (charsEntry e ++ r) := by
  rw [charsEntry, quote, String.toList_ofList]
  exact fun h => absurd (closes_cons.mp h) (by decide)

theorem charsEntry_prefix {e f : String × Term} (he : e.2.Reads) (hf : f.2.Written) (hr : Closes r)
    (hr' : Closes r') (h : charsEntry e ++ r = charsEntry f ++ r') : e = f ∧ r = r' := by
  rw [charsEntry, charsEntry, append_assoc, append_assoc] at h
  obtain ⟨hkey, h⟩ := quote_prefix h
  simp only [cons_append, List.cons.injEq, true_and] at h
  obtain ⟨hvalue, rfl⟩ := he f.2 hf r r' hr hr' h
  exact ⟨Prod.ext hkey hvalue, rfl⟩

theorem charsCalls_prefix (hcs : ∀ c ∈ cs, IsWord c.1.toList ∧ ∀ t ∈ c.2, t.Written ∧ t.Reads)
    (hds : ∀ d ∈ ds, IsWord d.1.toList ∧ ∀ t ∈ d.2, t.Written) (hr : Closes r) (hr' : Closes r')
    (h : charsCalls cs ++ r = charsCalls ds ++ r') : cs = ds ∧ r = r' := by
  induction cs generalizing ds with
  | nil =>
    cases ds with
    | nil => exact ⟨rfl, h⟩
    | cons d ds =>
      rw [charsCalls, charsCalls, nil_append] at h
      exact absurd (closes_cons.mp (h ▸ hr)) (by decide)
  | cons c cs ih =>
    cases ds with
    | nil =>
      rw [charsCalls, charsCalls, nil_append] at h
      exact absurd (closes_cons.mp (h ▸ hr')) (by decide)
    | cons d ds =>
      obtain ⟨hc, hcs⟩ := forall_mem_cons.mp hcs
      obtain ⟨hd, hds⟩ := forall_mem_cons.mp hds
      simp only [charsCalls, charsEach_eq, cons_append, append_assoc, List.cons.injEq,
        true_and] at h
      obtain ⟨hname, h⟩ := hc.1.eq_of_append hd.1 (by simp [isDelimiter]) (by simp [isDelimiter]) h
      obtain ⟨hterms, h⟩ := commas_prefix rfl (by decide)
        (fun t ht u hu x y => (hc.2 t ht).2 u (hd.2 u hu) x y)
        (fun t ht => (hc.2 t ht).1.not_closes) (fun u hu => (hd.2 u hu).not_closes)
        (List.cons.inj h).2
      obtain ⟨rfl, rfl⟩ := ih hcs hds h
      exact ⟨by rw [Prod.ext (String.toList_inj.mp hname) hterms], rfl⟩

theorem word_ne_chain {w head : String} {calls : List (String × List Term)} (hw : IsWord w.toList)
    (hchain : (chain head calls).Written) (hr : Closes r) :
    w.toList ++ r ≠ (chain head calls).chars ++ r' := by
  intro h
  cases hchain with
  | chain hhead _ hcalls hnames _ =>
    obtain ⟨⟨n, ts⟩, cs, rfl⟩ := exists_cons_of_ne_nil hcalls
    have hfirst : IsWord (head.toList ++ '.' :: n.toList) :=
      ⟨append_ne_nil_of_left_ne_nil hhead.nonempty _, forall_mem_append.mpr
        ⟨hhead.plain, forall_mem_cons.mpr ⟨rfl, (hnames _ mem_cons_self).plain⟩⟩⟩
    rw [chars, charsCalls, ← cons_append, ← append_assoc, append_assoc] at h
    obtain ⟨-, rfl⟩ := hw.eq_of_append hfirst
      (fun c hc => isDelimiter_of_isCloser (hr c hc)) (by simp [isDelimiter]) h
    exact absurd (closes_cons.mp hr) (by decide)

theorem list_ne_map {items : List Term} {entries : List (String × Term)}
    (hitems : ∀ t ∈ items, t.Written) : (list items).chars ++ r ≠ (map entries).chars ++ r' := by
  intro h
  rw [chars, charsEach_eq, cons_append, append_assoc, cons_append, nil_append] at h
  cases items with
  | nil =>
    cases entries with
    | nil => exact absurd h (by simp [commas, chars])
    | cons e es => exact absurd h (by simp [commas, chars, charsEntries, quote])
  | cons t ts =>
    have ht := hitems t mem_cons_self
    rw [map_cons, commas_cons_append] at h
    have hcloses : Closes ((ts.map chars).flatMap (',' :: ' ' :: ·) ++ ']' :: r) :=
      closes_more rfl _
    generalize (ts.map chars).flatMap (',' :: ' ' :: ·) ++ ']' :: r = z at h hcloses
    cases entries with
    | nil =>
      obtain ⟨c, cs, htc, hc⟩ := ht.opens
      rw [chars, htc] at h
      have hcolon : c = ':' := (List.cons.inj (List.cons.inj h).2).1
      subst hcolon
      cases ht <;> exact absurd hc (by simp [Opens, isDelimiter])
    | cons e es =>
      rw [chars, charsEntries_eq, map_cons, cons_append, append_assoc,
        commas_cons_append, charsEntry, append_assoc] at h
      have hinner := (List.cons.inj h).2
      obtain ⟨c, hc, hquote⟩ := ht.opens_same (.text e.1) (by rw [chars]; exact hinner)
      cases hquote
      cases ht with
      | text s =>
        obtain ⟨-, rfl⟩ := quote_prefix hinner
        exact absurd (closes_cons.mp hcloses) (by decide)
      | word | list | map | chain => exact absurd hc (by simp [Opens, isDelimiter])

theorem map_prefix {es fs : List (String × Term)} (hes : ∀ e ∈ es, e.2.Written ∧ e.2.Reads)
    (hfs : ∀ f ∈ fs, f.2.Written) (h : (map es).chars ++ r = (map fs).chars ++ r') :
    map es = map fs ∧ r = r' := by
  cases es with
  | nil =>
    cases fs with
    | nil => exact ⟨rfl, append_cancel_left h⟩
    | cons f fs => exact absurd h (by simp [chars, charsEntries, commas, quote])
  | cons e es =>
    cases fs with
    | nil => exact absurd h (by simp [chars, charsEntries, commas, quote])
    | cons f fs =>
      simp only [chars, charsEntries_eq, cons_append, append_assoc, List.cons.injEq,
        true_and, nil_append] at h
      obtain ⟨hentries, rfl⟩ := commas_prefix rfl (by decide)
        (fun e he f hf x y hx hy => charsEntry_prefix (hes e he).2 (hfs f hf) hx hy)
        (fun e _ => charsEntry_not_closes e) (fun f _ => charsEntry_not_closes f) h
      exact ⟨congrArg map hentries, rfl⟩

theorem head_prefix {head head' : String} (hdot : '.' ∉ head.toList) (hdot' : '.' ∉ head'.toList)
    (hcs : cs ≠ []) (hds : ds ≠ [])
    (h : (chain head cs).chars ++ r = (chain head' ds).chars ++ r') :
    head = head' ∧ charsCalls cs ++ r = charsCalls ds ++ r' := by
  have hfirst {es : List (String × List Term)} (hes : es ≠ []) (x : List Char) :
      ∀ c ∈ (charsCalls es ++ x).head?, (c != '.') = false := by
    obtain ⟨e, es, rfl⟩ := exists_cons_of_ne_nil hes
    simp [charsCalls]
  rw [chars, chars, append_assoc, append_assoc] at h
  obtain ⟨hhead, hrest⟩ := run_prefix (p := (· != '.'))
    (fun c hc => by simp [ne_of_mem_of_not_mem hc hdot])
    (fun c hc => by simp [ne_of_mem_of_not_mem hc hdot']) (hfirst hcs r) (hfirst hds r') h
  exact ⟨String.toList_inj.mp hhead, hrest⟩

theorem Written.reads (ht : t.Written) : t.Reads := by
  induction ht with
  | text s =>
    intro u hu r r' hr hr' h
    obtain ⟨c, hc, hc'⟩ := (Written.text s).opens_same hu h
    cases hc
    cases hu with
    | text s' =>
      obtain ⟨rfl, rfl⟩ := quote_prefix h
      exact ⟨rfl, rfl⟩
    | word | list | map | chain => exact absurd hc' (by simp [Opens, isDelimiter])
  | @word w hw =>
    intro u hu r r' hr hr' h
    obtain ⟨c, hc, hc'⟩ := (Written.word hw).opens_same hu h
    cases hu with
    | word hw' =>
      obtain ⟨hword, rfl⟩ := hw.eq_of_append hw' (fun c hc => isDelimiter_of_isCloser (hr c hc))
        (fun c hc => isDelimiter_of_isCloser (hr' c hc)) h
      exact ⟨by rw [String.toList_inj.mp hword], rfl⟩
    | chain hhead hdot hcalls hnames hterms =>
      exact absurd h (word_ne_chain hw (.chain hhead hdot hcalls hnames hterms) hr)
    | text | list | map =>
      cases hc'
      cases hc
  | @list items hitems ih =>
    intro u hu r r' hr hr' h
    obtain ⟨c, hc, hc'⟩ := (Written.list hitems).opens_same hu h
    cases hc
    cases hu with
    | list hitems' =>
      simp only [chars, charsEach_eq, cons_append, append_assoc, List.cons.injEq,
        true_and, nil_append] at h
      obtain ⟨rfl, rfl⟩ := commas_prefix rfl (by decide)
        (fun t ht u hu x y => ih t ht u (hitems' u hu) x y)
        (fun t ht => (hitems t ht).not_closes) (fun u hu => (hitems' u hu).not_closes) h
      exact ⟨rfl, rfl⟩
    | map => exact absurd h (list_ne_map hitems)
    | text | word | chain => exact absurd hc' (by simp [Opens, isDelimiter])
  | @map entries hentries ih =>
    intro u hu r r' hr hr' h
    obtain ⟨c, hc, hc'⟩ := (Written.map hentries).opens_same hu h
    cases hc
    cases hu with
    | map hentries' =>
      exact map_prefix (fun e he => ⟨hentries e he, ih e he⟩) hentries' h
    | list hitems' => exact absurd h.symm (list_ne_map hitems')
    | text | word | chain => exact absurd hc' (by simp [Opens, isDelimiter])
  | @chain head calls hhead hdot hcalls hnames hterms ih =>
    intro u hu r r' hr hr' h
    have hchain := Written.chain hhead hdot hcalls hnames hterms
    obtain ⟨c, hc, hc'⟩ := hchain.opens_same hu h
    cases hu with
    | word hw' => exact absurd h.symm (word_ne_chain hw' hchain hr')
    | chain _ hdot' hcalls' hnames' hterms' =>
      obtain ⟨rfl, hrest⟩ := head_prefix hdot hdot' hcalls hcalls' h
      obtain ⟨rfl, rfl⟩ := charsCalls_prefix
        (fun c hc => ⟨hnames c hc, fun t ht => ⟨hterms c hc t ht, ih c hc t ht⟩⟩)
        (fun c hc => ⟨hnames' c hc, hterms' c hc⟩) hr hr' hrest
      exact ⟨rfl, rfl⟩
    | text | list | map =>
      cases hc'
      cases hc

end Term

/-! ### Where quoted texts end -/

/-- The places of the single quotes that no backslash escapes. -/
def bareQuotes : (place : Nat) → List Char → List Nat
  | _, [] => []
  | i, '\\' :: _ :: cs => bareQuotes (i + 2) cs
  | i, c :: cs => if c = '\'' then i :: bareQuotes (i + 1) cs else bareQuotes (i + 1) cs

theorem bareQuotes_flatMap_quoteChar (cs : List Char) (i : Nat) :
    bareQuotes i (cs.flatMap quoteChar ++ ['\'']) = [i + (cs.flatMap quoteChar).length] := by
  induction cs generalizing i with
  | nil => simp [bareQuotes]
  | cons c cs ih =>
    rw [flatMap_cons, append_assoc, length_append]
    obtain ⟨d, hc, -⟩ | ⟨hc, hslash, hquote⟩ := quoteChar_cases c
    · simp [hc, bareQuotes, ih, Nat.add_assoc]
    · simp [hc, bareQuotes, hslash, hquote, ih, Nat.add_assoc]

theorem not_mem_quoteChar (hc : c = '\n' ∨ c = '\r' ∨ c = '\t') (d : Char) : c ∉ quoteChar d := by
  rcases hc with rfl | rfl | rfl <;> grind [quoteChar]

theorem not_mem_quote (hc : c = '\n' ∨ c = '\r' ∨ c = '\t') (s : String) :
    c ∉ (quote s).toList := by
  have hquote : c ≠ '\'' := by rintro rfl; revert hc; decide
  simp only [quote, String.toList_ofList, mem_cons, mem_append, mem_flatMap, hquote, false_or,
    not_mem_nil, or_false]
  rintro ⟨d, -, hd⟩
  exact not_mem_quoteChar hc d hd

/-- **A quoted text cannot be left early.** The text and what follows it are determined by what is
written. There is no line break and no tab in it, and its only bare quotes are the first and the
last character; so reading on from the opening quote gives back the text, and stops right behind
it. -/
theorem quoted_text_ends_at_last_quote (s : String) :
    (∀ t r r', (Text.quote s).toList ++ r = (Text.quote t).toList ++ r' ↔ s = t ∧ r = r') ∧
    ('\n' ∉ (Text.quote s).toList ∧ '\r' ∉ (Text.quote s).toList ∧ '\t' ∉ (Text.quote s).toList) ∧
    bareQuotes 0 (Text.quote s).toList = [0, (Text.quote s).toList.length - 1] ∧
    ∀ r, unquote ((Text.quote s).toList.tail ++ r) = (s.toList, r) := by
  have htext : (quote s).toList = '\'' :: (s.toList.flatMap quoteChar ++ ['\'']) :=
    String.toList_ofList
  refine ⟨fun t r r' => .intro quote_prefix ?_, ⟨not_mem_quote (.inl rfl) s,
    not_mem_quote (.inr (.inl rfl)) s, not_mem_quote (.inr (.inr rfl)) s⟩, ?_, fun r => ?_⟩
  · rintro ⟨rfl, rfl⟩
    rfl
  · rw [htext, bareQuotes, if_pos rfl, bareQuotes_flatMap_quoteChar]
    · simp [Nat.add_comm]
    · exact fun _ _ h _ => absurd h (by decide)
  · rw [htext, tail_cons, append_assoc]
    exact unquote_flatMap_quoteChar s.toList r

end CypherTraversal.Script
