import Mathlib.Data.List.ReduceOption
import BlogStuff.Yaml.Scalar

/-!
# BlogStuff.Yaml.Block

Block mappings whose scalars stand on the lines of their keys, read in two layers.

* `entries` reads a list of lines: a line is blank, a comment, or a key with its value and
  the indentation it has. A line is read on its own, so the entries of a text are those of
  its parts (`entries_append`). A scalar that goes on over several lines is refused; YAML
  folds the line breaks in it, so it is never the text as it was written.
* `nest` checks the indentation and gives each entry the path of keys it stands under.
  An entry at the indentation of the mapping has its key alone (`mem_nest_base`), one that
  follows a key without a value stands under that key (`mem_nest_child`).

A mapping has each key once, so a path has one value (`nest_value_unique`).
-/

namespace BlogStuff.Yaml

open BlogStuff.Python

/-! ### Lines -/

/-- A key of a block mapping with its value, if it has one on its line. -/
structure Entry where
  indent : Nat
  key : Str
  value : Option Scalar
  deriving Repr, DecidableEq

/-- The lines of a text. A carriage return with a newline behind it makes one more blank
line, which is not an entry. -/
def lines (text : Str) : List Str := text.splitOnP isBreak

/-- The text before and behind the first colon that ends a key. -/
def splitKey : Str → Option (Str × Str)
  | [] => none
  | [c] => if c = ':' then some ([], []) else none
  | c :: d :: s =>
      if c = ':' ∧ isWhite d then some ([], d :: s)
      else (splitKey (d :: s)).map fun (k, v) => (c :: k, v)

/-- A key and its value. -/
def readEntry (indent : Nat) (content : Str) : Option Entry := do
  let (k, v) ← splitKey content
  if isPlain (stripEnd k) then (readValue v).map fun value => ⟨indent, stripEnd k, value⟩ else none

/-- One line: `some none` if it is blank or a comment, `none` if it is not an entry either. -/
def readLine (l : Str) : Option (Option Entry) :=
  match l.dropWhile isWhite with
  | [] => some none
  | '#' :: _ => some none
  | _ => (readEntry (l.takeWhile (· == ' ')).length (l.dropWhile (· == ' '))).map some

/-- The entries of a list of lines. -/
def entries (ls : List Str) : Option (List Entry) := (ls.mapM readLine).map List.reduceOption

/-! ### Nesting -/

/-- The keys an entry stands under and its own, innermost first, given those of the entry
before it. Only a key without a value of its own takes entries under it. -/
def place (stack : List (Nat × Str)) (parent : Bool) (e : Entry) : Option (List (Nat × Str)) :=
  match stack with
  | [] => none
  | (i, k) :: up =>
      if i < e.indent then if parent then some ((e.indent, e.key) :: (i, k) :: up) else none
      else match ((i, k) :: up).dropWhile fun p => e.indent < p.1 with
        | (j, _) :: up => if j = e.indent then some ((e.indent, e.key) :: up) else none
        | [] => none

/-- A document: the path of keys of each entry, and its value. -/
abbrev Doc := List (List Str × Option Scalar)

/-- The paths of the entries behind one with the given keys. -/
def paths : List (Nat × Str) → Bool → List Entry → Option Doc
  | _, _, [] => some []
  | stack, parent, e :: es => do
      let stack ← place stack parent e
      let rest ← paths stack e.value.isNone es
      return ((stack.map Prod.snd).reverse, e.value) :: rest

/-- A mapping at an indentation. -/
def nest (n : Nat) (es : List Entry) : Option Doc :=
  (paths [(n, [])] false es).bind fun doc =>
    if (doc.map Prod.fst).Nodup then some doc else none

/-- The first line of an item of a block sequence, with the dash taken out. The mapping behind the
dash is indented by where its first key stands. -/
def itemLine (l : Str) : Option (Nat × Str) :=
  match l.dropWhile (· == ' ') with
  | '-' :: ' ' :: s =>
      let content := s.dropWhile (· == ' ')
      let n := l.length - content.length
      some (n, List.replicate n ' ' ++ content)
  | _ => none

/-- A text that is one item of a block sequence, a mapping. -/
def readItem (text : Str) : Option Doc :=
  match lines text with
  | [] => none
  | l :: ls => do
      let (n, l) ← itemLine l
      nest n (← entries (l :: ls))

/-! ### Reading lines -/

/-- A dash with one blank behind it counts as two columns, so that what follows it can be read as a
line of its own at that indentation. -/
theorem itemLine_dash {c : Char} (hc : c ≠ ' ') (i : Nat) (s : Str) :
    itemLine (List.replicate i ' ' ++ '-' :: ' ' :: c :: s) =
      some (i + 2, List.replicate (i + 2) ' ' ++ c :: s) := by
  have hblank : ∀ d ∈ List.replicate i ' ', (d == ' ') = true := by
    intro d hd
    rw [List.eq_of_mem_replicate hd]
    rfl
  have hdrop : (List.replicate i ' ' ++ '-' :: ' ' :: c :: s).dropWhile (· == ' ') =
      '-' :: ' ' :: c :: s := by
    rw [List.dropWhile_append_of_pos hblank, List.dropWhile_cons_of_neg (by decide)]
  have hcontent : (c :: s).dropWhile (· == ' ') = c :: s :=
    List.dropWhile_cons_of_neg (by simpa using hc)
  have hlen : (List.replicate i ' ' ++ '-' :: ' ' :: c :: s).length - (c :: s).length = i + 2 := by
    simp only [List.length_append, List.length_replicate, List.length_cons]
    omega
  simp only [itemLine, hdrop, hcontent, hlen]

theorem entries_append (a b : List Str) :
    entries (a ++ b) = (entries a).bind fun ea => (entries b).map (ea ++ ·) := by
  unfold entries
  rw [List.mapM_append]
  cases a.mapM readLine with
  | none => rfl
  | some ea =>
      cases b.mapM readLine with
      | none => rfl
      | some eb => simp [List.reduceOption_append]

theorem entries_cons (l : Str) (ls : List Str) :
    entries (l :: ls) = (readLine l).bind fun e => (entries ls).map (e.toList ++ ·) := by
  unfold entries
  rw [List.mapM_cons]
  cases readLine l with
  | none => rfl
  | some e =>
      cases ls.mapM readLine with
      | none => rfl
      | some es => cases e <;> simp

theorem lines_append (a b : Str) : lines (a ++ '\n' :: b) = lines a ++ lines b :=
  List.splitOnP_append_cons a b rfl

theorem no_break_of_all {s : Str} (h : s.all (fun c => !isBreak c) = true) :
    ∀ c ∈ s, isBreak c = false := by
  simpa using h

theorem lines_append_of_no_break {a : Str} (h : ∀ c ∈ a, isBreak c = false) (b : Str) :
    ∃ l ls, lines b = l :: ls ∧ lines (a ++ b) = (a ++ l) :: ls := by
  obtain ⟨l, ls, hb⟩ := List.exists_cons_of_ne_nil (List.splitOnP_ne_nil isBreak b)
  refine ⟨l, ls, hb, ?_⟩
  induction a with
  | nil => exact hb
  | cons c a ih =>
      have hc := h c (by simp)
      have htail := ih (fun d hd => h d (by simp [hd]))
      unfold lines at htail ⊢
      rw [List.cons_append, List.splitOnP_cons_eq_if_modifyHead, if_neg (by simp [hc]), htail]
      rfl

/-- The first line of a text is the text, or shorter, because the break that ends it belongs to the
text. -/
theorem lines_head {s l : Str} {ls : List Str} (h : lines s = l :: ls) :
    (l = s ∧ ls = []) ∨ l.length < s.length := by
  induction s generalizing l ls with
  | nil =>
      left
      simpa [lines, eq_comm] using h
  | cons c s ih =>
      unfold lines at h
      rw [List.splitOnP_cons_eq_if_modifyHead] at h
      split_ifs at h
      · right
        obtain ⟨rfl, -⟩ := List.cons.inj h
        simp
      · obtain ⟨l', ls', hs⟩ := List.exists_cons_of_ne_nil (List.splitOnP_ne_nil isBreak s)
        rw [hs, List.modifyHead_cons] at h
        obtain ⟨rfl, rfl⟩ := List.cons.inj h
        rcases ih hs with ⟨rfl, rfl⟩ | hlt
        · exact Or.inl ⟨rfl, rfl⟩
        · right
          simp only [List.length_cons]
          omega

theorem splitKey_append {k : Str} (hk : ':' ∉ k) {b : Char} (hb : isWhite b = true) (v : Str) :
    splitKey (k ++ ':' :: b :: v) = some (k, b :: v) := by
  induction k with
  | nil => simp [splitKey, hb]
  | cons c k ih =>
      have hc : ¬ c = ':' := fun e => hk (by simp [e])
      have htail := ih (fun h => hk (by simp [h]))
      obtain ⟨d, s, hs⟩ : ∃ d s, k ++ ':' :: b :: v = d :: s :=
        List.exists_cons_of_ne_nil (by simp)
      rw [List.cons_append, hs, splitKey, if_neg (by simp [hc]), ← hs, htail]
      rfl

/-- The line of a key: `n` blanks, the key, a colon and a blank, then the value. -/
def keyLine (n : Nat) (key value : Str) : Str := List.replicate n ' ' ++ key ++ ':' :: ' ' :: value

/-- The line of a key is its entry: the blanks in front are the indentation, the first colon ends
the key, and the blank behind it belongs to no value. -/
theorem readLine_keyLine {key : Str} (hkey : isPlain key = true) (hcolon : ':' ∉ key) (n : Nat)
    (value : Str) :
    readLine (keyLine n key value) = (readValue value).map fun v => some ⟨n, key, v⟩ := by
  have hkey' := hkey
  simp only [isPlain, Bool.and_eq_true, Bool.not_eq_true'] at hkey'
  obtain ⟨⟨⟨hfirst, -⟩, -⟩, hlast⟩ := hkey'
  obtain ⟨c, k, rfl, hw, hhash, -⟩ := plainFirst_cons hfirst
  have hspace : (c == ' ') = false := by
    simp only [isWhite, Bool.or_eq_false_iff] at hw
    exact hw.1
  have hstrip : stripEnd (c :: k) = c :: k := by
    rw [stripEnd, List.rdropWhile_eq_self_iff]
    intro hne
    rw [List.getLast?_eq_getLast_of_ne_nil hne] at hlast
    simpa using hlast
  have hblank : ∀ d ∈ List.replicate n ' ', isWhite d = true ∧ (d == ' ') = true := by
    intro d hd
    rw [List.eq_of_mem_replicate hd]
    decide
  have hdropw : (keyLine n (c :: k) value).dropWhile isWhite = c :: k ++ ':' :: ' ' :: value := by
    rw [keyLine, List.append_assoc, List.dropWhile_append_of_pos fun d hd => (hblank d hd).1,
      List.cons_append, List.dropWhile_cons_of_neg (by simp [hw])]
  have hdrop : (keyLine n (c :: k) value).dropWhile (· == ' ') = c :: k ++ ':' :: ' ' :: value := by
    rw [keyLine, List.append_assoc, List.dropWhile_append_of_pos fun d hd => (hblank d hd).2,
      List.cons_append, List.dropWhile_cons_of_neg (by simp [hspace])]
  have htake : (keyLine n (c :: k) value).takeWhile (· == ' ') = List.replicate n ' ' := by
    rw [keyLine, List.append_assoc, List.takeWhile_append_of_pos fun d hd => (hblank d hd).2,
      List.cons_append, List.takeWhile_cons_of_neg (by simp [hspace]), List.append_nil]
  have hentry : readEntry n (c :: k ++ ':' :: ' ' :: value) =
      (readValue value).map fun v => ⟨n, c :: k, v⟩ := by
    rw [readEntry, splitKey_append hcolon (by decide)]
    simp only [Option.bind_eq_bind, Option.bind_some, hstrip, hkey, if_true]
    rw [readValue_blank (by decide)]
  unfold readLine
  rw [hdropw, List.cons_append]
  split
  · next h => cases h
  · next h => exact absurd (List.cons.inj h).1 hhash
  · rw [hdrop, htake, List.length_replicate, hentry, Option.map_map]
    rfl

theorem lines_intercalate {parts : List Str} (h : parts ≠ []) :
    lines (List.intercalate ['\n'] parts) = parts.flatMap lines := by
  induction parts with
  | nil => exact absurd rfl h
  | cons part parts ih =>
      cases parts with
      | nil => simp
      | cons next parts =>
          rw [List.intercalate_cons_cons, List.append_assoc, List.singleton_append, lines_append,
            ih (by simp)]
          rfl

/-- The entries of parts that end with their lines. A line is read without looking at the others, so
the parts can be read one by one. -/
theorem entries_flatMap_eq_some {parts : List Str} {es : List Entry} :
    entries (parts.flatMap lines) = some es ↔
      ∃ ess, List.Forall₂ (fun part es => entries (lines part) = some es) parts ess ∧
        es = ess.flatten := by
  induction parts generalizing es with
  | nil => simp [entries, eq_comm]
  | cons part parts ih =>
      rw [List.flatMap_cons, entries_append]
      constructor
      · intro h
        obtain ⟨ea, hea, h⟩ := Option.bind_eq_some_iff.mp h
        obtain ⟨eb, heb, rfl⟩ := Option.map_eq_some_iff.mp h
        obtain ⟨ess, hess, rfl⟩ := ih.mp heb
        exact ⟨ea :: ess, .cons hea hess, rfl⟩
      · intro h
        obtain ⟨ess, hess, rfl⟩ := h
        cases hess with
        | cons hea hess =>
            rw [hea, ih.mpr ⟨_, hess, rfl⟩]
            rfl

/-- What stands on the lines of a key and the text behind it. Only the first line of the text
belongs to the key; the others are read as lines of their own. -/
theorem entries_keyLine {key : Str} (hkey : isPlain key = true) (hcolon : ':' ∉ key) (n : Nat)
    (value : Str) :
    ∃ l ls, lines value = l :: ls ∧ entries (lines (keyLine n key value)) =
      (readValue l).bind fun v => (entries ls).map (⟨n, key, v⟩ :: ·) := by
  have hbreak : ∀ c ∈ List.replicate n ' ' ++ key ++ [':', ' '], isBreak c = false := by
    intro c hc
    rcases List.mem_append.mp hc with hc | hc
    · rcases List.mem_append.mp hc with hc | hc
      · rw [List.eq_of_mem_replicate hc]
        decide
      · simp only [isPlain, Bool.and_eq_true] at hkey
        have := List.all_eq_true.mp hkey.1.2 c hc
        simp only [isNbChar, Bool.and_eq_true, Bool.not_eq_true'] at this
        exact this.1.2
    · simp only [List.mem_cons, List.not_mem_nil, or_false] at hc
      rcases hc with rfl | rfl <;> decide
  have hline : keyLine n key value = List.replicate n ' ' ++ key ++ [':', ' '] ++ value := by
    simp [keyLine]
  obtain ⟨l, ls, hl, hlines⟩ := lines_append_of_no_break hbreak value
  refine ⟨l, ls, hl, ?_⟩
  have hhead : List.replicate n ' ' ++ key ++ [':', ' '] ++ l = keyLine n key l := by
    simp [keyLine]
  rw [hline, hlines, hhead, entries_cons, readLine_keyLine hkey hcolon]
  cases readValue l <;> rfl

theorem lines_of_no_break {s : Str} (h : ∀ c ∈ s, isBreak c = false) : lines s = [s] :=
  List.splitOnP_eq_singleton h

theorem lines_eq_singleton {s l : Str} (h : lines s = [l]) :
    l = s ∧ ∀ c ∈ s, isBreak c = false := by
  have hbreak : ∀ c ∈ s, isBreak c = false := by
    intro c hc
    by_contra hb
    obtain ⟨a, b, rfl⟩ := List.append_of_mem hc
    have hlen := congrArg List.length h
    rw [lines, List.splitOnP_append_cons a b (by simpa using hb), List.length_append] at hlen
    have ha := List.length_pos_of_ne_nil (List.splitOnP_ne_nil isBreak a)
    have hb := List.length_pos_of_ne_nil (List.splitOnP_ne_nil isBreak b)
    simp only [List.length_singleton] at hlen
    omega
  rw [lines_of_no_break hbreak] at h
  exact ⟨(List.cons.inj h).1.symm, hbreak⟩

theorem isBreak_of_isPlain {s : Str} (h : isPlain s = true) : ∀ c ∈ s, isBreak c = false := by
  intro c hc
  simp only [isPlain, Bool.and_eq_true] at h
  have := List.all_eq_true.mp h.1.2 c hc
  simp only [isNbChar, Bool.and_eq_true, Bool.not_eq_true'] at this
  exact this.1.2

theorem entries_keyLine_one {key value : Str} {v : Option Scalar} (hkey : isPlain key = true)
    (hcolon : ':' ∉ key) (n : Nat) (hbreak : ∀ c ∈ value, isBreak c = false)
    (hread : readValue value = some v) :
    entries (lines (keyLine n key value)) = some [⟨n, key, v⟩] := by
  obtain ⟨l, ls, hl, hentries⟩ := entries_keyLine hkey hcolon n value
  rw [lines_of_no_break hbreak] at hl
  obtain ⟨rfl, rfl⟩ := List.cons.inj hl
  rw [hentries, hread]
  rfl

theorem of_entries_keyLine {key text value : Str} {es : List Entry} {n : Nat}
    (hkey : isPlain key = true) (hcolon : ':' ∉ key)
    (h : entries (lines (keyLine n key text)) = some (⟨n, key, some (.str value)⟩ :: es)) :
    ∃ l ls, lines text = l :: ls ∧ readValue l = some (some (.str value)) ∧ entries ls = some es := by
  obtain ⟨l, ls, hl, hentries⟩ := entries_keyLine hkey hcolon n text
  rw [hentries] at h
  obtain ⟨v, hv, h⟩ := Option.bind_eq_some_iff.mp h
  obtain ⟨es', hes', h⟩ := Option.map_eq_some_iff.mp h
  obtain ⟨h, rfl⟩ := List.cons.inj h
  obtain rfl : v = some (.str value) := by simpa using h
  exact ⟨l, ls, hl, hv, hes'⟩

/-- **A text comes back as the value of its key exactly if it is a plain string**, and then
nothing else stands on its lines. -/
theorem entries_keyLine_str {key value : Str} {es : List Entry} {n : Nat}
    (hkey : isPlain key = true) (hcolon : ':' ∉ key) :
    entries (lines (keyLine n key value)) = some (⟨n, key, some (.str value)⟩ :: es) ↔
      PlainString value ∧ es = [] := by
  constructor
  · intro h
    obtain ⟨l, ls, hl, hv, hes'⟩ := of_entries_keyLine hkey hcolon h
    obtain ⟨hlen, hplain⟩ := readValue_eq_str hv
    rcases lines_head hl with ⟨rfl, rfl⟩ | hlt
    · exact ⟨hplain rfl, by simpa [entries] using hes'.symm⟩
    · omega
  · intro h
    obtain ⟨hplain, rfl⟩ := h
    exact entries_keyLine_one hkey hcolon n (isBreak_of_isPlain hplain.1)
      (readValue_eq_str_iff.mpr hplain)

theorem isBreak_of_isNbJson {c : Char} (h : isNbJson c = true) : isBreak c = false := by
  by_contra hb
  simp only [isBreak, Bool.not_eq_false, Bool.or_eq_true, beq_iff_eq] at hb
  rcases hb with rfl | rfl <;> exact absurd h (by decide)

/-- **A quoted text comes back as the value of its key exactly if it needs no escapes.** A line
break in it would end the line before the closing quote, and what has been read is then shorter than
the text. -/
theorem entries_keyLine_quoted {key value : Str} {es : List Entry} {n : Nat}
    (hkey : isPlain key = true) (hcolon : ':' ∉ key) :
    entries (lines (keyLine n key ('"' :: (value ++ ['"'])))) =
        some (⟨n, key, some (.str value)⟩ :: es) ↔
      DoubleSafe value ∧ es = [] := by
  constructor
  · intro h
    obtain ⟨l, ls, hl, hv, hes'⟩ := of_entries_keyLine hkey hcolon h
    -- the opening quote is on the first line, and so must be the closing one
    obtain ⟨l', ls', hl', hquote⟩ := lines_append_of_no_break (a := ['"'])
      (no_break_of_all rfl) (value ++ ['"'])
    obtain ⟨rfl, rfl⟩ := List.cons.inj (hl.symm.trans hquote)
    rw [List.singleton_append, readValue_double] at hv
    obtain ⟨⟨v, rest⟩, hread, hv⟩ := Option.bind_eq_some_iff.mp hv
    simp only at hv
    split_ifs at hv
    obtain rfl : v = value := by simpa using hv
    have hlen := length_readDouble hread
    rcases lines_head hl' with ⟨rfl, rfl⟩ | hlt
    · exact ⟨(readDouble_eq_self_iff.mp hread).1, by simpa [entries] using hes'.symm⟩
    · simp only [List.length_append, List.length_cons, List.length_nil] at hlt
      omega
  · intro h
    obtain ⟨hsafe, rfl⟩ := h
    have hbreak : ∀ c ∈ '"' :: (value ++ ['"']), isBreak c = false := by
      intro c hc
      simp only [List.mem_cons, List.mem_append, List.not_mem_nil, or_false] at hc
      rcases hc with rfl | hc | rfl
      · decide
      · exact isBreak_of_isNbJson (hsafe c hc).2.2
      · decide
    refine entries_keyLine_one hkey hcolon n hbreak ?_
    rw [readValue_double, readDouble_of_safe hsafe []]
    rfl

/-! ### Paths -/

/-- The keys above an entry of a mapping at indentation `n`. -/
def Based (n : Nat) (stack : List (Nat × Str)) : Prop :=
  ∃ up k, stack = up ++ [(n, k)] ∧ ∀ p ∈ up, n < p.1

theorem place_base {n : Nat} {stack : List (Nat × Str)} {parent : Bool} {e : Entry}
    (h : Based n stack) (he : e.indent = n) : place stack parent e = some [(n, e.key)] := by
  obtain ⟨up, k, rfl, hup⟩ := h
  have hdrop : (up ++ [(n, k)]).dropWhile (fun p => e.indent < p.1) = [(n, k)] := by
    rw [List.dropWhile_append_of_pos (by simpa [he] using hup), List.dropWhile_cons_of_neg (by simp [he])]
  cases up with
  | nil => simp [place, he]
  | cons p up =>
      have hp := hup p (by simp)
      rw [List.cons_append] at hdrop ⊢
      rw [place, if_neg (by omega), hdrop]
      simp [he]

/-- The mapping's own indentation stays at the bottom. An entry goes on top of the stack or takes
the place of one further up, and one that is indented less than the mapping is refused. -/
theorem based_place {n : Nat} {stack stack' : List (Nat × Str)} {parent : Bool} {e : Entry}
    (h : Based n stack) (hplace : place stack parent e = some stack') : Based n stack' := by
  obtain ⟨up, k, rfl, hup⟩ := h
  have hcons : ∃ i k' up', up ++ [(n, k)] = (i, k') :: up' ∧ n ≤ i := by
    cases up with
    | nil => exact ⟨n, k, [], rfl, le_rfl⟩
    | cons p up => exact ⟨p.1, p.2, up ++ [(n, k)], rfl, (hup p (by simp)).le⟩
  obtain ⟨i, k', up', hstack, hi⟩ := hcons
  rw [hstack, place] at hplace
  split_ifs at hplace with hlt hparent
  · -- a child of the entry before
    obtain rfl := Option.some.inj hplace
    refine ⟨(e.indent, e.key) :: up, k, by rw [← hstack, List.cons_append], ?_⟩
    intro p hp
    rcases List.mem_cons.mp hp with rfl | hp
    · exact lt_of_le_of_lt hi hlt
    · exact hup p hp
  · -- a sibling of an entry further up
    rw [← hstack] at hplace
    by_cases hdeep : ∃ p ∈ up, ¬ e.indent < p.1
    · obtain ⟨q, up'', hq⟩ : ∃ q up'', up.dropWhile (fun p => e.indent < p.1) = q :: up'' := by
        refine List.exists_cons_of_ne_nil (fun h => ?_)
        obtain ⟨p, hp, hno⟩ := hdeep
        exact hno (by simpa using List.dropWhile_eq_nil_iff.mp h p hp)
      have happ : (up ++ [(n, k)]).dropWhile (fun p => e.indent < p.1) = q :: up'' ++ [(n, k)] := by
        rw [List.dropWhile_append, hq]
        simp
      rw [happ, List.cons_append] at hplace
      simp only at hplace
      split_ifs at hplace with hj
      obtain rfl := Option.some.inj hplace
      have hmem : ∀ p ∈ q :: up'', p ∈ up := fun p hp =>
        (List.dropWhile_sublist _).mem (by rw [hq]; exact hp)
      refine ⟨(e.indent, e.key) :: up'', k, rfl, ?_⟩
      intro p hp
      rcases List.mem_cons.mp hp with rfl | hp
      · have := hup q (hmem q (by simp))
        simp only
        omega
      · exact hup p (hmem p (by simp [hp]))
    · push Not at hdeep
      have happ : (up ++ [(n, k)]).dropWhile (fun p => e.indent < p.1) =
          [(n, k)].dropWhile (fun p => e.indent < p.1) :=
        List.dropWhile_append_of_pos (by simpa using hdeep)
      rw [happ] at hplace
      by_cases hn : e.indent < n
      · simp [hn] at hplace
      · rw [List.dropWhile_cons_of_neg (by simpa using hn)] at hplace
        simp only at hplace
        split_ifs at hplace with hj
        obtain rfl := Option.some.inj hplace
        exact ⟨[], e.key, by rw [hj]; rfl, by simp⟩

theorem paths_cons_eq_some {stack : List (Nat × Str)} {parent : Bool} {e : Entry}
    {es : List Entry} {doc : Doc} (h : paths stack parent (e :: es) = some doc) :
    ∃ stack' rest, place stack parent e = some stack' ∧
      paths stack' e.value.isNone es = some rest ∧
      doc = ((stack'.map Prod.snd).reverse, e.value) :: rest := by
  rw [paths] at h
  obtain ⟨stack', hplace, h⟩ := Option.bind_eq_some_iff.mp h
  obtain ⟨rest, hrest, h⟩ := Option.bind_eq_some_iff.mp h
  exact ⟨stack', rest, hplace, hrest, (Option.some.inj h).symm⟩

theorem paths_append {n : Nat} {stack : List (Nat × Str)} {parent : Bool} {a b : List Entry}
    {doc : Doc} (hstack : Based n stack) (h : paths stack parent (a ++ b) = some doc) :
    ∃ stack' parent' pre post, Based n stack' ∧ paths stack' parent' b = some post ∧
      doc = pre ++ post := by
  induction a generalizing stack parent doc with
  | nil => exact ⟨stack, parent, [], doc, hstack, h, rfl⟩
  | cons e a ih =>
      obtain ⟨stack₁, rest, hplace, hrest, rfl⟩ := paths_cons_eq_some h
      obtain ⟨stack', parent', pre, post, hbased, hpost, rfl⟩ := ih (based_place hstack hplace) hrest
      exact ⟨stack', parent', _ :: pre, post, hbased, hpost, rfl⟩

theorem nest_eq_some {n : Nat} {es : List Entry} {doc : Doc} (h : nest n es = some doc) :
    paths [(n, [])] false es = some doc ∧ (doc.map Prod.fst).Nodup := by
  obtain ⟨doc', hpaths, h⟩ := Option.bind_eq_some_iff.mp h
  split_ifs at h with hnodup
  obtain rfl := Option.some.inj h
  exact ⟨hpaths, hnodup⟩

/-- From an entry at the indentation of the mapping on, the paths start anew. -/
theorem paths_from_base {n : Nat} {a b : List Entry} {e : Entry} {doc : Doc}
    (h : nest n (a ++ e :: b) = some doc) (he : e.indent = n) :
    ∃ pre post, paths [(n, e.key)] e.value.isNone b = some post ∧
      doc = pre ++ ([e.key], e.value) :: post := by
  obtain ⟨stack, parent, pre, post, hbased, hpost, rfl⟩ :=
    paths_append (n := n) ⟨[], [], rfl, by simp⟩ (nest_eq_some h).1
  obtain ⟨stack', rest, hplace, hrest, rfl⟩ := paths_cons_eq_some hpost
  rw [place_base hbased he] at hplace
  obtain rfl := Option.some.inj hplace
  exact ⟨pre, rest, hrest, rfl⟩

theorem mem_nest_base {n : Nat} {a b : List Entry} {e : Entry} {doc : Doc}
    (h : nest n (a ++ e :: b) = some doc) (he : e.indent = n) : ([e.key], e.value) ∈ doc := by
  obtain ⟨pre, post, -, rfl⟩ := paths_from_base h he
  simp

theorem mem_nest_of_mem {n : Nat} {es : List Entry} {key : Str} {v : Option Scalar} {doc : Doc}
    (h : nest n es = some doc) (hmem : ⟨n, key, v⟩ ∈ es) : ([key], v) ∈ doc := by
  obtain ⟨a, b, rfl⟩ := List.append_of_mem hmem
  exact mem_nest_base h rfl

theorem paths_child {n : Nat} {k : Str} {e : Entry} {es : List Entry} {doc : Doc} (he : n < e.indent)
    (h : paths [(n, k)] true (e :: es) = some doc) :
    ∃ rest, paths [(e.indent, e.key), (n, k)] e.value.isNone es = some rest ∧
      doc = ([k, e.key], e.value) :: rest := by
  obtain ⟨stack, rest, hplace, hrest, rfl⟩ := paths_cons_eq_some h
  rw [place, if_pos he, if_pos rfl] at hplace
  obtain rfl := Option.some.inj hplace
  exact ⟨rest, hrest, rfl⟩

theorem mem_nest_child {n : Nat} {a b : List Entry} {p e : Entry} {doc : Doc}
    (h : nest n (a ++ p :: e :: b) = some doc) (hp : p.indent = n) (hval : p.value = none)
    (he : n < e.indent) : ([p.key, e.key], e.value) ∈ doc := by
  obtain ⟨pre, post, hpost, rfl⟩ := paths_from_base h hp
  rw [hval] at hpost
  obtain ⟨rest, -, rfl⟩ := paths_child he hpost
  simp

theorem mem_nest_second {n : Nat} {a b : List Entry} {p e f : Entry} {doc : Doc}
    (h : nest n (a ++ p :: e :: f :: b) = some doc) (hp : p.indent = n) (hval : p.value = none)
    (he : n < e.indent) (hf : f.indent = e.indent) : ([p.key, f.key], f.value) ∈ doc := by
  obtain ⟨pre, post, hpost, rfl⟩ := paths_from_base h hp
  rw [hval] at hpost
  obtain ⟨rest, hrest, rfl⟩ := paths_child he hpost
  obtain ⟨stack, rest', hplace, -, rfl⟩ := paths_cons_eq_some hrest
  rw [place, if_neg (by omega), List.dropWhile_cons_of_neg (by simp [hf])] at hplace
  simp only [hf, if_true] at hplace
  obtain rfl := Option.some.inj hplace
  simp

/-- A path has one value. -/
theorem nest_value_unique {n : Nat} {es : List Entry} {doc : Doc} (h : nest n es = some doc)
    {path : List Str} {v w : Option Scalar} (hv : (path, v) ∈ doc) (hw : (path, w) ∈ doc) :
    v = w := by
  have hnodup := (nest_eq_some h).2
  have := List.inj_on_of_nodup_map hnodup hv hw rfl
  exact (Prod.mk.inj this).2

theorem entries_keyLine_head {key value : Str} {es : List Entry} {n : Nat}
    (hkey : isPlain key = true) (hcolon : ':' ∉ key)
    (h : entries (lines (keyLine n key value)) = some es) :
    ∃ v more, es = ⟨n, key, v⟩ :: more := by
  obtain ⟨l, ls, -, hentries⟩ := entries_keyLine hkey hcolon n value
  rw [hentries] at h
  obtain ⟨v, -, h⟩ := Option.bind_eq_some_iff.mp h
  obtain ⟨more, -, rfl⟩ := Option.map_eq_some_iff.mp h
  exact ⟨v, more, rfl⟩

theorem plainString_of_mem_nest {n : Nat} {key value : Str} {es b : List Entry} {doc : Doc}
    (a : List Entry) (hkey : isPlain key = true) (hcolon : ':' ∉ key)
    (hes : entries (lines (keyLine n key value)) = some es) (h : nest n (a ++ es ++ b) = some doc)
    (hmem : ([key], some (.str value)) ∈ doc) :
    PlainString value ∧ es = [⟨n, key, some (.str value)⟩] := by
  obtain ⟨v, more, rfl⟩ := entries_keyLine_head hkey hcolon hes
  rw [List.append_assoc, List.cons_append] at h
  obtain rfl : v = some (.str value) := nest_value_unique h (mem_nest_base h rfl) hmem
  obtain ⟨hplain, rfl⟩ := (entries_keyLine_str hkey hcolon).mp hes
  exact ⟨hplain, rfl⟩

/-- The first key under another, and the second. -/
theorem plainString_of_mem_child {n m : Nat} {key value : Str} {p : Entry} {es b : List Entry}
    {doc : Doc} (a : List Entry) (hkey : isPlain key = true) (hcolon : ':' ∉ key)
    (hes : entries (lines (keyLine m key value)) = some es)
    (h : nest n (a ++ [p] ++ es ++ b) = some doc) (hp : p.indent = n) (hval : p.value = none)
    (hm : n < m) (hmem : ([p.key, key], some (.str value)) ∈ doc) :
    PlainString value ∧ es = [⟨m, key, some (.str value)⟩] := by
  obtain ⟨v, more, rfl⟩ := entries_keyLine_head hkey hcolon hes
  rw [List.append_assoc, List.append_assoc, List.singleton_append, List.cons_append] at h
  obtain rfl : v = some (.str value) := nest_value_unique h (mem_nest_child h hp hval hm) hmem
  obtain ⟨hplain, rfl⟩ := (entries_keyLine_str hkey hcolon).mp hes
  exact ⟨hplain, rfl⟩

theorem plainString_of_mem_second {n m : Nat} {key value : Str} {p e : Entry} {es b : List Entry}
    {doc : Doc} (a : List Entry) (hkey : isPlain key = true) (hcolon : ':' ∉ key)
    (hes : entries (lines (keyLine m key value)) = some es)
    (h : nest n (a ++ [p] ++ [e] ++ es ++ b) = some doc) (hp : p.indent = n)
    (hval : p.value = none) (he : e.indent = m) (hm : n < m)
    (hmem : ([p.key, key], some (.str value)) ∈ doc) :
    PlainString value ∧ es = [⟨m, key, some (.str value)⟩] := by
  obtain ⟨v, more, rfl⟩ := entries_keyLine_head hkey hcolon hes
  rw [List.append_assoc, List.append_assoc, List.append_assoc, List.singleton_append,
    List.singleton_append, List.cons_append] at h
  obtain rfl : v = some (.str value) :=
    nest_value_unique h (mem_nest_second h hp hval (by omega) he.symm) hmem
  obtain ⟨hplain, rfl⟩ := (entries_keyLine_str hkey hcolon).mp hes
  exact ⟨hplain, rfl⟩

theorem doubleSafe_of_mem_nest {n : Nat} {key value : Str} {es b : List Entry} {doc : Doc}
    (a : List Entry) (hkey : isPlain key = true) (hcolon : ':' ∉ key)
    (hes : entries (lines (keyLine n key ('"' :: (value ++ ['"'])))) = some es)
    (h : nest n (a ++ es ++ b) = some doc) (hmem : ([key], some (.str value)) ∈ doc) :
    DoubleSafe value ∧ es = [⟨n, key, some (.str value)⟩] := by
  obtain ⟨v, more, rfl⟩ := entries_keyLine_head hkey hcolon hes
  rw [List.append_assoc, List.cons_append] at h
  obtain rfl : v = some (.str value) := nest_value_unique h (mem_nest_base h rfl) hmem
  obtain ⟨hsafe, rfl⟩ := (entries_keyLine_quoted hkey hcolon).mp hes
  exact ⟨hsafe, rfl⟩

end BlogStuff.Yaml
