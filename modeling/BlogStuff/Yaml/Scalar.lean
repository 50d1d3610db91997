import BlogStuff.Python.Str

/-!
# BlogStuff.Yaml.Scalar

The scalars of YAML 1.2 that stand on one line: double-quoted with backslash escapes,
single-quoted with doubled quotes, and plain scalars with the types of the core schema.

A quoted text is read character by character; what comes back is never longer than what
was read, and shorter as soon as there is an escape (`length_readDouble`). So a text put
between double quotes as it is comes back exactly when it holds neither quotes nor
backslashes (`readDouble_eq_self_iff`). Single quotes need only be doubled
(`readSingle_escape`), and a plain text comes back as a string exactly when it is one
(`readValue_eq_str_iff`).
-/

namespace BlogStuff.Yaml

open BlogStuff.Python

/-! ### Characters -/

/-- `b-char`. YAML 1.2 breaks lines at these two only; the separators U+0085, U+2028 and
U+2029, at which `splitlines` cuts, are ordinary characters of a scalar. -/
def isBreak (c : Char) : Bool := c == '\n' || c == '\r'

def isWhite (c : Char) : Bool := c == ' ' || c == '\t'

/-- `c-printable`. -/
def isPrintable (c : Char) : Bool :=
  c == '\t' || c == '\n' || c == '\r' || (0x20 ≤ c.toNat && c.toNat ≤ 0x7e) || c.toNat == 0x85 ||
    (0xa0 ≤ c.toNat && c.toNat ≤ 0xd7ff) || (0xe000 ≤ c.toNat && c.toNat ≤ 0xfffd) ||
    0x10000 ≤ c.toNat

/-- `nb-char`: printable, no line break and no byte order mark. -/
def isNbChar (c : Char) : Bool := isPrintable c && !isBreak c && c.toNat != 0xfeff

/-- `ns-char`. -/
def isNsChar (c : Char) : Bool := isNbChar c && !isWhite c

/-- `nb-json`: what may stand between quotes. -/
def isNbJson (c : Char) : Bool := c == '\t' || 0x20 ≤ c.toNat

/-! ### Quoted scalars -/

/-- Where the reader of a double-quoted scalar is: between characters, behind a
backslash, or with some digits of a numeric escape to go. -/
inductive Escape
  | none
  | slash
  | hex (todo value : Nat)

/-- The escapes of one character. -/
def escapeChar (c : Char) : Option Char :=
  [('0', 0x00), ('a', 0x07), ('b', 0x08), ('t', 0x09), ('\t', 0x09), ('n', 0x0a), ('v', 0x0b),
    ('f', 0x0c), ('r', 0x0d), ('e', 0x1b), (' ', 0x20), ('"', 0x22), ('/', 0x2f), ('\\', 0x5c),
    ('N', 0x85), ('_', 0xa0), ('L', 0x2028), ('P', 0x2029)].lookup c |>.map Char.ofNat

/-- The number of hexadecimal digits of a numeric escape. -/
def hexLength (c : Char) : Option Nat := [('x', 2), ('u', 4), ('U', 8)].lookup c

/-- The value of a hexadecimal digit. -/
def hexValue (c : Char) : Option Nat :=
  if c.isDigit then some (c.toNat - 48)
  else if 'a' ≤ c ∧ c ≤ 'f' then some (c.toNat - 87)
  else if 'A' ≤ c ∧ c ≤ 'F' then some (c.toNat - 55)
  else .none

/-- A double-quoted scalar behind its opening quote: its value, and what follows the
closing one. -/
def readDouble : Escape → Str → Option (Str × Str)
  | _, [] => .none
  | .none, c :: s =>
      if c = '"' then some ([], s)
      else if c = '\\' then readDouble .slash s
      else if isNbJson c then (readDouble .none s).map fun (v, rest) => (c :: v, rest)
      else .none
  | .slash, c :: s =>
      match hexLength c, escapeChar c with
      | some n, _ => readDouble (.hex n 0) s
      | .none, some d => (readDouble .none s).map fun (v, rest) => (d :: v, rest)
      | .none, .none => .none
  | .hex todo value, c :: s =>
      match hexValue c with
      | .none => .none
      | some d =>
          if todo ≤ 1 then
            if (value * 16 + d).isValidChar then
              (readDouble .none s).map fun (v, rest) => (Char.ofNat (value * 16 + d) :: v, rest)
            else .none
          else readDouble (.hex (todo - 1) (value * 16 + d)) s

/-- A single-quoted scalar behind its opening quote, and the text behind it. A doubled quote is one,
any other ends the scalar; there are no escapes. -/
def readSingle : Str → Option (Str × Str)
  | [] => .none
  | ['\''] => some ([], [])
  | '\'' :: c :: s =>
      if c = '\'' then (readSingle s).map fun (v, rest) => ('\'' :: v, rest)
      else some ([], c :: s)
  | c :: s => if isNbJson c then (readSingle s).map fun (v, rest) => (c :: v, rest) else .none

/-- A text that stands for itself between double quotes. -/
def DoubleSafe (s : Str) : Prop := ∀ c ∈ s, c ≠ '"' ∧ c ≠ '\\' ∧ isNbJson c = true

/-- One step of the reader: it ends, goes on in another state, yields a character, or
stops. None of this depends on the text behind. -/
theorem readDouble_step (e : Escape) (c : Char) :
    (e = .none ∧ c = '"') ∨ (∃ e', ∀ s, readDouble e (c :: s) = readDouble e' s) ∨
      (∃ d, ∀ s, readDouble e (c :: s) = (readDouble .none s).map fun (v, rest) => (d :: v, rest)) ∨
      ∀ s, readDouble e (c :: s) = .none := by
  cases e with
  | none =>
      by_cases hq : c = '"'
      · exact Or.inl ⟨rfl, hq⟩
      · by_cases hb : c = '\\'
        · exact Or.inr (Or.inl ⟨.slash, fun s => by rw [readDouble, if_neg hq, if_pos hb]⟩)
        · by_cases hc : isNbJson c = true
          · exact Or.inr (Or.inr (Or.inl ⟨c, fun s => by
              rw [readDouble, if_neg hq, if_neg hb, if_pos hc]⟩))
          · exact Or.inr (Or.inr (Or.inr fun s => by
              rw [readDouble, if_neg hq, if_neg hb, if_neg hc]))
  | slash =>
      cases hh : hexLength c with
      | some n => exact Or.inr (Or.inl ⟨.hex n 0, fun s => by rw [readDouble, hh]⟩)
      | none =>
          cases he : escapeChar c with
          | some d => exact Or.inr (Or.inr (Or.inl ⟨d, fun s => by rw [readDouble, hh, he]⟩))
          | none => exact Or.inr (Or.inr (Or.inr fun s => by rw [readDouble, hh, he]))
  | hex todo value =>
      cases hv : hexValue c with
      | none => exact Or.inr (Or.inr (Or.inr fun s => by rw [readDouble, hv]))
      | some d =>
          by_cases hlast : todo ≤ 1
          · by_cases hvalid : (value * 16 + d).isValidChar
            · refine Or.inr (Or.inr (Or.inl ⟨Char.ofNat (value * 16 + d), fun s => ?_⟩))
              simp only [readDouble, hv, if_pos hlast, if_pos hvalid]
            · refine Or.inr (Or.inr (Or.inr fun s => ?_))
              simp only [readDouble, hv, if_pos hlast, if_neg hvalid]
          · refine Or.inr (Or.inl ⟨.hex (todo - 1) (value * 16 + d), fun s => ?_⟩)
            simp only [readDouble, hv, if_neg hlast]

theorem readDouble_close (s : Str) : readDouble .none ('"' :: s) = some ([], s) := by
  rw [readDouble, if_pos rfl]

/-- A double-quoted scalar ends with its quote, whatever follows, and is no longer than its text. The
reader takes one character at a time and stops at the first quote outside an escape. -/
theorem readDouble_local {e : Escape} {s v rest : Str} (h : readDouble e s = some (v, rest)) :
    ∃ c, s = c ++ '"' :: rest ∧ v.length ≤ c.length ∧
      ∀ t, readDouble e (c ++ '"' :: t) = some (v, t) := by
  induction s generalizing e v with
  | nil => cases e <;> simp [readDouble] at h
  | cons d s ih =>
      rcases readDouble_step e d with ⟨rfl, rfl⟩ | ⟨e', hgo⟩ | ⟨x, hemit⟩ | hstop
      · rw [readDouble_close] at h
        obtain ⟨rfl, rfl⟩ := Prod.mk.inj (Option.some.inj h)
        exact ⟨[], rfl, le_rfl, readDouble_close⟩
      · rw [hgo] at h
        obtain ⟨c, rfl, hlen, hc⟩ := ih h
        exact ⟨d :: c, rfl, Nat.le_succ_of_le hlen, fun t => by rw [List.cons_append, hgo, hc]⟩
      · rw [hemit] at h
        obtain ⟨⟨v', rest'⟩, hread, heq⟩ := Option.map_eq_some_iff.mp h
        obtain ⟨rfl, rfl⟩ := Prod.mk.inj heq
        obtain ⟨c, rfl, hlen, hc⟩ := ih hread
        refine ⟨d :: c, rfl, Nat.succ_le_succ hlen, fun t => ?_⟩
        rw [List.cons_append, hemit, hc]
        rfl
      · rw [hstop] at h
        cases h

/-- What was read is no longer than the text it stands in; an escape makes it shorter. This is how a
value that is as long as its text is known to have no escape. -/
theorem length_readDouble {e : Escape} {s v rest : Str} (h : readDouble e s = some (v, rest)) :
    v.length + rest.length < s.length := by
  obtain ⟨c, rfl, hlen, -⟩ := readDouble_local h
  simp only [List.length_append, List.length_cons]
  omega

theorem readDouble_of_safe {s : Str} (h : DoubleSafe s) (rest : Str) :
    readDouble .none (s ++ '"' :: rest) = some (s, rest) := by
  induction s with
  | nil => simp [readDouble]
  | cons c s ih =>
      obtain ⟨hq, hb, hc⟩ := h c (by simp)
      rw [List.cons_append, readDouble, if_neg hq, if_neg hb, if_pos hc,
        ih (fun d hd => h d (by simp [hd]))]
      rfl

/-- **Between double quotes at the end of a line, a text stands for itself exactly if it
holds neither quotes nor backslashes** (nor control characters). -/
theorem readDouble_eq_self_iff {s rest : Str} :
    readDouble .none (s ++ ['"']) = some (s, rest) ↔ DoubleSafe s ∧ rest = [] := by
  constructor
  · intro h
    -- nothing but the closing quote can be left over
    have hlen := length_readDouble h
    simp only [List.length_append, List.length_cons, List.length_nil] at hlen
    obtain rfl : rest = [] := List.length_eq_zero_iff.mp (by omega)
    refine ⟨?_, rfl⟩
    clear hlen
    induction s with
    | nil => simp [DoubleSafe]
    | cons c s ih =>
        rw [List.cons_append, readDouble] at h
        split_ifs at h with hq hb hc
        · simp at h
        · have hlen := length_readDouble h
          simp only [List.length_append, List.length_cons, List.length_nil] at hlen
          omega
        · obtain ⟨⟨v, rest⟩, hread, heq⟩ := Option.map_eq_some_iff.mp h
          simp only [Prod.mk.injEq, List.cons.injEq, true_and] at heq
          obtain ⟨rfl, rfl⟩ := heq
          intro d hd
          rcases List.mem_cons.mp hd with rfl | hd
          · exact ⟨hq, hb, hc⟩
          · exact ih hread d hd
  · intro h
    obtain ⟨hs, rfl⟩ := h
    exact readDouble_of_safe hs []

theorem readSingle_cons {c : Char} (hc : c ≠ '\'') (s : Str) : readSingle (c :: s) =
    if isNbJson c then (readSingle s).map fun (v, rest) => (c :: v, rest) else .none := by
  rw [readSingle]
  · rintro rfl
    exact absurd rfl hc
  · rintro d t rfl
    exact absurd rfl hc

/-- A single-quoted scalar ends with a quote that no other follows, and is no longer than its text. So
it is read the same whatever the rest is, as long as the rest begins alike. -/
theorem readSingle_local {s v rest : Str} (h : readSingle s = some (v, rest)) :
    ∃ c, s = c ++ '\'' :: rest ∧ v.length ≤ c.length ∧
      ∀ t, rest.head? = t.head? → readSingle (c ++ '\'' :: t) = some (v, t) := by
  induction s using readSingle.induct generalizing v with
  | case1 => simp [readSingle] at h
  | case2 =>
      obtain ⟨rfl, rfl⟩ := Prod.mk.inj (Option.some.inj h)
      refine ⟨[], rfl, le_rfl, fun t ht => ?_⟩
      obtain rfl : t = [] := List.head?_eq_none_iff.mp ht.symm
      rfl
  | case3 s ih =>
      rw [readSingle, if_pos rfl] at h
      obtain ⟨⟨v', rest'⟩, hread, heq⟩ := Option.map_eq_some_iff.mp h
      obtain ⟨rfl, rfl⟩ := Prod.mk.inj heq
      obtain ⟨c, rfl, hlen, hc⟩ := ih hread
      refine ⟨'\'' :: '\'' :: c, rfl, ?_, fun t ht => ?_⟩
      · exact Nat.succ_le_succ (Nat.le_succ_of_le hlen)
      · rw [List.cons_append, List.cons_append, readSingle, if_pos rfl, hc t ht]
        rfl
  | case4 c s hc =>
      rw [readSingle, if_neg hc] at h
      obtain ⟨rfl, rfl⟩ := Prod.mk.inj (Option.some.inj h)
      refine ⟨[], rfl, le_rfl, fun t ht => ?_⟩
      obtain ⟨t', rfl⟩ := List.head?_eq_some_iff.mp ht.symm
      rw [List.nil_append, readSingle, if_neg hc]
  | case5 c s h1 h2 hc ih =>
      have hne : c ≠ '\'' := by
        intro hq
        cases hs : s with
        | nil => exact h1 hq hs
        | cons d t => exact h2 d t hq hs
      rw [readSingle_cons hne, if_pos hc] at h
      obtain ⟨⟨v', rest'⟩, hread, heq⟩ := Option.map_eq_some_iff.mp h
      obtain ⟨rfl, rfl⟩ := Prod.mk.inj heq
      obtain ⟨c', rfl, hlen, hc'⟩ := ih hread
      refine ⟨c :: c', rfl, Nat.succ_le_succ hlen, fun t ht => ?_⟩
      rw [List.cons_append, readSingle_cons hne, if_pos hc, hc' t ht]
      rfl
  | case6 c s h1 h2 hc =>
      rw [readSingle, if_neg hc] at h
      · cases h
      · exact h1
      · exact h2

theorem length_readSingle {s v rest : Str} (h : readSingle s = some (v, rest)) :
    v.length + rest.length < s.length := by
  obtain ⟨c, rfl, hlen, -⟩ := readSingle_local h
  simp only [List.length_append, List.length_cons]
  omega

/-- Doubling the quotes of a text. -/
def doubleQuotes (s : Str) : Str := s.flatMap fun c => if c = '\'' then ['\'', '\''] else [c]

/-- A text with its quotes doubled is read up to its end; the reader then goes on with
what follows. -/
theorem readSingle_doubleQuotes (s rest : Str) :
    readSingle (doubleQuotes s ++ rest) =
      if s.all isNbJson then (readSingle rest).map fun (v, rest) => (s ++ v, rest) else .none := by
  induction s with
  | nil =>
      rw [doubleQuotes, List.flatMap_nil, List.nil_append]
      cases readSingle rest <;> rfl
  | cons c s ih =>
      rw [doubleQuotes, List.flatMap_cons, List.append_assoc, ← doubleQuotes]
      by_cases hc : c = '\''
      · have hjson : isNbJson c = true := by rw [hc]; decide
        rw [if_pos hc]
        change readSingle ('\'' :: '\'' :: (doubleQuotes s ++ rest)) = _
        rw [readSingle, if_pos rfl, ih, List.all_cons, hjson, Bool.true_and, hc]
        split_ifs
        · rw [Option.map_map]
          rfl
        · rfl
      · rw [if_neg hc]
        change readSingle (c :: (doubleQuotes s ++ rest)) = _
        rw [readSingle_cons hc, ih, List.all_cons]
        by_cases hjson : isNbJson c = true
        · rw [if_pos hjson, hjson, Bool.true_and]
          split_ifs
          · rw [Option.map_map]
            rfl
          · rfl
        · rw [if_neg hjson, if_neg (by simp [hjson])]

/-! ### Plain scalars -/

/-- The indicators a plain scalar does not start with. -/
def isIndicator (c : Char) : Bool :=
  [',', '[', ']', '\x7b', '\x7d', '#', '&', '*', '!', '|', '>', '\'', '"', '%', '@'].contains c ||
    c.toNat == 0x60

/-- A plain scalar may start here: `-`, `?` and `:` only with a character behind them. -/
def plainFirst : Str → Bool
  | [] => false
  | c :: s =>
      if c = '-' ∨ c = '?' ∨ c = ':' then (s.head?.map isNsChar).getD false
      else isNsChar c && !isIndicator c

/-- The text holds the end of a key or the start of a comment. -/
def hasMark : Str → Bool
  | [] => false
  | [c] => c == ':'
  | c :: d :: s => (c == ':' && isWhite d) || (isWhite c && d == '#') || hasMark (d :: s)

/-- A plain scalar, as a whole. -/
def isPlain (t : Str) : Bool :=
  plainFirst t && !hasMark t && t.all isNbChar && (t.getLast?.map fun c => !isWhite c).getD false

/-- The text in front of a comment. -/
def cutComment : Str → Str
  | [] => []
  | [c] => [c]
  | c :: d :: s => if isWhite c && d == '#' then [] else c :: cutComment (d :: s)

/-! ### The core schema -/

/-- A typed scalar. A float keeps its text. -/
inductive Scalar
  | null
  | bool (b : Bool)
  | int (n : Int)
  | float (text : Str)
  | str (s : Str)
  deriving Repr, DecidableEq

def dropSign : Str → Str
  | '+' :: s => s
  | '-' :: s => s
  | s => s

def isDigits (s : Str) : Bool := !s.isEmpty && s.all Char.isDigit

/-- `(\.[0-9]+|[0-9]+(\.[0-9]*)?)`. -/
def isMantissa (s : Str) : Bool :=
  match s.dropWhile Char.isDigit with
  | [] => isDigits s
  | '.' :: t => t.all Char.isDigit && (isDigits (s.takeWhile Char.isDigit) || isDigits t)
  | _ => false

/-- `[-+]?(\.[0-9]+|[0-9]+(\.[0-9]*)?)([eE][-+]?[0-9]+)?`. -/
def isFloat (s : Str) : Bool :=
  let u := dropSign s
  let m := u.takeWhile fun c => c != 'e' && c != 'E'
  match u.dropWhile fun c => c != 'e' && c != 'E' with
  | [] => isMantissa m
  | _ :: e => isMantissa m && isDigits (dropSign e)

def natOf (base : Nat) (s : Str) : Nat := Nat.ofDigitChars base s 0

/-- The type and value of a plain scalar, by the core schema: the words for null, true and false,
integers in three bases, floats, and everything else a string. -/
def resolve (s : Str) : Scalar :=
  if ["null", "Null", "NULL", "~"].any (·.toList = s) then .null
  else if ["true", "True", "TRUE"].any (·.toList = s) then .bool true
  else if ["false", "False", "FALSE"].any (·.toList = s) then .bool false
  else if isDigits (dropSign s) then
    .int (if s.head? = some '-' then -(natOf 10 (dropSign s) : Int) else natOf 10 (dropSign s))
  else if s.take 2 = "0o".toList ∧ s.length > 2 ∧ (s.drop 2).all (fun c => '0' ≤ c ∧ c ≤ '7') then
    .int (natOf 8 (s.drop 2))
  else if s.take 2 = "0x".toList ∧ s.length > 2 ∧ (s.drop 2).all isHexDigit then
    .int (natOf 16 (s.drop 2))
  else if isFloat s ∨ [".inf", ".Inf", ".INF"].any (·.toList = dropSign s) ∨
      [".nan", ".NaN", ".NAN"].any (·.toList = s) then .float s
  else .str s

/-- A text that is a string when it stands plain. -/
def PlainString (t : Str) : Prop := isPlain t = true ∧ resolve t = .str t

instance (t : Str) : Decidable (PlainString t) := inferInstanceAs (Decidable (_ ∧ _))

theorem resolve_eq_str {t v : Str} (h : resolve t = .str v) : t = v := by
  unfold resolve at h
  split_ifs at h
  exact Scalar.str.inj h

/-! ### The value of a key -/

def stripEnd (s : Str) : Str := s.rdropWhile isWhite

/-- Nothing but blanks and a comment. -/
def isTrailing (s : Str) : Bool :=
  match s.dropWhile isWhite with
  | [] => true
  | c :: _ => c == '#' && (s.head?.map isWhite).getD false

/-- The value on the rest of a line: absent, or a scalar. Behind a quoted scalar only blanks or a
comment may follow; a plain one ends before a comment. -/
def readValue (s : Str) : Option (Option Scalar) :=
  match s.dropWhile isWhite with
  | [] => some .none
  | '#' :: _ => some .none
  | '"' :: t =>
      (readDouble .none t).bind fun (v, rest) =>
        if isTrailing rest then some (some (.str v)) else .none
  | '\'' :: t =>
      (readSingle t).bind fun (v, rest) =>
        if isTrailing rest then some (some (.str v)) else .none
  | t =>
      let u := stripEnd (cutComment t)
      if isPlain u then some (some (resolve u)) else .none

theorem length_cutComment_le (t : Str) : (cutComment t).length ≤ t.length := by
  fun_induction cutComment t with
  | case1 => simp
  | case2 c => simp
  | case3 c d s h => simp
  | case4 c d s h ih =>
      simp only [List.length_cons] at ih ⊢
      omega

theorem cutComment_of_not_hasMark {t : Str} (h : hasMark t = false) : cutComment t = t := by
  fun_induction cutComment t with
  | case1 => rfl
  | case2 c => rfl
  | case3 c d s hc => simp [hasMark, hc] at h
  | case4 c d s hc ih =>
      rw [hasMark] at h
      rw [ih (Bool.or_eq_false_iff.mp h).2]

/-- A plain scalar starts with a character no other kind of value starts with. The three indicators
that may start one with something behind them are none of those either. -/
theorem plainFirst_cons {t : Str} (h : plainFirst t = true) :
    ∃ c s, t = c :: s ∧ isWhite c = false ∧ c ≠ '#' ∧ c ≠ '"' ∧ c ≠ '\'' := by
  cases t with
  | nil => simp [plainFirst] at h
  | cons c s =>
      refine ⟨c, s, rfl, ?_⟩
      rw [plainFirst] at h
      split_ifs at h with hc
      · rcases hc with rfl | rfl | rfl <;> decide
      · obtain ⟨hns, hind⟩ := Bool.and_eq_true_iff.mp h
        have hne : ∀ {d : Char}, isIndicator d = true → c ≠ d := by
          rintro d hd rfl
          simp [hd] at hind
        exact ⟨by simpa [isNsChar] using (Bool.and_eq_true_iff.mp hns).2, hne (by decide),
          hne (by decide), hne (by decide)⟩

theorem readValue_of_plain {c : Char} {s : Str} (hw : isWhite c = false) (h1 : c ≠ '#')
    (h2 : c ≠ '"') (h3 : c ≠ '\'') :
    readValue (c :: s) = if isPlain (stripEnd (cutComment (c :: s))) then
      some (some (resolve (stripEnd (cutComment (c :: s))))) else .none := by
  have hdrop : (c :: s).dropWhile isWhite = c :: s := List.dropWhile_cons_of_neg (by simp [hw])
  unfold readValue
  rw [hdrop]
  split <;> simp_all

theorem readValue_blank {b : Char} (hb : isWhite b = true) (s : Str) :
    readValue (b :: s) = readValue s := by
  unfold readValue
  rw [List.dropWhile_cons_of_pos hb]

theorem readValue_replicate (n : Nat) (s : Str) :
    readValue (List.replicate n ' ' ++ s) = readValue s := by
  induction n with
  | zero => rfl
  | succ n ih => rw [List.replicate_succ, List.cons_append, readValue_blank (by decide), ih]

theorem readValue_double (t : Str) : readValue ('"' :: t) =
    (readDouble .none t).bind fun (v, rest) =>
      if isTrailing rest then some (some (.str v)) else .none := by
  rw [readValue, List.dropWhile_cons_of_neg (by decide)]
  rfl

/-- A string value is no longer than its text; one as long as it stands plain. Quotes, blanks around
it and a comment each take characters away. -/
theorem readValue_eq_str {s v : Str} (h : readValue s = some (some (.str v))) :
    v.length ≤ s.length ∧ (v.length = s.length → PlainString v) := by
  have hdrop : (s.dropWhile isWhite).length ≤ s.length := (List.dropWhile_sublist _).length_le
  have hquoted : ∀ {t : Str} {r : Option (Str × Str)}, s.dropWhile isWhite = t →
      (∀ {v rest : Str}, r = some (v, rest) → v.length < t.length) →
      (r.bind fun (v, rest) => if isTrailing rest then some (some (Scalar.str v)) else .none) =
        some (some (.str v)) → v.length < s.length := by
    intro t r ht hr h
    obtain ⟨⟨v', rest⟩, hread, hv⟩ := Option.bind_eq_some_iff.mp h
    simp only at hv
    split_ifs at hv
    obtain rfl : v' = v := by simpa using hv
    have := hr hread
    rw [ht] at hdrop
    omega
  unfold readValue at h
  split at h
  · cases h
  · cases h
  · next t ht =>
      have := hquoted ht (fun h => by
        have := length_readDouble h
        simp only [List.length_cons]
        omega) h
      exact ⟨by omega, by omega⟩
  · next t ht =>
      have := hquoted ht (fun h => by
        have := length_readSingle h
        simp only [List.length_cons]
        omega) h
      exact ⟨by omega, by omega⟩
  · simp only at h
    split_ifs at h with hplain
    have hres : resolve (stripEnd (cutComment (s.dropWhile isWhite))) = .str v := by simpa using h
    have hv := resolve_eq_str hres
    rw [hv] at hplain hres
    have h1 : (stripEnd (cutComment (s.dropWhile isWhite))).length ≤
        (cutComment (s.dropWhile isWhite)).length := (List.rdropWhile_prefix _ _).length_le
    have h2 := length_cutComment_le (s.dropWhile isWhite)
    rw [hv] at h1
    exact ⟨by omega, fun _ => ⟨hplain, hres⟩⟩

/-- A plain scalar is read as a whole. -/
theorem readValue_of_isPlain {v : Str} (h : isPlain v = true) :
    readValue v = some (some (resolve v)) := by
  have h' := h
  simp only [isPlain, Bool.and_eq_true, Bool.not_eq_true'] at h'
  obtain ⟨⟨⟨hfirst, hmark⟩, -⟩, hlast⟩ := h'
  obtain ⟨c, s, rfl, hw, h1, h2, h3⟩ := plainFirst_cons hfirst
  have hcut := cutComment_of_not_hasMark hmark
  have hstrip : stripEnd (c :: s) = c :: s := by
    rw [stripEnd, List.rdropWhile_eq_self_iff]
    intro hne
    rw [List.getLast?_eq_getLast_of_ne_nil hne] at hlast
    simpa using hlast
  rw [readValue_of_plain hw h1 h2 h3, hcut, hstrip, if_pos h]

/-- **A plain text is read back as a string exactly if it is a plain scalar the core schema
gives no other type**, such as a number, a truth value or null. -/
theorem readValue_eq_str_iff {v : Str} : readValue v = some (some (.str v)) ↔ PlainString v := by
  constructor
  · intro h
    exact (readValue_eq_str h).2 rfl
  · intro h
    rw [readValue_of_isPlain h.1, h.2]

/-! ### Numbers -/

theorem isNsChar_of_isDigit {c : Char} (h : c.isDigit = true) :
    isNsChar c = true ∧ isIndicator c = false ∧ c ≠ ':' ∧ c ≠ '-' ∧ c ≠ '+' ∧ c ≠ '?' := by
  obtain ⟨h0, h9⟩ := isDigit_iff.mp h
  have hall : ∀ n, 48 ≤ n → n ≤ 57 → isNsChar (Char.ofNat n) = true ∧
      isIndicator (Char.ofNat n) = false ∧ Char.ofNat n ≠ ':' ∧ Char.ofNat n ≠ '-' ∧
      Char.ofNat n ≠ '+' ∧ Char.ofNat n ≠ '?' := by
    intro n h1 h2
    interval_cases n <;> decide
  have := hall c.toNat h0 h9
  rwa [Char.ofNat_toNat] at this

theorem hasMark_eq_false {s : Str} (h : ∀ c ∈ s, isWhite c = false ∧ c ≠ ':') :
    hasMark s = false := by
  fun_induction hasMark s with
  | case1 => rfl
  | case2 c => simpa using (h c (by simp)).2
  | case3 c d s ih =>
      obtain ⟨hw, hc⟩ := h c (by simp)
      rw [ih (fun e he => h e (by simp [he]))]
      simp [hw, hc]

theorem isPlain_of_digits {s : Str} (hne : s ≠ []) (h : ∀ c ∈ s, c.isDigit = true) :
    isPlain s = true := by
  obtain ⟨c, t, rfl⟩ := List.exists_cons_of_ne_nil hne
  have hns : ∀ d ∈ c :: t, isNbChar d = true ∧ isWhite d = false := by
    intro d hd
    simpa [isNsChar] using (isNsChar_of_isDigit (h d hd)).1
  obtain ⟨hc, hind, h1, h2, -, h3⟩ := isNsChar_of_isDigit (h c (by simp))
  have hfirst : plainFirst (c :: t) = true := by simp [plainFirst, h1, h2, h3, hc, hind]
  have hmark : hasMark (c :: t) = false :=
    hasMark_eq_false fun d hd => ⟨(hns d hd).2, (isNsChar_of_isDigit (h d hd)).2.2.1⟩
  have hall : (c :: t).all isNbChar = true := List.all_eq_true.mpr fun d hd => (hns d hd).1
  have hlast : ((c :: t).getLast?.map fun d => !isWhite d).getD false = true := by
    rw [List.getLast?_eq_getLast_of_ne_nil hne]
    simp [(hns _ (List.getLast_mem hne)).2]
  simp [isPlain, hfirst, hmark, hall, hlast]

/-- A decimal number is read as that number: digits make a plain scalar, none of the words of the
core schema begins with one, and there is no sign to drop. -/
theorem readValue_toDigits (n : Nat) :
    readValue (Nat.toDigits 10 n) = some (some (.int n)) := by
  have hne : Nat.toDigits 10 n ≠ [] := Nat.toDigits_ne_nil
  have hdigit : ∀ c ∈ Nat.toDigits 10 n, c.isDigit = true :=
    fun c hc => Nat.isDigit_of_mem_toDigits (by decide) (by decide) hc
  have hval : natOf 10 (Nat.toDigits 10 n) = n := Nat.ofDigitChars_ten_toDigits
  have hplain := isPlain_of_digits hne hdigit
  rw [readValue_of_isPlain hplain]
  generalize Nat.toDigits 10 n = s at hne hdigit hval
  obtain ⟨c, t, rfl⟩ := List.exists_cons_of_ne_nil hne
  have hc : ∀ d : Char, d.isDigit = false → d ≠ c := by
    rintro d hd rfl
    rw [hdigit d (by simp)] at hd
    cases hd
  have hsign : dropSign (c :: t) = c :: t := by
    unfold dropSign
    split
    · next heq => exact absurd (List.cons.inj heq).1.symm (hc '+' (by decide))
    · next heq => exact absurd (List.cons.inj heq).1.symm (hc '-' (by decide))
    · rfl
  have hdigits : isDigits (c :: t) = true := by
    simpa [isDigits] using hdigit
  have hwords : ∀ words : List String, (∀ w ∈ words, ∃ d u, w.toList = d :: u ∧ d.isDigit = false) →
      words.any (fun w => w.toList = c :: t) = false := by
    intro words h
    rw [List.any_eq_false]
    intro w hw
    obtain ⟨d, u, hdu, hd⟩ := h w hw
    simp only [hdu, decide_eq_true_eq, List.cons.injEq, not_and]
    exact fun e => absurd e (hc d hd)
  have hminus : ¬ (c :: t).head? = some '-' := by
    simpa using (hc '-' (by decide)).symm
  rw [resolve, hwords, hwords, hwords, hsign, if_neg (by simp), if_neg (by simp), if_neg (by simp),
    if_pos hdigits, if_neg hminus, hval]
  all_goals simp

end BlogStuff.Yaml
