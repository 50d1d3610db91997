import BlogStuff.Make.Variables
import BlogStuff.Python.Regex

/-!
# BlogStuff.Adepends.Variables

`VariablePool` of `makefile_parser.py`, with the functions `androidmk_parser.py` adds to
it. The pool keeps one text for each variable, whatever operator set it; `expand_var`
replaces the first reference of a text by the text of its variable until there is none
left, and `expand_fun` then carries out one function call.

`none` stands for an evaluation that does not return: it raises (a function with too few
arguments) or its loop does not end. The loop runs on fuel, and what it returns does not
depend on it (`expandVar_mono`).

* `searchRef_append` is how proofs step over text without a `$`;
* `searchRef_expandVar` and `evalExpression_word` say that evaluated words stay as they
  are, whatever the variables.
-/

namespace BlogStuff.Adepends

open BlogStuff.Python BlogStuff.Make

/-- What the program reads of its surroundings. -/
structure Env where
  /-- The `.java` files `os.walk` finds below a directory, written relative to the
  directory of the makefile: that directory first, then the one below it. -/
  javaFiles : Str → Str → List Str
  /-- The order in which `items()` lists a dictionary. -/
  items : List (Str × Nat) → List (Str × Nat)
  items_perm : ∀ l, (items l).Perm l

/-- No files, and dictionaries in the order of insertion. -/
def Env.bare : Env := ⟨fun _ _ => [], id, fun _ => .refl _⟩

/-- The variables of one makefile. -/
structure VariablePool where
  makefile : Str
  /-- `immediate_variables`: all of them, deferred ones too. -/
  vars : Str → Option Str

/-! ### References -/

/-- The rest of `VAR_REFERENCE_RX` behind an opening bracket; either closing bracket
will do. -/
def bracketRef (s : Str) : Option (Str × Str) :=
  match s.takeWhile isWord, s.dropWhile isWord with
  | c :: n, d :: rest => if c.isAlpha && (d == ')' || d == '}') then some (c :: n, rest) else none
  | _, _ => none

/-- `VAR_REFERENCE_RX` at the front of a text: the name and the text behind. A single
letter is a name only at a word boundary. -/
def refAt : Str → Option (Str × Str)
  | '$' :: c :: s =>
      if c == '(' || c == '{' then bracketRef s
      else if c.isAlpha && !(s.head?.any isWord) then some ([c], s)
      else none
  | _ => none

/-- `VAR_REFERENCE_RX.search`: the text before the first reference, its name, and the
text behind it. -/
def searchRef : Str → Option (Str × Str × Str)
  | [] => none
  | c :: s =>
      match refAt (c :: s) with
      | some (name, after) => some ([], name, after)
      | none => (searchRef s).map fun (before, name, after) => (c :: before, name, after)

/-- `expand_var`. Each turn replaces the first reference of the whole text and starts again from its
front, so a value is expanded where it has been put; the turns are bounded by the fuel. -/
def expandVar (vars : Str → Option Str) : Nat → Str → Option Str
  | 0, _ => none
  | fuel + 1, expression =>
      match searchRef expression with
      | none => some expression
      | some (before, name, after) =>
          expandVar vars fuel (before ++ (vars name).getD [] ++ after)

/-! ### Functions -/

/-- The results of a function over words: each with a space behind it, then stripped. -/
def joinWords (ws : List Str) : Str := stripChars isBlank (ws.flatMap (· ++ [' ']))

def functionBasename (args : Str) : Option Str :=
  some (joinWords ((words args).map fun a => (splitext a).1))

def functionDir (args : Str) : Option Str :=
  some (joinWords ((words args).map fun a => pyOr (dirname a) ['.'] ++ ['/']))

def functionNotdir (args : Str) : Option Str := some (joinWords ((words args).map basename))

/-- `addprefix` and `addsuffix`: the text before the first comma is put on each word
between it and the next; without a comma `args[1]` raises. -/
def functionAdd (put : Str → Str → Str) (args : Str) : Option Str :=
  match args.splitOn ',' with
  | part :: names :: _ => some (joinWords ((words names).map (put part)))
  | _ => none

def functionAddprefix (args : Str) : Option Str := functionAdd (fun p n => p ++ n) args

def functionAddsuffix (args : Str) : Option Str := functionAdd (fun p n => n ++ p) args

/-- `,\s*(.*)`. -/
def argsRx : Regex :=
  .seqs [.chr (· == ','), .many isBlank, .group 1 (.many (· != '\n'))]

def functionAllJavaFilesUnder (env : Env) (makefile args : Str) : Option Str :=
  match argsRx.matchAt args with
  | some (_, g) =>
      some (((words (Regex.groupD g 1)).flatMap (env.javaFiles (dirname makefile))).flatMap
        fun item => ' ' :: item)
  | none => some []

def functionAllSubdirJavaFiles (env : Env) (makefile _args : Str) : Option Str :=
  functionAllJavaFilesUnder env makefile ", .".toList

def functionMyDir (makefile _args : Str) : Option Str := some (pyOr (dirname makefile) ['.'])

/-- `MK_FUNCTIONS`, as every `AndroidMKVariablePool` leaves it. -/
def mkFunctions (env : Env) (makefile : Str) : List (Str × (Str → Option Str)) :=
  [("basename".toList, functionBasename), ("notdir".toList, functionNotdir),
    ("dir".toList, functionDir), ("addprefix".toList, functionAddprefix),
    ("addsuffix".toList, functionAddsuffix),
    ("all-java-files-under".toList, functionAllJavaFilesUnder env makefile),
    ("all-subdir-java-files".toList, functionAllSubdirJavaFiles env makefile),
    ("my-dir".toList, functionMyDir makefile)]

/-- `[a-z0-9_\-\.\\/]`. -/
def isArgChar (c : Char) : Bool :=
  c.isLower || c.isDigit || c == '_' || c == '-' || c == '.' || c == '\\' || c == '/'

/-- `FUNCTION_CALL_RX`. -/
def functionCallRx : Regex :=
  .seqs [.lit "$(".toList, .group 1 (.many1 Char.isLower), .chr (· == ' '),
    .group 2 (.many isArgChar),
    .opt (.group 3 (.seqs [.opt (.chr (· == ',')), .many isBlank, .many (· != '\n')])),
    .chr (· == ')')]

/-- `expand_fun`: the first call is replaced by its result. A function that is not known
"returns" the whole expression, which then stands in the place of the call. -/
def expandFun (env : Env) (makefile expression : Str) : Option Str :=
  match functionCallRx.search expression with
  | none => some expression
  | some (before, g, after) =>
      let apply (name arg : Str) : Option Str :=
        match (mkFunctions env makefile).lookup name with
        | some f => f arg
        | none => some expression
      let result :=
        if Regex.groupD g 1 = "call".toList then apply (Regex.groupD g 2) (Regex.groupD g 3)
        else apply (Regex.groupD g 1) (Regex.groupD g 2 ++ Regex.groupD g 3)
      result.map fun r => before ++ r ++ after

/-- `eval_expression`. -/
def evalExpression (env : Env) (fuel : Nat) (pool : VariablePool) (expression : Str) :
    Option Str :=
  (expandVar pool.vars fuel expression).bind (expandFun env pool.makefile)

/-! ### Assignments -/

/-- `VAR_ASSIGNMENT_RX`. -/
def varAssignmentRx : Regex :=
  .seqs [.group 1 (.seq (.chr Char.isAlpha) (.many isWord)), .many isBlank,
    .group 2 (.opt (.chr fun c => c == ':' || c == '?' || c == '+')), .chr (· == '='),
    .many isBlank, .group 3 (.many (· != '\n'))]

/-- The operator in front of the `=`. -/
def varType : Str → Op
  | [':'] => .immediate
  | ['+'] => .append
  | ['?'] => .conditional
  | _ => .deferred

/-- The assignment a line is, if it is one. -/
def assignment (line : Str) : Option Assignment :=
  (varAssignmentRx.matchAt line).map fun (_, g) =>
    ⟨Regex.groupD g 1, varType (Regex.groupD g 2), Regex.groupD g 3⟩

/-- The pool with one variable set. -/
def VariablePool.set (pool : VariablePool) (name text : Str) : VariablePool :=
  { pool with vars := Function.update pool.vars name (some text) }

/-- `add_variable`. `:=` and `+=` evaluate the text now, `=` keeps it as it is, and there is no
branch for `?=`. -/
def addVariable (env : Env) (fuel : Nat) (pool : VariablePool) (a : Assignment) :
    Option VariablePool :=
  match a.op with
  | .immediate => (evalExpression env fuel pool a.text).map (pool.set a.name)
  | .append =>
      (evalExpression env fuel pool a.text).map fun v =>
        match pool.vars a.name with
        | some old => pool.set a.name (old ++ ' ' :: v)
        | none => pool.set a.name v
  | .deferred => some (pool.set a.name a.text)
  | .conditional => some pool

/-! ### Rules -/

section

variable {vars : Str → Option Str} {env : Env} {pool : VariablePool}

theorem refAt_eq_none {c : Char} {s : Str} (hc : c ≠ '$') : refAt (c :: s) = none := by
  unfold refAt
  split
  · next heq => exact absurd (List.cons.inj heq).1 hc
  · rfl

theorem searchRef_append {a : Str} (ha : '$' ∉ a) (s : Str) :
    searchRef (a ++ s) = (searchRef s).map fun (before, name, after) => (a ++ before, name, after) := by
  induction a with
  | nil => simp
  | cons c a ih =>
      obtain ⟨hc, ha⟩ := List.ne_and_not_mem_of_not_mem_cons ha
      rw [List.cons_append, searchRef, refAt_eq_none (Ne.symm hc), ih ha, Option.map_map]
      rfl

theorem searchRef_of_not_mem {a : Str} (ha : '$' ∉ a) : searchRef a = none := by
  simpa [searchRef] using searchRef_append ha []

/-- There is no reference to find exactly if none stands anywhere. By induction on the text: the
search tries every place from the left. -/
theorem searchRef_eq_none_iff {e : Str} :
    searchRef e = none ↔ ∀ a b, e = a ++ b → refAt b = none := by
  induction e with
  | nil =>
      refine iff_of_true rfl fun a b h => ?_
      obtain ⟨rfl, rfl⟩ := List.append_eq_nil_iff.mp h.symm
      rfl
  | cons c s ih =>
      rw [searchRef]
      cases hc : refAt (c :: s) with
      | some p =>
          refine iff_of_false (by simp) fun h => ?_
          rw [h [] (c :: s) rfl] at hc
          cases hc
      | none =>
          rw [Option.map_eq_none_iff, ih]
          constructor
          · intro h a b hab
            cases a with
            | nil => rw [List.nil_append] at hab; rw [← hab, hc]
            | cons d a => exact h a b (List.cons.inj hab).2
          · intro h a b hab
            exact h (c :: a) b (by rw [hab, List.cons_append])

/-- `[A-Za-z][A-Za-z0-9_]*`. -/
def isName (n : Str) : Bool := n.head?.any Char.isAlpha && n.all isWord

theorem bracketRef_eq_some_iff {s n r : Str} : bracketRef s = some (n, r) ↔
    isName n = true ∧ (s = n ++ ')' :: r ∨ s = n ++ '}' :: r) := by
  have hsplit : s = s.takeWhile isWord ++ s.dropWhile isWord := List.takeWhile_append_dropWhile.symm
  unfold bracketRef
  constructor
  · intro h
    split at h
    · next c m d rest htake hdrop =>
        have hall : ∀ e ∈ c :: m, isWord e = true := by
          intro e he
          rw [← htake] at he
          exact List.mem_takeWhile_imp he
        split_ifs at h with hc
        obtain ⟨rfl, rfl⟩ := Prod.mk.inj (Option.some.inj h)
        rw [Bool.and_eq_true, Bool.or_eq_true, beq_iff_eq, beq_iff_eq] at hc
        refine ⟨by simpa [isName, hc.1] using hall, ?_⟩
        rw [hsplit, htake, hdrop]
        rcases hc.2 with rfl | rfl
        · exact .inl rfl
        · exact .inr rfl
    · cases h
  · intro h
    obtain ⟨hn, hs⟩ := h
    have hall : ∀ c ∈ n, isWord c = true := by
      simp only [isName, Bool.and_eq_true, List.all_eq_true] at hn
      exact hn.2
    have hcut : ∀ d : Char, isWord d = false → s = n ++ d :: r →
        s.takeWhile isWord = n ∧ s.dropWhile isWord = d :: r := by
      rintro d hd rfl
      rw [List.takeWhile_append_of_pos hall, List.dropWhile_append_of_pos hall]
      simp [hd]
    cases n with
    | nil => simp [isName] at hn
    | cons c m =>
        have hc : c.isAlpha = true := by
          simp only [isName, Bool.and_eq_true] at hn
          simpa using hn.1
        rcases hs with hs | hs
        · obtain ⟨h1, h2⟩ := hcut ')' (by decide) hs
          rw [h1, h2]
          simp [hc]
        · obtain ⟨h1, h2⟩ := hcut '}' (by decide) hs
          rw [h1, h2]
          simp [hc]

/-- What a reference looks like: a name in brackets, where the source does not compare the two kinds
of bracket, or one letter that no word character follows. -/
theorem refAt_eq_some_iff {t n r : Str} : refAt t = some (n, r) ↔
    (∃ o s, t = '$' :: o :: s ∧ (o = '(' ∨ o = '{') ∧ bracketRef s = some (n, r)) ∨
      ∃ c, t = '$' :: c :: r ∧ n = [c] ∧ c.isAlpha = true ∧
        ∀ d, r.head? = some d → isWord d = false := by
  constructor
  · intro h
    unfold refAt at h
    split at h
    · next c s =>
        split_ifs at h with ho hc
        · exact .inl ⟨c, s, rfl, by simpa using ho, h⟩
        · obtain ⟨rfl, rfl⟩ := Prod.mk.inj (Option.some.inj h)
          refine .inr ⟨c, rfl, rfl, ?_, ?_⟩
          · exact (Bool.and_eq_true _ _ ▸ hc).1
          · intro d hd
            have hend := (Bool.and_eq_true _ _ ▸ hc).2
            rw [hd] at hend
            simpa using hend
    · cases h
  · intro h
    rcases h with ⟨o, s, rfl, ho, hs⟩ | ⟨c, rfl, rfl, hc, hr⟩
    · rcases ho with rfl | rfl
      · exact hs
      · exact hs
    · have hnot : (c == '(' || c == '{') = false := by
        rw [Bool.or_eq_false_iff, beq_eq_false_iff_ne, beq_eq_false_iff_ne]
        refine ⟨?_, ?_⟩
        · rintro rfl
          exact absurd hc (by decide)
        · rintro rfl
          exact absurd hc (by decide)
      have hend : r.head?.any isWord = false := by
        cases hd : r.head? with
        | none => rfl
        | some d => exact hr d hd
      simp [refAt, hnot, hc, hend]

/-- A reference stays one when more text follows it, unless it is a single letter that
the text makes into a word. -/
theorem refAt_append {t n r b : Str} (h : refAt t = some (n, r))
    (hb : ∀ c, c.isAlpha = true → t = ['$', c] → ∀ d, b.head? = some d → isWord d = false) :
    refAt (t ++ b) = some (n, r ++ b) := by
  rcases refAt_eq_some_iff.mp h with ⟨o, s, rfl, ho, hs⟩ | ⟨c, rfl, rfl, hc, hr⟩
  · refine refAt_eq_some_iff.mpr (.inl ⟨o, s ++ b, rfl, ho, ?_⟩)
    obtain ⟨hn, hs⟩ := bracketRef_eq_some_iff.mp hs
    refine bracketRef_eq_some_iff.mpr ⟨hn, ?_⟩
    rcases hs with rfl | rfl
    · exact .inl (by simp)
    · exact .inr (by simp)
  · refine refAt_eq_some_iff.mpr (.inr ⟨c, rfl, rfl, hc, ?_⟩)
    cases r with
    | nil => exact hb c hc rfl
    | cons d r => exact hr

/-- A text in front of a character, read again up to a place before any such character: the place
lies behind the text, or is its very end. -/
theorem cut_at {a r t z : Str} {q b : Char} (ha : b ∉ a) (h : a ++ q :: r = t ++ b :: z) :
    (∃ r', t = a ++ q :: r' ∧ r = r' ++ b :: z) ∨ t = a ∧ q = b ∧ r = z := by
  rcases List.append_eq_append_iff.mp h with ⟨u, rfl, hu⟩ | ⟨u, rfl, hu⟩
  · cases u with
    | nil =>
        obtain ⟨rfl, rfl⟩ := List.cons.inj hu
        exact .inr ⟨(List.append_nil _), rfl, rfl⟩
    | cons c u =>
        obtain ⟨rfl, rfl⟩ := List.cons.inj hu
        exact .inl ⟨u, rfl, rfl⟩
  · cases u with
    | nil =>
        obtain ⟨rfl, rfl⟩ := List.cons.inj hu
        exact .inr ⟨(List.append_nil _).symm, rfl, rfl⟩
    | cons c u =>
        obtain ⟨rfl, -⟩ := List.cons.inj hu
        simp at ha

/-- A reference holds no blank, so a text that begins with none does not begin with one because a
blank and other text follow. A letter before the blank was a reference without it. -/
theorem refAt_append_blank {t : Str} (h : refAt t = none) {b : Char} (hb : isBlank b = true)
    (z : Str) : refAt (t ++ b :: z) = none := by
  refine Option.eq_none_iff_forall_ne_some.mpr fun p hp => ?_
  obtain ⟨n, r⟩ := p
  suffices hshort : ∃ r', refAt t = some (n, r') by
    obtain ⟨r', hr'⟩ := hshort
    rw [h] at hr'
    cases hr'
  have hne : ∀ c, isBlank c = false → b ≠ c := by
    rintro c hc rfl
    rw [hb] at hc
    cases hc
  rcases refAt_eq_some_iff.mp hp with ⟨o, s, hs, ho, href⟩ | ⟨c, hc, rfl, halpha, hend⟩
  · obtain ⟨hn, hs'⟩ := bracketRef_eq_some_iff.mp href
    have hno : b ∉ '$' :: o :: n := by
      have hword : b ∉ n := by
        intro hmem
        simp only [isName, Bool.and_eq_true, List.all_eq_true] at hn
        have hfalse := isWord_of_isBlank hb
        rw [hn.2 b hmem] at hfalse
        cases hfalse
      have hdollar : b ≠ '$' := hne '$' (by decide)
      rcases ho with rfl | rfl
      · simp [hword, hdollar, hne '(' (by decide)]
      · simp [hword, hdollar, hne '{' (by decide)]
    -- the closing bracket stands before the blank
    have hcut : ∀ q, isBlank q = false → s = n ++ q :: r → ∃ r', t = '$' :: o :: (n ++ q :: r') := by
      intro q hq hs'
      rcases cut_at (r := r) (q := q) hno (by rw [hs, hs']; rfl) with ⟨r', ht, -⟩ | ⟨-, hq', -⟩
      · exact ⟨r', ht⟩
      · exact absurd hq'.symm (hne q hq)
    rcases hs' with hs' | hs'
    · obtain ⟨r', rfl⟩ := hcut ')' (by decide) hs'
      exact ⟨r', refAt_eq_some_iff.mpr (.inl ⟨o, _, rfl, ho, bracketRef_eq_some_iff.mpr ⟨hn, .inl rfl⟩⟩)⟩
    · obtain ⟨r', rfl⟩ := hcut '}' (by decide) hs'
      exact ⟨r', refAt_eq_some_iff.mpr (.inl ⟨o, _, rfl, ho, bracketRef_eq_some_iff.mpr ⟨hn, .inr rfl⟩⟩)⟩
  · have hdollar : b ∉ ['$'] := by simpa using hne '$' (by decide)
    rcases cut_at (a := ['$']) (r := r) (q := c) hdollar hc.symm with ⟨r', rfl, rfl⟩ | ⟨-, rfl, -⟩
    · refine ⟨r', refAt_eq_some_iff.mpr (.inr ⟨c, rfl, rfl, halpha, fun d hd => hend d ?_⟩)⟩
      rw [List.head?_append, hd]
      rfl
    · have hword := isWord_of_isBlank hb
      simp [isWord, Char.isAlphanum, halpha] at hword

/-- A reference is one `$` and some text with the name in it, which decides the name: whatever
follows, a reference that begins with this text has this name. -/
theorem refAt_parts {t n r : Str} (h : refAt t = some (n, r)) :
    ∃ p, t = '$' :: (p ++ r) ∧ '$' ∉ p ∧
      ∀ b m q, refAt ('$' :: (p ++ b)) = some (m, q) → m = n := by
  have hname : ∀ m : Str, isName m = true → '$' ∉ m := by
    intro m hm hmem
    simp only [isName, Bool.and_eq_true, List.all_eq_true] at hm
    exact absurd (hm.2 '$' hmem) (by decide)
  rcases refAt_eq_some_iff.mp h with ⟨o, s, rfl, ho, hs⟩ | ⟨c, rfl, rfl, hc, -⟩
  · obtain ⟨hn, hs⟩ := bracketRef_eq_some_iff.mp hs
    obtain ⟨e, rfl, he⟩ : ∃ e, s = n ++ e :: r ∧ (e = ')' ∨ e = '}') := by
      rcases hs with rfl | rfl
      · exact ⟨')', rfl, .inl rfl⟩
      · exact ⟨'}', rfl, .inr rfl⟩
    refine ⟨o :: (n ++ [e]), by simp, ?_, fun b m q hb => ?_⟩
    · have hbrackets : '$' ≠ o ∧ '$' ≠ e := by
        rcases ho with rfl | rfl <;> rcases he with rfl | rfl <;> decide
      simp [hbrackets.1, hbrackets.2, hname n hn]
    · have hsame : refAt ('$' :: (o :: (n ++ [e]) ++ b)) = some (n, b) := by
        refine refAt_eq_some_iff.mpr (.inl ⟨o, n ++ e :: b, by simp, ho, ?_⟩)
        refine bracketRef_eq_some_iff.mpr ⟨hn, ?_⟩
        rcases he with rfl | rfl
        · exact .inl rfl
        · exact .inr rfl
      rw [hsame] at hb
      exact (Prod.mk.inj (Option.some.inj hb)).1.symm
  · refine ⟨[c], rfl, ?_, fun b m q hb => ?_⟩
    · rw [List.mem_singleton]
      rintro rfl
      exact absurd hc (by decide)
    · rcases refAt_eq_some_iff.mp hb with ⟨o, s, hos, ho, -⟩ | ⟨d, hd, rfl, -⟩
      · obtain ⟨rfl, -⟩ := List.cons.inj (List.cons.inj hos).2
        rcases ho with rfl | rfl <;> exact absurd hc (by decide)
      · obtain ⟨rfl, -⟩ := List.cons.inj (List.cons.inj hd).2
        rfl

/-- What a search finds is a reference, and the text in front of it is what the search has passed
over. -/
theorem of_searchRef {e b n a : Str} (h : searchRef e = some (b, n, a)) :
    ∃ t, e = b ++ t ∧ refAt t = some (n, a) := by
  induction e generalizing b with
  | nil => cases h
  | cons c s ih =>
      rw [searchRef] at h
      cases hc : refAt (c :: s) with
      | some p =>
          rw [hc] at h
          cases h
          exact ⟨c :: s, rfl, hc⟩
      | none =>
          rw [hc] at h
          obtain ⟨⟨b', n', a'⟩, hs, hp⟩ := Option.map_eq_some_iff.mp h
          cases hp
          obtain ⟨t, rfl, ht⟩ := ih hs
          exact ⟨t, rfl, ht⟩

/-- The result of `expand_var` does not depend on the fuel. -/
theorem expandVar_mono {fuel fuel' : Nat} {e v : Str} (h : expandVar vars fuel e = some v)
    (hle : fuel ≤ fuel') : expandVar vars fuel' e = some v := by
  induction fuel generalizing e fuel' with
  | zero => cases h
  | succ fuel ih =>
      obtain ⟨k, rfl⟩ := Nat.exists_eq_add_of_le' (Nat.le_trans (Nat.le_add_left 1 fuel) hle)
      rw [expandVar] at h ⊢
      cases hs : searchRef e with
      | none => rwa [hs] at h
      | some p =>
          rw [hs] at h
          exact ih h (by omega)

/-- `expand_var` leaves no reference behind: the loop has no other way out than a search that finds
none. -/
theorem searchRef_expandVar {fuel : Nat} {e v : Str} (h : expandVar vars fuel e = some v) :
    searchRef v = none := by
  induction fuel generalizing e with
  | zero => cases h
  | succ fuel ih =>
      rw [expandVar] at h
      cases hs : searchRef e with
      | none =>
          rw [hs] at h
          obtain rfl := Option.some.inj h
          exact hs
      | some p =>
          rw [hs] at h
          exact ih h

theorem of_functionCallRx {e : Str} (h : (functionCallRx.search e).isSome) : '$' ∈ e ∧ ' ' ∈ e := by
  obtain ⟨a, b, rfl, hb⟩ := Regex.search_isSome.mp h
  obtain ⟨b, rfl, hname⟩ := Regex.run_lit_isSome.mp hb
  -- the name of the function, then the space
  rw [Regex.run_seqs_cons, Regex.run, Regex.many1, Regex.run] at hname
  obtain ⟨c, b, rfl, -, hmany⟩ := Regex.run_chr_isSome.mp hname
  obtain ⟨n, b, rfl, -, hspace⟩ := Regex.runMany_isSome.mp hmany
  beta_reduce at hspace
  rw [Regex.run_seqs_cons] at hspace
  obtain ⟨d, b, rfl, hd, -⟩ := Regex.run_chr_isSome.mp hspace
  obtain rfl : d = ' ' := beq_iff_eq.mp hd
  simp

theorem expandFun_of_search {e : Str} (h : functionCallRx.search e = none) (makefile : Str) :
    expandFun env makefile e = some e := by
  unfold expandFun
  rw [h]

theorem search_functionCallRx {e : Str} (h : '$' ∉ e ∨ ' ' ∉ e) :
    functionCallRx.search e = none := by
  by_contra hne
  obtain ⟨hd, hs⟩ := of_functionCallRx (Option.isSome_iff_ne_none.mpr hne)
  rcases h with h | h
  · exact h hd
  · exact h hs

theorem evalExpression_mono {fuel fuel' : Nat} {e v : Str}
    (h : evalExpression env fuel pool e = some v) (hle : fuel ≤ fuel') :
    evalExpression env fuel' pool e = some v := by
  obtain ⟨u, hu, hv⟩ := Option.bind_eq_some_iff.mp h
  exact Option.bind_eq_some_iff.mpr ⟨u, expandVar_mono hu hle, hv⟩

theorem addVariable_mono {fuel fuel' : Nat} {a : Assignment} {pool' : VariablePool}
    (h : addVariable env fuel pool a = some pool') (hle : fuel ≤ fuel') :
    addVariable env fuel' pool a = some pool' := by
  obtain ⟨x, op, t⟩ := a
  cases op with
  | immediate =>
      obtain ⟨v, hv, rfl⟩ := Option.map_eq_some_iff.mp h
      simp only [addVariable, evalExpression_mono hv hle, Option.map_some]
  | append =>
      obtain ⟨v, hv, hpool⟩ := Option.map_eq_some_iff.mp h
      simp only [addVariable, evalExpression_mono hv hle, Option.map_some]
      exact congrArg some hpool
  | deferred => exact h
  | conditional => exact h

/-- An assignment sets no other variable, whichever of the four operators it has. -/
theorem vars_addVariable {fuel : Nat} {pool' : VariablePool} {a : Assignment} {x : Str}
    (h : addVariable env fuel pool a = some pool') (hx : x ≠ a.name) :
    pool'.vars x = pool.vars x := by
  obtain ⟨name, op, text⟩ := a
  cases op with
  | immediate =>
      obtain ⟨v, -, rfl⟩ := Option.map_eq_some_iff.mp h
      exact Function.update_of_ne hx _ _
  | append =>
      obtain ⟨v, -, rfl⟩ := Option.map_eq_some_iff.mp h
      split <;> exact Function.update_of_ne hx _ _
  | deferred =>
      obtain rfl := Option.some.inj h
      exact Function.update_of_ne hx _ _
  | conditional =>
      obtain rfl := Option.some.inj h
      rfl

/-- A text without references and without calls stays as it is, whatever the variables. -/
theorem evalExpression_of_search {e : Str} (hr : searchRef e = none)
    (hf : functionCallRx.search e = none) (fuel : Nat) (pool : VariablePool) :
    evalExpression env (fuel + 1) pool e = some e := by
  rw [evalExpression, expandVar, hr, Option.bind_some, expandFun_of_search hf]

theorem searchRef_of_mem_words {w e : Str} (hw : w ∈ words e) (h : searchRef e = none) :
    searchRef w = none := by
  obtain ⟨-, -, a, b, rfl, hb⟩ := of_mem_words hw
  refine searchRef_eq_none_iff.mpr fun p q hpq => ?_
  by_contra hq
  obtain ⟨⟨n, r⟩, hq⟩ := Option.ne_none_iff_exists'.mp hq
  -- the blank behind the word does not spoil the reference
  have hlong := refAt_append hq fun _ _ _ d hd => isWord_of_isBlank (hb d hd)
  rw [searchRef_eq_none_iff.mp h (a ++ p) (q ++ b) (by simp [hpq])] at hlong
  cases hlong

end

end BlogStuff.Adepends
