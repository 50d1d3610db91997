import BlogStuff.Python.PosixPath

/-!
# BlogStuff.Shell.Find

`find`, as far as it is used to list files by extension: start points, one `-iregex` that is
an alternative of extensions, and any number of `-not -ipath` tests.

A file below a start point is printed as the start point and the path down to it. Both tests
see the whole of this text: the same file can be printed from several start points, and
differently each time. A pattern of `-ipath` has wildcards, `/` and a leading dot are nothing
special to them, and the case of letters (those of ASCII here) does not count.
-/

namespace BlogStuff.Shell

open BlogStuff.Python

/-! ### Patterns -/

/-- Part of a pattern. -/
inductive GlobToken
  /-- `*`. -/
  | any
  /-- `?`. -/
  | one
  /-- A character that stands for itself. -/
  | lit (c : Char)
  /-- `[...]`: ranges of characters, or with `!` the others. -/
  | set (negated : Bool) (ranges : List (Char × Char))
  deriving DecidableEq, Repr

/-- The ranges up to `]`, and the text behind. A `]` in front is a character of the set, and so is a
`-` at the end. -/
def readRanges : Bool → Str → Option (List (Char × Char) × Str)
  | _, [] => none
  | first, c :: s =>
      if c = ']' ∧ first = false then some ([], s)
      else
        match s with
        | '-' :: d :: rest =>
            if d = ']' then some ([(c, c), ('-', '-')], rest)
            else (readRanges false rest).map fun r => ((c, d) :: r.1, r.2)
        | s => (readRanges false s).map fun r => ((c, c) :: r.1, r.2)

/-- A set, behind the `[`. -/
def readSet : Str → Option (GlobToken × Str)
  | c :: s =>
      if c = '!' ∨ c = '^' then (readRanges true s).map fun r => (.set true r.1, r.2)
      else (readRanges true (c :: s)).map fun r => (.set false r.1, r.2)
  | [] => none

/-- The parts of a pattern, in so many steps; a backslash at the end makes it match nothing. A
bracket that is not closed stands for itself. -/
def globTokens : Nat → Str → Option (List GlobToken)
  | _, [] => some []
  | 0, _ => none
  | n + 1, c :: s =>
      if c = '*' then (globTokens n s).map (.any :: ·)
      else if c = '?' then (globTokens n s).map (.one :: ·)
      else if c = '\\' then
        match s with
        | [] => none
        | d :: s => (globTokens n s).map (.lit d :: ·)
      else if c = '[' then
        match readSet s with
        | some (t, rest) => (globTokens n rest).map (t :: ·)
        | none => (globTokens n s).map (.lit c :: ·)
      else (globTokens n s).map (.lit c :: ·)

/-- A character against a part that takes one. -/
def GlobToken.takes : GlobToken → Char → Bool
  | .any, _ => false
  | .one, _ => true
  | .lit d, c => d.toLower == c.toLower
  | .set negated ranges, c =>
      (ranges.any fun r => r.1.toLower ≤ c.toLower ∧ c.toLower ≤ r.2.toLower) != negated

/-- The parts against a whole text. -/
def globMatch : List GlobToken → Str → Bool
  | [], t => t.isEmpty
  | .any :: p, t => t.tails.any (globMatch p)
  | _ :: _, [] => false
  | g :: p, c :: t => g.takes c && globMatch p t

/-- `-ipath pattern`. -/
def ipath (pattern text : Str) : Bool :=
  match globTokens pattern.length pattern with
  | some p => globMatch p text
  | none => false

example : ipath "src*".toList "SRC2/a.c".toList = true := by decide
example : ipath "src*".toList "./src/a.c".toList = false := by decide

/-- A character with a meaning in patterns. -/
def isWild (c : Char) : Bool := c == '*' || c == '?' || c == '[' || c == '\\'

theorem globTokens_plain {p : Str} (h : ∀ c ∈ p, isWild c = false) {n : Nat} (hn : p.length < n) :
    globTokens n (p ++ ['*']) = some (p.map GlobToken.lit ++ [.any]) := by
  induction p generalizing n with
  | nil =>
      obtain ⟨n, rfl⟩ := Nat.exists_eq_succ_of_ne_zero (Nat.ne_of_gt hn)
      cases n <;> rfl
  | cons c p ih =>
      obtain ⟨n, rfl⟩ := Nat.exists_eq_succ_of_ne_zero (Nat.ne_of_gt (Nat.zero_lt_of_lt hn))
      have hc := h c List.mem_cons_self
      simp only [isWild, Bool.or_eq_false_iff, beq_eq_false_iff_ne] at hc
      obtain ⟨⟨⟨hstar, hone⟩, hset⟩, hslash⟩ := hc
      have hrest := ih (fun d hd => h d (.tail c hd)) (Nat.lt_of_succ_lt_succ hn)
      simp [globTokens, hstar, hone, hset, hslash, hrest]

theorem globMatch_plain {p t : Str} : globMatch (p.map GlobToken.lit ++ [.any]) t = true ↔
    p.map Char.toLower <+: t.map Char.toLower := by
  induction p generalizing t with
  | nil =>
      have htail : t.tails.any (globMatch []) = true :=
        List.any_eq_true.mpr ⟨[], (List.mem_tails _ _).mpr (List.nil_suffix), rfl⟩
      exact iff_of_true htail (List.nil_prefix)
  | cons c p ih =>
      cases t with
      | nil => simp [globMatch]
      | cons d t =>
          have hcons : (c :: p).map GlobToken.lit ++ [.any] =
              .lit c :: (p.map GlobToken.lit ++ [.any]) := rfl
          rw [hcons, globMatch, Bool.and_eq_true, ih, GlobToken.takes, beq_iff_eq, List.map_cons,
            List.map_cons, List.cons_prefix_cons]
          simp

/-- **A pattern without wildcards but the star at its end asks how a text begins.** -/
theorem ipath_star {p t : Str} (h : ∀ c ∈ p, isWild c = false) :
    ipath (p ++ ['*']) t = true ↔ p.map Char.toLower <+: t.map Char.toLower := by
  rw [ipath, globTokens_plain h (by simp)]
  exact globMatch_plain

/-! ### Extensions -/

/-- The text ends in a dot and the extension. -/
def endsInExt (text ext : Str) : Bool := (('.' :: ext).map Char.toLower).isSuffixOf (text.map Char.toLower)

/-- The alternatives of `.*\.(a|b)$`. -/
def readExtensions (r : Str) : Option (List Str) :=
  let front := ".*\\.(".toList
  let back := ")$".toList
  if startswith r front ∧ endswith r back then
    let exts := ((r.drop front.length).take (r.length - front.length - back.length)).splitOn '|'
    -- other characters could be part of the expression
    if exts.all fun e => e.all Char.isAlphanum then some exts else none
  else none

/-! ### The command line -/

/-- A command that lists files. -/
structure FindQuery where
  starts : List Str
  exts : List Str
  excludes : List Str
  deriving DecidableEq, Repr

/-- The first argument that looks like this ends the start points. -/
def looksLikeExpression (a : Str) : Bool :=
  (startswith a ['-'] && 1 < a.length) || a == ['('] || a == ['!']

/-- The tests behind the `-iregex`. -/
def readExcludes : List Str → Option (List Str)
  | [] => some []
  | a :: b :: p :: rest =>
      if a = "-not".toList ∧ b = "-ipath".toList then (readExcludes rest).map (p :: ·) else none
  | _ => none

/-- The expression behind the start points. -/
def readExpression : List Str → Option (List Str × List Str)
  | a :: r :: rest =>
      if a = "-iregex".toList then do return (← readExtensions r, ← readExcludes rest) else none
  | _ => none

/-- The arguments of `find`, with extended expressions chosen by `-E` or by `-regextype`. The start
points are the arguments up to the first that looks like an expression. -/
def readFind : List Str → Option FindQuery
  | [] => none
  | a :: args => do
      let bsd := a = "-E".toList
      let args := if bsd then args else a :: args
      let rest := args.dropWhile fun a => !looksLikeExpression a
      let rest ← if bsd then some rest
        else if rest.take 2 = ["-regextype".toList, "posix-extended".toList] then some (rest.drop 2)
        else none
      let (exts, excludes) ← readExpression rest
      return ⟨args.takeWhile fun a => !looksLikeExpression a, exts, excludes⟩

/-! ### Reading a command that is written out -/

theorem readExtensions_alternatives {alternatives : Str}
    (h : ∀ e ∈ alternatives.splitOn '|', e.all Char.isAlphanum = true) :
    readExtensions (".*\\.(".toList ++ alternatives ++ ")$".toList) =
      some (alternatives.splitOn '|') := by
  have hfront : startswith (".*\\.(".toList ++ alternatives ++ ")$".toList) ".*\\.(".toList = true := by
    rw [List.append_assoc]
    exact List.isPrefixOf_iff_prefix.mpr (List.prefix_append _ _)
  have hback : endswith (".*\\.(".toList ++ alternatives ++ ")$".toList) ")$".toList = true :=
    List.isSuffixOf_iff_suffix.mpr (List.suffix_append _ _)
  have hinner : ((".*\\.(".toList ++ alternatives ++ ")$".toList).drop ".*\\.(".toList.length).take
      ((".*\\.(".toList ++ alternatives ++ ")$".toList).length - ".*\\.(".toList.length -
        ")$".toList.length) = alternatives := by
    rw [List.append_assoc, List.drop_left, List.length_append, List.length_append,
      Nat.add_sub_cancel_left, Nat.add_sub_cancel, List.take_left]
  rw [readExtensions, if_pos ⟨hfront, hback⟩, hinner, if_pos (List.all_eq_true.mpr h)]

theorem readExcludes_tests (patterns : List Str) :
    readExcludes (patterns.flatMap fun p => ["-not".toList, "-ipath".toList, p]) = some patterns := by
  induction patterns with
  | nil => rfl
  | cons p patterns ih =>
      have hcons : readExcludes ((p :: patterns).flatMap fun p => ["-not".toList, "-ipath".toList, p]) =
          (readExcludes (patterns.flatMap fun p => ["-not".toList, "-ipath".toList, p])).map (p :: ·) :=
        if_pos ⟨rfl, rfl⟩
      rw [hcons, ih, Option.map_some]

section

variable {starts : List Str} {alternatives : Str} (patterns : List Str)
  (hstarts : ∀ a ∈ starts, looksLikeExpression a = false)
  (halternatives : ∀ e ∈ alternatives.splitOn '|', e.all Char.isAlphanum = true)

/-- The expression of a command that lists files. -/
def writeExpression (alternatives : Str) (patterns : List Str) : List Str :=
  "-iregex".toList :: (".*\\.(".toList ++ alternatives ++ ")$".toList) ::
    patterns.flatMap fun p => ["-not".toList, "-ipath".toList, p]

include halternatives in
theorem readExpression_write :
    readExpression (writeExpression alternatives patterns) =
      some (alternatives.splitOn '|', patterns) := by
  rw [writeExpression, readExpression, if_pos rfl, readExtensions_alternatives halternatives,
    readExcludes_tests]
  rfl

include hstarts in
theorem takeWhile_starts {a : Str} (rest : List Str) (ha : looksLikeExpression a = true) :
    (starts ++ a :: rest).takeWhile (fun a => !looksLikeExpression a) = starts ∧
      (starts ++ a :: rest).dropWhile (fun a => !looksLikeExpression a) = a :: rest := by
  have hall : ∀ b ∈ starts, (!looksLikeExpression b) = true := by
    intro b hb
    rw [hstarts b hb, Bool.not_false]
  rw [List.takeWhile_append_of_pos hall, List.dropWhile_append_of_pos hall]
  simp [ha]

include hstarts halternatives in
theorem readFind_bsd :
    readFind ("-E".toList :: (starts ++ writeExpression alternatives patterns)) =
      some ⟨starts, alternatives.splitOn '|', patterns⟩ := by
  obtain ⟨htake, hdrop⟩ := takeWhile_starts hstarts
    ((".*\\.(".toList ++ alternatives ++ ")$".toList) ::
      patterns.flatMap fun p => ["-not".toList, "-ipath".toList, p])
    (show looksLikeExpression "-iregex".toList = true from rfl)
  have hread := readExpression_write patterns halternatives
  rw [writeExpression] at hread ⊢
  simp only [readFind, if_true, htake, hdrop, hread, Option.bind_eq_bind, Option.bind_some]
  rfl

include hstarts halternatives in
theorem readFind_gnu :
    readFind (starts ++ "-regextype".toList :: "posix-extended".toList ::
        writeExpression alternatives patterns) =
      some ⟨starts, alternatives.splitOn '|', patterns⟩ := by
  obtain ⟨htake, hdrop⟩ := takeWhile_starts hstarts
    ("posix-extended".toList :: writeExpression alternatives patterns)
    (show looksLikeExpression "-regextype".toList = true from rfl)
  -- the first argument is a start point or `-regextype`, never `-E`
  obtain ⟨a, args, hargs, ha⟩ : ∃ a args, starts ++ "-regextype".toList :: "posix-extended".toList ::
      writeExpression alternatives patterns = a :: args ∧ a ≠ "-E".toList := by
    cases starts with
    | nil => exact ⟨_, _, rfl, by decide⟩
    | cons a starts =>
        refine ⟨a, _, rfl, fun h => ?_⟩
        have hlooks := hstarts a List.mem_cons_self
        rw [h] at hlooks
        exact absurd hlooks (by decide)
  rw [hargs] at htake hdrop ⊢
  simp only [readFind, ha, if_false, htake, hdrop, List.take_succ_cons, List.take_zero, if_true,
    List.drop_succ_cons, List.drop_zero, readExpression_write patterns halternatives,
    Option.bind_eq_bind, Option.bind_some]
  rfl

end

/-! ### The run -/

/-- The files of a tree without symbolic links. -/
structure FileTree where
  files : List Path
  names : ∀ f ∈ files, ∀ c ∈ f, IsName c

/-- What is printed for a file at `rel` below a start point. -/
def printed (start : Str) (rel : Path) : Str :=
  if rel = [] then start
  else (if endswith start ['/'] then start else start ++ ['/']) ++ joinSlash rel

/-- What stands in front of the names below a directory, where it is printed from a start point. -/
def printedStem (start : Str) (rel : Path) : Str := printed start (rel ++ [[]])

theorem joinSlash_append {a b : Path} (ha : a ≠ []) (hb : b ≠ []) :
    joinSlash (a ++ b) = joinSlash a ++ '/' :: joinSlash b := by
  induction a with
  | nil => exact absurd rfl ha
  | cons x a ih =>
      have hcons : ∀ {l : Path}, l ≠ [] → joinSlash (x :: l) = x ++ ['/'] ++ joinSlash l := by
        intro l hl
        obtain ⟨y, l, rfl⟩ := List.exists_cons_of_ne_nil hl
        exact List.intercalate_cons_cons
      by_cases hne : a = []
      · subst hne
        rw [List.cons_append, List.nil_append, hcons hb]
        simp [joinSlash]
      · rw [List.cons_append, hcons (by simp [hne]), ih hne, hcons hne]
        simp

theorem prefix_joinSlash (a b : Path) : joinSlash a <+: joinSlash (a ++ b) := by
  by_cases ha : a = []
  · subst ha
    exact List.nil_prefix
  · by_cases hb : b = []
    · rw [hb, List.append_nil]
    · rw [joinSlash_append ha hb]
      exact List.prefix_append _ _

theorem printed_append (start : Str) (rel : Path) {rest : Path} (hrest : rest ≠ []) :
    printed start (rel ++ rest) = printedStem start rel ++ joinSlash rest := by
  have hjoin : joinSlash (rel ++ rest) = joinSlash (rel ++ [[]]) ++ joinSlash rest := by
    by_cases hrel : rel = []
    · subst hrel
      rfl
    · rw [joinSlash_append hrel hrest, joinSlash_append hrel (List.cons_ne_nil _ _), List.append_assoc]
      rfl
  have hrest' : rel ++ rest ≠ [] := by simp [hrest]
  have hname : rel ++ [[]] ≠ [] := by simp
  rw [printedStem, printed, printed, if_neg hrest', if_neg hname, hjoin, List.append_assoc]

theorem printed_rooted {names rel : Path} (h : ∀ c ∈ names, IsName c) (hrel : rel ≠ []) :
    printed ('/' :: joinSlash names) rel = '/' :: joinSlash (names ++ rel) := by
  rw [printed, if_neg hrel]
  by_cases hnames : names = []
  · subst hnames
    rfl
  · rw [not_endswith_rooted h hnames, joinSlash_append hnames hrel]
    simp

/-- The characters of what is printed: those of the start point, those of the names below it, and
the slashes between them. -/
theorem mem_printed {start : Str} {rel : Path} {c : Char} (h : c ∈ printed start rel) :
    c ∈ start ∨ c = '/' ∨ ∃ x ∈ rel, c ∈ x := by
  unfold printed at h
  split_ifs at h with hrel hslash
  · exact .inl h
  · rcases List.mem_append.mp h with h | h
    · exact .inl h
    · rcases mem_intercalate_singleton h with ⟨x, hx, hc⟩ | hc
      · exact .inr (.inr ⟨x, hx, hc⟩)
      · exact .inr (.inl hc)
  · rcases List.mem_append.mp h with h | h
    · rcases List.mem_append.mp h with h | h
      · exact .inl h
      · exact .inr (.inl (List.mem_singleton.mp h))
    · rcases mem_intercalate_singleton h with ⟨x, hx, hc⟩ | hc
      · exact .inr (.inr ⟨x, hx, hc⟩)
      · exact .inr (.inl hc)

/-- What is printed for a file names it: `find` joins the names to the start point as `os.path.join`
would, and they are plain names. -/
theorem absParts_printed (cwd : WorkDir) {start : Str} (hstart : start ≠ []) {rel : Path}
    (hrel : ∀ c ∈ rel, IsName c) : absParts cwd (printed start rel) = absParts cwd start ++ rel := by
  by_cases hne : rel = []
  · rw [hne, printed, if_pos rfl, List.append_nil]
  · have hparts : ∀ c ∈ rel, c ≠ [] ∧ '/' ∉ c := fun c hc => ⟨(hrel c hc).1, (hrel c hc).2.2.2⟩
    have hrooted := not_startswith_joinSlash hparts hne
    have htext : printed start rel = joinText start (joinSlash rel) := by
      rw [printed, if_neg hne, joinText, if_neg hrooted]
      by_cases hslash : endswith start ['/'] = true
      · rw [if_pos hslash, if_pos (.inr hslash)]
      · rw [if_neg hslash, if_neg (by simp [hstart, hslash]), List.append_assoc]
        rfl
    rw [htext, absParts_joinText cwd hrooted, placeFrom, if_neg hrooted,
      splitOn_joinSlash (fun c hc => (hparts c hc).2) hne, foldl_normStep_names hrel]

/-- Both tests of the command. -/
def FindQuery.accepts (q : FindQuery) (text : Str) : Bool :=
  (q.exts.any fun e => endsInExt text e) && q.excludes.all fun p => !ipath p text

/-- The files that are listed, with the text printed for them, one to a line. (Directories are
listed as well, if they have such a name.) -/
def findOutput (cwd : WorkDir) (tree : FileTree) (q : FindQuery) : List (Path × Str) :=
  q.starts.flatMap fun s =>
    (tree.files.filter fun f => (absParts cwd s).isPrefixOf f).filterMap fun f =>
      let text := printed s (f.drop (absParts cwd s).length)
      if q.accepts text then some (f, text) else none

/-- The output as a text. -/
def findStdout (cwd : WorkDir) (tree : FileTree) (q : FindQuery) : Str :=
  (findOutput cwd tree q).flatMap fun p => p.2 ++ ['\n']

theorem of_mem_findOutput {cwd : WorkDir} {tree : FileTree} {q : FindQuery} {f : Path} {text : Str}
    (h : (f, text) ∈ findOutput cwd tree q) : f ∈ tree.files ∧ ∃ s ∈ q.starts, absParts cwd s <+: f ∧
      text = printed s (f.drop (absParts cwd s).length) := by
  simp only [findOutput, List.mem_flatMap, List.mem_filterMap, List.mem_filter,
    List.isPrefixOf_iff_prefix, Option.ite_none_right_eq_some, Option.some.injEq] at h
  obtain ⟨s, hs, g, ⟨hg, hpre⟩, -, heq⟩ := h
  obtain ⟨rfl, rfl⟩ := Prod.mk.inj heq
  exact ⟨hg, s, hs, hpre, rfl⟩

theorem mem_findOutput {cwd : WorkDir} {tree : FileTree} {q : FindQuery} {f : Path} :
    f ∈ (findOutput cwd tree q).map Prod.fst ↔ f ∈ tree.files ∧ ∃ s ∈ q.starts,
      absParts cwd s <+: f ∧ q.accepts (printed s (f.drop (absParts cwd s).length)) = true := by
  simp only [findOutput, List.mem_map, List.mem_flatMap, List.mem_filterMap, List.mem_filter,
    List.isPrefixOf_iff_prefix, Option.ite_none_right_eq_some, Option.some.injEq]
  constructor
  · intro h
    obtain ⟨-, ⟨s, hs, g, ⟨hg, hpre⟩, haccept, rfl⟩, rfl⟩ := h
    exact ⟨hg, s, hs, hpre, haccept⟩
  · intro h
    obtain ⟨hf, s, hs, hpre, haccept⟩ := h
    exact ⟨_, ⟨s, hs, f, ⟨hf, hpre⟩, haccept, rfl⟩, rfl⟩

theorem suffix_append_cons_iff {x a b : Str} {c : Char} (hc : c ∉ x) :
    x <:+ a ++ c :: b ↔ x <:+ b := by
  constructor
  · intro h
    obtain ⟨t, ht⟩ := h
    rcases List.append_eq_append_iff.mp ht with ⟨r, -, hx⟩ | ⟨r, -, hb⟩
    · exact absurd (hx ▸ List.mem_append_right r List.mem_cons_self) hc
    · cases r with
      | nil =>
          rw [List.nil_append] at hb
          exact absurd (hb ▸ List.mem_cons_self) hc
      | cons d r =>
          obtain ⟨-, rfl⟩ := List.cons.inj hb
          exact List.suffix_append r x
  · intro h
    exact h.trans ((List.suffix_cons c b).trans (List.suffix_append a _))

/-- Of a printed path only the last name has to do with the extension. -/
theorem endsInExt_append {pre name ext : Str} (hext : '/' ∉ ext.map Char.toLower) :
    endsInExt (pre ++ '/' :: name) ext = endsInExt name ext := by
  have hdot : '/' ∉ ('.' :: ext).map Char.toLower := by
    rw [List.map_cons, List.mem_cons, not_or]
    exact ⟨by decide, hext⟩
  have htext : (pre ++ '/' :: name).map Char.toLower =
      pre.map Char.toLower ++ '/' :: name.map Char.toLower := by
    rw [List.map_append, List.map_cons]
    rfl
  rw [Bool.eq_iff_iff, endsInExt, endsInExt, htext, List.isSuffixOf_iff_suffix,
    List.isSuffixOf_iff_suffix, suffix_append_cons_iff hdot]

/-- The last name of a printed path stands behind a slash. -/
theorem printed_concat (start : Str) (init : Path) (name : Str) :
    ∃ pre, printed start (init ++ [name]) = pre ++ '/' :: name := by
  rw [printed, if_neg (by simp)]
  -- the slash is the one between the last two names, or the one behind the start point
  by_cases hinit : init = []
  · subst hinit
    have hone : joinSlash ([] ++ [name]) = name := by simp [joinSlash]
    rw [hone]
    split_ifs with hslash
    · obtain ⟨t, rfl⟩ := List.isSuffixOf_iff_suffix.mp hslash
      exact ⟨t, by simp⟩
    · exact ⟨start, by simp⟩
  · have hone : joinSlash [name] = name := by simp [joinSlash]
    rw [joinSlash_append hinit (List.cons_ne_nil name []), hone]
    exact ⟨_, (List.append_assoc _ _ _).symm⟩

end BlogStuff.Shell
