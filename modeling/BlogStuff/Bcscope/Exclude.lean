import BlogStuff.Seq.Loop
import BlogStuff.Shell.Find

/-!
# BlogStuff.Bcscope.Exclude

`bcscope.py`: the list of source files, and the directories that are left out of it.

The program writes one `find` command and cuts its output into lines. Directories become start
points, in the short form of `relpath` or `abspath`; an excluded directory becomes the pattern
`-not -ipath dir*`. The start points are places, which `find` walks down from, but the patterns are
texts, which it compares with what it prints. So a file below an excluded directory is left out only
where it is printed with the text of one in front, and a file elsewhere is left out too if its text
happens to begin like that.

The first is a matter of the directories alone: a start point and an excluded directory only meet if
one is above the other, and then all files below both are printed with the same text in front
(`Covered`). The second depends on the tree: a file elsewhere is lost if it has a neighbour's name
(`NoNeighbours`). Where the directories are covered, the list is right exactly for the trees without
such neighbours, and only there (`exactList_iff`).
-/

namespace BlogStuff.Bcscope

open BlogStuff.Python BlogStuff.Shell

/-! ### The program -/

/-- `valid_lan_types`. -/
def validLanTypes : List (Str × Str) :=
  [("c++".toList, "h|c|cpp|cxx|hpp".toList), ("c".toList, "h|c".toList),
   ("java".toList, "java".toList), ("c#".toList, "cs".toList), ("python".toList, "py".toList),
   ("ruby".toList, "rb".toList), ("assembly".toList, "s".toList), ("js".toList, "js".toList)]

/-- The languages: those of the command line, or C++. -/
def languages (args : List Str) : List Str := if args = [] then ["c++".toList] else args

/-- `lan_pattern`; another language ends the program. -/
def lanPattern (args : List Str) : Option Str := do
  let patterns ← (languages args).mapM fun a => validLanTypes.lookup a
  return List.intercalate ['|'] patterns

/-- The options the list depends on, and the system. -/
structure Options where
  absolute : Bool
  darwin : Bool
  args : List Str

/-- `convert_path(p)`. -/
def convertPath (o : Options) (cwd : WorkDir) (p : Str) : Option Str :=
  if o.absolute then some (abspath cwd p) else relpath cwd p

/-- `dirs`, with the current directory in front if it is not there. -/
def withCurrent (dirs : List Str) : List Str :=
  if dirs.count ['.'] + dirs.count ['.', '/'] < 1 then ['.'] :: dirs else dirs

/-- `findcmd`, without the name of the program. -/
def findCommand (o : Options) (dirs : List Str) (pattern : Str) (excluded : List Str) : Str :=
  (if o.darwin then "-E ".toList else []) ++ (dirs.flatMap fun d => d ++ [' ']) ++
    (if o.darwin then [] else "-regextype posix-extended ".toList) ++
    "-iregex .*\\.(".toList ++ pattern ++ ")$".toList ++
    excluded.flatMap fun d => " -not -ipath ".toList ++ d ++ ['*']

/-- The lines of the output: `for line in proc.stdout`, each without its line feed. -/
def stdoutLines (text : Str) : List Str :=
  let pieces := text.splitOn '\n'
  if pieces.getLast? = some [] then pieces.dropLast else pieces

/-- The lines of `file_list`. The command is cut into arguments at its blanks; arguments that `find`
does not understand make it print nothing. -/
def fileList (o : Options) (cwd : WorkDir) (tree : FileTree) (dirs excluded : List Str) :
    Option (List Str) := do
  let pattern ← lanPattern o.args
  let dirs ← (withCurrent dirs).mapM (convertPath o cwd)
  let excluded ← excluded.mapM (convertPath o cwd)
  let stdout := match readFind ((findCommand o dirs pattern excluded).splitOn ' ') with
    | some q => findStdout cwd tree q
    | none => []
  return (stdoutLines stdout).map fun line => '"' :: (line ++ ['"'])

/-! ### What the list is for -/

/-- The extensions of the languages. -/
def extensions (args : List Str) : List Str :=
  (languages args).flatMap fun a => ((validLanTypes.lookup a).getD []).splitOn '|'

/-- The file has an extension of the languages. -/
def IsSource (args : List Str) (f : Path) : Prop :=
  ∃ name, f.getLast? = some name ∧ ∃ e ∈ extensions args, endsInExt name e = true

instance (args : List Str) (f : Path) : Decidable (IsSource args f) :=
  match h : f.getLast? with
  | some name =>
      decidable_of_iff (∃ e ∈ extensions args, endsInExt name e = true)
        ⟨fun hext => ⟨name, h, hext⟩, fun hsource => by
          obtain ⟨name', hname', hext⟩ := hsource
          obtain rfl : name = name' := Option.some.inj (h.symm.trans hname')
          exact hext⟩
  | none => isFalse fun hsource => by
      obtain ⟨name, hname, -⟩ := hsource
      exact absurd (h.symm.trans hname) (by simp)

/-- The file lies below a directory. -/
def Under (cwd : WorkDir) (d : Str) (f : Path) : Prop := absParts cwd d <+: f

instance (cwd : WorkDir) (d : Str) (f : Path) : Decidable (Under cwd d f) :=
  inferInstanceAs (Decidable (_ <+: _))

/-- The list has a line for the file: the text between its quotes names it. -/
def Entered (cwd : WorkDir) (out : List Str) (f : Path) : Prop :=
  ∃ text, '"' :: (text ++ ['"']) ∈ out ∧ absParts cwd text = f

/-- **The list holds the source files below the directories, without those below an excluded
one.** -/
def ExactList (o : Options) (cwd : WorkDir) (tree : FileTree) (dirs excluded : List Str) : Prop :=
  ∃ out, fileList o cwd tree dirs excluded = some out ∧ ∀ f ∈ tree.files,
    Entered cwd out f ↔ (∃ d ∈ withCurrent dirs, Under cwd d f) ∧ IsSource o.args f ∧
      ¬ ∃ e ∈ excluded, Under cwd e f

/-- The text of a directory on the command line. -/
def argument (o : Options) (cwd : WorkDir) (p : Str) : Str := (convertPath o cwd p).getD []

/-- The directory has a text, and it is a single argument on one line. -/
def OneArgument (o : Options) (cwd : WorkDir) (p : Str) : Prop :=
  (convertPath o cwd p).isSome ∧ ' ' ∉ argument o cwd p ∧ '\n' ∉ argument o cwd p

instance (o : Options) (cwd : WorkDir) (p : Str) : Decidable (OneArgument o cwd p) :=
  inferInstanceAs (Decidable (_ ∧ _))

/-- It is also taken for a start point. -/
def StartPoint (o : Options) (cwd : WorkDir) (p : Str) : Prop :=
  OneArgument o cwd p ∧ looksLikeExpression (argument o cwd p) = false

instance (o : Options) (cwd : WorkDir) (p : Str) : Decidable (StartPoint o cwd p) :=
  inferInstanceAs (Decidable (_ ∧ _))

/-- It is also a pattern that stands for itself. -/
def PlainPattern (o : Options) (cwd : WorkDir) (p : Str) : Prop :=
  OneArgument o cwd p ∧ ∀ c ∈ argument o cwd p, isWild c = false

instance (o : Options) (cwd : WorkDir) (p : Str) : Decidable (PlainPattern o cwd p) :=
  have : Decidable (∀ c ∈ argument o cwd p, isWild c = false) := List.decidableBAll _ _
  inferInstanceAs (Decidable (_ ∧ _))

/-- The text begins with that of the directory `e`, but for upper and lower case. -/
def BeginsLike (o : Options) (cwd : WorkDir) (e text : Str) : Prop :=
  (argument o cwd e).map Char.toLower <+: text.map Char.toLower

instance (o : Options) (cwd : WorkDir) (e text : Str) : Decidable (BeginsLike o cwd e text) :=
  inferInstanceAs (Decidable (_ <+: _))

/-- Wherever a start point `d` and an excluded directory `e` are one above the other, what is printed
for the lower one from `d`, in front of the names below it, begins with the text of an excluded
directory. -/
def Covered (o : Options) (cwd : WorkDir) (dirs excluded : List Str) : Prop :=
  ∀ e ∈ excluded, ∀ d ∈ withCurrent dirs,
    (absParts cwd d <+: absParts cwd e → ∃ e' ∈ excluded, BeginsLike o cwd e'
      (printedStem (argument o cwd d) ((absParts cwd e).drop (absParts cwd d).length))) ∧
    (absParts cwd e <+: absParts cwd d →
      ∃ e' ∈ excluded, BeginsLike o cwd e' (printedStem (argument o cwd d) []))

instance (o : Options) (cwd : WorkDir) (dirs excluded : List Str) :
    Decidable (Covered o cwd dirs excluded) :=
  inferInstanceAs (Decidable (∀ e ∈ excluded, ∀ d ∈ withCurrent dirs, (_ → _) ∧ (_ → _)))

/-- Every source file below a start point and below no excluded directory is printed, from some start
point, as a text that does not begin like an excluded directory. -/
def NoNeighbours (o : Options) (cwd : WorkDir) (tree : FileTree) (dirs excluded : List Str) : Prop :=
  ∀ f ∈ tree.files, IsSource o.args f → (∃ d ∈ withCurrent dirs, Under cwd d f) →
    (¬ ∃ e ∈ excluded, Under cwd e f) → ∃ d ∈ withCurrent dirs, Under cwd d f ∧ ∀ e ∈ excluded,
      ¬ BeginsLike o cwd e (printed (argument o cwd d) (f.drop (absParts cwd d).length))

instance (o : Options) (cwd : WorkDir) (tree : FileTree) (dirs excluded : List Str) :
    Decidable (NoNeighbours o cwd tree dirs excluded) :=
  inferInstanceAs (Decidable (∀ f ∈ tree.files, _ → _ → _ → _))

/-- No name of a file has a line feed, and the directories are not files. -/
structure Proper (cwd : WorkDir) (dirs excluded : List Str) (tree : FileTree) : Prop where
  lines : ∀ f ∈ tree.files, ∀ x ∈ f, '\n' ∉ x
  dirs : ∀ d ∈ withCurrent dirs ++ excluded, absParts cwd d ∉ tree.files

/-- A character that stands in none of the directories' texts and names. -/
structure Unused (o : Options) (cwd : WorkDir) (dirs : List Str) (c : Char) : Prop where
  name : c ≠ '/' ∧ c ≠ '.' ∧ c ≠ '\n'
  text : ∀ d ∈ dirs, c.toLower ∉ (argument o cwd d).map Char.toLower
  place : ∀ d ∈ dirs, ∀ x ∈ absParts cwd d, c ∉ x

/-! ### The command line -/

section

variable {o : Options} {cwd : WorkDir}

theorem convertPath_ne_nil {p t : Str} (ht : convertPath o cwd p = some t) : t ≠ [] := by
  unfold convertPath at ht
  split_ifs at ht
  · rw [← Option.some.inj ht]
    rcases abspath_eq cwd p with htext | htext <;> simp [htext]
  · exact relpath_ne_nil ht

theorem absParts_argument {p : Str} (h : (convertPath o cwd p).isSome) :
    absParts cwd (argument o cwd p) = absParts cwd p := by
  obtain ⟨q, hq⟩ := Option.isSome_iff_exists.mp h
  rw [argument, hq, Option.getD_some]
  unfold convertPath at hq
  split_ifs at hq
  · rw [← Option.some.inj hq, absParts_abspath]
  · exact absParts_relpath hq

theorem argument_ne_nil {p : Str} (h : (convertPath o cwd p).isSome) : argument o cwd p ≠ [] := by
  obtain ⟨q, hq⟩ := Option.isSome_iff_exists.mp h
  rw [argument, hq, Option.getD_some]
  exact convertPath_ne_nil hq

theorem mapM_getD {α β : Type} {f : α → Option β} {l : List α} (d : β) (h : ∀ a ∈ l, (f a).isSome) :
    l.mapM f = some (l.map fun a => (f a).getD d) :=
  Seq.mapM_eq_some fun a ha => by
    obtain ⟨b, hb⟩ := Option.isSome_iff_exists.mp (h a ha)
    rw [hb]
    rfl

end

/-- The arguments that are meant. -/
def findArguments (o : Options) (dirs : List Str) (pattern : Str) (excluded : List Str) : List Str :=
  let expression := writeExpression pattern (excluded.map (· ++ ['*']))
  if o.darwin then "-E".toList :: (dirs ++ expression)
  else dirs ++ "-regextype".toList :: "posix-extended".toList :: expression

theorem splitOn_word {a : Str} (t : Str) (ha : ' ' ∉ a) :
    (a ++ ' ' :: t).splitOn ' ' = a :: t.splitOn ' ' := by
  rw [List.splitOn_append_cons_self, List.splitOn_eq_singleton ha]
  rfl

theorem splitOn_dirs {dirs : List Str} (t : Str) (h : ∀ d ∈ dirs, ' ' ∉ d) :
    ((dirs.flatMap fun d => d ++ [' ']) ++ t).splitOn ' ' = dirs ++ t.splitOn ' ' := by
  induction dirs with
  | nil => rfl
  | cons d dirs ih =>
      rw [List.flatMap_cons, List.append_assoc, List.append_assoc, List.singleton_append,
        splitOn_word _ (h d List.mem_cons_self), ih fun d hd => h d (.tail _ hd), List.cons_append]

/-- The excluded directories, and the word `r` that the first of them is written behind: each adds
three words to the command, as long as there is no blank in it. -/
theorem splitOn_excluded {excluded : List Str} {r : Str} (hr : ' ' ∉ r)
    (h : ∀ d ∈ excluded, ' ' ∉ d) :
    (r ++ excluded.flatMap fun d => " -not -ipath ".toList ++ d ++ ['*']).splitOn ' ' =
      r :: (excluded.map (· ++ ['*'])).flatMap fun p => ["-not".toList, "-ipath".toList, p] := by
  induction excluded generalizing r with
  | nil =>
      rw [List.flatMap_nil, List.append_nil, List.splitOn_eq_singleton hr]
      rfl
  | cons d excluded ih =>
      have hd : ' ' ∉ d ++ ['*'] := by simpa using h d List.mem_cons_self
      have htext : r ++ (d :: excluded).flatMap (fun d => " -not -ipath ".toList ++ d ++ ['*']) =
          r ++ ' ' :: ("-not".toList ++ ' ' :: ("-ipath".toList ++ ' ' :: (d ++ ['*'] ++
            excluded.flatMap fun d => " -not -ipath ".toList ++ d ++ ['*']))) := by
        rw [List.flatMap_cons, List.append_assoc " -not -ipath ".toList]
        rfl
      rw [htext, splitOn_word _ hr, splitOn_word _ (by decide), splitOn_word _ (by decide),
        ih hd fun d hd => h d (.tail _ hd)]
      rfl

theorem splitOn_findCommand (o : Options) {dirs excluded : List Str} {pattern : Str}
    (hpattern : ' ' ∉ pattern) (hdirs : ∀ d ∈ dirs, ' ' ∉ d) (hexcluded : ∀ d ∈ excluded, ' ' ∉ d) :
    (findCommand o dirs pattern excluded).splitOn ' ' = findArguments o dirs pattern excluded := by
  have hregex : ' ' ∉ ".*\\.(".toList ++ pattern ++ ")$".toList := by
    simpa using hpattern
  have htail : ("-iregex".toList ++ ' ' :: (".*\\.(".toList ++ pattern ++ ")$".toList ++
      excluded.flatMap fun d => " -not -ipath ".toList ++ d ++ ['*'])).splitOn ' ' =
      writeExpression pattern (excluded.map (· ++ ['*'])) := by
    rw [splitOn_word _ (by decide), splitOn_excluded hregex hexcluded, writeExpression]
  unfold findCommand findArguments
  cases o.darwin with
  | true =>
      have htext : ("-E ".toList ++ (dirs.flatMap fun d => d ++ [' ']) ++ [] ++
          "-iregex .*\\.(".toList ++ pattern ++ ")$".toList ++
          excluded.flatMap fun d => " -not -ipath ".toList ++ d ++ ['*']) =
          "-E".toList ++ ' ' :: ((dirs.flatMap fun d => d ++ [' ']) ++ ("-iregex".toList ++ ' ' ::
            (".*\\.(".toList ++ pattern ++ ")$".toList ++
              excluded.flatMap fun d => " -not -ipath ".toList ++ d ++ ['*']))) := by
        simp
      simp only [if_true]
      rw [htext, splitOn_word _ (by decide), splitOn_dirs _ hdirs, htail]
  | false =>
      have htext : ([] ++ (dirs.flatMap fun d => d ++ [' ']) ++ "-regextype posix-extended ".toList ++
          "-iregex .*\\.(".toList ++ pattern ++ ")$".toList ++
          excluded.flatMap fun d => " -not -ipath ".toList ++ d ++ ['*']) =
          (dirs.flatMap fun d => d ++ [' ']) ++ ("-regextype".toList ++ ' ' ::
            ("posix-extended".toList ++ ' ' :: ("-iregex".toList ++ ' ' ::
              (".*\\.(".toList ++ pattern ++ ")$".toList ++
                excluded.flatMap fun d => " -not -ipath ".toList ++ d ++ ['*'])))) := by
        simp
      simp only [Bool.false_eq_true, if_false]
      rw [htext, splitOn_dirs _ hdirs, splitOn_word _ (by decide), splitOn_word _ (by decide), htail]

/-! ### The extensions -/

/-- Every language of the command line is known. -/
def KnownLanguages (args : List Str) : Prop :=
  ∀ a ∈ languages args, (validLanTypes.lookup a).isSome

instance (args : List Str) : Decidable (KnownLanguages args) :=
  inferInstanceAs (Decidable (∀ a ∈ languages args, _))

/-- The alternatives of one language. -/
def alternativesOf (a : Str) : Str := (validLanTypes.lookup a).getD []

/-- What the table is made of. All entries are gone through once, so a language the program does not
know has no alternatives and satisfies this too. -/
theorem alternativesOf_char {a : Str} {c : Char} (hc : c ∈ alternativesOf a) :
    c = '|' ∨ c.isAlphanum = true ∧ c.toLower ≠ '/' := by
  have htable : validLanTypes.all (fun p =>
      p.2.all fun c => decide (c = '|' ∨ c.isAlphanum = true ∧ c.toLower ≠ '/')) = true := by
    decide
  unfold alternativesOf at hc
  cases hp : validLanTypes.lookup a with
  | none =>
      rw [hp] at hc
      exact absurd hc List.not_mem_nil
  | some p =>
      rw [hp, Option.getD_some] at hc
      obtain ⟨l, r, hlr, -⟩ := List.lookup_eq_some_iff.mp hp
      have hmem : (a, p) ∈ validLanTypes := hlr ▸ List.mem_append_right l List.mem_cons_self
      exact of_decide_eq_true (List.all_eq_true.mp (List.all_eq_true.mp htable _ hmem) c hc)

theorem mem_extensions_char {args : List Str} {e : Str} (he : e ∈ extensions args) {c : Char}
    (hc : c ∈ e) : c.isAlphanum = true ∧ c.toLower ≠ '/' := by
  obtain ⟨a, -, he⟩ := List.mem_flatMap.mp he
  have hmem : c ∈ alternativesOf a := mem_of_mem_splitOn he hc
  refine (alternativesOf_char hmem).resolve_left fun hbar => ?_
  exact not_mem_of_mem_splitOn he (hbar ▸ hc)

theorem lanPattern_eq {args : List Str} (h : KnownLanguages args) :
    lanPattern args = some (List.intercalate ['|'] ((languages args).map alternativesOf)) := by
  rw [lanPattern, mapM_getD [] h]
  rfl

theorem splitOn_intercalate_bars {l : List Str} (hne : l ≠ []) :
    (List.intercalate ['|'] l).splitOn '|' = l.flatMap (·.splitOn '|') := by
  induction l with
  | nil => exact absurd rfl hne
  | cons a l ih =>
      cases l with
      | nil => simp
      | cons b l =>
          rw [List.intercalate_cons_cons, List.append_assoc, List.singleton_append,
            List.splitOn_append_cons_self, ih (List.cons_ne_nil b l)]
          rfl

theorem languages_ne_nil (args : List Str) : languages args ≠ [] := by
  unfold languages
  split_ifs with h
  · exact List.cons_ne_nil _ _
  · exact h

theorem splitOn_lanPattern (args : List Str) :
    (List.intercalate ['|'] ((languages args).map alternativesOf)).splitOn '|' = extensions args := by
  rw [splitOn_intercalate_bars (by simpa using languages_ne_nil args), List.flatMap_map]
  rfl

theorem blank_not_mem_lanPattern (args : List Str) :
    ' ' ∉ List.intercalate ['|'] ((languages args).map alternativesOf) := by
  intro h
  rcases mem_intercalate_singleton h with ⟨p, hp, hc⟩ | hc
  · obtain ⟨a, -, rfl⟩ := List.mem_map.mp hp
    exact absurd (alternativesOf_char hc) (by decide)
  · exact absurd hc (by decide)

theorem extensions_ne_nil (args : List Str) : extensions args ≠ [] := by
  obtain ⟨a, ha⟩ := List.exists_mem_of_ne_nil _ (languages_ne_nil args)
  obtain ⟨e, he⟩ := List.exists_mem_of_ne_nil _
    (List.splitOn_ne_nil '|' ((validLanTypes.lookup a).getD []))
  exact List.ne_nil_of_mem (List.mem_flatMap.mpr ⟨a, ha, he⟩)

/-! ### The list -/

theorem stdoutLines_flatMap {texts : List Str} (h : ∀ t ∈ texts, '\n' ∉ t) :
    stdoutLines (texts.flatMap fun t => t ++ ['\n']) = texts := by
  have hsplit : (texts.flatMap fun t => t ++ ['\n']).splitOn '\n' = texts ++ [[]] := by
    induction texts with
    | nil => rfl
    | cons t texts ih =>
        rw [List.flatMap_cons, List.append_assoc, List.singleton_append,
          List.splitOn_append_cons_self, List.splitOn_eq_singleton (h t List.mem_cons_self),
          ih fun t ht => h t (.tail _ ht)]
        rfl
  rw [stdoutLines, hsplit]
  simp

section

variable {o : Options} {cwd : WorkDir} {tree : FileTree} {dirs excluded : List Str}

/-- What `find` is asked. -/
def query (o : Options) (cwd : WorkDir) (dirs excluded : List Str) : FindQuery where
  starts := (withCurrent dirs).map (argument o cwd)
  exts := extensions o.args
  excludes := excluded.map fun e => argument o cwd e ++ ['*']

theorem fileList_eq (hlanguages : KnownLanguages o.args)
    (hdirs : ∀ d ∈ withCurrent dirs, StartPoint o cwd d)
    (hexcluded : ∀ e ∈ excluded, PlainPattern o cwd e) (htree : Proper cwd dirs excluded tree) :
    fileList o cwd tree dirs excluded = some ((findOutput cwd tree (query o cwd dirs excluded)).map
      fun p => '"' :: (p.2 ++ ['"'])) := by
  have hstarts : ∀ a ∈ (withCurrent dirs).map (argument o cwd), looksLikeExpression a = false := by
    intro a ha
    obtain ⟨d, hd, rfl⟩ := List.mem_map.mp ha
    exact (hdirs d hd).2
  have hexts : ∀ e ∈ (List.intercalate ['|'] ((languages o.args).map alternativesOf)).splitOn '|',
      e.all Char.isAlphanum = true := by
    intro e he
    rw [splitOn_lanPattern] at he
    exact List.all_eq_true.mpr fun c hc => (mem_extensions_char he hc).1
  have hblanks : ∀ a ∈ (withCurrent dirs).map (argument o cwd), ' ' ∉ a :=
    List.forall_mem_map.mpr fun d hd => (hdirs d hd).1.2.1
  have hblanks' : ∀ a ∈ excluded.map (argument o cwd), ' ' ∉ a :=
    List.forall_mem_map.mpr fun e he => (hexcluded e he).1.2.1
  have hsplit := splitOn_findCommand o (blank_not_mem_lanPattern o.args) hblanks hblanks'
  have hread : readFind (findArguments o ((withCurrent dirs).map (argument o cwd))
      (List.intercalate ['|'] ((languages o.args).map alternativesOf))
      (excluded.map (argument o cwd))) = some (query o cwd dirs excluded) := by
    rw [findArguments, List.map_map, query, ← splitOn_lanPattern]
    split_ifs
    · exact readFind_bsd _ hstarts hexts
    · exact readFind_gnu _ hstarts hexts
  -- no text has a line feed
  have hlines : ∀ t ∈ (findOutput cwd tree (query o cwd dirs excluded)).map Prod.snd, '\n' ∉ t := by
    intro t ht hmem
    obtain ⟨⟨f, text⟩, hp, rfl⟩ := List.mem_map.mp ht
    obtain ⟨hf, s, hs, -, rfl⟩ := of_mem_findOutput hp
    obtain ⟨d, hd, rfl⟩ := List.mem_map.mp hs
    rcases mem_printed hmem with h | h | ⟨x, hx, hc⟩
    · exact (hdirs d hd).1.2.2 h
    · exact absurd h (by decide)
    · exact htree.lines f hf x (List.mem_of_mem_drop hx) hc
  have hstdout : stdoutLines (findStdout cwd tree (query o cwd dirs excluded)) =
      (findOutput cwd tree (query o cwd dirs excluded)).map Prod.snd := by
    rw [findStdout, ← stdoutLines_flatMap hlines, List.flatMap_map]
  rw [fileList, lanPattern_eq hlanguages, mapM_getD [] fun d hd => (hdirs d hd).1.1,
    mapM_getD [] fun e he => (hexcluded e he).1.1]
  change some ((stdoutLines (match readFind ((findCommand o ((withCurrent dirs).map (argument o cwd)) _
    (excluded.map (argument o cwd))).splitOn ' ') with | some q => _ | none => _)).map _) = _
  rw [hsplit, hread]
  simp only [hstdout, List.map_map]
  rfl

/-- The extension is looked for in the name of the file, however it is printed: an extension has no
slash, so it cannot reach into the text before the name. -/
theorem any_endsInExt_iff {d : Str} {f : Path} (hunder : Under cwd d f) (hf : f ≠ absParts cwd d)
    (start : Str) :
    ((extensions o.args).any fun e =>
      endsInExt (printed start (f.drop (absParts cwd d).length)) e) = true ↔ IsSource o.args f := by
  obtain ⟨rel, rfl⟩ := hunder
  rw [List.drop_left]
  rcases List.eq_nil_or_concat rel with rfl | ⟨init, name, rfl⟩
  · exact absurd (List.append_nil _) hf
  · rw [List.concat_eq_append]
    obtain ⟨pre, hpre⟩ := printed_concat start init name
    have hname : (absParts cwd d ++ (init ++ [name])).getLast? = some name := by
      rw [← List.append_assoc, List.getLast?_concat]
    have hext : ∀ e ∈ extensions o.args, endsInExt (pre ++ '/' :: name) e = endsInExt name e := by
      intro e he
      refine endsInExt_append fun hslash => ?_
      obtain ⟨c, hc, hlower⟩ := List.mem_map.mp hslash
      exact (mem_extensions_char he hc).2 hlower
    rw [hpre, List.any_eq_true, IsSource, hname]
    constructor
    · intro h
      obtain ⟨e, he, hends⟩ := h
      exact ⟨name, rfl, e, he, hext e he ▸ hends⟩
    · intro h
      obtain ⟨name', hname', e, he, hends⟩ := h
      obtain rfl : name = name' := Option.some.inj hname'
      exact ⟨e, he, (hext e he).trans hends⟩

/-- A file is listed if it is printed from some start point without beginning like an excluded
directory. -/
theorem entered_iff {out : List Str} (hout : fileList o cwd tree dirs excluded = some out)
    (hlanguages : KnownLanguages o.args) (hdirs : ∀ d ∈ withCurrent dirs, StartPoint o cwd d)
    (hexcluded : ∀ e ∈ excluded, PlainPattern o cwd e) (htree : Proper cwd dirs excluded tree)
    {f : Path} (hf : f ∈ tree.files) :
    Entered cwd out f ↔ IsSource o.args f ∧ ∃ d ∈ withCurrent dirs, Under cwd d f ∧ ∀ e ∈ excluded,
      ¬ BeginsLike o cwd e (printed (argument o cwd d) (f.drop (absParts cwd d).length)) := by
  -- the text of a line names the file it is printed for
  have hnames : ∀ {g text}, (g, text) ∈ findOutput cwd tree (query o cwd dirs excluded) →
      absParts cwd text = g := by
    intro g text hg
    obtain ⟨hg', s, hs, hpre, rfl⟩ := of_mem_findOutput hg
    obtain ⟨d, hd, rfl⟩ := List.mem_map.mp hs
    rw [absParts_printed cwd (argument_ne_nil (hdirs d hd).1.1)
      fun c hc => tree.names g hg' c (List.mem_of_mem_drop hc)]
    exact List.prefix_iff_eq_append.mp hpre
  have hentered : Entered cwd out f ↔
      f ∈ (findOutput cwd tree (query o cwd dirs excluded)).map Prod.fst := by
    rw [fileList_eq hlanguages hdirs hexcluded htree] at hout
    rw [Entered, ← Option.some.inj hout]
    constructor
    · intro h
      obtain ⟨text, hmem, hplace⟩ := h
      obtain ⟨⟨g, text'⟩, hg, heq⟩ := List.mem_map.mp hmem
      obtain rfl : text' = text := List.append_cancel_right (List.cons.inj heq).2
      exact List.mem_map.mpr ⟨_, hg, (hnames hg).symm.trans hplace⟩
    · intro h
      obtain ⟨⟨g, text⟩, hg, rfl⟩ := List.mem_map.mp h
      exact ⟨text, List.mem_map.mpr ⟨_, hg, rfl⟩, hnames hg⟩
  rw [hentered, mem_findOutput]
  have haccepts : ∀ d ∈ withCurrent dirs, Under cwd d f →
      ((query o cwd dirs excluded).accepts
        (printed (argument o cwd d) (f.drop (absParts cwd d).length)) = true ↔
        IsSource o.args f ∧ ∀ e ∈ excluded,
          ¬ BeginsLike o cwd e (printed (argument o cwd d) (f.drop (absParts cwd d).length))) := by
    intro d hd hunder
    have hne : f ≠ absParts cwd d := fun h => htree.dirs d (List.mem_append_left _ hd) (h ▸ hf)
    rw [query, FindQuery.accepts, Bool.and_eq_true, any_endsInExt_iff hunder hne, List.all_map,
      List.all_eq_true]
    refine and_congr_right fun _ => forall₂_congr fun e he => ?_
    rw [Function.comp_apply, Bool.not_eq_true', Bool.eq_false_iff, ne_eq,
      ipath_star (hexcluded e he).2]
    rfl
  constructor
  · intro h
    obtain ⟨-, s, hs, hpre, haccept⟩ := h
    obtain ⟨d, hd, rfl⟩ := List.mem_map.mp hs
    rw [absParts_argument (hdirs d hd).1.1] at hpre haccept
    obtain ⟨hsource, hnot⟩ := (haccepts d hd hpre).mp haccept
    exact ⟨hsource, d, hd, hpre, hnot⟩
  · intro h
    obtain ⟨hsource, d, hd, hunder, hnot⟩ := h
    refine ⟨hf, argument o cwd d, List.mem_map_of_mem hd, ?_⟩
    rw [absParts_argument (hdirs d hd).1.1]
    exact ⟨hunder, (haccepts d hd hunder).mpr ⟨hsource, hnot⟩⟩

theorem prefix_of_not_mem {l x y : Str} {a : Char} (ha : a ∉ l) (h : l <+: x ++ a :: y) : l <+: x := by
  rcases List.prefix_or_prefix_of_prefix h (List.prefix_append x (a :: y)) with hl | hx
  · exact hl
  · obtain ⟨z, rfl⟩ := hx
    cases z with
    | nil => rw [List.append_nil]
    | cons b z =>
        obtain ⟨rfl, -⟩ := List.cons_prefix_cons.mp ((List.prefix_append_right_inj x).mp h)
        exact absurd (List.mem_append_right x List.mem_cons_self) ha

theorem not_mem_absParts (hcwd : ∀ x ∈ cwd.parts, '\n' ∉ x) {p : Str} (hp : OneArgument o cwd p)
    {x : Str} (hx : x ∈ absParts cwd p) : '\n' ∉ x := by
  rw [← absParts_argument hp.1, absParts_eq] at hx
  intro hmem
  rcases mem_foldl_normStep hx with hx | hx
  · split_ifs at hx
    · exact absurd hx List.not_mem_nil
    · exact hcwd x hx hmem
  · exact hp.2.2 (mem_of_mem_splitOn hx hmem)

/-- A file below a directory is printed behind what stands in front of the names there. -/
theorem beginsLike_of_stem {e : Str} {start : Str} {rel : Path} (h : BeginsLike o cwd e (printedStem start rel))
    {rest : Path} (hrest : rest ≠ []) : BeginsLike o cwd e (printed start (rel ++ rest)) := by
  rw [printed_append start rel hrest, BeginsLike, List.map_append]
  exact h.trans (List.prefix_append _ _)

/-- **Where the directories are covered**, every file below an excluded one is printed like one. Of
the two directories above a file one is above the other, and each of the two cases has its
condition. -/
theorem beginsLike_of_covered (h : Covered o cwd dirs excluded) {e d : Str} (he : e ∈ excluded)
    (hd : d ∈ withCurrent dirs) {f : Path} (hfe : Under cwd e f) (hfd : Under cwd d f)
    (hne : f ≠ absParts cwd e) (hne' : f ≠ absParts cwd d) :
    ∃ e' ∈ excluded, BeginsLike o cwd e'
      (printed (argument o cwd d) (f.drop (absParts cwd d).length)) := by
  obtain ⟨hbelow, habove⟩ := h e he d hd
  rcases List.prefix_or_prefix_of_prefix hfd hfe with hde | hed
  · -- the excluded directory is the lower one
    obtain ⟨e', he', hlike⟩ := hbelow hde
    obtain ⟨rest, rfl⟩ := hfe
    have hrest : rest ≠ [] := by
      rintro rfl
      exact hne (List.append_nil _)
    refine ⟨e', he', ?_⟩
    rw [List.drop_append_of_le_length hde.length_le]
    exact beginsLike_of_stem hlike hrest
  · obtain ⟨e', he', hlike⟩ := habove hed
    obtain ⟨rest, rfl⟩ := hfd
    have hrest : rest ≠ [] := by
      rintro rfl
      exact hne' (List.append_nil _)
    refine ⟨e', he', ?_⟩
    rw [List.drop_left]
    have hprinted := beginsLike_of_stem hlike hrest
    rwa [List.nil_append] at hprinted

/-- The character and an extension make the name of a file. -/
theorem Unused.fileName {c : Char} {ext : Str} {ps : List Str} (hc : Unused o cwd ps c)
    (hext : ext ∈ extensions o.args) : IsName (c :: '.' :: ext) ∧ '\n' ∉ c :: '.' :: ext := by
  obtain ⟨hslash, hdot, hfeed⟩ := hc.name
  have hno : ∀ {x : Char}, x.isAlphanum = false → x ∉ ext := fun hx hmem => by
    rw [(mem_extensions_char hext hmem).1] at hx
    cases hx
  refine ⟨⟨by simp, by simp, fun h => hdot (List.cons.inj h).1, ?_⟩, ?_⟩
  · simp only [List.mem_cons, not_or]
    exact ⟨hslash.symm, by decide, hno (by decide)⟩
  · simp only [List.mem_cons, not_or]
    exact ⟨hfeed.symm, by decide, hno (by decide)⟩

section

variable (hlanguages : KnownLanguages o.args) (hdirs : ∀ d ∈ withCurrent dirs, StartPoint o cwd d)
  (hexcluded : ∀ e ∈ excluded, PlainPattern o cwd e)
include hlanguages hdirs hexcluded

theorem exactList_iff_of_covered (hcovered : Covered o cwd dirs excluded)
    (htree : Proper cwd dirs excluded tree) :
    ExactList o cwd tree dirs excluded ↔ NoNeighbours o cwd tree dirs excluded := by
  have hout := fileList_eq hlanguages hdirs hexcluded htree
  have hentered : ∀ f ∈ tree.files, (Entered cwd _ f ↔ _) := fun f hf =>
    entered_iff hout hlanguages hdirs hexcluded htree hf
  constructor
  · intro h f hf hsource hunder hnone
    obtain ⟨out', hout', hexact⟩ := h
    obtain rfl := Option.some.inj (hout.symm.trans hout')
    exact ((hentered f hf).mp ((hexact f hf).mpr ⟨hunder, hsource, hnone⟩)).2
  · intro h
    refine ⟨_, hout, fun f hf => (hentered f hf).trans ?_⟩
    constructor
    · intro hl
      obtain ⟨hsource, d, hd, hunder, hnot⟩ := hl
      refine ⟨⟨d, hd, hunder⟩, hsource, fun hexcl => ?_⟩
      obtain ⟨e, he, hfe⟩ := hexcl
      have hplace : ∀ p ∈ withCurrent dirs ++ excluded, f ≠ absParts cwd p :=
        fun p hp heq => htree.dirs p hp (heq ▸ hf)
      obtain ⟨e', he', hlike⟩ := beginsLike_of_covered hcovered he hd hfe hunder
        (hplace e (List.mem_append_right _ he)) (hplace d (List.mem_append_left _ hd))
      exact hnot e' he' hlike
    · intro hr
      obtain ⟨hunder, hsource, hnone⟩ := hr
      exact ⟨hsource, h f hf hsource hunder hnone⟩

/-- **Where they are not**, a tree of one file is enough: it lies below an excluded directory, under a
name that is not used elsewhere, and stays in the list. -/
theorem covered_of_exactList (hcwd : ∀ x ∈ cwd.parts, '\n' ∉ x) {c : Char}
    (hc : Unused o cwd (withCurrent dirs ++ excluded) c)
    (h : ∀ tree, Proper cwd dirs excluded tree → NoNeighbours o cwd tree dirs excluded →
      ExactList o cwd tree dirs excluded) : Covered o cwd dirs excluded := by
  obtain ⟨ext, hext⟩ := List.exists_mem_of_ne_nil _ (extensions_ne_nil o.args)
  obtain ⟨hname, hline⟩ := hc.fileName hext
  have hplain : ∀ p ∈ withCurrent dirs ++ excluded, OneArgument o cwd p := by
    intro p hp
    rcases List.mem_append.mp hp with hp | hp
    · exact (hdirs p hp).1
    · exact (hexcluded p hp).1
  -- the file in the lower of the two directories
  have hfile : ∀ p ∈ withCurrent dirs ++ excluded, ∀ e ∈ excluded, ∀ d ∈ withCurrent dirs,
      absParts cwd e <+: absParts cwd p → absParts cwd d <+: absParts cwd p → ∃ e' ∈ excluded,
        BeginsLike o cwd e' (printedStem (argument o cwd d) ((absParts cwd p).drop (absParts cwd d).length)) := by
    intro p hp e he d hd hep hdp
    let tree : FileTree := ⟨[absParts cwd p ++ [c :: '.' :: ext]], by
      intro f hf x hx
      rw [List.mem_singleton.mp hf, List.mem_append, List.mem_singleton] at hx
      rcases hx with hx | rfl
      · exact isName_absParts cwd p x hx
      · exact hname⟩
    have htree : Proper cwd dirs excluded tree := by
      refine ⟨fun f hf x hx => ?_, fun q hq hmem => ?_⟩
      · rw [List.mem_singleton.mp hf, List.mem_append, List.mem_singleton] at hx
        rcases hx with hx | rfl
        · exact not_mem_absParts hcwd (hplain p hp) hx
        · exact hline
      · refine hc.place q hq (c :: '.' :: ext) ?_ List.mem_cons_self
        rw [List.mem_singleton.mp hmem]
        simp
    have hmem : absParts cwd p ++ [c :: '.' :: ext] ∈ tree.files := List.mem_singleton.mpr rfl
    have hexcl : ∃ e ∈ excluded, Under cwd e (absParts cwd p ++ [c :: '.' :: ext]) :=
      ⟨e, he, hep.trans (List.prefix_append _ _)⟩
    have hexact := h tree htree fun f hf _ _ hnone => by
      rw [List.mem_singleton.mp hf] at hnone
      exact absurd hexcl hnone
    obtain ⟨out, hout, hentries⟩ := hexact
    by_contra hnone
    refine ((hentries _ hmem).mp ((entered_iff hout hlanguages hdirs hexcluded htree hmem).mpr
      ⟨?_, d, hd, hdp.trans (List.prefix_append _ _), fun e' he' hlike => hnone ⟨e', he', ?_⟩⟩)).2.2
        hexcl
    · refine ⟨c :: '.' :: ext, List.getLast?_concat, ext, hext, ?_⟩
      rw [endsInExt, List.isSuffixOf_iff_suffix, List.map_cons]
      exact List.suffix_cons _ _
    · -- the unused character ends the beginning they share
      rw [List.drop_append_of_le_length hdp.length_le, printed_append _ _ (List.cons_ne_nil _ _),
        BeginsLike, List.map_append] at hlike
      exact prefix_of_not_mem (hc.text e' (List.mem_append_right _ he')) hlike
  intro e he d hd
  refine ⟨fun hde => hfile e (List.mem_append_right _ he) e he d hd (List.prefix_refl _) hde,
    fun hed => ?_⟩
  have hstem := hfile d (List.mem_append_left _ hd) e he d hd hed (List.prefix_refl _)
  rwa [List.drop_length] at hstem

end

/-- With absolute paths, all written behind one slash, the directories are covered: what is printed
for a directory is its text. -/
theorem covered_of_absolute (h : ∀ p ∈ withCurrent dirs ++ excluded,
    argument o cwd p = '/' :: joinSlash (absParts cwd p)) : Covered o cwd dirs excluded := by
  have hlike : ∀ e ∈ excluded, ∀ rest, BeginsLike o cwd e ('/' :: joinSlash (absParts cwd e ++ rest)) := by
    intro e he rest
    rw [BeginsLike, h e (List.mem_append_right _ he)]
    exact ((List.prefix_cons_inj '/').mpr (prefix_joinSlash _ rest)).map _
  have hstem : ∀ d ∈ withCurrent dirs, ∀ rel,
      printedStem (argument o cwd d) rel = '/' :: joinSlash (absParts cwd d ++ (rel ++ [[]])) := by
    intro d hd rel
    rw [printedStem, h d (List.mem_append_left _ hd)]
    exact printed_rooted (isName_absParts cwd d) (by simp)
  intro e he d hd
  refine ⟨fun hde => ⟨e, he, ?_⟩, fun hed => ⟨e, he, ?_⟩⟩
  · rw [hstem d hd, ← List.append_assoc, List.prefix_iff_eq_append.mp hde]
    exact hlike e he _
  · obtain ⟨rest, hrest⟩ := hed
    rw [hstem d hd, ← hrest, List.append_assoc]
    exact hlike e he _

end

/-- `/w`, as the current directory. -/
def workDir : WorkDir := ⟨["w".toList], by decide⟩

/-- Two source files in the current directory, one of them below `src`. -/
def twoFiles : FileTree :=
  ⟨[["w".toList, "main.c".toList], ["w".toList, "src".toList, "a.c".toList]], by decide⟩

/-- A neighbour whose name begins alike is lost with absolute paths. -/
example : ¬ NoNeighbours ⟨true, false, []⟩ workDir
    ⟨[["w".toList, "src2".toList, "b.c".toList]], by decide⟩ [] ["src".toList] := by
  decide

/-- A line feed in a name makes two lines of it. -/
example : fileList ⟨false, false, []⟩ workDir ⟨[["w".toList, "a\nb.c".toList]], by decide⟩ [] [] =
    some ["\"./a\"".toList, "\"b.c\"".toList] := by
  decide

end BlogStuff.Bcscope
