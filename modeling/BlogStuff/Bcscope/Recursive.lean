import BlogStuff.Bcscope.Exclude
import BlogStuff.Python.DirTree
import BlogStuff.Seq.Growing

/-!
# BlogStuff.Bcscope.Recursive

`bcscope.py -r`: the directories named in `.bcscope.cfg` files, which may name further directories
with such files.

The loop `for d in dirs` reads the file in `d` and appends to `dirs` while it goes on. A line is
normalised before it is appended, so there are finitely many texts for the directories of the tree,
and the loop ends (`configuredDirs_isSome`). What it has gathered is then closed under the files
read, and nothing is in it for another reason (`Complete`).

The lists hold texts. A text names a place, and the system finds the directory there unless a
component in front of a `..` is missing. That happens only to directories of the command line, which
are not normalised until later.
-/

namespace BlogStuff.Bcscope

open BlogStuff.Python BlogStuff.Seq

/-! ### The program -/

/-- `default_cfg_name`. -/
def defaultCfgName : Str := ".bcscope.cfg".toList

/-- `dirs` and `excluded_dirs`. -/
structure Lists where
  dirs : List Str
  excluded : List Str
  deriving DecidableEq

/-- What a line of a file asks for: to include a path, or with `!` to exclude it. Empty lines and
comments ask for nothing. -/
def cfgEntry (h : Host) (line : Str) : Option (Bool × Str) :=
  let line := strip line
  if line.isEmpty || startswith line ['#'] then none
  else if startswith line ['!'] then some (false, expanduser h.home (line.drop 1))
  else some (true, expanduser h.home line)

/-- `search_dirs.append(line)`, if it is not there. -/
def Lists.add (l : Lists) (inc : Bool) (line : Str) : Lists :=
  if inc then
    if l.dirs.count line = 0 then { l with dirs := l.dirs ++ [line] } else l
  else if l.excluded.count line = 0 then { l with excluded := l.excluded ++ [line] } else l

/-- The text for a path in the file of `dirPath`; there is none for the empty path. -/
def lineText (o : Options) (h : Host) (dirPath line : Str) : Option Str :=
  convertPath o h.cwd (if startswith line ['/'] then line else joinText dirPath line)

/-- One turn of `for line in f`. -/
def readLine (o : Options) (h : Host) (dirPath : Str) (l : Lists) (line : Str) : Option Lists :=
  match cfgEntry h line with
  | none => some l
  | some (inc, line) =>
      (lineText o h dirPath line).map fun line => if h.isdir line then l.add inc line else l

/-- `include_dirs_from_cfg(dir_path, cfg_name)`. -/
def includeDirsFromCfg (o : Options) (h : Host) (dirPath : Str) (l : Lists) : Option Lists :=
  match h.readLines (joinText dirPath defaultCfgName) with
  | some lines => lines.foldlM (readLine o h dirPath) l
  | none => some l

/-- `dirs` and `excluded_dirs` when all files are read; `none` inside is an exception. -/
def configuredDirs (o : Options) (h : Host) (recursive : Bool) (fuel : Nat)
    (includeDir excludeDir : List Str) : Option (Option Lists) :=
  match includeDirsFromCfg o h "./".toList ⟨includeDir, excludeDir⟩ with
  | none => some none
  | some l =>
      if recursive then forGrowing Lists.dirs (includeDirsFromCfg o h) fuel 0 l else some (some l)

/-! ### What is gathered for -/

/-- The file in the directory `p` names the directory `q`, to be included or excluded. -/
def Names (h : Host) (inc : Bool) (p q : Path) : Prop :=
  ∃ lines, h.tree.lines (p ++ [defaultCfgName]) = some lines ∧
    ∃ e, (inc, e) ∈ lines.filterMap (cfgEntry h) ∧ placeFrom p e = q ∧ q ∈ h.tree.dirs

/-- The set has the initial entries, what the file of the working directory names, and what the
files of its members name. -/
structure Gathering (h : Host) (denotes : Str → Option Path) (includeDir : List Str)
    (S : Set Path) : Prop where
  entry : ∀ d ∈ includeDir, ∀ p, denotes d = some p → p ∈ S
  current : ∀ q, Names h true h.cwd.parts q → q ∈ S
  member : ∀ p ∈ S, ∀ q, Names h true p q → q ∈ S

/-- The directories some texts denote. -/
def denoted (denotes : Str → Option Path) (ts : List Str) : Set Path :=
  {p | ∃ t ∈ ts, denotes t = some p}

/-- **The loop ends, `dirs` is the least such set, and `excluded_dirs` has what the files that were
read exclude.** -/
def Gathers (denotes : Str → Option Path) (o : Options) (h : Host)
    (includeDir excludeDir : List Str) : Prop :=
  ∃ k, ∀ fuel, k ≤ fuel → ∃ l, configuredDirs o h true fuel includeDir excludeDir = some (some l) ∧
    IsLeast {S | Gathering h denotes includeDir S} (denoted denotes l.dirs) ∧
    denoted denotes l.excluded = denoted denotes excludeDir ∪
      {q | ∃ p, (p = h.cwd.parts ∨ p ∈ denoted h.locate l.dirs) ∧ Names h false p q}

/-! ### One file -/

/-- What the file in a directory asks for. -/
def entries (h : Host) (d : Str) : List (Bool × Str) :=
  ((h.readLines (joinText d defaultCfgName)).getD []).filterMap (cfgEntry h)

/-- The texts of the directories among some entries. -/
def foundIn (o : Options) (h : Host) (inc : Bool) (d : Str) (es : List (Bool × Str)) : List Str :=
  es.filterMap fun e => if e.1 = inc then (lineText o h d e.2).filter h.isdir else none

/-- The texts the file in a directory adds. -/
def found (o : Options) (h : Host) (inc : Bool) (d : Str) : List Str :=
  foundIn o h inc d (entries h d)

section

variable {o : Options} {h : Host}

/-- The lists after a text that may be that of a directory: one of the two takes it, if it is not
there yet, and the other stays. -/
theorem Lists.add_eq (l : Lists) (inc : Bool) (t : Str) :
    (if h.isdir t then l.add inc t else l) =
      ⟨addMissing l.dirs (if inc = true ∧ h.isdir t = true then [t] else []),
        addMissing l.excluded (if inc = false ∧ h.isdir t = true then [t] else [])⟩ := by
  cases hdir : h.isdir t with
  | false => simp [addMissing]
  | true =>
      cases inc with
      | true =>
          simp only [Lists.add, addMissing, if_true, and_true, Bool.true_eq_false, if_false,
            List.foldl_cons, List.foldl_nil]
          split_ifs <;> rfl
      | false =>
          simp only [Lists.add, addMissing, if_true, and_true, Bool.false_eq_true, if_false,
            List.foldl_cons, List.foldl_nil]
          split_ifs <;> rfl

theorem foundIn_cons {d e t : Str} (ht : lineText o h d e = some t) (inc inc' : Bool)
    (es : List (Bool × Str)) : foundIn o h inc' d ((inc, e) :: es) =
      (if inc = inc' ∧ h.isdir t = true then [t] else []) ++ foundIn o h inc' d es := by
  rw [foundIn, List.filterMap_cons]
  by_cases hinc : inc = inc'
  · cases hdir : h.isdir t <;> simp [hinc, ht, hdir, foundIn, Option.filter_some]
  · simp [hinc, foundIn]

/-- Reading lines raises exactly if there is no text for one of them; otherwise it appends the
texts that are missing. -/
theorem foldlM_readLine {d : Str} {lines : List Str} {l l' : Lists} :
    lines.foldlM (readLine o h d) l = some l' ↔
      (∀ e ∈ lines.filterMap (cfgEntry h), lineText o h d e.2 ≠ none) ∧
      l' = ⟨addMissing l.dirs (foundIn o h true d (lines.filterMap (cfgEntry h))),
        addMissing l.excluded (foundIn o h false d (lines.filterMap (cfgEntry h)))⟩ := by
  induction lines generalizing l with
  | nil =>
      rw [List.foldlM_nil, Option.pure_def, Option.some_inj, eq_comm]
      simp [foundIn, addMissing]
  | cons line lines ih =>
      rw [List.foldlM_cons]
      cases he : cfgEntry h line with
      | none =>
          have hline : readLine o h d l line = some l := by rw [readLine, he]
          rw [hline, List.filterMap_cons_none he]
          exact ih
      | some e =>
          obtain ⟨inc, e⟩ := e
          have hline : readLine o h d l line = (lineText o h d e).map fun t =>
              if h.isdir t then l.add inc t else l := by
            rw [readLine, he]
          rw [hline, List.filterMap_cons_some he, List.forall_mem_cons]
          cases ht : lineText o h d e with
          | none => simp
          | some t =>
              rw [Option.map_some, Option.bind_eq_bind, Option.bind_some, ih, Lists.add_eq,
                foundIn_cons ht, foundIn_cons ht, addMissing_append, addMissing_append]
              simp

/-- The file in a directory raises exactly if there is no text for one of its paths; otherwise
what it names is appended. -/
theorem includeDirsFromCfg_eq_some {d : Str} {l l' : Lists} :
    includeDirsFromCfg o h d l = some l' ↔
      (∀ e ∈ entries h d, lineText o h d e.2 ≠ none) ∧
      l' = ⟨addMissing l.dirs (found o h true d), addMissing l.excluded (found o h false d)⟩ := by
  unfold includeDirsFromCfg found entries
  cases hlines : h.readLines (joinText d defaultCfgName) with
  | some lines => exact foldlM_readLine
  | none =>
      -- a file that is not there has no lines
      have hnil : ([] : List Str).foldlM (readLine o h d) l = some l := rfl
      rw [← hnil]
      exact foldlM_readLine

/-! ### Texts and directories -/

theorem convertPath_eq_none_iff {p : Str} :
    convertPath o h.cwd p = none ↔ o.absolute = false ∧ p = [] := by
  cases habs : o.absolute <;> simp [convertPath, habs, relpath]

theorem absParts_convertPath {p t : Str} (ht : convertPath o h.cwd p = some t) :
    absParts h.cwd t = absParts h.cwd p := by
  have hsome : absParts h.cwd (argument o h.cwd p) = absParts h.cwd p :=
    absParts_argument (by rw [ht]; rfl)
  rwa [argument, ht] at hsome

theorem locate_convertPath {p t : Str} (ht : convertPath o h.cwd p = some t)
    (hp : absParts h.cwd p ∈ h.tree.dirs) : h.locate t = some (absParts h.cwd p) := by
  unfold convertPath at ht
  split_ifs at ht
  · rw [← Option.some.inj ht]
    exact Host.locate_abspath hp
  · exact Host.locate_relpath ht hp

/-- The text of a line is that of a directory exactly if the line names one: converting a path
changes the text, not the place, whether the line is absolute or relative to the directory of its
file. -/
theorem isdir_lineText {d e t : Str} (ht : lineText o h d e = some t) :
    (h.isdir t = true ↔ placeFrom (absParts h.cwd d) e ∈ h.tree.dirs) ∧
      (placeFrom (absParts h.cwd d) e ∈ h.tree.dirs →
        h.locate t = some (placeFrom (absParts h.cwd d) e)) := by
  have hplace : absParts h.cwd (if startswith e ['/'] then e else joinText d e) =
      placeFrom (absParts h.cwd d) e := by
    split_ifs with habs
    · rw [absParts_eq_placeFrom, placeFrom, placeFrom, if_pos habs, if_pos habs]
    · exact absParts_joinText h.cwd habs
  have hlocate := locate_convertPath (o := o) ht
  rw [hplace] at hlocate
  refine ⟨⟨fun hdir => ?_, fun hmem => ?_⟩, hlocate⟩
  · rw [Host.isdir, Bool.and_eq_true] at hdir
    obtain ⟨q, hq⟩ := Option.isSome_iff_exists.mp hdir.2
    obtain ⟨rfl, hmem⟩ := Host.locate_eq hq
    rwa [absParts_convertPath ht, hplace] at hmem
  · have hne := convertPath_ne_nil ht
    simp [Host.isdir, hlocate hmem, hne]

theorem isPlain_defaultCfgName : IsPlain defaultCfgName := by decide

theorem mem_entries {d : Str} {e : Bool × Str} : e ∈ entries h d ↔
    ∃ p lines, h.locate d = some p ∧ h.tree.lines (p ++ [defaultCfgName]) = some lines ∧
      e ∈ lines.filterMap (cfgEntry h) := by
  rw [entries, Host.readLines_joinText d isPlain_defaultCfgName]
  cases hd : h.locate d with
  | none => simp
  | some p =>
      rw [Option.bind_some]
      cases hlines : h.tree.lines (p ++ [defaultCfgName]) with
      | none => simp [hlines]
      | some lines => simp [hlines]

theorem mem_found {inc : Bool} {d t : Str} : t ∈ found o h inc d ↔
    ∃ e, (inc, e) ∈ entries h d ∧ lineText o h d e = some t ∧ h.isdir t = true := by
  rw [found, foundIn, List.mem_filterMap]
  constructor
  · intro hmem
    obtain ⟨⟨inc', e⟩, he, htext⟩ := hmem
    split_ifs at htext with hinc
    obtain rfl : inc' = inc := hinc
    obtain ⟨ht, hdir⟩ := Option.filter_eq_some_iff.mp htext
    exact ⟨e, he, ht, hdir⟩
  · intro hmem
    obtain ⟨e, he, ht, hdir⟩ := hmem
    refine ⟨(inc, e), he, ?_⟩
    rw [if_pos rfl]
    exact Option.filter_eq_some_iff.mpr ⟨ht, hdir⟩

theorem of_mem_found {inc : Bool} {d t : Str} (ht : t ∈ found o h inc d) :
    t ≠ [] ∧ ∃ p q, h.locate d = some p ∧ Names h inc p q ∧ h.locate t = some q := by
  obtain ⟨e, he, htext, hdir⟩ := mem_found.mp ht
  obtain ⟨p, lines, hp, hlines, hmem⟩ := mem_entries.mp he
  obtain ⟨hiff, hlocate⟩ := isdir_lineText htext
  rw [← (Host.locate_eq hp).1] at hiff hlocate
  have hplace := hiff.mp hdir
  exact ⟨convertPath_ne_nil htext, p, _, hp, ⟨lines, hlines, e, hmem, rfl, hplace⟩, hlocate hplace⟩

/-- What is named is added, unless there is no text for it. -/
theorem exists_mem_found {inc : Bool} {d : Str} {p q : Path} (hp : h.locate d = some p)
    (htexts : ∀ e ∈ entries h d, lineText o h d e.2 ≠ none) (hq : Names h inc p q) :
    ∃ t ∈ found o h inc d, h.locate t = some q := by
  obtain ⟨lines, hlines, e, he, rfl, hmem⟩ := hq
  have hentry : (inc, e) ∈ entries h d := mem_entries.mpr ⟨p, lines, hp, hlines, he⟩
  obtain ⟨t, ht⟩ := Option.ne_none_iff_exists'.mp (htexts _ hentry)
  obtain ⟨hiff, hlocate⟩ := isdir_lineText ht
  rw [← (Host.locate_eq hp).1] at hiff hlocate
  exact ⟨t, mem_found.mpr ⟨e, hentry, ht, hiff.mpr hmem⟩, hlocate hmem⟩

/-! ### Exceptions -/

/-- A line of the file in the working directory is an exclusion without a path. -/
def EmptyExclusion (h : Host) : Prop :=
  ∃ lines, h.tree.lines (h.cwd.parts ++ [defaultCfgName]) = some lines ∧
    ∃ line ∈ lines, strip line = ['!']

/-- The empty path has to be written relative to the working directory. -/
def Raises (o : Options) (h : Host) (includeDir : List Str) : Prop :=
  o.absolute = false ∧ [] ∈ includeDir ∧ EmptyExclusion h

/-- Only an exclusion can have no path: a line that is not one is kept whole, and a blank line is no
entry. `!` alone gives the empty path. -/
theorem cfgEntry_eq_nil {line : Str} {inc : Bool} :
    cfgEntry h line = some (inc, []) ↔ inc = false ∧ strip line = ['!'] := by
  unfold cfgEntry
  generalize strip line = s
  cases s with
  | nil => simp
  | cons c s =>
      have hstart : ∀ d, startswith (c :: s) [d] = (d == c) := fun d => by
        simp [startswith, List.isPrefixOf]
      by_cases hcomment : c = '#'
      · subst hcomment
        simp [hstart]
      by_cases hexclude : c = '!'
      · subst hexclude
        simp only [hstart, List.isEmpty_cons, Bool.false_or, beq_iff_eq, Char.reduceEq, if_false,
          if_true, List.drop_succ_cons, List.drop_zero, Option.some.injEq, Prod.mk.injEq,
          expanduser_eq_nil, List.cons.injEq, true_and]
        exact and_congr_left' eq_comm
      · simp only [hstart, List.isEmpty_cons, Bool.false_or, beq_iff_eq, Ne.symm hcomment,
          Ne.symm hexclude, if_false, Option.some.injEq, Prod.mk.injEq, expanduser_eq_nil,
          List.cons.injEq, hexclude, false_and, and_false, reduceCtorEq]

theorem lineText_eq_none_iff {d e : Str} :
    lineText o h d e = none ↔ o.absolute = false ∧ d = [] ∧ e = [] := by
  rw [lineText, convertPath_eq_none_iff]
  refine and_congr_right fun _ => ?_
  split_ifs with habs
  · have hne : e ≠ [] := by
      rintro rfl
      cases habs
    simp [hne]
  · rcases joinText_cases (a := d) habs with ⟨rfl, hjoin⟩ | ⟨d', rfl, hjoin⟩ | ⟨hne, hjoin⟩
    · simp [hjoin]
    · simp [hjoin]
    · simp [hjoin, hne]

theorem locate_nil : h.locate [] = some h.cwd.parts :=
  Host.locate_of_entry rfl h.here

theorem locate_current : h.locate "./".toList = some h.cwd.parts :=
  Host.locate_of_entry rfl h.here

/-- A file raises only if it is read under the empty path. `relpath` raises on an empty text, and a
line gives one only if it is an exclusion without a path and the directory in front of it is empty
too. -/
theorem raises_iff {d : Str} :
    (∃ e ∈ entries h d, lineText o h d e.2 = none) ↔
      o.absolute = false ∧ d = [] ∧ EmptyExclusion h := by
  constructor
  · intro hraise
    obtain ⟨⟨inc, e⟩, he, htext⟩ := hraise
    obtain ⟨habs, rfl, rfl⟩ := lineText_eq_none_iff.mp htext
    obtain ⟨p, lines, hp, hlines, hmem⟩ := mem_entries.mp he
    obtain rfl := Option.some.inj (locate_nil.symm.trans hp)
    obtain ⟨line, hline, hentry⟩ := List.mem_filterMap.mp hmem
    exact ⟨habs, rfl, lines, hlines, line, hline, (cfgEntry_eq_nil.mp hentry).2⟩
  · intro hraise
    obtain ⟨habs, rfl, lines, hlines, line, hline, hstrip⟩ := hraise
    have hentry : cfgEntry h line = some (false, []) := cfgEntry_eq_nil.mpr ⟨rfl, hstrip⟩
    exact ⟨(false, []), mem_entries.mpr ⟨_, lines, locate_nil, hlines,
      List.mem_filterMap.mpr ⟨line, hline, hentry⟩⟩, lineText_eq_none_iff.mpr ⟨habs, rfl, rfl⟩⟩

/-! ### The loop -/

/-- The directories that are gathered: those the system finds for the entries of the command line,
and what the files name. -/
inductive Found (h : Host) (includeDir : List Str) : Path → Prop
  | entry {d : Str} {p : Path} (hd : d ∈ includeDir) (hp : h.locate d = some p) :
      Found h includeDir p
  | current {q : Path} (hq : Names h true h.cwd.parts q) : Found h includeDir q
  | member {p q : Path} (hp : Found h includeDir p) (hq : Names h true p q) : Found h includeDir q

/-- What holds when the loop has come to position `i`: the files in front of it have been read, and
what they name has been appended. Behind it nothing has been read yet. -/
structure Progress (o : Options) (h : Host) (includeDir excludeDir : List Str) (i : Nat)
    (l : Lists) : Prop where
  initial : includeDir <+: l.dirs
  sound : ∀ t ∈ l.dirs, t ∈ includeDir ∨ (t ≠ [] ∧ ∃ p, h.locate t = some p ∧ Found h includeDir p)
  current : ∀ t ∈ found o h true "./".toList, t ∈ l.dirs
  done : ∀ d ∈ l.dirs.take i, (∀ e ∈ entries h d, lineText o h d e.2 ≠ none) ∧
    ∀ t ∈ found o h true d, t ∈ l.dirs
  excluded : ∀ t, t ∈ l.excluded ↔ t ∈ excludeDir ∨ t ∈ found o h false "./".toList ∨
    ∃ d ∈ l.dirs.take i, t ∈ found o h false d

section

variable {includeDir excludeDir : List Str} {i : Nat} {l l' : Lists}

theorem Progress.found_of_locate (hl : Progress o h includeDir excludeDir i l) {d : Str} {p : Path}
    (hd : d ∈ l.dirs) (hp : h.locate d = some p) : Found h includeDir p := by
  rcases hl.sound d hd with hinit | ⟨-, p', hp', hfound⟩
  · exact .entry hinit hp
  · obtain rfl := Option.some.inj (hp.symm.trans hp')
    exact hfound

theorem Progress.step {a : Str} (hl : Progress o h includeDir excludeDir i l)
    (hi : l.dirs[i]? = some a) (ha : includeDirsFromCfg o h a l = some l') :
    Progress o h includeDir excludeDir (i + 1) l' := by
  obtain ⟨htexts, rfl⟩ := includeDirsFromCfg_eq_some.mp ha
  have hgrows := prefix_addMissing l.dirs (found o h true a)
  have htake := take_succ_of_grows hgrows hi
  have hadir : a ∈ l.dirs := List.mem_of_getElem? hi
  refine ⟨hl.initial.trans hgrows, ?_, ?_, ?_, ?_⟩
  · intro t ht
    rcases mem_addMissing.mp ht with ht | ht
    · exact hl.sound t ht
    · obtain ⟨hne, p, q, hp, hq, htq⟩ := of_mem_found ht
      exact .inr ⟨hne, q, htq, .member (hl.found_of_locate hadir hp) hq⟩
  · exact fun t ht => hgrows.subset (hl.current t ht)
  · intro d hd
    simp only [htake, List.mem_append, List.mem_singleton] at hd
    rcases hd with hd | rfl
    · exact ⟨(hl.done d hd).1, fun t ht => hgrows.subset ((hl.done d hd).2 t ht)⟩
    · exact ⟨htexts, fun t ht => mem_addMissing.mpr (.inr ht)⟩
  · intro t
    simp only [mem_addMissing, hl.excluded, htake, List.mem_append, List.mem_singleton, or_and_right,
      exists_or, exists_eq_left, or_assoc]

/-- After the file of the working directory: what it names is there, and of the list none has been
gone through. -/
theorem progress_start (hl : includeDirsFromCfg o h "./".toList ⟨includeDir, excludeDir⟩ = some l) :
    Progress o h includeDir excludeDir 0 l := by
  obtain ⟨-, rfl⟩ := includeDirsFromCfg_eq_some.mp hl
  refine ⟨prefix_addMissing _ _, ?_, ?_, ?_, ?_⟩
  · intro t ht
    rcases mem_addMissing.mp ht with ht | ht
    · exact .inl ht
    · obtain ⟨hne, p, q, hp, hq, htq⟩ := of_mem_found ht
      obtain rfl := Option.some.inj (locate_current.symm.trans hp)
      exact .inr ⟨hne, q, htq, .current hq⟩
  · exact fun t ht => mem_addMissing.mpr (.inr ht)
  · intro d hd
    simp at hd
  · intro t
    simp [mem_addMissing]

theorem includeDirsFromCfg_eq_none {d : Str} :
    includeDirsFromCfg o h d l = none ↔ o.absolute = false ∧ d = [] ∧ EmptyExclusion h := by
  rw [← raises_iff]
  constructor
  · intro hnone
    by_contra hno
    have htexts : ∀ e ∈ entries h d, lineText o h d e.2 ≠ none :=
      fun e he htext => hno ⟨e, he, htext⟩
    rw [includeDirsFromCfg_eq_some.mpr ⟨htexts, rfl⟩] at hnone
    cases hnone
  · intro hraise
    obtain ⟨e, he, htext⟩ := hraise
    by_contra hne
    obtain ⟨l', hl'⟩ := Option.ne_none_iff_exists'.mp hne
    exact (includeDirsFromCfg_eq_some.mp hl').1 e he htext

/-- What holds when the loop has come to the end: every directory of the list has been read, so the
list is closed under what the files name. -/
structure Complete (o : Options) (h : Host) (includeDir excludeDir : List Str) (l : Lists) :
    Prop where
  initial : includeDir <+: l.dirs
  sound : ∀ t ∈ l.dirs, t ∈ includeDir ∨ ∃ p, h.locate t = some p
  located : ∀ p, p ∈ denoted h.locate l.dirs ↔ Found h includeDir p
  texts : ∀ d ∈ l.dirs, ∀ e ∈ entries h d, lineText o h d e.2 ≠ none
  excluded : ∀ t, t ∈ l.excluded ↔ t ∈ excludeDir ∨ t ∈ found o h false "./".toList ∨
    ∃ d ∈ l.dirs, t ∈ found o h false d

theorem texts_current : ∀ e ∈ entries h "./".toList, lineText o h "./".toList e.2 ≠ none := by
  intro e he htext
  obtain ⟨-, hnil, -⟩ := raises_iff.mp ⟨e, he, htext⟩
  cases hnil

theorem Progress.complete (hl : Progress o h includeDir excludeDir i l) (hi : l.dirs.length ≤ i) :
    Complete o h includeDir excludeDir l := by
  have hdone := hl.done
  have hexcluded := hl.excluded
  rw [List.take_of_length_le hi] at hdone hexcluded
  refine ⟨hl.initial, ?_, fun p => ⟨?_, fun hp => ?_⟩, fun d hd => (hdone d hd).1, hexcluded⟩
  · intro t ht
    rcases hl.sound t ht with hinit | ⟨-, p, hp, -⟩
    · exact .inl hinit
    · exact .inr ⟨p, hp⟩
  · intro hp
    obtain ⟨t, ht, hp⟩ := hp
    exact hl.found_of_locate ht hp
  · -- the list is closed: along the way to `p` each directory is there, and its file was read
    induction hp with
    | entry hd hp => exact ⟨_, hl.initial.subset hd, hp⟩
    | current hq =>
        obtain ⟨t, ht, htq⟩ := exists_mem_found locate_current texts_current hq
        exact ⟨t, hl.current t ht, htq⟩
    | member _ hq ih =>
        obtain ⟨d, hd, hp⟩ := ih
        obtain ⟨t, ht, htq⟩ := exists_mem_found hp (hdone d hd).1 hq
        exact ⟨t, (hdone d hd).2 t ht, htq⟩

/-- How the program ends: at the end of the list, or at a file that raises. The file of the working
directory is read under `./`, so that one does not. -/
theorem configuredDirs_cases {fuel : Nat} {r : Option Lists}
    (hr : configuredDirs o h true fuel includeDir excludeDir = some r) :
    (∃ l, r = some l ∧ Complete o h includeDir excludeDir l) ∨
      ∃ j l a, r = none ∧ Progress o h includeDir excludeDir j l ∧ l.dirs[j]? = some a ∧
        includeDirsFromCfg o h a l = none := by
  unfold configuredDirs at hr
  cases hstart : includeDirsFromCfg o h "./".toList ⟨includeDir, excludeDir⟩ with
  | none =>
      obtain ⟨-, hnil, -⟩ := includeDirsFromCfg_eq_none.mp hstart
      cases hnil
  | some l₀ =>
      rw [hstart] at hr
      rcases forGrowing_invariant (P := Progress o h includeDir excludeDir)
        (fun i l a l' hl hi ha => hl.step hi ha) hr (progress_start hstart) with
        ⟨j, l, hl, hprogress, hj⟩ | hraised
      · exact .inl ⟨l, hl, hprogress.complete hj⟩
      · exact .inr hraised

theorem configuredDirs_complete {fuel : Nat}
    (hl : configuredDirs o h true fuel includeDir excludeDir = some (some l)) :
    Complete o h includeDir excludeDir l := by
  rcases configuredDirs_cases hl with ⟨l', hl', hcomplete⟩ | ⟨j, l', a, hnone, -⟩
  · obtain rfl := Option.some.inj hl'
    exact hcomplete
  · cases hnone

theorem Complete.not_raises (hl : Complete o h includeDir excludeDir l) :
    ¬ Raises o h includeDir := by
  intro hraise
  obtain ⟨habs, hnil, hempty⟩ := hraise
  obtain ⟨e, he, htext⟩ := raises_iff.mpr ⟨habs, rfl, hempty⟩
  exact hl.texts [] (hl.initial.subset hnil) e he htext

/-! ### Termination -/

/-- All texts for the directories of the tree. -/
def writings (h : Host) : List Str :=
  h.tree.dirs.flatMap fun q =>
    ['/' :: joinSlash q, '/' :: '/' :: joinSlash q, ['.'], joinSlash (relParts h.cwd q)]

theorem mem_writings {p t : Str} (ht : convertPath o h.cwd p = some t)
    (hp : absParts h.cwd p ∈ h.tree.dirs) : t ∈ writings h := by
  refine List.mem_flatMap.mpr ⟨_, hp, ?_⟩
  unfold convertPath at ht
  split_ifs at ht
  · rw [← Option.some.inj ht]
    rcases abspath_eq h.cwd p with htext | htext <;> simp [htext]
  · rcases of_relpath ht with ⟨-, rfl⟩ | ⟨-, rfl⟩ <;> simp

theorem mem_writings_of_found {inc : Bool} {d t : Str} (ht : t ∈ found o h inc d) :
    t ∈ writings h := by
  obtain ⟨e, -, htext, hdir⟩ := mem_found.mp ht
  rw [Host.isdir, Bool.and_eq_true] at hdir
  obtain ⟨q, hq⟩ := Option.isSome_iff_exists.mp hdir.2
  obtain ⟨rfl, hmem⟩ := Host.locate_eq hq
  rw [absParts_convertPath htext] at hmem
  exact mem_writings htext hmem

/-- **The loop ends**: what is appended is one of finitely many texts, and was not there. -/
theorem configuredDirs_isSome (o : Options) (h : Host) (includeDir excludeDir : List Str) :
    ∃ k, ∀ fuel, k ≤ fuel → (configuredDirs o h true fuel includeDir excludeDir).isSome := by
  unfold configuredDirs
  cases hstart : includeDirsFromCfg o h "./".toList ⟨includeDir, excludeDir⟩ with
  | none => exact ⟨0, fun _ _ => rfl⟩
  | some l =>
      let potential : Lists → Nat := fun l => ((writings h).toFinset.filter (· ∉ l.dirs)).card
      refine ⟨potential l + l.dirs.length + 1, fun fuel hfuel => ?_⟩
      refine forGrowing_isSome potential ?_ (i := 0) (by omega) (by omega)
      intro a l l' ha
      obtain ⟨-, rfl⟩ := includeDirsFromCfg_eq_some.mp ha
      exact addMissing_potential fun t ht => List.mem_toFinset.mpr (mem_writings_of_found ht)

/-- Only the empty path of the command line can raise. -/
theorem configuredDirs_of_not_raises (hno : ¬ Raises o h includeDir) (excludeDir : List Str) :
    ∃ k, ∀ fuel, k ≤ fuel →
      ∃ l, configuredDirs o h true fuel includeDir excludeDir = some (some l) := by
  obtain ⟨k, hk⟩ := configuredDirs_isSome o h includeDir excludeDir
  refine ⟨k, fun fuel hfuel => ?_⟩
  obtain ⟨r, hr⟩ := Option.isSome_iff_exists.mp (hk fuel hfuel)
  rcases configuredDirs_cases hr with ⟨l, rfl, -⟩ | ⟨j, l, a, -, hprogress, hj, ha⟩
  · exact ⟨l, hr⟩
  · -- the path is empty, and only the command line has such a path
    obtain ⟨habs, rfl, hempty⟩ := includeDirsFromCfg_eq_none.mp ha
    rcases hprogress.sound [] (List.mem_of_getElem? hj) with hmem | ⟨hne, -⟩
    · exact absurd ⟨habs, hmem, hempty⟩ hno
    · exact absurd rfl hne

/-! ### The closure -/

/-- The place a text names, whether or not the system finds it. -/
def place (h : Host) (t : Str) : Option Path := some (absParts h.cwd t)

/-- What the file of an entry the system does not find would add is there anyway. -/
def Resolved (h : Host) (includeDir : List Str) : Prop :=
  ∀ d ∈ includeDir, h.locate d = none → ∀ q, Names h true (absParts h.cwd d) q →
    Found h includeDir q ∨ q ∈ denoted (place h) includeDir

theorem place_of_locate {t : Str} {p : Path} (hp : h.locate t = some p) : place h t = some p := by
  rw [place, (Host.locate_eq hp).1]

/-- The exclusions, for texts that denote what the system finds: those of the command line, and
those of the files in the current directory and in every directory of the list. -/
theorem Complete.excluded_eq (hl : Complete o h includeDir excludeDir l)
    {denotes : Str → Option Path} (hden : ∀ t p, h.locate t = some p → denotes t = some p) :
    denoted denotes l.excluded = denoted denotes excludeDir ∪
      {q | ∃ p, (p = h.cwd.parts ∨ p ∈ denoted h.locate l.dirs) ∧ Names h false p q} := by
  ext q
  constructor
  · intro hq
    obtain ⟨t, ht, hq⟩ := hq
    -- the file `t` comes from
    have hfrom : ∀ d, t ∈ found o h false d → ∃ p, h.locate d = some p ∧ Names h false p q := by
      intro d ht
      obtain ⟨-, p, q', hp, hnames, hlocate⟩ := of_mem_found ht
      obtain rfl := Option.some.inj ((hden t q' hlocate).symm.trans hq)
      exact ⟨p, hp, hnames⟩
    rcases (hl.excluded t).mp ht with hinit | hcurrent | ⟨d, hd, ht⟩
    · exact .inl ⟨t, hinit, hq⟩
    · obtain ⟨p, hp, hnames⟩ := hfrom _ hcurrent
      exact .inr ⟨p, .inl (Option.some.inj (hp.symm.trans locate_current)), hnames⟩
    · obtain ⟨p, hp, hnames⟩ := hfrom d ht
      exact .inr ⟨p, .inr ⟨d, hd, hp⟩, hnames⟩
  · intro hq
    rcases hq with ⟨t, ht, hq⟩ | ⟨p, rfl | ⟨d, hd, hp⟩, hnames⟩
    · exact ⟨t, (hl.excluded t).mpr (.inl ht), hq⟩
    · obtain ⟨t, ht, hlocate⟩ := exists_mem_found locate_current texts_current hnames
      exact ⟨t, (hl.excluded t).mpr (.inr (.inl ht)), hden t q hlocate⟩
    · obtain ⟨t, ht, hlocate⟩ := exists_mem_found hp (hl.texts d hd) hnames
      exact ⟨t, (hl.excluded t).mpr (.inr (.inr ⟨d, hd, ht⟩)), hden t q hlocate⟩

theorem Found.mem_of_gathering {denotes : Str → Option Path} {S : Set Path} {p : Path}
    (hden : ∀ t p, h.locate t = some p → denotes t = some p)
    (hS : Gathering h denotes includeDir S) (hp : Found h includeDir p) : p ∈ S := by
  induction hp with
  | entry hd hp => exact hS.entry _ hd _ (hden _ _ hp)
  | current hq => exact hS.current _ hq
  | member _ hq ih => exact hS.member _ ih _ hq

/-- As far as the system finds the entries, `dirs` is the closure. -/
theorem Complete.isLeast_locate (hl : Complete o h includeDir excludeDir l) :
    IsLeast {S | Gathering h h.locate includeDir S} (denoted h.locate l.dirs) := by
  refine ⟨⟨?_, ?_, ?_⟩, fun S hS p hp => ?_⟩
  · exact fun d hd p hp => (hl.located p).mpr (.entry hd hp)
  · exact fun q hq => (hl.located q).mpr (.current hq)
  · exact fun p hp q hq => (hl.located q).mpr (.member ((hl.located p).mp hp) hq)
  · exact ((hl.located p).mp hp).mem_of_gathering (fun _ _ h => h) hS

/-- By the places they name, `dirs` has the entries and what is gathered. An entry of the command
line counts even if there is no directory of that name. -/
theorem Complete.mem_denoted_place (hl : Complete o h includeDir excludeDir l) {p : Path} :
    p ∈ denoted (place h) l.dirs ↔ Found h includeDir p ∨ p ∈ denoted (place h) includeDir := by
  constructor
  · intro hp
    obtain ⟨t, ht, hp⟩ := hp
    rcases hl.sound t ht with hinit | ⟨p', hp'⟩
    · exact .inr ⟨t, hinit, hp⟩
    · obtain rfl := Option.some.inj ((place_of_locate hp').symm.trans hp)
      exact .inl ((hl.located p').mp ⟨t, ht, hp'⟩)
  · intro hp
    rcases hp with hp | ⟨d, hd, hp⟩
    · obtain ⟨t, ht, hlocate⟩ := (hl.located p).mpr hp
      exact ⟨t, ht, place_of_locate hlocate⟩
    · exact ⟨d, hl.initial.subset hd, hp⟩

theorem Complete.isLeast_place_iff (hl : Complete o h includeDir excludeDir l) :
    IsLeast {S | Gathering h (place h) includeDir S} (denoted (place h) l.dirs) ↔
      Resolved h includeDir := by
  constructor
  · intro hleast d hd _ q hq
    have hplace : absParts h.cwd d ∈ denoted (place h) l.dirs :=
      hleast.1.entry d hd _ rfl
    exact hl.mem_denoted_place.mp (hleast.1.member _ hplace q hq)
  · intro hresolved
    refine ⟨⟨?_, ?_, ?_⟩, fun S hS p hp => ?_⟩
    · exact fun d hd p hp => hl.mem_denoted_place.mpr (.inr ⟨d, hd, hp⟩)
    · exact fun q hq => hl.mem_denoted_place.mpr (.inl (.current hq))
    · intro p hp q hq
      refine hl.mem_denoted_place.mpr ?_
      rcases hl.mem_denoted_place.mp hp with hfound | ⟨d, hd, hplace⟩
      · exact .inl (.member hfound hq)
      · obtain rfl := Option.some.inj hplace
        cases hlocate : h.locate d with
        | none => exact hresolved d hd hlocate q hq
        | some p' =>
            obtain ⟨rfl, -⟩ := Host.locate_eq hlocate
            exact .inl (.member (.entry hd hlocate) hq)
    · rcases hl.mem_denoted_place.mp hp with hfound | ⟨d, hd, hplace⟩
      · exact hfound.mem_of_gathering (fun _ _ => place_of_locate) hS
      · exact hS.entry d hd p hplace

end

end

/-- **The loop gathers the closure** exactly if it does not raise, and, where an entry of the
command line stands for the place it names although the system does not find it, if the file there
would add nothing. -/
theorem gathers_iff (o : Options) (h : Host) (includeDir excludeDir : List Str) :
    (Gathers h.locate o h includeDir excludeDir ↔ ¬ Raises o h includeDir) ∧
      (Gathers (place h) o h includeDir excludeDir ↔
        ¬ Raises o h includeDir ∧ Resolved h includeDir) := by
  refine ⟨⟨fun hg => ?_, fun hno => ?_⟩, ⟨fun hg => ?_, fun hno => ?_⟩⟩
  · obtain ⟨k, hk⟩ := hg
    obtain ⟨l, hl, -⟩ := hk k (Nat.le_refl k)
    exact (configuredDirs_complete hl).not_raises
  · obtain ⟨k, hk⟩ := configuredDirs_of_not_raises hno excludeDir
    refine ⟨k, fun fuel hfuel => ?_⟩
    obtain ⟨l, hl⟩ := hk fuel hfuel
    have hcomplete := configuredDirs_complete hl
    exact ⟨l, hl, hcomplete.isLeast_locate, hcomplete.excluded_eq fun _ _ h => h⟩
  · obtain ⟨k, hk⟩ := hg
    obtain ⟨l, hl, hleast, -⟩ := hk k (Nat.le_refl k)
    have hcomplete := configuredDirs_complete hl
    exact ⟨hcomplete.not_raises, hcomplete.isLeast_place_iff.mp hleast⟩
  · obtain ⟨k, hk⟩ := configuredDirs_of_not_raises hno.1 excludeDir
    refine ⟨k, fun fuel hfuel => ?_⟩
    obtain ⟨l, hl⟩ := hk fuel hfuel
    have hcomplete := configuredDirs_complete hl
    exact ⟨l, hl, hcomplete.isLeast_place_iff.mpr hno.2,
      hcomplete.excluded_eq fun _ _ => place_of_locate⟩

/-- `/w` with the directories `b` and `c`; there may be a file in `/w` and one in `b`. -/
def threeDirs (current inB : Option (List Str)) : DirTree where
  dirs := [[], [['w']], [['w'], ['b']], [['w'], ['c']]]
  lines p :=
    if p == [['w'], defaultCfgName] then current
    else if p == [['w'], ['b'], defaultCfgName] then inB
    else none
  root := List.mem_cons_self
  parent p c hp := by
    have hdrop : p = (p ++ [c]).dropLast := by simp
    simp only [List.mem_cons, List.not_mem_nil, or_false] at hp
    rcases hp with hp | hp | hp | hp <;> rw [hdrop, hp] <;> decide
  plain := by decide
  apart p hp := by
    simp only [List.mem_cons, List.not_mem_nil, or_false] at hp
    rcases hp with rfl | rfl | rfl | rfl <;> rfl

/-- The program runs in `/w`. -/
def threeDirsHost (current inB : Option (List Str)) : Host :=
  ⟨threeDirs current inB, workDir, List.mem_cons_of_mem _ List.mem_cons_self, fun _ => none⟩

/-- An exclusion without a path: read in the working directory it excludes that, read again under
the empty path it raises. -/
theorem empty_include_dir_raises :
    includeDirsFromCfg ⟨false, false, []⟩ (threeDirsHost (some ["!".toList]) none) "./".toList
        ⟨[[]], []⟩ = some ⟨[[]], [['.']]⟩ ∧
      ∀ fuel, configuredDirs ⟨false, false, []⟩ (threeDirsHost (some ["!".toList]) none) true
        (fuel + 1) [[]] [] = some none := by
  have hstart : includeDirsFromCfg ⟨false, false, []⟩ (threeDirsHost (some ["!".toList]) none)
      "./".toList ⟨[[]], []⟩ = some ⟨[[]], [['.']]⟩ := by decide
  have hnext : includeDirsFromCfg ⟨false, false, []⟩ (threeDirsHost (some ["!".toList]) none)
      [] ⟨[[]], [['.']]⟩ = none := by decide
  refine ⟨hstart, fun fuel => ?_⟩
  rw [configuredDirs, hstart]
  simp only [if_true]
  exact forGrowing_raise rfl hnext fuel

-- the file in `b` names `c` and, in a circle, `b`
example : configuredDirs ⟨false, false, []⟩ (threeDirsHost (some ["b".toList])
    (some ["../c".toList, "# x".toList, "../x/../b/".toList])) true 3 [] [] =
      some (some ⟨["b".toList, "c".toList], []⟩) := by
  decide

-- an entry that names `b` but is not found: the file in `b` is not read
example : configuredDirs ⟨false, false, []⟩ (threeDirsHost none (some ["../c".toList])) true 2
    ["x/../b".toList] [] = some (some ⟨["x/../b".toList], []⟩) := by
  decide

end BlogStuff.Bcscope
