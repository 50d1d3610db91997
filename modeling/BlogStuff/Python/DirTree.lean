import BlogStuff.Python.PosixPath

/-!
# BlogStuff.Python.DirTree

A directory tree without symbolic links, and the `os.path` functions that look at it.

The system goes through a path from left to right and needs every directory on the way, while
`normpath` only cancels `..` against the name before it. What the system finds is the place the
path names (`Host.locate_eq`), but a path may name a directory that the system does not find:
`x/../b` without `x`. The paths `abspath` and `relpath` write do not have this difference
(`Host.locate_abspath`, `Host.locate_relpath`).
-/

namespace BlogStuff.Python

/-- Directories, from the root, and the lines of the files. A directory stands in a directory, no
path is both a directory and a file, and there are no links. -/
structure DirTree where
  dirs : List Path
  lines : Path → Option (List Str)
  root : [] ∈ dirs
  parent : ∀ p c, p ++ [c] ∈ dirs → p ∈ dirs
  plain : ∀ p ∈ dirs, ∀ c ∈ p, IsPlain c
  apart : ∀ p ∈ dirs, lines p = none

/-- There is a directory. -/
def DirTree.isDir (t : DirTree) (p : Path) : Bool := t.dirs.any (· == p)

/-- What a program sees of the system: the tree, its working directory, and the home directories
of users. -/
structure Host where
  tree : DirTree
  cwd : WorkDir
  here : cwd.parts ∈ tree.dirs
  home : Str → Option Str

/-- The entry the system finds for a path. -/
def Host.entry (h : Host) (p : Str) : Option Path :=
  walk h.tree.isDir (if startswith p ['/'] then [] else h.cwd.parts) (pathParts p)

/-- The directory the system finds for a path; the empty path is taken for the working
directory, as in front of a name. -/
def Host.locate (h : Host) (p : Str) : Option Path := (h.entry p).filter h.tree.isDir

/-- `os.path.isdir(p)`. -/
def Host.isdir (h : Host) (p : Str) : Bool := !p.isEmpty && (h.locate p).isSome

/-- The lines of the file `p`, if `os.path.isfile(p)`. -/
def Host.readLines (h : Host) (p : Str) : Option (List Str) := (h.entry p).bind h.tree.lines

section

variable {t : DirTree} {h : Host}

@[simp] theorem DirTree.isDir_iff {p : Path} : t.isDir p = true ↔ p ∈ t.dirs := by
  simp [DirTree.isDir]

theorem DirTree.mem_of_append {p q : Path} (hq : p ++ q ∈ t.dirs) : p ∈ t.dirs := by
  induction q using List.reverseRecOn with
  | nil => simpa using hq
  | append_singleton q c ih =>
      rw [← List.append_assoc] at hq
      exact ih (t.parent _ c hq)

theorem DirTree.dropLast_mem {p : Path} (hp : p ∈ t.dirs) : p.dropLast ∈ t.dirs := by
  by_cases hne : p = []
  · rw [hne]
    exact t.root
  · rw [← List.dropLast_append_getLast hne] at hp
    exact t.parent _ _ hp

/-! ### The way of the system -/

/-- Where the system comes out is where cancelling comes out. Without links `..` is the directory
above, which is what taking off the last component gives. -/
theorem walk_eq_foldl {isDir : Path → Bool} {cur q : Path} {cs : List Str}
    (hcur : ∀ c ∈ cur, IsName c) (hcs : ∀ c ∈ cs, '/' ∉ c)
    (hw : walk isDir cur (cs.filter fun c => c ≠ [] ∧ c ≠ ['.']) = some q) :
    q = cs.foldl (normStep true) cur := by
  induction cs generalizing cur with
  | nil => exact (Option.some.inj hw).symm
  | cons c cs ih =>
      obtain ⟨hslash, hcs⟩ := List.forall_mem_cons.mp hcs
      rw [List.foldl_cons]
      by_cases hskip : c = [] ∨ c = ['.']
      · rw [List.filter_cons_of_neg (by simpa [or_iff_not_imp_left] using hskip)] at hw
        rw [normStep, if_pos hskip]
        exact ih hcur hcs hw
      · rw [not_or] at hskip
        rw [List.filter_cons_of_pos (by simpa using hskip), walk] at hw
        split_ifs at hw with hdir hup
        · rw [show c = dotdot from hup, normStep_dotdot hcur]
          exact ih (fun d hd => hcur d (List.mem_of_mem_dropLast hd)) hcs hw
        · have hname : IsName c := ⟨hskip.1, hskip.2, hup, hslash⟩
          rw [normStep_name hname]
          exact ih (List.forall_mem_append.mpr ⟨hcur, List.forall_mem_singleton.mpr hname⟩) hcs hw

theorem Host.locate_eq {p : Str} {q : Path} (hq : h.locate p = some q) :
    q = absParts h.cwd p ∧ q ∈ h.tree.dirs := by
  obtain ⟨hentry, hdir⟩ := Option.filter_eq_some_iff.mp hq
  refine ⟨?_, DirTree.isDir_iff.mp hdir⟩
  rw [absParts_eq]
  refine walk_eq_foldl ?_ (fun c hc => not_mem_of_mem_splitOn hc) hentry
  split_ifs
  · exact fun c hc => absurd hc List.not_mem_nil
  · exact fun c hc => (h.cwd.plain c hc).isName

theorem DirTree.walk_down {p q : Path} (hq : p ++ q ∈ t.dirs) :
    walk t.isDir p q = some (p ++ q) := by
  refine walk_plain (fun c hc => ?_) fun r hr _ => ?_
  · obtain ⟨-, -, hup, -, hnul⟩ := t.plain _ hq c (List.mem_append_right p hc)
    exact ⟨hup, hnul⟩
  · obtain ⟨s, rfl⟩ := hr
    rw [← List.append_assoc] at hq
    exact DirTree.isDir_iff.mpr (DirTree.mem_of_append hq)

theorem DirTree.walk_up {p : Path} (hp : p ∈ t.dirs) (k : Nat) :
    walk t.isDir p (List.replicate k dotdot) = some (p.take (p.length - k)) := by
  induction k generalizing p with
  | zero => simp [walk]
  | succ k ih =>
      have hstep : (t.isDir p && !dotdot.contains '\x00') = true := by
        rw [DirTree.isDir_iff.mpr hp]
        decide
      rw [List.replicate_succ, walk, if_pos hstep, if_pos (by decide), ih (DirTree.dropLast_mem hp),
        List.length_dropLast, List.dropLast_eq_take, List.take_take]
      congr 2
      omega

/-! ### Written paths -/

theorem pathParts_joinSlash {parts : List Str}
    (hparts : ∀ c ∈ parts, c ≠ [] ∧ c ≠ ['.'] ∧ '/' ∉ c) : pathParts (joinSlash parts) = parts := by
  by_cases hne : parts = []
  · subst hne
    rfl
  · rw [pathParts, splitOn_joinSlash (fun c hc => (hparts c hc).2.2) hne, List.filter_eq_self]
    exact fun c hc => by simpa using ⟨(hparts c hc).1, (hparts c hc).2.1⟩

theorem pathParts_slash (s : Str) : pathParts ('/' :: s) = pathParts s := by
  simp [pathParts, splitOn_slash]

theorem Host.locate_of_entry {p : Str} {q : Path} (hq : h.entry p = some q)
    (hmem : q ∈ h.tree.dirs) : h.locate p = some q := by
  rw [Host.locate, hq, Option.filter_some, if_pos (DirTree.isDir_iff.mpr hmem)]

/-- The system finds a directory under the path `abspath` writes. -/
theorem Host.locate_abspath {p : Str} (hp : absParts h.cwd p ∈ h.tree.dirs) :
    h.locate (abspath h.cwd p) = some (absParts h.cwd p) := by
  have hnames : ∀ c ∈ absParts h.cwd p, c ≠ [] ∧ c ≠ ['.'] ∧ '/' ∉ c := fun c hc =>
    have hname := isName_absParts h.cwd p c hc
    ⟨hname.1, hname.2.1, hname.2.2.2⟩
  have hparts : pathParts (abspath h.cwd p) = absParts h.cwd p := by
    rcases abspath_eq h.cwd p with htext | htext
    · rw [htext, pathParts_slash, pathParts_joinSlash hnames]
    · rw [htext, pathParts_slash, pathParts_slash, pathParts_joinSlash hnames]
  refine Host.locate_of_entry ?_ hp
  rw [Host.entry, if_pos (startswith_abspath h.cwd p), hparts]
  exact DirTree.walk_down (p := []) hp

/-- The system finds a directory under the path `relpath` writes. The walk goes up from the working
directory to the part the two have in common, and from there down through directories that exist. -/
theorem Host.locate_relpath {p rel : Str} (hrel : relpath h.cwd p = some rel)
    (hp : absParts h.cwd p ∈ h.tree.dirs) : h.locate rel = some (absParts h.cwd p) := by
  have hnames : ∀ c ∈ relParts h.cwd (absParts h.cwd p), c ≠ [] ∧ c ≠ ['.'] ∧ '/' ∉ c :=
    fun c hc => of_mem_relParts (isName_absParts h.cwd p) hc
  -- up to the common part, then down
  have hwalk : walk h.tree.isDir h.cwd.parts (relParts h.cwd (absParts h.cwd p)) =
      some (absParts h.cwd p) := by
    have hle := commonLength_le h.cwd.parts (absParts h.cwd p)
    have hsplit := List.take_append_drop (commonLength h.cwd.parts (absParts h.cwd p))
      (absParts h.cwd p)
    rw [relParts, walk_append, DirTree.walk_up h.here, Nat.sub_sub_self hle, Option.bind_some,
      commonLength_take, DirTree.walk_down (by rwa [hsplit]), hsplit]
  refine Host.locate_of_entry ?_ hp
  rcases of_relpath hrel with ⟨hempty, rfl⟩ | ⟨hne, rfl⟩
  · rw [hempty] at hwalk
    exact hwalk
  · have hslash := not_startswith_joinSlash (fun c hc => ⟨(hnames c hc).1, (hnames c hc).2.2⟩) hne
    rw [Host.entry, if_neg hslash, pathParts_joinSlash hnames]
    exact hwalk

/-! ### Files -/

/-- A file of a directory is read through any path the system finds the directory under. The name is
one component, so the walk to the file is the walk to the directory and one step. -/
theorem Host.readLines_joinText (d : Str) {name : Str} (hname : IsPlain name) :
    h.readLines (joinText d name) = (h.locate d).bind fun p => h.tree.lines (p ++ [name]) := by
  obtain ⟨hne, hdot, hup, hslash, hnul⟩ := hname
  have hrel : ¬ startswith name ['/'] = true := by
    intro hs
    obtain ⟨t, rfl⟩ := startswith_iff.mp hs
    simp at hslash
  have hparts : pathParts (joinText d name) = pathParts d ++ [name] := by
    rcases joinText_cases (a := d) hrel with ⟨rfl, hjoin⟩ | ⟨d', rfl, hjoin⟩ | ⟨-, hjoin⟩
    · rw [hjoin, pathParts_of_not_mem hslash hne hdot]
      rfl
    · rw [hjoin, pathParts_append_slash hslash hne hdot]
      simp [pathParts, List.splitOn_append_cons_self]
    · rw [hjoin, pathParts_append_slash hslash hne hdot]
  rw [Host.readLines, Host.entry, startswith_joinText hrel, hparts, walk_append, Host.locate,
    Host.entry]
  cases hwalk : walk h.tree.isDir (if startswith d ['/'] then [] else h.cwd.parts) (pathParts d) with
  | none => rfl
  | some p =>
      have hnul : name.contains '\x00' = false := by simpa using hnul
      rw [Option.bind_some, walk, hnul, if_neg hup, Option.filter_some]
      cases hdir : h.tree.isDir p with
      | true => rfl
      | false => rfl

end

end BlogStuff.Python
