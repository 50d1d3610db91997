import BlogStuff.Python.Path

/-!
# BlogStuff.Python.PosixPath

`os.path` on texts (`posixpath`): `normpath`, `abspath` and `relpath`.

Normalising goes through the components of a path from left to right and keeps a stack of
names: `..` takes the last one off. Without symbolic links the stack is the place the path
names (`absParts`), and `abspath` and `relpath` are two ways of writing that place down
(`absParts_abspath`, `absParts_relpath`).
-/

namespace BlogStuff.Python

/-- `'..'`. -/
def dotdot : Str := ['.', '.']

/-- `'/'.join(parts)`. -/
def joinSlash (parts : List Str) : Str := ['/'].intercalate parts

/-- One component in the loop of `normpath`, with the stack of names so far. -/
def normStep (rooted : Bool) (stack : List Str) (c : Str) : List Str :=
  if c = [] ∨ c = ['.'] then stack
  else if c ≠ dotdot ∨ (rooted = false ∧ stack = []) ∨ stack.getLast? = some dotdot then stack ++ [c]
  else stack.dropLast

/-- The slashes in front that `normpath` keeps: exactly two stay two. -/
def leadingSlashes (p : Str) : Str :=
  if startswith p "//".toList ∧ ¬ startswith p "///".toList then "//".toList
  else if startswith p "/".toList then "/".toList
  else []

/-- `os.path.normpath(p)`. -/
def normpath (p : Str) : Str :=
  let slashes := leadingSlashes p
  let path := slashes ++ joinSlash ((p.splitOn '/').foldl (normStep !slashes.isEmpty) [])
  if path = [] then ['.'] else path

/-- `os.path.join(a, b)`. -/
def joinText (a b : Str) : Str :=
  if startswith b ['/'] then b
  else if a = [] ∨ endswith a ['/'] then a ++ b
  else a ++ '/' :: b

/-- The working directory. -/
structure WorkDir where
  parts : Path
  plain : ∀ c ∈ parts, IsPlain c

/-- `os.getcwd()`. -/
def WorkDir.text (cwd : WorkDir) : Str := '/' :: joinSlash cwd.parts

/-- `os.path.abspath(p)`. -/
def abspath (cwd : WorkDir) (p : Str) : Str :=
  normpath (if startswith p ['/'] then p else joinText cwd.text p)

/-- `[x for x in s.split('/') if x]`. -/
def nonemptyParts (s : Str) : List Str := (s.splitOn '/').filter fun c => c ≠ []

/-- The place a path names, from the root. -/
def absParts (cwd : WorkDir) (p : Str) : Path := nonemptyParts (abspath cwd p)

/-- The length of the longest common prefix. -/
def commonLength : List Str → List Str → Nat
  | a :: as, b :: bs => if a = b then commonLength as bs + 1 else 0
  | _, _ => 0

/-- `os.path.relpath(p)`; the empty text is an error. Both paths are made absolute first, and the
part they share is replaced by as many `..` as lead up to it. -/
def relpath (cwd : WorkDir) (p : Str) : Option Str :=
  if p = [] then none
  else
    let start := absParts cwd ['.']
    let path := absParts cwd p
    let i := commonLength start path
    let rel := List.replicate (start.length - i) dotdot ++ path.drop i
    some (if rel = [] then ['.'] else joinSlash rel)

/-- `os.path.expanduser(p)`. `home` gives the home directory of a user, for the empty name that of
the user who runs the program. -/
def expanduser (home : Str → Option Str) (p : Str) : Str :=
  if startswith p ['~'] then
    let rest := (p.drop 1).dropWhile (· != '/')
    match home ((p.drop 1).takeWhile (· != '/')) with
    | some dir => pyOr (dir.rdropWhile (· == '/') ++ rest) ['/']
    | none => p
  else p

theorem expanduser_eq_nil {home : Str → Option Str} {p : Str} : expanduser home p = [] ↔ p = [] := by
  have hor : ∀ a, pyOr a ['/'] ≠ [] := by
    intro a
    unfold pyOr
    split_ifs with ha
    · simp
    · exact ha
  unfold expanduser
  split_ifs with htilde
  · have hp : p ≠ [] := by
      rintro rfl
      cases htilde
    refine iff_of_false (fun h => ?_) hp
    split at h
    · exact hor _ h
    · exact hp h
  · rfl

/-! ### The stack of names -/

/-- Names that normalising leaves alone. -/
def IsName (c : Str) : Prop := c ≠ [] ∧ c ≠ ['.'] ∧ c ≠ dotdot ∧ '/' ∉ c

instance (c : Str) : Decidable (IsName c) := inferInstanceAs (Decidable (_ ∧ _))

theorem IsPlain.isName {c : Str} (h : IsPlain c) : IsName c := ⟨h.1, h.2.1, h.2.2.1, h.2.2.2.1⟩

theorem normStep_name {stack : List Str} {c : Str} (hc : IsName c) :
    normStep true stack c = stack ++ [c] := by
  obtain ⟨h0, h1, h2, -⟩ := hc
  rw [normStep, if_neg (by simp [h0, h1]), if_pos (.inl h2)]

theorem foldl_normStep_names {stack names : List Str} (h : ∀ c ∈ names, IsName c) :
    names.foldl (normStep true) stack = stack ++ names := by
  induction names generalizing stack with
  | nil => simp
  | cons c names ih =>
      rw [List.foldl_cons, normStep_name (h c List.mem_cons_self),
        ih fun d hd => h d (.tail c hd), List.append_assoc]
      rfl

theorem normStep_dotdot {stack : List Str} (h : ∀ c ∈ stack, IsName c) :
    normStep true stack dotdot = stack.dropLast := by
  rw [normStep, if_neg (by decide), if_neg]
  rintro (hne | hroot | hlast)
  · exact hne rfl
  · cases hroot.1
  · exact (h dotdot (List.mem_of_getLast? hlast)).2.2.1 rfl

theorem foldl_normStep_dotdot {stack : List Str} (h : ∀ c ∈ stack, IsName c) (k : Nat) :
    (List.replicate k dotdot).foldl (normStep true) stack = stack.take (stack.length - k) := by
  induction k generalizing stack with
  | zero => simp
  | succ k ih =>
      rw [List.replicate_succ, List.foldl_cons, normStep_dotdot h,
        ih fun c hc => h c (List.mem_of_mem_dropLast hc), List.length_dropLast,
        List.dropLast_eq_take, List.take_take]
      congr 1
      omega

/-- The stack consists of names: an empty component and `.` are passed over, `..` takes the top off,
and anything else is a name. -/
theorem isName_foldl_normStep {stack cs : List Str} (hstack : ∀ c ∈ stack, IsName c)
    (hcs : ∀ c ∈ cs, '/' ∉ c) : ∀ c ∈ cs.foldl (normStep true) stack, IsName c := by
  induction cs generalizing stack with
  | nil => exact hstack
  | cons c cs ih =>
      refine ih ?_ fun d hd => hcs d (.tail c hd)
      by_cases hskip : c = [] ∨ c = ['.']
      · rw [normStep, if_pos hskip]
        exact hstack
      · by_cases hup : c = dotdot
        · rw [hup, normStep_dotdot hstack]
          exact fun d hd => hstack d (List.mem_of_mem_dropLast hd)
        · have hname : IsName c :=
            ⟨fun h => hskip (.inl h), fun h => hskip (.inr h), hup, hcs c List.mem_cons_self⟩
          rw [normStep_name hname]
          exact List.forall_mem_append.mpr ⟨hstack, List.forall_mem_singleton.mpr hname⟩

/-- Normalising makes no names up: a step pushes the component it is at or pushes nothing. -/
theorem mem_foldl_normStep {stack cs : List Str} {x : Str}
    (h : x ∈ cs.foldl (normStep true) stack) : x ∈ stack ∨ x ∈ cs := by
  induction cs generalizing stack with
  | nil => exact .inl h
  | cons c cs ih =>
      rcases ih h with hx | hx
      · unfold normStep at hx
        split_ifs at hx
        · exact .inl hx
        · rcases List.mem_append.mp hx with hx | hx
          · exact .inl hx
          · exact .inr (List.mem_singleton.mp hx ▸ List.mem_cons_self)
        · exact .inl (List.mem_of_mem_dropLast hx)
      · exact .inr (.tail c hx)

/-! ### Components and texts -/

theorem splitOn_joinSlash {parts : List Str} (h : ∀ c ∈ parts, '/' ∉ c) (hne : parts ≠ []) :
    (joinSlash parts).splitOn '/' = parts :=
  List.splitOn_intercalate '/' (fun c hc => h c hc) hne

theorem splitOn_slash (t : Str) : ('/' :: t).splitOn '/' = [] :: t.splitOn '/' := by
  rw [← List.nil_append ('/' :: t), List.splitOn_append_cons_self]
  rfl

theorem nonemptyParts_slash (t : Str) : nonemptyParts ('/' :: t) = nonemptyParts t := by
  simp [nonemptyParts, splitOn_slash]

theorem nonemptyParts_joinSlash {names : List Str} (h : ∀ c ∈ names, IsName c) :
    nonemptyParts (joinSlash names) = names := by
  by_cases hne : names = []
  · subst hne
    rfl
  · rw [nonemptyParts, splitOn_joinSlash (fun c hc => (h c hc).2.2.2) hne, List.filter_eq_self]
    exact fun c hc => by simpa using (h c hc).1

theorem splitOn_text (cwd : WorkDir) (hne : cwd.parts ≠ []) :
    cwd.text.splitOn '/' = [] :: cwd.parts := by
  rw [WorkDir.text, splitOn_slash,
    splitOn_joinSlash (fun c hc => (cwd.plain c hc).isName.2.2.2) hne]

/-- A path of names ends in a slash only at the root. -/
theorem not_endswith_rooted {names : List Str} (h : ∀ c ∈ names, IsName c) (hne : names ≠ []) :
    endswith ('/' :: joinSlash names) ['/'] = false := by
  by_contra hend
  obtain ⟨t, ht⟩ := List.isSuffixOf_iff_suffix.mp (Bool.not_eq_false _ ▸ hend)
  have hsplit : ('/' :: joinSlash names).splitOn '/' = [] :: names := by
    rw [splitOn_slash, splitOn_joinSlash (fun c hc => (h c hc).2.2.2) hne]
  rw [← ht, List.splitOn_append_cons_self] at hsplit
  have hlast := congrArg List.getLast? hsplit
  rw [List.getLast?_append_of_ne_nil _ (by simp), List.getLast?_cons_of_ne_nil hne] at hlast
  exact (h _ (List.mem_of_getLast? hlast.symm)).1 rfl

theorem not_endswith_text (cwd : WorkDir) (hne : cwd.parts ≠ []) : endswith cwd.text ['/'] = false :=
  not_endswith_rooted (fun c hc => (cwd.plain c hc).isName) hne

/-! ### The place a path names -/

theorem leadingSlashes_of_rooted {p : Str} (h : startswith p ['/'] = true) :
    leadingSlashes p = "/".toList ∨ leadingSlashes p = "//".toList := by
  unfold leadingSlashes
  split_ifs with h2 h1
  · exact .inr rfl
  · exact .inl rfl
  · exact absurd h h1

theorem normpath_of_rooted {p : Str} (h : startswith p ['/'] = true) :
    normpath p = '/' :: joinSlash ((p.splitOn '/').foldl (normStep true) []) ∨
      normpath p = '/' :: '/' :: joinSlash ((p.splitOn '/').foldl (normStep true) []) := by
  rcases leadingSlashes_of_rooted h with hs | hs
  · exact .inl (by simp [normpath, hs])
  · exact .inr (by simp [normpath, hs])

theorem nonemptyParts_normpath {p : Str} (h : startswith p ['/'] = true) :
    nonemptyParts (normpath p) = (p.splitOn '/').foldl (normStep true) [] := by
  have hnames : ∀ c ∈ (p.splitOn '/').foldl (normStep true) [], IsName c :=
    isName_foldl_normStep (fun c hc => absurd hc List.not_mem_nil)
      fun c hc => not_mem_of_mem_splitOn hc
  rcases normpath_of_rooted h with hpath | hpath
  · rw [hpath, nonemptyParts_slash, nonemptyParts_joinSlash hnames]
  · rw [hpath, nonemptyParts_slash, nonemptyParts_slash, nonemptyParts_joinSlash hnames]

/-- The components are gone through from the root or from the working directory: joining the two
texts and normalising the result amounts to starting with the stack of the working directory. -/
theorem absParts_eq (cwd : WorkDir) (p : Str) : absParts cwd p =
    (p.splitOn '/').foldl (normStep true) (if startswith p ['/'] then [] else cwd.parts) := by
  rw [absParts, abspath]
  split_ifs with habs
  · exact nonemptyParts_normpath habs
  · have hskip : normStep true [] [] = [] := rfl
    rw [joinText, if_neg habs]
    by_cases hne : cwd.parts = []
    · have htext : cwd.text = ['/'] := by rw [WorkDir.text, hne]; rfl
      rw [htext, if_pos (.inr rfl), hne, nonemptyParts_normpath rfl]
      show (('/' :: p).splitOn '/').foldl _ _ = _
      rw [splitOn_slash, List.foldl_cons, hskip]
    · have hjoin : ¬(cwd.text = [] ∨ endswith cwd.text ['/'] = true) := by
        rw [not_endswith_text cwd hne]
        simp [WorkDir.text]
      rw [if_neg hjoin, nonemptyParts_normpath rfl,
        List.splitOn_append_cons_self, splitOn_text cwd hne, List.foldl_append, List.foldl_cons, hskip,
        foldl_normStep_names fun c hc => (cwd.plain c hc).isName]
      rfl

/-- The place a path names, if it is read in a directory. -/
def placeFrom (here : Path) (p : Str) : Path :=
  (p.splitOn '/').foldl (normStep true) (if startswith p ['/'] then [] else here)

theorem absParts_eq_placeFrom (cwd : WorkDir) (p : Str) : absParts cwd p = placeFrom cwd.parts p :=
  absParts_eq cwd p

theorem joinText_cases {a b : Str} (hb : ¬ startswith b ['/'] = true) :
    (a = [] ∧ joinText a b = b) ∨ (∃ a', a = a' ++ ['/'] ∧ joinText a b = a' ++ '/' :: b) ∨
      (a ≠ [] ∧ joinText a b = a ++ '/' :: b) := by
  rw [joinText, if_neg hb]
  split_ifs with hend
  · rcases hend with rfl | hslash
    · exact .inl ⟨rfl, rfl⟩
    · obtain ⟨a', rfl⟩ := List.isSuffixOf_iff_suffix.mp hslash
      exact .inr (.inl ⟨a', rfl, by simp⟩)
  · exact .inr (.inr ⟨fun ha => hend (.inl ha), rfl⟩)

theorem startswith_joinText {a b : Str} (hb : ¬ startswith b ['/'] = true) :
    startswith (joinText a b) ['/'] = startswith a ['/'] := by
  rcases joinText_cases (a := a) hb with ⟨rfl, h⟩ | ⟨a', rfl, h⟩ | ⟨hne, h⟩
  · rw [h, Bool.eq_false_iff.mpr hb]
    rfl
  · rw [h]
    cases a' <;> simp [startswith, List.isPrefixOf]
  · rw [h]
    obtain ⟨c, a', rfl⟩ := List.exists_cons_of_ne_nil hne
    simp [startswith, List.isPrefixOf]

/-- A joined path is the second one, read in the place of the first. -/
theorem absParts_joinText (cwd : WorkDir) {a b : Str} (hb : ¬ startswith b ['/'] = true) :
    absParts cwd (joinText a b) = placeFrom (absParts cwd a) b := by
  rw [absParts_eq, startswith_joinText hb, placeFrom, if_neg hb, absParts_eq]
  rcases joinText_cases (a := a) hb with ⟨rfl, h⟩ | ⟨a', rfl, h⟩ | ⟨-, h⟩
  · rw [h]
    rfl
  · -- the slash at the end of the first path is an empty component
    have hempty : ∀ stack, normStep true stack [] = stack := fun _ => rfl
    rw [h, List.splitOn_append_cons_self, List.splitOn_append_cons_self, List.foldl_append,
      List.foldl_append]
    simp [hempty]
  · rw [h, List.splitOn_append_cons_self, List.foldl_append]

theorem isName_absParts (cwd : WorkDir) (p : Str) : ∀ c ∈ absParts cwd p, IsName c := by
  rw [absParts_eq]
  refine isName_foldl_normStep ?_ fun c hc => not_mem_of_mem_splitOn hc
  split_ifs
  · exact fun c hc => absurd hc List.not_mem_nil
  · exact fun c hc => (cwd.plain c hc).isName

theorem foldl_normStep_filter (stack cs : List Str) :
    cs.foldl (normStep true) stack = (cs.filter fun c => c ≠ []).foldl (normStep true) stack := by
  induction cs generalizing stack with
  | nil => rfl
  | cons c cs ih =>
      by_cases hc : c = []
      · subst hc
        rw [List.filter_cons_of_neg (by simp), List.foldl_cons, ih]
        rfl
      · rw [List.filter_cons_of_pos (by simpa using hc), List.foldl_cons, List.foldl_cons, ih]

theorem abspath_eq (cwd : WorkDir) (p : Str) :
    abspath cwd p = '/' :: joinSlash (absParts cwd p) ∨
      abspath cwd p = '/' :: '/' :: joinSlash (absParts cwd p) := by
  rw [absParts, abspath]
  generalize hq : (if startswith p ['/'] then p else joinText cwd.text p) = q
  have hrooted : startswith q ['/'] = true := by
    rw [← hq]
    split_ifs with habs
    · exact habs
    · exact startswith_joinText habs
  rw [nonemptyParts_normpath hrooted]
  exact normpath_of_rooted hrooted

theorem startswith_abspath (cwd : WorkDir) (p : Str) : startswith (abspath cwd p) ['/'] = true := by
  rcases abspath_eq cwd p with h | h
  · rw [h]
    rfl
  · rw [h]
    rfl

theorem absParts_abspath (cwd : WorkDir) (p : Str) : absParts cwd (abspath cwd p) = absParts cwd p := by
  rw [absParts_eq, if_pos (startswith_abspath cwd p), foldl_normStep_filter]
  show (absParts cwd p).foldl (normStep true) [] = _
  rw [foldl_normStep_names (isName_absParts cwd p), List.nil_append]

theorem commonLength_take (a b : List Str) : a.take (commonLength a b) = b.take (commonLength a b) := by
  induction a generalizing b with
  | nil => simp [commonLength]
  | cons x a ih =>
      cases b with
      | nil => simp [commonLength]
      | cons y b =>
          rw [commonLength]
          split_ifs with hxy
          · rw [List.take_succ_cons, List.take_succ_cons, hxy, ih]
          · simp

theorem commonLength_le (a b : List Str) : commonLength a b ≤ a.length := by
  induction a generalizing b with
  | nil => simp [commonLength]
  | cons x a ih =>
      cases b with
      | nil => simp [commonLength]
      | cons y b =>
          rw [commonLength]
          split_ifs
          · exact Nat.succ_le_succ (ih b)
          · exact Nat.zero_le _

theorem absParts_dot (cwd : WorkDir) : absParts cwd ['.'] = cwd.parts := by
  rw [absParts_eq]
  rfl

/-- Up from the working directory to the common part, then down. -/
theorem foldl_relative {cwd path : List Str} (hcwd : ∀ c ∈ cwd, IsName c)
    (hpath : ∀ c ∈ path, IsName c) :
    (List.replicate (cwd.length - commonLength cwd path) dotdot ++
      path.drop (commonLength cwd path)).foldl (normStep true) cwd = path := by
  have hle := commonLength_le cwd path
  rw [List.foldl_append, foldl_normStep_dotdot hcwd,
    foldl_normStep_names fun c hc => hpath c (List.mem_of_mem_drop hc), Nat.sub_sub_self hle,
    commonLength_take, List.take_append_drop]

/-- The components `relpath` writes. -/
def relParts (cwd : WorkDir) (path : Path) : List Str :=
  List.replicate (cwd.parts.length - commonLength cwd.parts path) dotdot ++
    path.drop (commonLength cwd.parts path)

/-- `relpath` writes these components down, and a dot for none. -/
theorem of_relpath {cwd : WorkDir} {p rel : Str} (h : relpath cwd p = some rel) :
    (relParts cwd (absParts cwd p) = [] ∧ rel = ['.']) ∨
      (relParts cwd (absParts cwd p) ≠ [] ∧ rel = joinSlash (relParts cwd (absParts cwd p))) := by
  simp only [relpath, absParts_dot, Option.ite_none_left_eq_some, Option.some.injEq] at h
  obtain ⟨-, rfl⟩ := h
  split_ifs with hempty
  · exact .inl ⟨hempty, rfl⟩
  · exact .inr ⟨hempty, rfl⟩

theorem of_mem_relParts {cwd : WorkDir} {path : Path} (hpath : ∀ c ∈ path, IsName c) {c : Str}
    (hc : c ∈ relParts cwd path) : c ≠ [] ∧ c ≠ ['.'] ∧ '/' ∉ c := by
  rcases List.mem_append.mp hc with hc | hc
  · rw [List.eq_of_mem_replicate hc]
    decide
  · have hname := hpath c (List.mem_of_mem_drop hc)
    exact ⟨hname.1, hname.2.1, hname.2.2.2⟩

/-- A text of such components does not begin with a slash: the first one would be empty. -/
theorem not_startswith_joinSlash {parts : List Str} (hparts : ∀ c ∈ parts, c ≠ [] ∧ '/' ∉ c)
    (hne : parts ≠ []) : ¬ startswith (joinSlash parts) ['/'] = true := by
  intro hslash
  have hsplit := splitOn_joinSlash (fun c hc => (hparts c hc).2) hne
  obtain ⟨t, ht⟩ := List.isPrefixOf_iff_prefix.mp hslash
  rw [← ht, List.singleton_append, splitOn_slash] at hsplit
  exact (hparts [] (hsplit ▸ List.mem_cons_self)).1 rfl

theorem relpath_ne_nil {cwd : WorkDir} {p rel : Str} (h : relpath cwd p = some rel) : rel ≠ [] := by
  rcases of_relpath h with ⟨-, rfl⟩ | ⟨hne, rfl⟩
  · simp
  · have hnames : ∀ c ∈ relParts cwd (absParts cwd p), c ≠ [] ∧ c ≠ ['.'] ∧ '/' ∉ c :=
      fun c hc => of_mem_relParts (isName_absParts cwd p) hc
    intro hnil
    have hsplit := splitOn_joinSlash (fun c hc => (hnames c hc).2.2) hne
    rw [hnil] at hsplit
    exact (hnames [] (hsplit ▸ List.mem_cons_self)).1 rfl

/-- `relpath` writes the place down from the working directory. -/
theorem absParts_relpath {cwd : WorkDir} {p rel : Str} (h : relpath cwd p = some rel) :
    absParts cwd rel = absParts cwd p := by
  have hfold : (relParts cwd (absParts cwd p)).foldl (normStep true) cwd.parts = absParts cwd p :=
    foldl_relative (fun c hc => (cwd.plain c hc).isName) (isName_absParts cwd p)
  have hnames : ∀ c ∈ relParts cwd (absParts cwd p), c ≠ [] ∧ '/' ∉ c := fun c hc =>
    ⟨(of_mem_relParts (isName_absParts cwd p) hc).1, (of_mem_relParts (isName_absParts cwd p) hc).2.2⟩
  rcases of_relpath h with ⟨hempty, rfl⟩ | ⟨hempty, rfl⟩
  · rw [absParts_dot, ← hfold, hempty]
    rfl
  · rw [absParts_eq, if_neg (not_startswith_joinSlash hnames hempty),
      splitOn_joinSlash (fun c hc => (hnames c hc).2) hempty]
    exact hfold

end BlogStuff.Python
