import BlogStuff.Python.Str

/-!
# BlogStuff.Python.Path

`pathlib` paths and what they denote. A path expression is a list of components
(`joinPath`, as the `/` operator builds it); the file system then walks it from
the root (`resolve`), going up at `..` and failing where a component to be
entered is not a directory. There are no symbolic links here, so a resolved path
is again a list of component names.
-/

namespace BlogStuff.Python

/-- A path: component names from the root. Before resolution it may hold `..`. -/
abbrev Path := List Str

/-- The components `pathlib` keeps of a path text: empty ones and `.` are dropped. -/
def pathParts (s : Str) : List Str := (s.splitOn '/').filter fun c => c ≠ [] ∧ c ≠ ['.']

/-- `base / s`: an absolute right operand replaces the left one. -/
def joinPath (base : Path) (s : Str) : Path :=
  if startswith s ['/'] then pathParts s else base ++ pathParts s

/-- `path.stem` of a final component: it is cut at its last dot, unless that dot
is the first or the last character. -/
def stem (name : Str) : Str :=
  let (before, dot, after) := rpartition '.' name
  if dot && !before.isEmpty && !after.isEmpty then before else name

/-- A component that names one file or directory entry. -/
def IsPlain (c : Str) : Prop := c ≠ [] ∧ c ≠ ['.'] ∧ c ≠ ['.', '.'] ∧ '/' ∉ c ∧ '\x00' ∉ c

instance (c : Str) : Decidable (IsPlain c) :=
  inferInstanceAs (Decidable (c ≠ [] ∧ c ≠ ['.'] ∧ c ≠ ['.', '.'] ∧ '/' ∉ c ∧ '\x00' ∉ c))

/-- Walk down from the directory `cur`. A component with a null byte is refused
by the system call, so it denotes nothing. -/
def walk (isDir : Path → Bool) : Path → List Str → Option Path
  | cur, [] => some cur
  | cur, c :: cs =>
      if isDir cur && !c.contains '\x00' then
        walk isDir (if c = ['.', '.'] then cur.dropLast else cur ++ [c]) cs
      else none

/-- The entry an absolute path denotes, if every directory on the way exists. -/
def resolve (isDir : Path → Bool) (p : Path) : Option Path := walk isDir [] p

theorem walk_append (isDir : Path → Bool) (cur p q : Path) :
    walk isDir cur (p ++ q) = (walk isDir cur p).bind fun cur' => walk isDir cur' q := by
  induction p generalizing cur with
  | nil => rfl
  | cons c p ih =>
      rw [List.cons_append, walk, walk]
      split_ifs
      · exact ih _
      · exact ih _
      · rfl

/-- Walking down existing directories by their names arrives where it says. The last name need not
be a directory, since nothing is looked up in it. -/
theorem walk_plain {isDir : Path → Bool} {p : Path} {cur : Path}
    (hplain : ∀ c ∈ p, c ≠ ['.', '.'] ∧ '\x00' ∉ c)
    (hdir : ∀ q, q <+: p → q ≠ p → isDir (cur ++ q) = true) :
    walk isDir cur p = some (cur ++ p) := by
  induction p generalizing cur with
  | nil => simp [walk]
  | cons c p ih =>
      obtain ⟨hdd, hnul⟩ := hplain c (by simp)
      have hcur : isDir cur = true := by
        simpa using hdir [] List.nil_prefix (by simp)
      have hrec : walk isDir (cur ++ [c]) p = some (cur ++ [c] ++ p) := by
        refine ih (fun d hd => hplain d (by simp [hd])) (fun q hq hne => ?_)
        have := hdir (c :: q) (List.cons_prefix_cons.mpr ⟨rfl, hq⟩) (by simpa using hne)
        simpa using this
      rw [walk, hcur]
      simp [hnul, hdd, hrec]

theorem walk_concat {isDir : Path → Bool} {cur p q : Path} {c : Str} (hc : c ≠ ['.', '.'])
    (h : walk isDir cur (p ++ [c]) = some q) : ∃ d, q = d ++ [c] := by
  rw [walk_append, Option.bind_eq_some_iff] at h
  obtain ⟨d, -, hd⟩ := h
  rw [walk, if_neg hc] at hd
  split_ifs at hd
  exact ⟨d, (Option.some.inj hd).symm⟩

/-- A walk through a component with a null byte fails. -/
theorem walk_null {isDir : Path → Bool} {cur p : Path} {c : Str} (hmem : c ∈ p)
    (hc : '\x00' ∈ c) : walk isDir cur p = none := by
  induction p generalizing cur with
  | nil => simp at hmem
  | cons d p ih =>
      rw [walk]
      rcases List.mem_cons.mp hmem with rfl | hmem
      · simp [hc]
      · split_ifs
        · exact ih hmem
        · exact ih hmem
        · rfl

/-! ### Components of a path text -/

theorem not_mem_of_mem_splitOn {c : Char} {s l : Str} (h : l ∈ s.splitOn c) : c ∉ l := by
  induction s generalizing l with
  | nil =>
      obtain rfl : l = [] := by simpa using h
      simp
  | cons d s ih =>
      rw [List.splitOn_cons_eq_if_modifyHead] at h
      split_ifs at h with hd
      · rcases List.mem_cons.mp h with rfl | h
        · simp
        · exact ih h
      · cases hs : s.splitOn c with
        | nil => exact absurd hs (List.splitOn_ne_nil c s)
        | cons m ms =>
            rw [hs, List.modifyHead_cons] at h
            rcases List.mem_cons.mp h with rfl | h
            · have hm : c ∉ m := ih (by simp [hs])
              have hne : c ≠ d := fun e => hd (by simp [e])
              simp [hne, hm]
            · exact ih (by simp [hs, h])

theorem mem_of_mem_splitOn {c d : Char} {s l : Str} (h : l ∈ s.splitOn c) (hd : d ∈ l) : d ∈ s := by
  have hinfix := infix_intercalate [c] h
  rw [List.intercalate_splitOn] at hinfix
  exact hinfix.subset hd

theorem not_mem_of_mem_pathParts {s c : Str} (h : c ∈ pathParts s) : '/' ∉ c :=
  not_mem_of_mem_splitOn (List.mem_of_mem_filter h)

theorem pathParts_of_not_mem {s : Str} (h : '/' ∉ s) (h0 : s ≠ []) (h1 : s ≠ ['.']) :
    pathParts s = [s] := by
  simp [pathParts, List.splitOn_eq_singleton h, h0, h1]

theorem pathParts_append_slash {a b : Str} (hb : '/' ∉ b) (h0 : b ≠ []) (h1 : b ≠ ['.']) :
    pathParts (a ++ '/' :: b) = pathParts a ++ [b] := by
  simp [pathParts, List.splitOn_append_cons_self, List.splitOn_eq_singleton hb, h0, h1]

end BlogStuff.Python
