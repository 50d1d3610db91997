import BlogStuff.Python.Regex

/-!
# BlogStuff.Shell.Grep

The text tools a shell script pipes together to find something in a file: `grep -o`,
`grep -m1`, `cut -d -f` and the command substitution that captures their output.

`grep -o` prints the matches of a line from left to right, each as long as possible and
none overlapping the one before. The scan moves along the line one character at a time
and remembers how many characters still belong to the last match.
-/

namespace BlogStuff.Shell

open BlogStuff.Python

/-! ### The tools -/

/-- The lines of a text file; the newline at its end starts no line. -/
def fileLines (text : Str) : List Str :=
  let ls := text.splitOn '\n'
  if ls.getLast? = some [] then ls.dropLast else ls

/-- The match of a pattern at the front of a text. -/
def front (r : Regex) (s : Str) : Option Str :=
  (r.matchAt s).map fun m => s.take (s.length - m.1.length)

/-- The matches from here on, the next `skip` characters being part of the last one. `grep -o` looks
for the next match behind the end of the last. -/
def scan (r : Regex) : (skip : Nat) → Str → List Str
  | _, [] => []
  | skip + 1, _ :: s => scan r skip s
  | 0, c :: s =>
      match front r (c :: s) with
      | some m => m :: scan r (m.length - 1) s
      | none => scan r 0 s

/-- `grep -o` on one line. -/
def onlyMatching (r : Regex) (line : Str) : List Str := scan r 0 line

/-- `grep -m1 -o`: the matches of the first line that has any. -/
def firstMatching (r : Regex) (lines : List Str) : List Str :=
  ((lines.map (onlyMatching r)).find? (· ≠ [])).getD []

/-- `cut -d d -f n` on one line; a line without the delimiter is passed through. -/
def cutField (d : Char) (n : Nat) (line : Str) : Str :=
  if line.contains d then (line.splitOn d).getD (n - 1) [] else line

/-- `$(..)`: the lines of the output without the newlines at its end. -/
def captured (lines : List Str) : Str :=
  (lines.flatMap (· ++ ['\n'])).rdropWhile (· == '\n')

/-! ### Lines -/

/-- The lines of a file written line by line; a text with newlines makes several. -/
theorem fileLines_flatMap (ls : List Str) :
    fileLines (ls.flatMap (· ++ ['\n'])) = ls.flatMap (List.splitOn '\n') := by
  have hsplit : (ls.flatMap (· ++ ['\n'])).splitOn '\n' = ls.flatMap (List.splitOn '\n') ++ [[]] := by
    induction ls with
    | nil => rfl
    | cons l ls ih =>
        rw [List.flatMap_cons, List.append_assoc, List.singleton_append,
          List.splitOn_append_cons_self, ih, List.flatMap_cons, List.append_assoc]
  rw [fileLines, hsplit]
  simp

theorem captured_concat {t : Str} (ht : '\n' ∉ t) (hne : t ≠ []) (ts : List Str) :
    captured (ts ++ [t]) = ts.flatMap (· ++ ['\n']) ++ t := by
  obtain ⟨t', c, rfl⟩ := List.eq_nil_or_concat' t |>.resolve_left hne
  have hc : c ≠ '\n' := by
    rintro rfl
    simp at ht
  rw [captured, List.flatMap_append, List.flatMap_singleton, ← List.append_assoc,
    List.rdropWhile_concat_pos _ _ _ (by simp), ← List.append_assoc,
    List.rdropWhile_concat_neg _ _ _ (by simpa using hc)]

/-- One captured line is one line of output. Two or more lines keep a newline between them, which
only the end of the output loses. -/
theorem captured_eq_iff {ts : List Str} {t : Str} (h : ∀ u ∈ ts, '\n' ∉ u ∧ u ≠ [])
    (hne : ts ≠ []) (ht : '\n' ∉ t) : captured ts = t ↔ ts = [t] := by
  obtain ⟨us, u, rfl⟩ := List.eq_nil_or_concat' ts |>.resolve_left hne
  obtain ⟨hu, hu0⟩ := h u (by simp)
  rw [captured_concat hu hu0]
  constructor
  · rintro rfl
    have hnil : us = [] := by
      cases us with
      | nil => rfl
      | cons x us => simp at ht
    rw [hnil]
    rfl
  · intro hus
    cases us with
    | nil => simpa using hus
    | cons x us => simp at hus

/-! ### Scanning -/

section

variable {r : Regex}

theorem scan_skip (a s : Str) : scan r a.length (a ++ s) = scan r 0 s := by
  induction a with
  | nil => rfl
  | cons c a ih => rw [List.cons_append, List.length_cons, scan, ih]

theorem scan_cons_of_none {c : Char} {s : Str} (h : front r (c :: s) = none) :
    scan r 0 (c :: s) = scan r 0 s := by
  rw [scan, h]

/-- A match is printed, and the scan goes on behind it. -/
theorem scan_cons_of_some {c : Char} {m s : Str} (h : front r (c :: m ++ s) = some (c :: m)) :
    scan r 0 (c :: m ++ s) = (c :: m) :: scan r 0 s := by
  rw [List.cons_append] at h ⊢
  rw [scan, h]
  simp only [List.length_cons, Nat.add_sub_cancel]
  rw [scan_skip]

/-- Nothing is printed exactly when no place matches. By induction on the text: before the first
match the scan looks at every place. -/
theorem onlyMatching_eq_nil_iff {s : Str} :
    onlyMatching r s = [] ↔ ∀ a c b, s = a ++ c :: b → front r (c :: b) = none := by
  unfold onlyMatching
  induction s with
  | nil => simp [scan]
  | cons d s ih =>
      cases hd : front r (d :: s) with
      | some m =>
          rw [scan, hd]
          simp only [reduceCtorEq, false_iff, not_forall]
          exact ⟨[], d, s, rfl, by simp [hd]⟩
      | none =>
          rw [scan_cons_of_none hd, ih]
          constructor
          · intro h a c b hs
            cases a with
            | nil =>
                obtain ⟨rfl, rfl⟩ := List.cons.inj hs
                exact hd
            | cons e a => exact h a c b (List.cons.inj hs).2
          · intro h a c b hs
            exact h (d :: a) c b (by rw [hs, List.cons_append])

theorem find?_matches_eq_none {lines : List Str} (h : ∀ k ∈ lines, onlyMatching r k = []) :
    (lines.map (onlyMatching r)).find? (· ≠ []) = none := by
  rw [List.find?_eq_none]
  intro ms hms
  obtain ⟨k, hk, rfl⟩ := List.mem_map.mp hms
  simp [h k hk]

theorem firstMatching_append {before behind : List Str} {l : Str}
    (hbefore : ∀ k ∈ before, onlyMatching r k = []) (hl : onlyMatching r l ≠ []) :
    firstMatching r (before ++ l :: behind) = onlyMatching r l := by
  rw [firstMatching, List.map_append, List.find?_append, find?_matches_eq_none hbefore,
    Option.none_or, List.map_cons, List.find?_cons_of_pos (by simpa using hl), Option.getD_some]

theorem firstMatching_drop {before mid : List Str} (hmid : ∀ k ∈ mid, onlyMatching r k = [])
    (behind : List Str) :
    firstMatching r (before ++ mid ++ behind) = firstMatching r (before ++ behind) := by
  simp only [firstMatching, List.map_append, List.find?_append, find?_matches_eq_none hmid,
    Option.or_none]

theorem firstMatching_eq_nil {lines : List Str} (h : ∀ k ∈ lines, onlyMatching r k = []) :
    firstMatching r lines = [] := by
  rw [firstMatching, find?_matches_eq_none h, Option.getD_none]

theorem exists_first_match {lines : List Str} (h : ∃ k ∈ lines, onlyMatching r k ≠ []) :
    ∃ before l behind, lines = before ++ l :: behind ∧
      (∀ k ∈ before, onlyMatching r k = []) ∧ onlyMatching r l ≠ [] := by
  have hsome : (lines.find? fun k => onlyMatching r k ≠ []).isSome := by
    obtain ⟨k, hk, hmatch⟩ := h
    exact List.find?_isSome.mpr ⟨k, hk, by simpa using hmatch⟩
  obtain ⟨l, hl⟩ := Option.isSome_iff_exists.mp hsome
  obtain ⟨hmatch, before, behind, rfl, hbefore⟩ := List.find?_eq_some_iff_append.mp hl
  exact ⟨before, l, behind, rfl, fun k hk => by simpa using hbefore k hk, by simpa using hmatch⟩

end

/-! ### A literal followed by a run of a class -/

section

variable {t s : Str} {p : Char → Bool}

/-- The pattern `t[p]+`. -/
def litRun (t : Str) (p : Char → Bool) : Regex := .seq (.lit t) (.many1 p)

/-- The longest match takes the whole run of the class. -/
theorem front_litRun_append {c : Char} (hc : p c = true) :
    front (litRun t p) (t ++ c :: s) = some (t ++ c :: s.takeWhile p) := by
  have hmatch : (litRun t p).matchAt (t ++ c :: s) = some (s.dropWhile p, []) := by
    unfold Regex.matchAt litRun
    rw [Regex.run, Regex.run_lit_append, Regex.many1, Regex.run, Regex.run, if_pos hc, Regex.run]
    exact Regex.runMany_of_isSome rfl
  have hcut : t ++ c :: s = (t ++ c :: s.takeWhile p) ++ s.dropWhile p := by
    rw [List.append_assoc, List.cons_append, List.takeWhile_append_dropWhile]
  rw [front, hmatch, Option.map_some, Option.some_inj]
  conv_lhs => rw [hcut]
  rw [List.length_append, Nat.add_sub_cancel, List.take_left']
  rfl

/-- There is a match at the front exactly if the literal stands there with a character of
the class behind it. -/
theorem front_litRun_isSome :
    (front (litRun t p) s).isSome ↔ ∃ c b, s = t ++ c :: b ∧ p c = true := by
  rw [front, Option.isSome_map, Regex.matchAt, litRun, Regex.run, Regex.run_lit_isSome]
  constructor
  · intro h
    obtain ⟨b, rfl, h⟩ := h
    rw [Regex.many1, Regex.run, Regex.run_chr_isSome] at h
    obtain ⟨c, b, rfl, hc, -⟩ := h
    exact ⟨c, b, rfl, hc⟩
  · intro h
    obtain ⟨c, b, rfl, hc⟩ := h
    refine ⟨c :: b, rfl, ?_⟩
    rw [Regex.many1, Regex.run, Regex.run_chr_isSome]
    refine ⟨c, b, rfl, hc, ?_⟩
    rw [Regex.run, Regex.runMany_isSome]
    exact ⟨[], b, rfl, by simp, rfl⟩

/-- Every printed match is the literal and a run of the class. The places that a match has covered
are skipped, so the induction is over any number of them. -/
theorem mem_scan_litRun {skip : Nat} {m : Str}
    (h : m ∈ scan (litRun t p) skip s) :
    ∃ run, m = t ++ run ∧ run ≠ [] ∧ ∀ c ∈ run, p c = true := by
  induction s generalizing skip with
  | nil => cases skip <;> simp [scan] at h
  | cons c s ih =>
      cases skip with
      | succ skip => exact ih h
      | zero =>
          cases hfront : front (litRun t p) (c :: s) with
          | none =>
              rw [scan_cons_of_none hfront] at h
              exact ih h
          | some m' =>
              rw [scan, hfront] at h
              rcases List.mem_cons.mp h with rfl | h
              · obtain ⟨d, b, hs, hd⟩ := front_litRun_isSome.mp (by rw [hfront]; rfl)
                rw [hs, front_litRun_append hd] at hfront
                refine ⟨d :: b.takeWhile p, (Option.some.inj hfront).symm, by simp, ?_⟩
                intro e he
                rcases List.mem_cons.mp he with rfl | he
                · exact hd
                · exact List.mem_takeWhile_imp he
              · exact ih h

/-- The text holds the literal with a character of the class behind it. -/
def HoldsRun (t : Str) (p : Char → Bool) (s : Str) : Prop :=
  ∃ a c b, s = a ++ (t ++ c :: b) ∧ p c = true

theorem onlyMatching_litRun_eq_nil_iff (ht : t ≠ []) :
    onlyMatching (litRun t p) s = [] ↔ ¬ HoldsRun t p s := by
  rw [onlyMatching_eq_nil_iff]
  constructor
  · intro h hold
    obtain ⟨a, c, b, rfl, hc⟩ := hold
    obtain ⟨d, t', rfl⟩ := List.exists_cons_of_ne_nil ht
    have hnone := h a d (t' ++ c :: b) rfl
    have hsome : (front (litRun (d :: t') p) (d :: (t' ++ c :: b))).isSome :=
      front_litRun_isSome.mpr ⟨c, b, rfl, hc⟩
    rw [hnone] at hsome
    cases hsome
  · intro h a c b hs
    by_contra hfront
    obtain ⟨c', b', hcb, hc⟩ := front_litRun_isSome.mp (Option.isSome_iff_ne_none.mpr hfront)
    exact h ⟨a, c', b', by rw [hs, hcb], hc⟩

theorem scan_litRun_append {d : Char} {a : Str} (ha : d ∉ a) (s : Str) :
    scan (litRun (d :: t) p) 0 (a ++ s) = scan (litRun (d :: t) p) 0 s := by
  induction a with
  | nil => rfl
  | cons c a ih =>
      have hc : d ≠ c := List.ne_of_not_mem_cons ha
      have hnone : front (litRun (d :: t) p) (c :: (a ++ s)) = none := by
        by_contra h
        obtain ⟨e, b, he, -⟩ := front_litRun_isSome.mp (Option.isSome_iff_ne_none.mpr h)
        exact hc (List.cons.inj he).1.symm
      rw [List.cons_append, scan_cons_of_none hnone, ih (List.not_mem_of_not_mem_cons ha)]

/-- The only place that matches, in a line that is otherwise free of the literal's first
character. -/
theorem onlyMatching_litRun_single {d : Char} {lit pre m post : Str} (hlit : lit = pre ++ t)
    (ht : t.head? = some d) (hpre : d ∉ pre) (hpost : d ∉ post) (hne : m ≠ [])
    (hm : ∀ c ∈ m, p c = true) (hstop : ∀ c ∈ post.head?, p c = false) :
    onlyMatching (litRun t p) (lit ++ m ++ post) = [t ++ m] := by
  obtain ⟨c, m, rfl⟩ := List.exists_cons_of_ne_nil hne
  obtain ⟨t, rfl⟩ : ∃ t', t = d :: t' := List.head?_eq_some_iff.mp ht
  have hrun : (m ++ post).takeWhile p = m := by
    rw [List.takeWhile_append_of_pos (fun e he => hm e (by simp [he]))]
    cases post with
    | nil => simp
    | cons e post => rw [List.takeWhile_cons_of_neg (by simp [hstop e rfl]), List.append_nil]
  have hfront : front (litRun (d :: t) p) (d :: (t ++ c :: m) ++ post) =
      some (d :: (t ++ c :: m)) := by
    have h := front_litRun_append (t := d :: t) (s := m ++ post) (hm c (by simp))
    rw [hrun] at h
    simpa using h
  have hrest : scan (litRun (d :: t) p) 0 post = [] := by
    have h := scan_litRun_append (t := t) (p := p) hpost []
    rw [List.append_nil] at h
    exact h
  have hline : lit ++ c :: m ++ post = pre ++ (d :: (t ++ c :: m) ++ post) := by
    rw [hlit]
    simp
  rw [hline, onlyMatching, scan_litRun_append hpre, scan_cons_of_some hfront, hrest]
  rfl

end

end BlogStuff.Shell
