import BlogStuff.Adepends.Variables

/-!
# BlogStuff.Adepends.PathWords

`dir` and `notdir` on lists of words. Both take the words of their argument one by one and join
the results with blanks, so on words that do not end in a slash they give one word for each
(`words_joinWords`).

Put together again the two parts are not always the word. `os.path.dirname` drops every slash
before the last component, unless there are only slashes, and `dir` puts one slash behind what is
left: `a//b` loses a slash, `/b` gets a second one.
-/

namespace BlogStuff.Adepends

open BlogStuff.Python

theorem words_joinWords {ws : List Str} (hws : ∀ w ∈ ws, w ≠ [] ∧ ∀ c ∈ w, isBlank c = false) :
    words (joinWords ws) = ws := by
  rw [joinWords, words_stripChars, words_flatMap_space hws]

/-- A word that is not empty, has no blanks and does not end in a slash. -/
structure PathWord (w : Str) : Prop where
  ne_nil : w ≠ []
  no_blank : ∀ c ∈ w, isBlank c = false
  no_slash : w.getLast? ≠ some '/'

/-- What `dir` gives for one word. -/
def dirWord (w : Str) : Str := pyOr (dirname w) ['.'] ++ ['/']

/-- The word, with its directory written out. -/
def spelled (w : Str) : Str := if w.any (· == '/') then w else "./".toList ++ w

/-- The last slash, if there is one, has a character before it that is not a slash. -/
def loneSlash (w : Str) : Bool :=
  match (w.rdropWhile (· != '/')).reverse with
  | [] => true
  | _ :: before => before.head?.any (· != '/')

section

variable {w h s : Str}

theorem spelled_of_not_mem (hw : '/' ∉ w) : spelled w = "./".toList ++ w := by
  rw [spelled, if_neg (by simpa using hw)]

theorem spelled_of_last_slash : spelled (h ++ '/' :: s) = h ++ '/' :: s := by
  simp [spelled]

theorem loneSlash_of_not_mem (hw : '/' ∉ w) : loneSlash w = true := by
  have hhead : w.rdropWhile (· != '/') = [] := List.rdropWhile_eq_nil_iff.mpr (bne_of_not_mem hw)
  rw [loneSlash, hhead, List.reverse_nil]

theorem loneSlash_of_last_slash (hs : '/' ∉ s) :
    loneSlash (h ++ '/' :: s) = h.getLast?.any (· != '/') := by
  simp [loneSlash, rdropWhile_of_last_slash hs]

/-! ### One word -/

theorem PathWord.basename (hw : PathWord w) :
    basename w ≠ [] ∧ ∀ c ∈ Python.basename w, isBlank c = false := by
  rcases last_char '/' w with hno | ⟨h, s, rfl, hs⟩
  · rw [basename_of_not_mem hno]
    exact ⟨hw.ne_nil, hw.no_blank⟩
  · rw [basename_of_last_slash hs]
    refine ⟨fun hnil => hw.no_slash ?_, fun c hc => hw.no_blank c (by simp [hc])⟩
    simp [hnil]

theorem PathWord.dirWord (hw : PathWord w) :
    dirWord w ≠ [] ∧ ∀ c ∈ Adepends.dirWord w, isBlank c = false := by
  refine ⟨List.append_ne_nil_of_right_ne_nil _ (by simp), fun c hc => ?_⟩
  rw [Adepends.dirWord, List.mem_append, List.mem_singleton] at hc
  rcases hc with hc | rfl
  · unfold pyOr at hc
    split at hc
    · obtain rfl := List.mem_singleton.mp hc
      rfl
    · exact hw.no_blank c (mem_of_mem_dirname hc)
  · rfl

/-- Without its last slashes a text is as before exactly if it does not end in one. -/
theorem rdropWhile_slash_eq_self_iff (hne : h ≠ []) :
    h.rdropWhile (· == '/') = h ↔ h.getLast?.any (· != '/') = true := by
  rw [List.rdropWhile_eq_self_iff, List.getLast?_eq_some_getLast hne]
  simp [hne]

/-- **The two parts of a word make it up again** exactly if its last slash stands alone:
`dirname` drops the slashes at the end of what it returns, unless there is nothing else, and
`dir` puts one back. -/
theorem dirWord_append_basename_iff (w : Str) :
    dirWord w ++ basename w = spelled w ↔ loneSlash w = true := by
  rcases last_char '/' w with hno | ⟨h, s, rfl, hs⟩
  · rw [dirWord, dirname_of_not_mem hno, basename_of_not_mem hno, spelled_of_not_mem hno,
      loneSlash_of_not_mem hno]
    exact iff_of_true rfl rfl
  · rw [dirWord, dirname_of_last_slash hs, basename_of_last_slash hs, spelled_of_last_slash,
      loneSlash_of_last_slash hs]
    by_cases hall : h.all (· == '/') = true
    · -- only slashes: `dirname` keeps them all, and `dir` adds one
      rw [if_pos hall, pyOr_of_ne (by simp)]
      have hlast : h.getLast?.any (· != '/') = false := by
        rw [Option.any_eq_false]
        intro c hc
        simpa using List.all_eq_true.mp hall c (List.mem_of_getLast? hc)
      simp [hlast]
    · -- `dirname` is the text before the last slashes
      have hne : h ≠ [] := fun hnil => hall (by rw [hnil]; rfl)
      have hdrop : h.rdropWhile (· == '/') ≠ [] := by
        rw [Ne, List.rdropWhile_eq_nil_iff]
        simpa using hall
      rw [if_neg hall, pyOr_of_ne hdrop, List.append_assoc, List.singleton_append,
        List.append_cancel_right_eq, rdropWhile_slash_eq_self_iff hne]

end

/-! ### Lists of words -/

/-- **`dir` and `notdir` give one word for each, and the two parts of a word make it up again
exactly if its last slash stands alone.** Neither part of a word is empty or holds a blank, so
the words that come out can be counted. -/
theorem dir_notdir_recompose_iff (ws : List Str) (hws : ∀ w ∈ ws, PathWord w) :
    words (joinWords ws) = ws ∧ ∀ args, words args = ws →
      ∃ d n, functionDir args = some d ∧ functionNotdir args = some n ∧
        (words d).length = ws.length ∧ (words n).length = ws.length ∧
        ∀ i w, ws[i]? = some w →
          ((words d).getD i [] ++ (words n).getD i [] = spelled w ↔ loneSlash w = true) := by
  refine ⟨words_joinWords fun w hw => ⟨(hws w hw).ne_nil, (hws w hw).no_blank⟩, ?_⟩
  intro args hargs
  have hdir : words (joinWords (ws.map dirWord)) = ws.map dirWord :=
    words_joinWords (List.forall_mem_map.mpr fun w hw => (hws w hw).dirWord)
  have hnotdir : words (joinWords (ws.map basename)) = ws.map basename :=
    words_joinWords (List.forall_mem_map.mpr fun w hw => (hws w hw).basename)
  refine ⟨joinWords (ws.map dirWord), joinWords (ws.map basename), ?_, ?_, ?_, ?_, ?_⟩
  · rw [functionDir, hargs]
    rfl
  · rw [functionNotdir, hargs]
  · rw [hdir, List.length_map]
  · rw [hnotdir, List.length_map]
  · intro i w hi
    rw [hdir, hnotdir, ← dirWord_append_basename_iff]
    simp [hi]

/-- A word with a directory, and one without. -/
theorem dir_notdir_recompose_iff_two :
    ∃ d n, functionDir "a/b c".toList = some d ∧ functionNotdir "a/b c".toList = some n ∧
      (words d).getD 0 [] ++ (words n).getD 0 [] = "a/b".toList ∧
      (words d).getD 1 [] ++ (words n).getD 1 [] = "./c".toList := by
  have hws : ∀ w ∈ ["a/b".toList, "c".toList], PathWord w := by
    intro w hw
    simp only [List.mem_cons, List.not_mem_nil, or_false] at hw
    rcases hw with rfl | rfl <;> exact ⟨by decide, by simp; decide, by decide⟩
  obtain ⟨d, n, hd, hn, -, -, hiff⟩ :=
    (dir_notdir_recompose_iff _ hws).2 "a/b c".toList (by decide)
  exact ⟨d, n, hd, hn, (hiff 0 _ rfl).mpr (by decide), (hiff 1 _ rfl).mpr (by decide)⟩

/-- A file in the root directory gets a second slash. -/
theorem dir_of_root_file : functionDir "/b".toList = some "//".toList ∧
    functionNotdir "/b".toList = some "b".toList ∧
    "//".toList ++ "b".toList ≠ spelled "/b".toList := by
  decide

end BlogStuff.Adepends
