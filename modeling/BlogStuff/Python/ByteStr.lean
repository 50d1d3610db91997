import BlogStuff.Python.Str

/-!
# BlogStuff.Python.ByteStr

The `str` of Python 2: a sequence of bytes, one character each here, whose white space,
letters and word characters are those of ASCII. `words` is `split()`, and the rest is
`os.path` on texts (`posixpath`).
-/

namespace BlogStuff.Python

/-- White space of a byte string. -/
def isBlank (c : Char) : Bool :=
  c == ' ' || c == '\t' || c == '\n' || c == '\r' || c == '\x0b' || c == '\x0c'

/-- `\w`. -/
def isWord (c : Char) : Bool := c.isAlphanum || c == '_'

theorem isWord_of_isBlank {c : Char} (h : isBlank c = true) : isWord c = false := by
  simp only [isBlank, Bool.or_eq_true, beq_iff_eq, or_assoc] at h
  rcases h with rfl | rfl | rfl | rfl | rfl | rfl <;> decide

/-! ### `split()` -/

/-- `s.split()`: the runs of other characters between white space. -/
def words (s : Str) : List Str := (s.splitOnP isBlank).filter fun w => w ≠ []

theorem words_append_cons {b : Char} (hb : isBlank b = true) (a s : Str) :
    words (a ++ b :: s) = words a ++ words s := by
  simp [words, List.splitOnP_append_cons _ _ hb]

theorem words_of_forall {s : Str} (hne : s ≠ []) (h : ∀ c ∈ s, isBlank c = false) :
    words s = [s] := by
  have hone : s.splitOnP isBlank = [s] := List.splitOnP_eq_singleton h
  simp [words, hone, hne]

@[simp] theorem words_nil : words [] = [] := rfl

/-- Every text is free of white space, or has a first blank. -/
theorem blank_cases (s : Str) : (∀ c ∈ s, isBlank c = false) ∨
    ∃ a b t, s = a ++ b :: t ∧ (∀ c ∈ a, isBlank c = false) ∧ isBlank b = true := by
  induction s with
  | nil => exact .inl (by simp)
  | cons c s ih =>
      by_cases hc : isBlank c = true
      · exact .inr ⟨[], c, s, rfl, by simp, hc⟩
      · have hc : isBlank c = false := by simpa using hc
        rcases ih with h | ⟨a, b, t, rfl, ha, hb⟩
        · exact .inl (by simpa [hc] using h)
        · exact .inr ⟨c :: a, b, t, rfl, by simpa [hc] using ha, hb⟩

/-- Induction over a text that is one word, or is cut at its first blank. -/
theorem blank_induction {P : Str → Prop} (word : ∀ a, (∀ c ∈ a, isBlank c = false) → P a)
    (cut : ∀ a b z, (∀ c ∈ a, isBlank c = false) → isBlank b = true → P z → P (a ++ b :: z))
    (t : Str) : P t := by
  induction hn : t.length using Nat.strong_induction_on generalizing t with
  | _ n ih =>
      subst hn
      rcases blank_cases t with hno | ⟨a, b, z, rfl, ha, hb⟩
      · exact word t hno
      · exact cut a b z ha hb (ih z.length (by simp; omega) z rfl)

/-- A word stands in the text, with white space or nothing behind it. The induction cuts the text at
its blanks. -/
theorem of_mem_words {w s : Str} (h : w ∈ words s) : w ≠ [] ∧ (∀ c ∈ w, isBlank c = false) ∧
    ∃ a b, s = a ++ (w ++ b) ∧ ∀ c, b.head? = some c → isBlank c = true := by
  have hone : ∀ a : Str, (∀ c ∈ a, isBlank c = false) → w ∈ words a → w = a ∧ a ≠ [] := by
    intro a ha hw
    by_cases hne : a = []
    · subst hne
      simp at hw
    · rw [words_of_forall hne ha, List.mem_singleton] at hw
      exact ⟨hw, hne⟩
  induction s using blank_induction with
  | word s hs =>
      obtain ⟨rfl, hne⟩ := hone s hs h
      exact ⟨hne, hs, [], [], by simp, by simp⟩
  | cut a b z ha hb ih =>
      rw [words_append_cons hb, List.mem_append] at h
      rcases h with h | h
      · obtain ⟨rfl, hne⟩ := hone a ha h
        refine ⟨hne, ha, [], b :: z, rfl, fun c hc => ?_⟩
        obtain rfl : b = c := by simpa using hc
        exact hb
      · obtain ⟨hne, hw, a', b', rfl, hb'⟩ := ih h
        exact ⟨hne, hw, a ++ b :: a', b', by simp, hb'⟩

theorem words_blank_append {t : Str} (ht : ∀ c ∈ t, isBlank c = true) (s : Str) :
    words (t ++ s) = words s := by
  induction t with
  | nil => rfl
  | cons b t ih =>
      obtain ⟨hb, ht⟩ := List.forall_mem_cons.mp ht
      have hcut := words_append_cons hb [] (t ++ s)
      rw [words_nil, List.nil_append, List.nil_append, ih ht] at hcut
      exact hcut

theorem words_append_blank {t : Str} (ht : ∀ c ∈ t, isBlank c = true) (s : Str) :
    words (s ++ t) = words s := by
  cases t with
  | nil => rw [List.append_nil]
  | cons b t =>
      obtain ⟨hb, ht⟩ := List.forall_mem_cons.mp ht
      have hrest := words_blank_append ht []
      rw [List.append_nil, words_nil] at hrest
      rw [words_append_cons hb, hrest, List.append_nil]

theorem words_stripChars (s : Str) : words (stripChars isBlank s) = words s := by
  let d := s.dropWhile isBlank
  calc words (d.rdropWhile isBlank)
      = words (d.rdropWhile isBlank ++ d.rtakeWhile isBlank) :=
        (words_append_blank (fun c hc => List.mem_rtakeWhile_imp hc) _).symm
    _ = words d := by rw [List.rdropWhile_append_rtakeWhile]
    _ = words (s.takeWhile isBlank ++ d) :=
        (words_blank_append (fun c hc => List.mem_takeWhile_imp hc) _).symm
    _ = words s := by rw [List.takeWhile_append_dropWhile]

theorem words_flatMap_space {ws : List Str}
    (hws : ∀ w ∈ ws, w ≠ [] ∧ ∀ c ∈ w, isBlank c = false) :
    words (ws.flatMap (· ++ [' '])) = ws := by
  induction ws with
  | nil => rfl
  | cons w ws ih =>
      obtain ⟨⟨hne, hw⟩, hws⟩ := List.forall_mem_cons.mp hws
      have hspace : isBlank ' ' = true := rfl
      rw [List.flatMap_cons, List.append_assoc, List.singleton_append, words_append_cons hspace,
        words_of_forall hne hw, ih hws, List.singleton_append]

/-- A character that is no blank is in a word, by induction on the length: it is in front of the
first blank of the text or behind it. -/
theorem exists_mem_words {t : Str} {c : Char} (hc : c ∈ t) (hblank : isBlank c = false) :
    ∃ w ∈ words t, c ∈ w := by
  induction t using blank_induction with
  | word a ha => exact ⟨a, by rw [words_of_forall (List.ne_nil_of_mem hc) ha]; exact .head _, hc⟩
  | cut a b z ha hb ih =>
      rw [words_append_cons hb]
      rcases List.mem_append.mp hc with hc | hc
      · refine ⟨a, List.mem_append_left _ ?_, hc⟩
        rw [words_of_forall (List.ne_nil_of_mem hc) ha]
        exact .head _
      · rcases List.mem_cons.mp hc with rfl | hc
        · rw [hb] at hblank
          cases hblank
        · obtain ⟨w, hw, hcw⟩ := ih hc
          exact ⟨w, List.mem_append_right _ hw, hcw⟩

/-- Every character that is no blank is in as many places of the words as of the text: splitting
takes out blanks and nothing else. -/
theorem sum_count_words {c : Char} (hc : isBlank c = false) (t : Str) :
    ((words t).map (List.count c)).sum = t.count c := by
  have hone : ∀ a : Str, (∀ c ∈ a, isBlank c = false) →
      ((words a).map (List.count c)).sum = a.count c := by
    intro a ha
    cases a with
    | nil => rfl
    | cons d a => simp [words_of_forall (List.cons_ne_nil d a) ha]
  induction t using blank_induction with
  | word a ha => exact hone a ha
  | cut a b z ha hb ih =>
      have hne : b ≠ c := by
        rintro rfl
        rw [hb] at hc
        cases hc
      rw [words_append_cons hb, List.map_append, List.sum_append, hone a ha, ih,
        List.count_append, List.count_cons_of_ne hne]

/-- More text does not make fewer words. It may make the last one longer, but does not join two that
have a blank between them. -/
theorem length_words_append_le (a s : Str) : (words a).length ≤ (words (a ++ s)).length := by
  induction a using blank_induction with
  | word a ha =>
      cases a with
      | nil => simp
      | cons d a =>
          obtain ⟨w, hw, -⟩ := exists_mem_words (t := d :: a ++ s) (c := d) (by simp)
            (ha d (.head _))
          rw [words_of_forall (List.cons_ne_nil d a) ha]
          exact List.length_pos_of_mem hw
  | cut a b z ha hb ih =>
      rw [List.append_assoc, List.cons_append, words_append_cons hb, words_append_cons hb,
        List.length_append, List.length_append]
      omega

/-! ### `os.path` -/

/-- `os.path.dirname`: up to the last `/`, which is dropped unless there is nothing else. -/
def dirname (p : Str) : Str :=
  let head := p.rdropWhile (· != '/')
  if head.all (· == '/') then head else head.rdropWhile (· == '/')

/-- `os.path.basename`: behind the last `/`. -/
def basename (p : Str) : Str := p.rtakeWhile (· != '/')

section

variable {h s : Str}

theorem rdropWhile_of_last_slash (hs : '/' ∉ s) :
    (h ++ '/' :: s).rdropWhile (· != '/') = h ++ ['/'] := by
  rw [List.rdropWhile, List.reverse_append, List.reverse_cons, List.append_assoc,
    List.dropWhile_append_of_pos (bne_of_not_mem (by simpa using hs))]
  simp

theorem basename_of_last_slash (hs : '/' ∉ s) : basename (h ++ '/' :: s) = s := by
  have happend := List.rdropWhile_append_rtakeWhile (p := (· != '/')) (l := h ++ '/' :: s)
  rw [rdropWhile_of_last_slash hs, List.append_assoc] at happend
  exact (List.cons.inj (List.append_cancel_left happend)).2

/-- All slashes before the last one are dropped too, if there is anything in front of them. -/
theorem dirname_of_last_slash (hs : '/' ∉ s) : dirname (h ++ '/' :: s) =
    if h.all (· == '/') then h ++ ['/'] else h.rdropWhile (· == '/') := by
  simp [dirname, rdropWhile_of_last_slash hs]

theorem basename_of_not_mem (hs : '/' ∉ s) : basename s = s := by
  rw [basename, List.rtakeWhile_eq_self_iff]
  exact bne_of_not_mem hs

theorem mem_of_mem_dirname {c : Char} (hc : c ∈ dirname s) : c ∈ s := by
  have hhead : c ∈ s.rdropWhile (· != '/') := by
    simp only [dirname] at hc
    split at hc
    · exact hc
    · exact (List.rdropWhile_prefix _ _).subset hc
  exact (List.rdropWhile_prefix _ _).subset hhead

theorem dirname_of_not_mem (hs : '/' ∉ s) : dirname s = [] := by
  have hhead : s.rdropWhile (· != '/') = [] := List.rdropWhile_eq_nil_iff.mpr (bne_of_not_mem hs)
  simp [dirname, hhead]

end

/-- `os.path.splitext`: the last component is cut at its last dot, unless only dots
stand before it. -/
def splitext (p : Str) : Str × Str :=
  let head := p.rdropWhile (· != '/')
  let (root, dot, ext) := rpartition '.' (basename p)
  if dot && !root.all (· == '.') then (head ++ root, '.' :: ext) else (p, [])

end BlogStuff.Python
