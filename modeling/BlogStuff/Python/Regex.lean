import BlogStuff.Python.Str

/-!
# BlogStuff.Python.Regex

Python's `re` for the patterns the scripts use: sequences and alternatives of
character classes, greedy repetition of one class, capture groups and `$`.

Matching is backtracking in continuation-passing style: `run r s g k` matches `r`
at the front of `s` and hands what is left to `k`; a failure of `k` makes the
choices inside `r` move on to their next alternative, longest repetition first,
as `re` does. `runMany_isSome` and `run_lit_isSome` are the rules proofs use.
-/

namespace BlogStuff.Python

/-- The captured groups, by number. -/
abbrev Groups := List (Nat × Str)

/-- A regular expression, cut down to what the modelled patterns use. Character classes are
predicates, and the other repetitions are made from these. -/
inductive Regex
  /-- One character of a class. -/
  | chr (p : Char → Bool)
  /-- `[..]*`, greedy. -/
  | many (p : Char → Bool)
  | eps
  | seq (r s : Regex)
  | alt (r s : Regex)
  /-- Capture what `r` matches as group `n`. -/
  | group (n : Nat) (r : Regex)
  /-- `$` without `MULTILINE`: the end, or just before a final newline. -/
  | eol

namespace Regex

variable {α : Type}

/-- Greedy repetition: try the longest run first, then give characters back. -/
def runMany (p : Char → Bool) (k : Str → Option α) : Str → Option α
  | [] => k []
  | c :: s => if p c then (runMany p k s).or (k (c :: s)) else k (c :: s)

/-- Match a pattern at the front of a string and continue with `k`. Alternatives and repetitions try
their choices in Python's order and go on to the next one when `k` fails. -/
def run : Regex → Str → Groups → (Str → Groups → Option α) → Option α
  | chr p, s, g, k =>
      match s with
      | c :: s => if p c then k s g else none
      | [] => none
  | many p, s, g, k => runMany p (fun s' => k s' g) s
  | eps, s, g, k => k s g
  | seq r t, s, g, k => run r s g (fun s' g' => run t s' g' k)
  | alt r t, s, g, k => (run r s g k).or (run t s g k)
  | group n r, s, g, k =>
      run r s g (fun s' g' => k s' ((n, s.take (s.length - s'.length)) :: g'))
  | eol, s, g, k => if s = [] ∨ s = ['\n'] then k s g else none

/-- `[..]+`. -/
def many1 (p : Char → Bool) : Regex := seq (chr p) (many p)

/-- `r?`. -/
def opt (r : Regex) : Regex := alt r eps

/-- A literal text, each character matched by `cls` of it (`· == ·` by default;
a case-insensitive class under `re.I`). -/
def litWith (cls : Char → Char → Bool) : Str → Regex
  | [] => eps
  | c :: s => seq (chr (cls c)) (litWith cls s)

/-- A literal text. -/
def lit (s : Str) : Regex := litWith (fun c d => c == d) s

/-- A concatenation of patterns. -/
def seqs : List Regex → Regex
  | [] => eps
  | [r] => r
  | r :: rs => seq r (seqs rs)

/-- `re.match(r, s)`: what is left and the groups. -/
def matchAt (r : Regex) (s : Str) : Option (Str × Groups) :=
  run r s [] (fun s' g => some (s', g))

/-- `re.match(r, s)` as a truth value. -/
def isMatch (r : Regex) (s : Str) : Bool := (matchAt r s).isSome

/-- `re.search(r, s)`: the text before the leftmost match, the groups, and the
text after it. -/
def search (r : Regex) : Str → Option (Str × Groups × Str)
  | [] => (matchAt r []).map fun (s', g) => ([], g, s')
  | c :: s =>
      match matchAt r (c :: s) with
      | some (s', g) => some ([], g, s')
      | none => (search r s).map fun (before, g, s') => (c :: before, g, s')

/-- `re.sub(r, f, s, count=1)`. -/
def subOnce (r : Regex) (f : Groups → Str) (s : Str) : Str :=
  match search r s with
  | some (before, g, after) => before ++ f g ++ after
  | none => s

/-- `m.group(n)`, with `""` for a group that took no part in the match. -/
def groupD (g : Groups) (n : Nat) : Str := (g.lookup n).getD []

@[simp] theorem groupD_nil (n : Nat) : groupD [] n = [] := rfl

@[simp] theorem groupD_cons (g : Groups) (n m : Nat) (v : Str) :
    groupD ((m, v) :: g) n = if n = m then v else groupD g n := by
  rw [groupD, List.lookup_cons]
  by_cases h : n = m
  · simp [h]
  · rw [beq_false_of_ne h, if_neg h, groupD]

/-! ### Rules -/

/-- A greedy repetition matches some run of the class followed by a continuation
that accepts. -/
theorem runMany_isSome {p : Char → Bool} {k : Str → Option α} {s : Str} :
    (runMany p k s).isSome ↔ ∃ a b, s = a ++ b ∧ (∀ c ∈ a, p c = true) ∧ (k b).isSome := by
  induction s with
  | nil =>
      rw [runMany]
      constructor
      · intro h; exact ⟨[], [], rfl, by simp, h⟩
      · rintro ⟨a, b, hab, -, hk⟩
        obtain ⟨rfl, rfl⟩ := List.append_eq_nil_iff.mp hab.symm
        exact hk
  | cons c s ih =>
      rw [runMany]
      constructor
      · intro h
        by_cases hp : p c = true
        · rw [if_pos hp, Option.isSome_or, Bool.or_eq_true, ih] at h
          rcases h with ⟨a, b, rfl, ha, hk⟩ | hk
          · exact ⟨c :: a, b, rfl, by simpa [hp] using ha, hk⟩
          · exact ⟨[], c :: s, rfl, by simp, hk⟩
        · rw [if_neg hp] at h
          exact ⟨[], c :: s, rfl, by simp, h⟩
      · rintro ⟨a, b, hab, ha, hk⟩
        cases a with
        | nil =>
            obtain rfl : c :: s = b := by simpa using hab
            split_ifs
            · rw [Option.isSome_or, hk, Bool.or_true]
            · exact hk
        | cons d a =>
            obtain ⟨rfl, rfl⟩ := List.cons.inj hab
            rw [if_pos (ha c (by simp)), Option.isSome_or, Bool.or_eq_true]
            exact Or.inl (ih.mpr ⟨a, b, rfl, fun e he => ha e (by simp [he]), hk⟩)

theorem run_chr_isSome {p : Char → Bool} {s : Str} {g : Groups} {k : Str → Groups → Option α} :
    (run (chr p) s g k).isSome ↔ ∃ c t, s = c :: t ∧ p c = true ∧ (k t g).isSome := by
  cases s with
  | nil => simp [run]
  | cons c s =>
      by_cases hp : p c = true
      · simp [run, hp]
      · simp [run, hp]

/-- A literal matches a text of its length, character by character, and leaves the rest to what
follows; there is no choice to be taken back. -/
theorem run_litWith_isSome {cls : Char → Char → Bool} {t s : Str} {g : Groups}
    {k : Str → Groups → Option α} :
    (run (litWith cls t) s g k).isSome ↔
      ∃ a b, s = a ++ b ∧ List.Forall₂ (fun c d => cls c d = true) t a ∧ (k b g).isSome := by
  induction t generalizing s with
  | nil => simp [litWith, run]
  | cons c t ih =>
      have hrun : run (litWith cls (c :: t)) s g k = run (chr (cls c)) s g
          (fun s' g' => run (litWith cls t) s' g' k) := rfl
      rw [hrun, run_chr_isSome]
      constructor
      · intro h
        obtain ⟨d, u, rfl, hd, hk⟩ := h
        obtain ⟨a, b, rfl, ha, hb⟩ := ih.mp hk
        exact ⟨d :: a, b, rfl, .cons hd ha, hb⟩
      · intro h
        obtain ⟨a, b, rfl, ha, hb⟩ := h
        cases ha with
        | cons hd ha => exact ⟨_, _, rfl, hd, ih.mpr ⟨_, b, rfl, ha, hb⟩⟩

theorem run_lit_isSome {t s : Str} {g : Groups} {k : Str → Groups → Option α} :
    (run (lit t) s g k).isSome ↔ ∃ b, s = t ++ b ∧ (k b g).isSome := by
  have hself : ∀ a : Str, List.Forall₂ (fun c d : Char => (c == d) = true) t a ↔ t = a := by
    intro a
    simp only [beq_iff_eq, List.forall₂_eq_eq_eq]
  rw [lit, run_litWith_isSome]
  constructor
  · intro h
    obtain ⟨a, b, rfl, ha, hb⟩ := h
    exact ⟨b, by rw [(hself a).mp ha], hb⟩
  · intro h
    obtain ⟨b, rfl, hb⟩ := h
    exact ⟨t, b, rfl, (hself t).mpr rfl, hb⟩

theorem runMany_of_isSome {p : Char → Bool} {k : Str → Option α} {s : Str}
    (h : (k (s.dropWhile p)).isSome) : runMany p k s = k (s.dropWhile p) := by
  induction s with
  | nil => rfl
  | cons c s ih =>
      by_cases hp : p c = true
      · rw [List.dropWhile_cons_of_pos hp] at h ⊢
        rw [runMany, if_pos hp, ih h]
        exact Option.or_of_isSome h
      · rw [List.dropWhile_cons_of_neg hp, runMany, if_neg hp]

theorem run_seqs_cons (r t : Regex) (rs : List Regex) (s : Str) (g : Groups)
    (k : Str → Groups → Option α) :
    run (seqs (r :: t :: rs)) s g k = run r s g (fun s' g' => run (seqs (t :: rs)) s' g' k) := rfl

theorem run_lit_append (t s : Str) (g : Groups) (k : Str → Groups → Option α) :
    run (lit t) (t ++ s) g k = k s g := by
  induction t with
  | nil => rfl
  | cons c t ih =>
      have hrun : run (lit (c :: t)) (c :: t ++ s) g k = run (lit t) (t ++ s) g k := by
        simp [lit, litWith, run]
      rw [hrun, ih]

/-- The pattern without its groups. -/
def erase : Regex → Regex
  | seq r t => seq (erase r) (erase t)
  | alt r t => alt (erase r) (erase t)
  | group _ r => erase r
  | r => r

theorem map_runMany_congr {β γ : Type} {f : α → γ} {i : β → γ} {p : Char → Bool}
    {k : Str → Option α} {j : Str → Option β} (h : ∀ t, (k t).map f = (j t).map i) (s : Str) :
    (runMany p k s).map f = (runMany p j s).map i := by
  induction s with
  | nil => exact h []
  | cons c s ih =>
      rw [runMany, runMany]
      split_ifs
      · rw [Option.map_or, Option.map_or, ih, h]
      · exact h (c :: s)

/-- What a pattern matches does not depend on its groups. By induction on the pattern, for any two
continuations that agree; without groups the second one sees those that were there before. -/
theorem map_run_erase {β γ : Type} {f : α → γ} {i : β → γ} {r : Regex} {s : Str} {g e : Groups}
    {k : Str → Groups → Option α} {j : Str → Groups → Option β}
    (h : ∀ t d, (k t d).map f = (j t e).map i) :
    (run r s g k).map f = (run (erase r) s e j).map i := by
  induction r generalizing s g k j with
  | chr p =>
      cases s with
      | nil => rfl
      | cons c s =>
          rw [erase, run, run]
          · split_ifs
            · exact h s g
            · rfl
          all_goals simp
  | many p => exact map_runMany_congr (fun t => h t g) s
  | eps => exact h s g
  | seq r t ihr iht => exact ihr fun _ _ => iht h
  | alt r t ihr iht => rw [erase, run, run, Option.map_or, Option.map_or, ihr h, iht h]
  | group n r ih => exact ih fun t _ => h t _
  | eol =>
      rw [erase, run, run]
      · split_ifs
        · exact h s g
        · rfl
      all_goals simp

theorem isMatch_erase (r : Regex) (s : Str) : isMatch (erase r) s = isMatch r s := by
  have hrest := map_run_erase (f := Prod.fst) (i := Prod.fst) (r := r) (s := s) (g := []) (e := [])
    (k := fun t d => some (t, d)) (j := fun t d => some (t, d)) fun _ _ => rfl
  rw [isMatch, isMatch, ← Option.isSome_map (f := Prod.fst), ← Option.isSome_map (f := Prod.fst)]
  exact congrArg Option.isSome hrest.symm

theorem isMatch_seq_assoc (r t u : Regex) (s : Str) :
    isMatch (seq (seq r t) u) s = isMatch (seq r (seq t u)) s := rfl

/-- A search succeeds exactly if some place matches. By induction on the text: the search tries
every place from the left. -/
theorem search_isSome {r : Regex} {s : Str} :
    (search r s).isSome ↔ ∃ a b, s = a ++ b ∧ isMatch r b = true := by
  unfold isMatch
  induction s with
  | nil =>
      rw [search, Option.isSome_map]
      constructor
      · intro h
        exact ⟨[], [], rfl, h⟩
      · intro h
        obtain ⟨a, b, hab, hb⟩ := h
        obtain ⟨rfl, rfl⟩ := List.append_eq_nil_iff.mp hab.symm
        exact hb
  | cons c s ih =>
      rw [search]
      constructor
      · intro h
        split at h
        · next hmatch => exact ⟨[], c :: s, rfl, by rw [hmatch]; rfl⟩
        · rw [Option.isSome_map, ih] at h
          obtain ⟨a, b, rfl, hb⟩ := h
          exact ⟨c :: a, b, rfl, hb⟩
      · intro h
        obtain ⟨a, b, hab, hb⟩ := h
        split
        · rfl
        · next hnone =>
            rw [Option.isSome_map, ih]
            cases a with
            | nil =>
                obtain rfl : c :: s = b := hab
                rw [hnone] at hb
                cases hb
            | cons d a =>
                obtain ⟨rfl, rfl⟩ := List.cons.inj hab
                exact ⟨a, b, rfl, hb⟩

/-- A repetition the continuation does not accept behind the whole run gives back one
character. -/
theorem runMany_giveback {p : Char → Bool} {k : Str → Option α} {w t : Str} {c : Char}
    (hw : ∀ d ∈ w, p d = true) (hc : p c = true) (ht : runMany p k t = none)
    (hk : (k (c :: t)).isSome) : runMany p k (w ++ c :: t) = k (c :: t) := by
  induction w with
  | nil => rw [List.nil_append, runMany, if_pos hc, ht, Option.none_or]
  | cons d w ih =>
      have hrest := ih fun e he => hw e (List.mem_cons_of_mem _ he)
      rw [List.cons_append, runMany, if_pos (hw d List.mem_cons_self), hrest]
      exact Option.or_of_isSome hk

theorem runMany_of_head {p : Char → Bool} {k : Str → Option α} {s : Str}
    (h : s.dropWhile p = s) : runMany p k s = k s := by
  cases s with
  | nil => rfl
  | cons c s =>
      have hc : ¬ p c = true := by
        intro hp
        rw [List.dropWhile_cons_of_pos hp] at h
        have hlen := (List.dropWhile_suffix p (l := s)).length_le
        rw [h, List.length_cons] at hlen
        omega
      rw [runMany, if_neg hc]

theorem take_sub_dropWhile (p : Char → Bool) (s : Str) :
    s.take (s.length - (s.dropWhile p).length) = s.takeWhile p := by
  have hlen : s.length - (s.dropWhile p).length = (s.takeWhile p).length := by
    have h := congrArg List.length (List.takeWhile_append_dropWhile (p := p) (l := s))
    rw [List.length_append] at h
    omega
  have htake : (s.takeWhile p ++ s.dropWhile p).take (s.takeWhile p).length = s.takeWhile p :=
    List.take_left
  rwa [List.takeWhile_append_dropWhile, ← hlen] at htake

theorem head?_dropWhile_ne {q : Char} {t : Str} (h : q ∈ t) :
    (t.dropWhile (· != q)).head? = some q := by
  induction t with
  | nil => simp at h
  | cons c t ih =>
      by_cases hc : c = q
      · subst hc
        rw [List.dropWhile_cons_of_neg (by simp)]
        rfl
      · rw [List.dropWhile_cons_of_pos (by simpa using hc)]
        exact ih ((List.mem_cons.mp h).resolve_left (Ne.symm hc))

/-- A run up to the next `q`, and no match without one. -/
theorem runMany_upTo {q : Char} {k : Str → Option α}
    (hk : ∀ u, (k u).isSome ↔ u.head? = some q) (t : Str) :
    runMany (· != q) k t = if q ∈ t then k (t.dropWhile (· != q)) else none := by
  split_ifs with hq
  · exact runMany_of_isSome ((hk _).mpr (head?_dropWhile_ne hq))
  · rw [← Option.not_isSome_iff_eq_none, runMany_isSome]
    intro h
    obtain ⟨a, b, rfl, -, hb⟩ := h
    have hmem : q ∈ b := List.mem_of_head? ((hk b).mp hb)
    exact hq (List.mem_append_right a hmem)

/-- A repetition takes its whole run, or the pattern fails, if the continuation that accepts
behind a character of the class also accepts behind the next one. -/
theorem runMany_eq_dropWhile {p : Char → Bool} {k : Str → Option α}
    (h : ∀ c u, p c = true → (k (c :: u)).isSome → (k u).isSome) (s : Str) :
    runMany p k s = k (s.dropWhile p) := by
  have hdrop : ∀ u, (k u).isSome → (k (u.dropWhile p)).isSome := by
    intro u
    induction u with
    | nil => exact id
    | cons c u ih =>
        intro hu
        by_cases hc : p c = true
        · rw [List.dropWhile_cons_of_pos hc]
          exact ih (h c u hc hu)
        · rwa [List.dropWhile_cons_of_neg hc]
  by_cases hs : (k (s.dropWhile p)).isSome
  · exact runMany_of_isSome hs
  · rw [Option.not_isSome_iff_eq_none.mp hs, ← Option.not_isSome_iff_eq_none, runMany_isSome]
    intro hsome
    obtain ⟨a, b, rfl, ha, hb⟩ := hsome
    rw [List.dropWhile_append_of_pos ha] at hs
    exact hs (hdrop b hb)

section Last

variable {p : Char → Bool} {k : Str → Option α} {q : Char}

/-- A repetition in front of a `q` needs one in its run: it can give back as many characters as it
takes to stop before one. -/
theorem runMany_to_isSome (hk : ∀ u, (k u).isSome ↔ u.head? = some q) (hq : p q = true) (s : Str) :
    (runMany p k s).isSome ↔ q ∈ s.takeWhile p := by
  rw [runMany_isSome]
  constructor
  · intro h
    obtain ⟨a, b, rfl, ha, hb⟩ := h
    obtain ⟨t, rfl⟩ := List.head?_eq_some_iff.mp ((hk b).mp hb)
    rw [List.takeWhile_append_of_pos ha, List.takeWhile_cons_of_pos hq]
    simp
  · intro h
    obtain ⟨a, b, hab⟩ := List.append_of_mem h
    refine ⟨a, q :: b ++ s.dropWhile p, ?_, ?_, (hk _).mpr rfl⟩
    · rw [← List.append_assoc, ← hab, List.takeWhile_append_dropWhile]
    · intro c hc
      refine List.mem_takeWhile_imp (l := s) ?_
      rw [hab]
      exact List.mem_append_left _ hc

/-- It gives back all that stands behind the last one. Before that the continuation fails, because
what has been given back does not begin with the character. -/
theorem runMany_to_last (hk : ∀ u, (k u).isSome ↔ u.head? = some q) {s a b : Str}
    (hs : s.takeWhile p = a ++ q :: b) (hb : q ∉ b) :
    runMany p k s = k (q :: (b ++ s.dropWhile p)) := by
  have hall : ∀ c ∈ a ++ q :: b, p c = true := by
    rw [← hs]
    exact fun c hc => List.mem_takeWhile_imp hc
  have hq : p q = true := hall q (by simp)
  have hsplit : s = a ++ q :: (b ++ s.dropWhile p) := by
    conv_lhs => rw [← List.takeWhile_append_dropWhile (p := p) (l := s), hs]
    simp
  -- the run behind the last `q` is `b`
  have hrun : (b ++ s.dropWhile p).takeWhile p = b := by
    have hdrop : (s.dropWhile p).takeWhile p = [] := by
      cases hd : s.dropWhile p with
      | nil => rfl
      | cons c t =>
          have hc := List.head_dropWhile_not p (l := s) (by simp [hd])
          exact List.takeWhile_cons_of_neg (by simpa [hd] using hc)
    rw [List.takeWhile_append_of_pos fun c hc => hall c (by simp [hc]), hdrop, List.append_nil]
  have hnone : runMany p k (b ++ s.dropWhile p) = none := by
    rw [← Option.not_isSome_iff_eq_none, runMany_to_isSome hk hq, hrun]
    exact hb
  have ha : ∀ c ∈ a, p c = true := fun c hc => hall c (List.mem_append_left _ hc)
  have hgive := runMany_giveback ha hq hnone ((hk _).mpr rfl)
  rwa [← hsplit] at hgive

end Last

end Regex

end BlogStuff.Python
