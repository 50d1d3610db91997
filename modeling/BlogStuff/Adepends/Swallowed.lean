import BlogStuff.Adepends.Composition

/-!
# BlogStuff.Adepends.Swallowed

What becomes of the text a call swallows. A call of the first expression takes all up to the last
closing bracket of the second for its arguments, so the function is carried out on words that are
not its own. What comes out can be right by accident. It cannot if the second expression begins
with a word that tells (`Mark`): one with a directory, a name and an extension, in each of which
a character stands that is nowhere else.

* `dir`, `notdir` and `basename` take off a part of the word, and with it some of the
  occurrences of that character (`count_lossy`);
* `addprefix` and `addsuffix` drop the word or keep it whole, but then the closing bracket of the
  swallowing call is in front of it, and it is not meant to be (`functionAdd_swallow`).

With that `evalExpression_append_iff` has the condition under which evaluation composes: keeping
`Apart` is enough, and where the words cannot coincide it is necessary.
-/

namespace BlogStuff.Adepends

open BlogStuff.Python

/-! ### The call -/

/-- Every call that begins in the text, or in it and the space behind it, ends in it. -/
def CallsClosed (x : Str) : Prop :=
  ∀ a t name r, x ++ [' '] = a ++ t → openingAt t = some (name, r) → ')' ∈ r

theorem CallsClosed.of_cons {c : Char} {x : Str} (h : CallsClosed (c :: x)) : CallsClosed x :=
  fun a t name r hx => h (c :: a) t name r (by rw [List.cons_append, hx, List.cons_append])

theorem beyond_of_line {r : Str} (h : '\n' ∉ r) : beyond r = [] := by
  have hall := reach_append_beyond r
  rw [reach_of_line h] at hall
  exact List.self_eq_append_right.mp hall.symm

/-- On one line, a call of the first text takes the second one for a part of its arguments, up to
the last closing bracket. -/
theorem firstCall_swallow {x args v : Str} {call : Call} (hx : '\n' ∉ x)
    (hargs : '\n' ∉ args ++ ')' :: v) (hv : ')' ∉ v) (hclosed : CallsClosed x)
    (hcall : firstCall x = some call) :
    ')' ∉ call.after ∧ firstCall (x ++ ' ' :: (args ++ ')' :: v)) =
      some ⟨call.before, call.name, call.args ++ ')' :: (call.after ++ ' ' :: args), v⟩ := by
  induction x generalizing call with
  | nil => cases hcall
  | cons c s ih =>
      rw [firstCall] at hcall
      rw [List.cons_append, firstCall, ← List.cons_append]
      cases hhere : callAt (c :: s) with
      | some call' =>
          rw [hhere] at hcall
          obtain rfl := Option.some.inj hcall
          obtain ⟨r, after, hopen, hbefore, hreach, hno, hafter⟩ := of_callAt hhere
          have hr : '\n' ∉ r := by
            rw [(openingAt_eq_some_iff.mp hopen).1] at hx
            simp at hx
            exact hx.2
          rw [reach_of_line hr] at hreach
          rw [beyond_of_line hr, List.append_nil] at hafter
          have hline : '\n' ∉ r ++ ' ' :: (args ++ ')' :: v) := by simp [hr] at hargs ⊢; exact hargs
          have hlong : reach (r ++ ' ' :: (args ++ ')' :: v)) =
              (call'.args ++ ')' :: (call'.after ++ ' ' :: args)) ++ ')' :: v := by
            rw [reach_of_line hline, hreach, hafter]
            simp
          rw [callAt_of_reach (openingAt_append hopen _) hlong hv, beyond_of_line hline, hbefore]
          exact ⟨hafter ▸ hno, by simp⟩
      | none =>
          rw [hhere] at hcall
          obtain ⟨call₁, hrest, rfl⟩ := Option.map_eq_some_iff.mp hcall
          have hs : '\n' ∉ s := fun h => hx (.tail _ h)
          -- an opening here would be closed, and so a call
          have hopen : openingAt (c :: s) = none := by
            refine Option.eq_none_iff_forall_ne_some.mpr fun p hp => ?_
            obtain ⟨name, r⟩ := p
            have hr : '\n' ∉ r := by
              rw [(openingAt_eq_some_iff.mp hp).1] at hx
              simp at hx
              exact hx.2
            have hparen := hclosed [] _ _ _ rfl (openingAt_append hp [' '])
            rcases last_char ')' r with hno | ⟨args', after', hcut, hno⟩
            · simp [hno] at hparen
            · rw [callAt_of_reach hp ((reach_of_line hr).trans hcut) hno] at hhere
              cases hhere
          have hlong : openingAt (c :: s ++ ' ' :: (args ++ ')' :: v)) = none := by
            refine Option.eq_none_iff_forall_ne_some.mpr fun p hp => ?_
            rcases openingAt_of_space hp with ⟨r, hr, -⟩ | ⟨-, hspace, -⟩
            · rw [hopen] at hr
              cases hr
            · cases hclosed [] _ _ _ rfl hspace
          obtain ⟨hno, hlater⟩ := ih hs hclosed.of_cons hrest
          rw [callAt_of_no_opening hlong, hlater]
          exact ⟨hno, rfl⟩

/-- A text behind a word without a `$` is evaluated behind it: the word opens no call, so the first
call, if there is one, begins after it. -/
theorem expandFun_behind {env : Env} {makefile w rest v : Str} (hw : '$' ∉ w)
    (h : expandFun env makefile (w ++ ' ' :: rest) = some v) : ∃ y, v = w ++ ' ' :: y := by
  have hnone : ∀ a t, w ++ [' '] = a ++ t → openingAt t = none := by
    intro a t hat
    refine Option.eq_none_iff_forall_ne_some.mpr fun p hp => ?_
    obtain ⟨name, r⟩ := p
    have hmem : '$' ∈ w ++ [' '] := by
      rw [hat, (openingAt_eq_some_iff.mp hp).1]
      simp
    simp [hw] at hmem
  have hswallow : ¬ Swallows w rest := by
    rintro ⟨a, t, name, r, u, hat, hopen, -⟩
    rw [hnone a t hat] at hopen
    cases hopen
  rw [expandFun_eq, firstCall_append hswallow, NoOpening.firstCall_eq_none hnone] at h
  cases hrest : firstCall rest with
  | none =>
      rw [hrest] at h
      exact ⟨rest, (Option.some.inj h).symm⟩
  | some call =>
      rw [hrest] at h
      obtain ⟨r, -, rfl⟩ := Option.map_eq_some_iff.mp h
      exact ⟨call.before ++ r ++ call.after, by simp [Call.replaced, Call.behind]⟩

/-! ### A word that tells -/

/-- A word with a directory, a name and an extension, with the character `c` in each of them, and
without the characters that mean something to a call. -/
structure Mark (c : Char) (w : Str) : Prop where
  parts : ∃ d b e, w = d ++ '/' :: (b ++ '.' :: e) ∧ c ∈ d ∧ c ∈ b ∧ c ∈ e ∧ '/' ∉ b ∧ '/' ∉ e ∧
    '.' ∉ e
  plain : ∀ q ∈ w, isBlank q = false ∧ q ≠ '$' ∧ q ≠ ')' ∧ q ≠ ','

section

variable {c : Char} {w : Str}

theorem Mark.mem (h : Mark c w) : c ∈ w := by
  obtain ⟨d, b, e, rfl, hd, -⟩ := h.parts
  simp [hd]

theorem Mark.not_blank (h : Mark c w) : isBlank c = false := (h.plain c h.mem).1

theorem Mark.ne (h : Mark c w) : c ≠ '/' ∧ c ≠ '.' ∧ c ≠ ')' := by
  obtain ⟨d, b, e, -, -, hb, he, hslash, -, hdot⟩ := h.parts
  exact ⟨ne_of_mem_of_not_mem hb hslash, ne_of_mem_of_not_mem he hdot, (h.plain c h.mem).2.2.1⟩

theorem Mark.words_eq (h : Mark c w) : words w = [w] :=
  words_of_forall (List.ne_nil_of_mem h.mem) fun q hq => (h.plain q hq).1

theorem Mark.words_between (h : Mark c w) (s t : Str) :
    words (s ++ ' ' :: (w ++ ' ' :: t)) = words s ++ w :: words t := by
  rw [words_append_cons (by decide), words_append_cons (by decide), h.words_eq, List.singleton_append]

/-- What `dir` gives for one word. -/
def dirOf (w : Str) : Str := pyOr (dirname w) ['.'] ++ ['/']

/-- `dir` takes off the name, and the name has the character. So the word loses at least one
occurrence, whatever the directory in front of it is. -/
theorem Mark.count_dirOf (h : Mark c w) : (dirOf w).count c < w.count c := by
  obtain ⟨hslash, hdot, -⟩ := h.ne
  obtain ⟨d, b, e, rfl, hd, hb, -, hb', he', -⟩ := h.parts
  have hno : '/' ∉ b ++ '.' :: e := by simp [hb', he']
  have hdir : (dirname (d ++ '/' :: (b ++ '.' :: e))).count c ≤ d.count c := by
    rw [dirname_of_last_slash hno]
    split_ifs
    · simp [List.count_append, List.count_cons_of_ne (Ne.symm hslash)]
    · exact (List.rdropWhile_prefix _ _).sublist.count_le c
  have hor : (pyOr (dirname (d ++ '/' :: (b ++ '.' :: e))) ['.']).count c ≤ d.count c := by
    unfold pyOr
    split_ifs
    · simp [List.count_cons_of_ne (Ne.symm hdot)]
    · exact hdir
  have hpos := List.count_pos_iff.mpr hb
  simp only [dirOf, List.count_append, List.count_cons_of_ne (Ne.symm hslash), List.count_nil]
  omega

theorem Mark.count_basename (h : Mark c w) : (basename w).count c < w.count c := by
  obtain ⟨d, b, e, rfl, hd, -, -, hb', he', -⟩ := h.parts
  have hno : '/' ∉ b ++ '.' :: e := by simp [hb', he']
  have hpos := List.count_pos_iff.mpr hd
  have hsplit : (d ++ '/' :: (b ++ '.' :: e)).count c =
      d.count c + ('/' :: (b ++ '.' :: e)).count c := List.count_append
  rw [basename_of_last_slash hno, hsplit]
  have hle := (List.sublist_cons_self '/' (b ++ '.' :: e)).count_le c
  omega

theorem Mark.count_splitext (h : Mark c w) : (splitext w).1.count c < w.count c := by
  obtain ⟨hslash, hdot, -⟩ := h.ne
  obtain ⟨d, b, e, rfl, -, hb, he, hb', he', hdot'⟩ := h.parts
  have hno : '/' ∉ b ++ '.' :: e := by simp [hb', he']
  have hroot : b.all (· == '.') = false := by
    rw [List.all_eq_false]
    exact ⟨c, hb, by simpa using hdot⟩
  have hpos := List.count_pos_iff.mpr he
  simp only [splitext, basename_of_last_slash hno, rpartition_append hdot', hroot,
    rdropWhile_of_last_slash hno, Bool.not_false, Bool.and_true, if_true]
  simp only [List.count_append, List.count_cons_of_ne (Ne.symm hslash),
    List.count_cons_of_ne (Ne.symm hdot), List.count_nil]
  omega

end

/-! ### The functions over what they swallow -/

theorem count_dropWhile {p : Char → Bool} {c : Char} (hc : p c = false) (s : Str) :
    (s.dropWhile p).count c = s.count c := by
  have hzero : (s.takeWhile p).count c = 0 := by
    refine List.count_eq_zero.mpr fun hmem => ?_
    rw [List.mem_takeWhile_imp hmem] at hc
    cases hc
  have hall := congrArg (List.count c) (List.takeWhile_append_dropWhile (p := p) (l := s))
  rwa [List.count_append, hzero, Nat.zero_add] at hall

theorem count_stripChars {p : Char → Bool} {c : Char} (hc : p c = false) (s : Str) :
    (stripChars p s).count c = s.count c := by
  rw [stripChars, List.rdropWhile, List.count_reverse, count_dropWhile hc, List.count_reverse,
    count_dropWhile hc]

theorem count_joinWords {c : Char} (hc : isBlank c = false) (ws : List Str) :
    (joinWords ws).count c = (ws.map (List.count c)).sum := by
  have hspace : ' ' ≠ c := by
    rintro rfl
    cases hc
  rw [joinWords, count_stripChars hc, List.count_flatMap]
  congr 1
  refine List.map_congr_left fun w _ => ?_
  simp [List.count_append, List.count_cons_of_ne hspace]

/-- What stands before a character that is no blank stays, up to blanks at the front: stripping
works from the two ends, and from the right it does not get past the character. -/
theorem stripChars_append_cons {p q : Str} {c : Char} (hc : isBlank c = false) :
    ∃ q', stripChars isBlank (p ++ c :: q) = p.dropWhile isBlank ++ c :: q' := by
  have hdrop : (p ++ c :: q).dropWhile isBlank = p.dropWhile isBlank ++ c :: q := by
    rw [List.dropWhile_append]
    split_ifs with h
    · rw [List.isEmpty_iff.mp h, List.dropWhile_cons_of_neg (by simpa using hc), List.nil_append]
    · rfl
  refine ⟨q.rdropWhile isBlank, ?_⟩
  rw [stripChars, hdrop]
  simp only [List.rdropWhile, List.reverse_append, List.reverse_cons, List.append_assoc]
  rw [List.dropWhile_append]
  split_ifs with h
  · rw [List.isEmpty_iff.mp h, List.singleton_append,
      List.dropWhile_cons_of_neg (by simpa using hc)]
    simp
  · simp

section

variable {c : Char} {w A z B : Str}

theorem not_mem_joinWords {g : Str → Str} (hc : isBlank c = false) (hg : ∀ u, c ∉ u → c ∉ g u)
    {t : Str} (ht : c ∉ t) : c ∉ joinWords ((words t).map g) := by
  rw [← List.count_eq_zero, count_joinWords hc]
  refine List.sum_eq_zero fun n hn => ?_
  obtain ⟨u, hu, rfl⟩ := List.mem_map.mp hn
  obtain ⟨v, hv, rfl⟩ := List.mem_map.mp hu
  obtain ⟨-, -, a, b, rfl, -⟩ := of_mem_words hv
  exact List.count_eq_zero.mpr (hg v fun hmem => ht (by simp [hmem]))

/-- A function over words that takes something off the word that tells. The other words do not have
the character and get none, so the count over all of them is that of the one word. -/
theorem count_lossy {g : Str → Str} (hw : Mark c w) (hgw : (g w).count c < w.count c)
    (hg : ∀ u, c ∉ u → c ∉ g u) (hA : c ∉ A) (hz : c ∉ z) (hB : c ∉ B) :
    (joinWords ((words (A ++ ')' :: (z ++ ' ' :: (w ++ ' ' :: B)))).map g)).count c < w.count c := by
  have hzero : ∀ t : Str, c ∉ t → (((words t).map g).map (List.count c)).sum = 0 := by
    intro t ht
    rw [← count_joinWords hw.not_blank, List.count_eq_zero]
    exact not_mem_joinWords hw.not_blank hg ht
  have hsplit : words (A ++ ')' :: (z ++ ' ' :: (w ++ ' ' :: B))) =
      words (A ++ ')' :: z) ++ w :: words B := by
    rw [← hw.words_between]
    simp
  have hfront : c ∉ A ++ ')' :: z := by simp [hA, hz, hw.ne.2.2]
  rw [count_joinWords hw.not_blank, hsplit, List.map_append, List.map_append, List.sum_append,
    hzero _ hfront, List.map_cons, List.map_cons, List.sum_cons, hzero B hB]
  omega

/-- What `addprefix` and `addsuffix` do: the text before the first comma goes on each word up to
the next. -/
theorem functionAdd_comma {put : Str → Str → Str} {part t : Str} (hpart : ',' ∉ part) :
    functionAdd put (part ++ ',' :: t) =
      some (joinWords ((words (t.takeWhile (· != ','))).map (put part))) := by
  unfold functionAdd
  rw [List.splitOn_append_cons_self, List.splitOn_eq_singleton hpart, List.singleton_append]
  by_cases ht : ',' ∈ t
  · obtain ⟨a, b, rfl, ha⟩ := List.eq_append_cons_of_mem ht
    rw [List.splitOn_append_cons_self, List.splitOn_eq_singleton ha,
      List.takeWhile_append_of_pos (bne_of_not_mem ha)]
    simp
  · have hall : t.takeWhile (· != ',') = t :=
      List.takeWhile_eq_self_iff.mpr (bne_of_not_mem ht)
    rw [List.splitOn_eq_singleton ht, hall]

theorem comma_of_functionAdd {put : Str → Str → Str} {t r : Str} (h : functionAdd put t = some r) :
    ∃ part names, t = part ++ ',' :: names ∧ ',' ∉ part := by
  by_cases ht : ',' ∈ t
  · obtain ⟨a, b, rfl, ha⟩ := List.eq_append_cons_of_mem ht
    exact ⟨a, b, rfl, ha⟩
  · rw [functionAdd, List.splitOn_eq_singleton ht] at h
    cases h

/-- What comes out when the word that tells is swallowed: some of its characters are missing, or
there are more closing brackets in front of it than in the result for the call's own text. -/
def Betrayed (c : Char) (w r r' : Str) : Prop :=
  r'.count c < w.count c ∨ ∃ p q, r' = p ++ c :: q ∧ c ∉ p ∧ r.count ')' < p.count ')'

/-- What is in the words is in the result, and `part` once for each of them. -/
theorem count_joinWords_put {put : Str → Str → Str}
    (hput : ∀ d part n, (put part n).count d = part.count d + n.count d) {d : Char}
    (hd : isBlank d = false) (part t : Str) :
    (joinWords ((words t).map (put part))).count d =
      (words t).length * part.count d + t.count d := by
  rw [count_joinWords hd, ← sum_count_words hd t, List.map_map]
  induction words t with
  | nil => simp
  | cons u us ih =>
      rw [List.map_cons, List.sum_cons, ih, List.map_cons, List.sum_cons, Function.comp, hput,
        List.length_cons, Nat.succ_mul]
      omega

/-- Where no comma comes before the word, the names go on behind it. -/
theorem Mark.takeWhile_comma {F : Str} (hw : Mark c w) (hF : ',' ∉ F) :
    (F ++ ' ' :: (w ++ ' ' :: B)).takeWhile (· != ',') =
      F ++ ' ' :: (w ++ ' ' :: B.takeWhile (· != ',')) := by
  have hno : ',' ∉ F ++ ' ' :: w := by
    have hword : ',' ∉ w := fun hmem => (hw.plain ',' hmem).2.2.2 rfl
    simp [hF, hword]
  have hsplit : F ++ ' ' :: (w ++ ' ' :: B) = (F ++ ' ' :: w) ++ ' ' :: B := by simp
  rw [hsplit, List.takeWhile_append_of_pos (bne_of_not_mem hno),
    List.takeWhile_cons_of_pos (by decide)]
  simp

/-- The result up to the first character that tells: the words of the front and what `put` writes
before the character, so it has what they have. -/
theorem joinWords_put_mark {put : Str → Str → Str}
    (hput : ∀ d part n, (put part n).count d = part.count d + n.count d) {F part : Str} (hw : Mark c w)
    (hF : c ∉ F) (hpart : c ∉ part) : ∃ p q,
      joinWords ((words (F ++ ' ' :: (w ++ ' ' :: B))).map (put part)) = p ++ c :: q ∧ c ∉ p ∧
        (words F).length * part.count ')' + F.count ')' ≤ p.count ')' := by
  have hmem : c ∈ put part w := by
    rw [← List.count_pos_iff, hput]
    exact Nat.add_pos_right _ (List.count_pos_iff.mpr hw.mem)
  obtain ⟨pp, pq, hpp, hno⟩ := List.eq_append_cons_of_mem hmem
  let W := (words F).map (put part)
  have hcount : ∀ d, isBlank d = false → (W.flatMap (· ++ [' '])).count d =
      (words F).length * part.count d + F.count d := fun d hd => by
    rw [← count_joinWords_put hput hd part F, joinWords, count_stripChars hd]
  obtain ⟨q, hq⟩ := stripChars_append_cons (p := W.flatMap (· ++ [' ']) ++ pp)
    (q := pq ++ ' ' :: ((words B).map (put part)).flatMap (· ++ [' '])) hw.not_blank
  refine ⟨(W.flatMap (· ++ [' ']) ++ pp).dropWhile isBlank, q, ?_, fun h => ?_, ?_⟩
  · rw [hw.words_between, joinWords, List.map_append, List.map_cons, List.flatMap_append,
      List.flatMap_cons, hpp, ← hq]
    simp [W]
  · have hW : c ∉ W.flatMap (· ++ [' ']) := by
      rw [← List.count_eq_zero, hcount c hw.not_blank, List.count_eq_zero.mpr hpart,
        List.count_eq_zero.mpr hF, Nat.mul_zero]
    exact (List.mem_append.mp ((List.dropWhile_suffix _).mem h)).elim hW hno
  · rw [count_dropWhile (by decide), List.count_append, hcount ')' (by decide)]
    exact Nat.le_add_right _ _

/-- `addprefix` and `addsuffix` drop the word, or have the closing bracket in front of it. A comma
between the bracket and the word ends the names; without one the bracket is part of a name that
stands before the word. -/
theorem functionAdd_swallow {put : Str → Str → Str}
    (hput : ∀ d part n, (put part n).count d = part.count d + n.count d) {r : Str} (hw : Mark c w)
    (hA : c ∉ A) (hz : c ∉ z) (h : functionAdd put A = some r) :
    c ∉ r ∧ ∃ r', functionAdd put (A ++ ')' :: (z ++ ' ' :: (w ++ ' ' :: B))) = some r' ∧
      Betrayed c w r r' := by
  obtain ⟨part, names, rfl, hcomma⟩ := comma_of_functionAdd h
  rw [functionAdd_comma hcomma] at h
  obtain rfl := Option.some.inj h
  have hpart : c ∉ part := fun hmem => hA (by simp [hmem])
  have hnames : c ∉ names := fun hmem => hA (by simp [hmem])
  have hfront : c ∉ names ++ ')' :: z := by simp [hnames, hz, hw.ne.2.2]
  -- the result has the character only where the word is
  have hzero : ∀ t : Str, c ∉ t → (joinWords ((words t).map (put part))).count c = 0 := by
    intro t ht
    rw [count_joinWords_put hput hw.not_blank, List.count_eq_zero.mpr hpart,
      List.count_eq_zero.mpr ht, Nat.mul_zero]
  have htext : part ++ ',' :: names ++ ')' :: (z ++ ' ' :: (w ++ ' ' :: B)) =
      part ++ ',' :: ((names ++ ')' :: z) ++ ' ' :: (w ++ ' ' :: B)) := by simp
  rw [htext, functionAdd_comma hcomma]
  refine ⟨List.count_eq_zero.mp (hzero _ fun hmem => ?_), _, rfl, ?_⟩
  · exact hnames ((List.takeWhile_prefix _).mem hmem)
  by_cases hcut : ',' ∈ names ++ ')' :: z
  · -- the names end before the word
    left
    obtain ⟨a, b, hab, ha⟩ := List.eq_append_cons_of_mem hcut
    rw [hab, List.append_assoc, List.takeWhile_append_of_pos (bne_of_not_mem ha), List.cons_append,
      List.takeWhile_cons_of_neg (by decide), List.append_nil,
      hzero a fun hmem => hfront (by rw [hab]; simp [hmem])]
    exact List.count_pos_iff.mpr hw.mem
  · -- the word is one of the names: one bracket more in front of it, and at least as many words
    right
    obtain ⟨p, q, hr, hp, hle⟩ := joinWords_put_mark (B := B.takeWhile (· != ',')) hput hw hfront hpart
    refine ⟨p, q, by rw [hw.takeWhile_comma hcut, hr], hp, Nat.lt_of_lt_of_le ?_ hle⟩
    have hall : names.takeWhile (· != ',') = names :=
      List.takeWhile_eq_self_iff.mpr (bne_of_not_mem fun hmem => hcut (List.mem_append_left _ hmem))
    have hmul := Nat.mul_le_mul_right (part.count ')') (length_words_append_le names (')' :: z))
    rw [hall, count_joinWords_put hput (by decide), List.count_append, List.count_cons_self]
    omega

/-! ### Every function that is supported -/

/-- The functions of `VariablePool.MK_FUNCTIONS`. -/
def supported : List Str :=
  ["basename".toList, "notdir".toList, "dir".toList, "addprefix".toList, "addsuffix".toList]

theorem mem_of_mem_basename {u : Str} (h : c ∈ basename u) : c ∈ u :=
  (List.rtakeWhile_suffix _ _).mem h

theorem mem_of_mem_splitext {u : Str} (h : c ∈ (splitext u).1) : c ∈ u := by
  simp only [splitext] at h
  split_ifs at h with hdot
  · rcases List.mem_append.mp h with h | h
    · exact (List.rdropWhile_prefix _ _).mem h
    · rcases last_char '.' (basename u) with hno | ⟨a, b, hab, hb⟩
      · rw [rpartition_of_not_mem hno] at hdot
        cases hdot
      · rw [hab, rpartition_append hb] at h
        exact mem_of_mem_basename (by rw [hab]; simp [h])
  · exact h

theorem mem_of_mem_dirOf {u : Str} (hslash : c ≠ '/') (hdot : c ≠ '.') (h : c ∈ dirOf u) : c ∈ u := by
  rcases List.mem_append.mp h with h | h
  · unfold pyOr at h
    split_ifs at h
    · exact absurd (List.mem_singleton.mp h) hdot
    · exact mem_of_mem_dirname h
  · exact absurd (List.mem_singleton.mp h) hslash

/-- A function that takes the words one by one and takes something off the one that tells. -/
theorem lossy_swallow {g : Str → Str} {r : Str} (hw : Mark c w) (hgw : (g w).count c < w.count c)
    (hg : ∀ u, c ∉ u → c ∉ g u) (hA : c ∉ A) (hz : c ∉ z) (hB : c ∉ B)
    (h : some (joinWords ((words A).map g)) = some r) :
    c ∉ r ∧ ∃ r', some (joinWords ((words (A ++ ')' :: (z ++ ' ' :: (w ++ ' ' :: B)))).map g)) =
      some r' ∧ Betrayed c w r r' := by
  obtain rfl := Option.some.inj h
  exact ⟨not_mem_joinWords hw.not_blank hg hA, _, rfl, .inl (count_lossy hw hgw hg hA hz hB)⟩

/-- A supported function over its own text does not bring the character, and over the text it
swallows it betrays itself. -/
theorem supported_swallow (env : Env) (makefile : Str) {name r : Str} {f : Str → Option Str}
    (hname : name ∈ supported) (hf : (mkFunctions env makefile).lookup name = some f)
    (hw : Mark c w) (hA : c ∉ A) (hz : c ∉ z) (hB : c ∉ B) (h : f A = some r) :
    c ∉ r ∧ ∃ r', f (A ++ ')' :: (z ++ ' ' :: (w ++ ' ' :: B))) = some r' ∧ Betrayed c w r r' := by
  obtain ⟨hslash, hdot, -⟩ := hw.ne
  simp only [supported, List.mem_cons, List.not_mem_nil, or_false] at hname
  rcases hname with rfl | rfl | rfl | rfl | rfl
  · obtain rfl : functionBasename = f := Option.some.inj hf
    exact lossy_swallow hw hw.count_splitext (fun u => mt mem_of_mem_splitext) hA hz hB h
  · obtain rfl : functionNotdir = f := Option.some.inj hf
    exact lossy_swallow hw hw.count_basename (fun u => mt mem_of_mem_basename) hA hz hB h
  · obtain rfl : functionDir = f := Option.some.inj hf
    exact lossy_swallow hw hw.count_dirOf (fun u => mt (mem_of_mem_dirOf hslash hdot)) hA hz hB h
  · obtain rfl : functionAddprefix = f := Option.some.inj hf
    exact functionAdd_swallow (fun _ _ _ => List.count_append) hw hA hz h
  · obtain rfl : functionAddsuffix = f := Option.some.inj hf
    exact functionAdd_swallow (fun _ _ _ => List.count_append.trans (Nat.add_comm _ _)) hw hA hz h

/-- Either way the text is not the right one. The right one has the whole word, and as many brackets
before it as the call alone left: both are counted. -/
theorem Betrayed.ne {r r' u v y : Str} (h : Betrayed c w r r') (hw : Mark c w) (hu : c ∉ u)
    (hv : c ∉ v) (hr : c ∉ r) (hz : c ∉ z) (hparen : ')' ∉ z) :
    u ++ r' ++ v ≠ u ++ r ++ z ++ ' ' :: (w ++ ' ' :: y) := by
  intro heq
  rcases h with hless | ⟨p, q, rfl, hp, hmore⟩
  · have hcount := congrArg (List.count c) heq
    simp only [List.count_append, List.count_cons, List.count_eq_zero.mpr hu,
      List.count_eq_zero.mpr hv] at hcount
    omega
  · -- compare what stands before the first `c`
    obtain ⟨wp, wq, hwq, hwp⟩ := List.eq_append_cons_of_mem hw.mem
    have hspace : c ≠ ' ' := by
      rintro rfl
      exact absurd hw.not_blank (by decide)
    have hfirst : (u ++ p) ++ c :: (q ++ v) =
        (u ++ r ++ z ++ ' ' :: wp) ++ c :: (wq ++ ' ' :: y) := by
      rw [hwq] at heq
      simpa using heq
    have hsame := (Make.append_cons_inj (by simp [hu, hp]) (by simp [hu, hr, hz, hspace, hwp])
      hfirst).1
    have hcount := congrArg (List.count ')') hsame
    have hnone : wp.count ')' = 0 := List.count_eq_zero.mpr fun hmem =>
      (hw.plain ')' (by rw [hwq]; simp [hmem])).2.2.1 rfl
    have hspace' : (' ' :: wp).count ')' = wp.count ')' := List.count_cons_of_ne (by decide)
    simp only [List.count_append, List.count_eq_zero.mpr hparen, hspace', hnone] at hcount
    omega

end

/-! ### When evaluation composes -/

/-- Two texts whose words cannot coincide: each is on one line, the calls of the first end in it,
all calls are to supported functions, and the second begins with a word that tells. -/
structure Telling (x₁ x₂ : Str) : Prop where
  line₁ : '\n' ∉ x₁
  line₂ : '\n' ∉ x₂
  closed : CallsClosed x₁
  calls : ∀ call, firstCall x₁ = some call ∨ firstCall x₂ = some call → call.name ∈ supported
  marked : ∃ c w rest, Mark c w ∧ x₂ = w ++ ' ' :: rest ∧ c ∉ x₁ ∧ c ∉ rest

section

variable {env : Env} {makefile x₁ x₂ : Str}

/-- A supported function is called by its own name, and gets all of the arguments. Only `call` takes
the name from its arguments, and it is not one of these. -/
theorem exists_function (env : Env) (makefile : Str) {name : Str} (h : name ∈ supported) :
    ∃ f, (mkFunctions env makefile).lookup name = some f ∧
      ∀ call : Call, call.name = name →
        call.known env makefile = true ∧ ∀ x, call.result env makefile x = f call.args := by
  have hne : name ≠ "call".toList := by
    rintro rfl
    exact absurd h (by decide)
  obtain ⟨f, hf⟩ : ∃ f, (mkFunctions env makefile).lookup name = some f := by
    simp only [supported, List.mem_cons, List.not_mem_nil, or_false] at h
    rcases h with rfl | rfl | rfl | rfl | rfl <;> exact ⟨_, rfl⟩
  refine ⟨f, hf, ?_⟩
  rintro call rfl
  have hfun : call.function = call.name := if_neg hne
  have harg : call.argument = call.args := if_neg hne
  refine ⟨by rw [Call.known, hfun, hf]; rfl, fun x => ?_⟩
  rw [Call.result, hfun, hf, harg]

/-- A call that begins and ends in a text of one line is found. Everything on the line is in reach
of the opening, so the last bracket closes it. -/
theorem firstCall_ne_none (hline : '\n' ∉ x₁) (hclosed : CallsClosed x₁) (h : ¬ NoOpening x₁) :
    firstCall x₁ ≠ none := by
  simp only [NoOpening, not_forall] at h
  obtain ⟨a, t, hat, hopen⟩ := h
  obtain ⟨⟨name, r⟩, hopen⟩ := Option.ne_none_iff_exists'.mp hopen
  have hparen := hclosed a t name r hat hopen
  -- the space belongs to the arguments
  obtain ⟨t, d, rfl⟩ : ∃ t' d, t = t' ++ [d] := by
    rcases List.eq_nil_or_concat' t with rfl | ht
    · cases hopen
    · exact ht
  rw [← List.append_assoc] at hat
  obtain ⟨rfl, hd⟩ := List.append_inj' hat rfl
  obtain rfl : ' ' = d := (List.cons.inj hd).1
  rcases openingAt_of_space hopen with ⟨r, hr, rfl⟩ | ⟨-, -, rfl⟩
  · refine firstCall_of_callAt_ne_none ?_ a
    have hr' : '\n' ∉ r := by
      rw [(openingAt_eq_some_iff.mp hr).1] at hline
      simp at hline
      exact hline.2.2
    rcases last_char ')' r with hno | ⟨args, after, hcut, hno⟩
    · simp [hno] at hparen
    · rw [callAt_of_reach hr ((reach_of_line hr').trans hcut) hno]
      simp
  · cases hparen

/-- **Where the words cannot coincide, evaluation composes only if the texts keep apart.** If a call
of the first text is closed by a bracket of the second one, its function gets the word that tells
among its arguments, and each of the functions betrays it. -/
theorem Telling.apart (h : Telling x₁ x₂) (hreturns : expandFun env makefile x₁ ≠ none)
    (heq : expandFun env makefile (x₁ ++ ' ' :: x₂) =
      joined (expandFun env makefile x₁) (expandFun env makefile x₂)) :
    Apart env makefile x₁ x₂ := by
  have hknown : ∀ call, firstCall x₁ = some call ∨ firstCall x₂ = some call →
      call.known env makefile = true := by
    intro call hcall
    obtain ⟨f, -, hf⟩ := exists_function env makefile (h.calls call hcall)
    exact (hf call rfl).1
  refine (apart_iff_of_line h.line₁ h.line₂ hknown).mpr ?_
  by_contra hboth
  obtain ⟨hopen, hparen⟩ := not_or.mp hboth
  obtain ⟨call, hcall⟩ := Option.ne_none_iff_exists'.mp (firstCall_ne_none h.line₁ h.closed hopen)
  obtain ⟨c, w, rest, hw, rfl, hc₁, hrest⟩ := h.marked
  -- the last closing bracket stands behind the word that tells
  have hmem : ')' ∈ rest := by
    rcases List.mem_append.mp (not_not.mp hparen) with hmem | hmem
    · exact absurd rfl (hw.plain ')' hmem).2.2.1
    · exact (List.mem_cons.mp hmem).resolve_left (by decide)
  obtain ⟨B, v, rfl, hv⟩ := (last_char ')' rest).resolve_left (not_not.mpr hmem)
  have hline : '\n' ∉ (w ++ ' ' :: B) ++ ')' :: v := by simpa using h.line₂
  obtain ⟨hafter, hlong⟩ := firstCall_swallow h.line₁ hline hv h.closed hcall
  rw [List.append_assoc, List.cons_append] at hlong
  have hno : c ∉ call.before ∧ c ∉ call.args ∧ c ∉ call.after := by
    rw [text_of_firstCall hcall, Call.text] at hc₁
    simp at hc₁
    tauto
  -- both evaluations carry out the same function
  obtain ⟨f, hf, hresult⟩ := exists_function env makefile (h.calls call (.inl hcall))
  rw [expandFun_eq, hcall] at hreturns
  rw [expandFun_eq, hlong, expandFun_eq env makefile x₁, hcall] at heq
  dsimp only at heq hreturns
  rw [(hresult call rfl).2] at heq hreturns
  rw [(hresult ⟨call.before, call.name, _, v⟩ rfl).2] at heq
  obtain ⟨r, hr⟩ := Option.ne_none_iff_exists'.mp (mt Option.map_eq_none_iff.mpr hreturns)
  have hB : c ∉ B := fun hmem => hrest (by simp [hmem])
  obtain ⟨hcr, r', hr', hbetrayed⟩ := supported_swallow env makefile (h.calls call (.inl hcall)) hf
    hw hno.2.1 hno.2.2 hB hr
  rw [hr, hr'] at heq
  -- so the second one returns, and keeps the word that tells
  obtain ⟨v₂, hv₂, hjoin⟩ := Option.map_eq_some_iff.mp heq.symm
  obtain ⟨y, rfl⟩ := expandFun_behind (fun hmem => (hw.plain '$' hmem).2.1 rfl) hv₂
  have hv' : c ∉ v := fun hmem => hrest (by simp [hmem])
  exact hbetrayed.ne hw hno.1 hv' hcr hno.2.2 hafter hjoin.symm

end

/-- **Evaluation composes if the two expressions keep apart**: with their variables put in, no
call of the first has a closing bracket of the second in its reach, at most one of them has a
call, and its function is known. Where the words cannot coincide this is necessary too. -/
theorem evalExpression_append_iff (env : Env) (pool : VariablePool) {e₁ e₂ x₁ x₂ : Str}
    {fuel₁ fuel₂ fuel : Nat} (h₁ : expandVar pool.vars fuel₁ e₁ = some x₁)
    (h₂ : expandVar pool.vars fuel₂ e₂ = some x₂) (hfuel : fuel₁ + fuel₂ ≤ fuel) :
    (Apart env pool.makefile x₁ x₂ →
      evalExpression env fuel pool (e₁ ++ ' ' :: e₂) =
        joined (evalExpression env fuel pool e₁) (evalExpression env fuel pool e₂)) ∧
    (Telling x₁ x₂ → evalExpression env fuel pool e₁ ≠ none →
      (evalExpression env fuel pool (e₁ ++ ' ' :: e₂) =
          joined (evalExpression env fuel pool e₁) (evalExpression env fuel pool e₂) ↔
        Apart env pool.makefile x₁ x₂)) := by
  have hboth : evalExpression env fuel pool (e₁ ++ ' ' :: e₂) =
      expandFun env pool.makefile (x₁ ++ ' ' :: x₂) := by
    rw [evalExpression, expandVar_mono (expandVar_append h₁ h₂) hfuel, Option.bind_some]
  have hfirst : evalExpression env fuel pool e₁ = expandFun env pool.makefile x₁ := by
    rw [evalExpression, expandVar_mono h₁ (Nat.le_trans (Nat.le_add_right _ _) hfuel), Option.bind_some]
  have hsecond : evalExpression env fuel pool e₂ = expandFun env pool.makefile x₂ := by
    rw [evalExpression, expandVar_mono h₂ (Nat.le_trans (Nat.le_add_left _ _) hfuel), Option.bind_some]
  rw [hboth, hfirst, hsecond]
  exact ⟨Apart.expandFun_append, fun htelling hreturns =>
    ⟨htelling.apart hreturns, Apart.expandFun_append⟩⟩

/-- The variables of an `Android.mk` before its first line. -/
def freshPool : VariablePool := ⟨"Android.mk".toList, fun _ => none⟩

theorem firstCall_dir : firstCall "$(dir a)".toList = some ⟨[], "dir".toList, "a".toList, []⟩ := rfl

theorem firstCall_marked_dir : firstCall "q/q.q $(dir b)".toList =
    some ⟨"q/q.q ".toList, "dir".toList, "b".toList, []⟩ := rfl

theorem telling_dir : Telling "$(dir a)".toList "q/q.q $(dir b)".toList where
  line₁ := by decide
  line₂ := by decide
  closed a t name r hat hopen := by
    have hall : ∀ t ∈ ("$(dir a)".toList ++ [' ']).tails,
        (openingAt t).all (fun p => p.2.contains ')') = true := by decide
    have ht := hall t ((List.mem_tails _ _).mpr ⟨a, hat.symm⟩)
    rw [hopen] at ht
    simpa using ht
  calls call h := by
    rw [firstCall_dir, firstCall_marked_dir] at h
    rcases h with h | h <;> obtain rfl := Option.some.inj h <;> decide
  marked := by
    have hplain : "q/q.q".toList.all
        (fun q => decide (isBlank q = false ∧ q ≠ '$' ∧ q ≠ ')' ∧ q ≠ ',')) = true := by decide
    refine ⟨'q', "q/q.q".toList, "$(dir b)".toList, ⟨⟨['q'], ['q'], ['q'], ?_⟩, ?_⟩, rfl, ?_⟩
    · decide
    · exact fun q hq => of_decide_eq_true (List.all_eq_true.mp hplain q hq)
    · decide

/-- A call with a variable in it and a text with one behind it compose; two calls do not. -/
theorem evalExpression_append_iff_dir :
    evalExpression Env.bare 4 (freshPool.set ['D'] "a/".toList) "$(dir $(D)b) $(D)c".toList =
        joined (evalExpression Env.bare 4 (freshPool.set ['D'] "a/".toList) "$(dir $(D)b)".toList)
          (evalExpression Env.bare 4 (freshPool.set ['D'] "a/".toList) "$(D)c".toList) ∧
      evalExpression Env.bare 2 freshPool "$(dir a) q/q.q $(dir b)".toList ≠
        joined (evalExpression Env.bare 2 freshPool "$(dir a)".toList)
          (evalExpression Env.bare 2 freshPool "q/q.q $(dir b)".toList) := by
  constructor
  · have h₁ : expandVar (freshPool.set ['D'] "a/".toList).vars 2 "$(dir $(D)b)".toList =
        some "$(dir a/b)".toList := by decide
    have h₂ : expandVar (freshPool.set ['D'] "a/".toList).vars 2 "$(D)c".toList =
        some "a/c".toList := by decide
    have hcall : firstCall "$(dir a/b)".toList = some ⟨[], "dir".toList, "a/b".toList, []⟩ := rfl
    refine (evalExpression_append_iff Env.bare _ h₁ h₂ (Nat.le_refl 4)).1 ?_
    refine (apart_iff_of_line (by decide) (by decide) fun call h => ?_).mpr (.inr (by decide))
    rcases h with h | h
    · rw [hcall] at h
      obtain rfl := Option.some.inj h
      rfl
    · rw [firstCall_of_not_mem (by decide)] at h
      cases h
  · have h₁ : expandVar freshPool.vars 1 "$(dir a)".toList = some "$(dir a)".toList := by decide
    have h₂ : expandVar freshPool.vars 1 "q/q.q $(dir b)".toList =
        some "q/q.q $(dir b)".toList := by decide
    intro heq
    have hapart := ((evalExpression_append_iff Env.bare freshPool h₁ h₂ (Nat.le_refl 2)).2
      telling_dir (by decide)).mp heq
    have hone := hapart.one
    rw [firstCall_dir, firstCall_marked_dir] at hone
    simp at hone

/-- Two calls: the first takes the second for a part of its arguments. -/
theorem second_call_swallowed :
    evalExpression Env.bare 1 freshPool "$(dir a/b)".toList = some "a/".toList ∧
      evalExpression Env.bare 1 freshPool "$(notdir c/d)".toList = some "d".toList ∧
      evalExpression Env.bare 1 freshPool "$(dir a/b) $(notdir c/d)".toList =
        some "a/ ./ c/".toList ∧
      evalExpression Env.bare 1 freshPool "$(dir a/b) $(notdir c/d)".toList ≠
        joined (evalExpression Env.bare 1 freshPool "$(dir a/b)".toList)
          (evalExpression Env.bare 1 freshPool "$(notdir c/d)".toList) := by
  decide

-- Two calls may still give the right text by accident: here both ways it is `./` seven times.
example : evalExpression Env.bare 1 freshPool "$(dir x) $(addprefix ./ , ./ ./ ./)".toList =
    joined (evalExpression Env.bare 1 freshPool "$(dir x)".toList)
      (evalExpression Env.bare 1 freshPool "$(addprefix ./ , ./ ./ ./)".toList) := by
  decide

end BlogStuff.Adepends
