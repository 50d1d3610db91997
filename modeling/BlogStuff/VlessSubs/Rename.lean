import BlogStuff.VlessSubs.FlowItems
import BlogStuff.Yaml.Flow

/-!
# BlogStuff.VlessSubs.Rename

What the rewriting of names does to a flow item `- { k1: v1, .., kn: vn }`.

The name is looked for as text, the first `name:` of the line, so the key may be that of
another entry that ends in `name`. The value is cut at the next quote and stripped, so it is
the value of the entry exactly if it is written as it is: no doubled quote, no escape, no
blanks at its ends (`shownName_eq_iff`). Where both go well the line is read as before with
only the name changed (`rename_iff`).
-/

namespace BlogStuff.VlessSubs

open BlogStuff.Python BlogStuff.Yaml

/-! ### Blanks -/

theorem isSpace_of_isWhite {c : Char} (h : isWhite c = true) : isSpace c = true := by
  simp only [isWhite, Bool.or_eq_true, beq_iff_eq] at h
  rcases h with rfl | rfl <;> decide

/-- With a value that does not start with a blank of either kind, both kinds of blanks are
passed over alike. -/
theorem lstrip_eq_dropWhile {s : Str}
    (h : ∀ c, (s.dropWhile isWhite).head? = some c → isSpace c = false) :
    lstrip s = s.dropWhile isWhite ∧ s.takeWhile isSpace = s.takeWhile isWhite := by
  induction s with
  | nil => exact ⟨rfl, rfl⟩
  | cons c s ih =>
      by_cases hc : isWhite c = true
      · rw [List.dropWhile_cons_of_pos hc] at h ⊢
        obtain ⟨hl, ht⟩ := ih h
        rw [lstrip, List.dropWhile_cons_of_pos (isSpace_of_isWhite hc),
          List.takeWhile_cons_of_pos (isSpace_of_isWhite hc), List.takeWhile_cons_of_pos hc, ht]
        exact ⟨hl, rfl⟩
      · rw [List.dropWhile_cons_of_neg hc] at h ⊢
        have hs : ¬ isSpace c = true := by rw [h c rfl]; decide
        rw [lstrip, List.dropWhile_cons_of_neg hs, List.takeWhile_cons_of_neg hs,
          List.takeWhile_cons_of_neg hc]
        exact ⟨rfl, rfl⟩

/-! ### Plain values -/

theorem inValue_of_mem_spanPlain {c : Char} {s : Str} (h : c ∈ (spanPlain s).1) :
    inValue c = true := by
  induction s with
  | nil => simp [spanPlain] at h
  | cons d s ih =>
      rw [spanPlain] at h
      split_ifs at h with hd
      · simp at h
      · rcases List.mem_cons.mp h with rfl | h
        · by_contra hc
          refine hd ?_
          have hind : isFlowIndicator c = true := by
            simp only [inValue, Bool.and_eq_true, bne_iff_ne, not_and_or, not_not] at hc
            rcases hc with rfl | rfl <;> decide
          simp [endsPlain, hind]
        · exact ih h

theorem endsPlain_spanPlain (s : Str) : endsPlain (spanPlain s).2 = true := by
  induction s with
  | nil => rfl
  | cons d s ih =>
      rw [spanPlain]
      split_ifs with hd
      · exact hd
      · exact ih

/-- Behind a plain value the comma or brace follows at once: the blanks count as part of
the scanned text. -/
theorem eq_of_endsPlain {t r : Str} {x : Char} (hend : endsPlain t = true)
    (ht : t.dropWhile isWhite = x :: r) (hx : x = ',' ∨ x = '\x7d') : t = x :: r := by
  cases t with
  | nil => cases ht
  | cons c t =>
      by_cases hc : isWhite c = true
      · rw [List.dropWhile_cons_of_pos hc] at ht
        have hhash : t.head? = some '#' := by
          simp only [isWhite, Bool.or_eq_true, beq_iff_eq] at hc
          rcases hc with rfl | rfl <;> simpa [endsPlain, isFlowIndicator, isNbChar, isPrintable,
            isBreak, isWhite] using hend
        obtain ⟨u, rfl⟩ := List.head?_eq_some_iff.mp hhash
        rw [List.dropWhile_cons_of_neg (by decide)] at ht
        obtain ⟨rfl, -⟩ := List.cons.inj ht
        rcases hx with h | h <;> exact absurd h (by decide)
      · rw [List.dropWhile_cons_of_neg hc] at ht
        exact ht

/-! ### Double-quoted values -/

/-- A text without quotes is read into the front of the value, whatever follows. It may end inside
an escape, and the reading then goes on from there. -/
theorem readDouble_append {p s n t : Str} (hp : '"' ∉ p) {e : Escape}
    (h : readDouble e (p ++ s) = some (n, t)) :
    ∃ e' m n', n = m ++ n' ∧ readDouble e' s = some (n', t) := by
  induction p generalizing e n with
  | nil => exact ⟨e, [], n, rfl, h⟩
  | cons d p ih =>
      obtain ⟨hd, hp'⟩ : d ≠ '"' ∧ '"' ∉ p := by simpa [eq_comm] using hp
      rw [List.cons_append] at h
      rcases readDouble_step e d with ⟨-, rfl⟩ | ⟨e', hgo⟩ | ⟨y, hemit⟩ | hstop
      · exact absurd rfl hd
      · rw [hgo] at h
        exact ih hp' h
      · rw [hemit] at h
        obtain ⟨⟨v', rest'⟩, hread, heq⟩ := Option.map_eq_some_iff.mp h
        obtain ⟨rfl, rfl⟩ := Prod.mk.inj heq
        obtain ⟨e', m, n', rfl, hrest⟩ := ih hp' hread
        exact ⟨e', y :: m, n', rfl, hrest⟩
      · rw [hstop] at h
        cases h

/-- A blank in front of the closing quote is the last character, escaped or not: an escaped blank
stands for itself, and none of the long escapes ends in one. -/
theorem readDouble_last {x : Char} (hx : isSpace x = true) {p u n t : Str} (hp : '"' ∉ p)
    {e : Escape} (h : readDouble e (p ++ x :: '"' :: u) = some (n, t)) : ∃ m, n = m ++ [x] := by
  have hq : x ≠ '"' := by
    rintro rfl
    exact absurd hx (by decide)
  have hb : x ≠ '\\' := by
    rintro rfl
    exact absurd hx (by decide)
  obtain ⟨e', m, n', rfl, h⟩ := readDouble_append hp h
  suffices hn' : n' = [x] from ⟨m, by rw [hn']⟩
  cases e' with
  | none =>
      rw [readDouble, if_neg hq, if_neg hb, readDouble_close] at h
      split_ifs at h
      exact (Prod.mk.inj (Option.some.inj h)).1.symm
  | slash =>
      have hhex : hexLength x = none :=
        of_isSpace (P := fun c => hexLength c = none) (by decide) hx
      have hesc : escapeChar x = none ∨ escapeChar x = some x :=
        of_isSpace (P := fun c => escapeChar c = none ∨ escapeChar c = some c) (by decide) hx
      rw [readDouble, hhex] at h
      rcases hesc with hesc | hesc
      · rw [hesc] at h
        cases h
      · simp only [hesc, readDouble_close] at h
        exact (Prod.mk.inj (Option.some.inj h)).1.symm
  | hex todo value =>
      have hhex : hexValue x = none :=
        of_isSpace (P := fun c => hexValue c = none) (by decide) hx
      rw [readDouble, hhex] at h
      cases h

/-- Without a quote in what was read, the first quote closed it. Were it escaped it would have been
read. -/
theorem readDouble_first {p u n t : Str} (hp : '"' ∉ p) (hn : '"' ∉ n) {e : Escape}
    (h : readDouble e (p ++ '"' :: u) = some (n, t)) : t = u := by
  obtain ⟨e', m, n', rfl, h⟩ := readDouble_append hp h
  cases e' with
  | none =>
      rw [readDouble_close] at h
      exact (Prod.mk.inj (Option.some.inj h)).2.symm
  | slash =>
      -- an escaped quote would be part of what was read
      have hesc : escapeChar '"' = some '"' := by decide
      have hhex : hexLength '"' = none := by decide
      rw [readDouble, hhex] at h
      simp only [hesc] at h
      obtain ⟨⟨v', rest'⟩, -, heq⟩ := Option.map_eq_some_iff.mp h
      obtain ⟨rfl, -⟩ := Prod.mk.inj heq
      exact absurd (List.mem_append_right m List.mem_cons_self) hn
  | hex todo value =>
      have hhex : hexValue '"' = none := by decide
      rw [readDouble, hhex] at h
      cases h

/-- **The text up to the first quote, stripped, is the value only if there is no escape.** Blanks at
its ends would be part of the value, so nothing was stripped; then the text and the value are
equally long. -/
theorem doubleSafe_of_strip {p u n t : Str} (hp : '"' ∉ p)
    (h : readDouble .none (p ++ '"' :: u) = some (n, t)) (hn : strip p = n) (hne : n ≠ []) :
    DoubleSafe p ∧ n = p ∧ t = u := by
  have hstripped : Stripped n := by
    rw [← hn]
    exact stripped_strip p
  obtain ⟨hfirst, hlast⟩ := stripped_iff.mp hstripped
  have hquote : '"' ∉ n := by
    rw [← hn]
    exact fun hmem => hp (mem_strip hmem)
  have hself : strip p = p := by
    refine stripped_iff.mpr ⟨fun c hc => ?_, fun c hc => ?_⟩
    · -- a blank at the front is read as it is
      by_contra hsp
      rw [Bool.not_eq_false] at hsp
      obtain ⟨p', rfl⟩ := List.head?_eq_some_iff.mp hc
      have hq : c ≠ '"' := by
        rintro rfl
        exact absurd hsp (by decide)
      have hb : c ≠ '\\' := by
        rintro rfl
        exact absurd hsp (by decide)
      rw [List.cons_append, readDouble, if_neg hq, if_neg hb] at h
      split_ifs at h
      obtain ⟨⟨v', rest'⟩, -, heq⟩ := Option.map_eq_some_iff.mp h
      obtain ⟨rfl, -⟩ := Prod.mk.inj heq
      rw [hfirst c rfl] at hsp
      cases hsp
    · by_contra hsp
      rw [Bool.not_eq_false] at hsp
      obtain ⟨p', rfl⟩ := List.getLast?_eq_some_iff.mp hc
      rw [List.append_assoc, List.singleton_append] at h
      obtain ⟨m, rfl⟩ := readDouble_last hsp (fun hmem => hp (List.mem_append_left _ hmem)) h
      rw [hlast c List.getLast?_concat] at hsp
      cases hsp
  rw [hself] at hn
  subst hn
  obtain rfl := readDouble_first hp hquote h
  obtain ⟨c, hc, -, hread⟩ := readDouble_local h
  obtain rfl : p = c := List.append_cancel_right hc
  have hsafe := (readDouble_eq_self_iff.mp (hread [])).1
  exact ⟨hsafe, rfl, rfl⟩

/-! ### Values that are written as they are -/

/-- The value of an entry stands in the line as it is, plain or between quotes, without
blanks at its ends. -/
def Verbatim (e : FlowEntry) : Prop :=
  Stripped e.value.text ∧ ((∃ n, e.value = .plain n) ∨
    ∃ q t, (q = '\'' ∨ q = '"' ∧ '\\' ∉ e.value.text) ∧ q ∉ e.value.text ∧
      e.behind.dropWhile isWhite = q :: (e.value.text ++ q :: t))

theorem stripped_shownName (r : Str) : Stripped (shownName r) := stripped_strip _

/-- Between single quotes, text without a quote is read as it is, unless the quote behind it is a
doubled one: then what is read goes on. -/
theorem readSingle_plain {p u n t : Str} (hp : '\'' ∉ p)
    (h : readSingle (p ++ '\'' :: u) = some (n, t)) :
    (u.head? = some '\'' ∧ p.length < n.length) ∨ (n = p ∧ t = u) := by
  have hself : doubleQuotes p = p := by
    rw [doubleQuotes]
    refine (List.flatMap_congr (fun c hc => ?_)).trans (List.flatMap_singleton' p)
    have hne : c ≠ '\'' := by
      rintro rfl
      exact hp hc
    exact if_neg hne
  have hread := readSingle_doubleQuotes p ('\'' :: u)
  rw [hself, h] at hread
  split_ifs at hread
  obtain ⟨⟨v, rest⟩, hv, heq⟩ := Option.map_eq_some_iff.mp hread.symm
  obtain ⟨rfl, rfl⟩ := Prod.mk.inj heq
  cases u with
  | nil =>
      obtain ⟨rfl, rfl⟩ := Prod.mk.inj (Option.some.inj hv)
      exact Or.inr ⟨List.append_nil p, rfl⟩
  | cons c u =>
      by_cases hc : c = '\''
      · subst hc
        rw [readSingle, if_pos rfl] at hv
        obtain ⟨⟨v', rest'⟩, -, heq'⟩ := Option.map_eq_some_iff.mp hv
        obtain ⟨rfl, -⟩ := Prod.mk.inj heq'
        exact Or.inl ⟨rfl, by simp⟩
      · rw [readSingle, if_neg hc] at hv
        obtain ⟨rfl, rfl⟩ := Prod.mk.inj (Option.some.inj hv)
        exact Or.inr ⟨List.append_nil p, rfl⟩

theorem exists_cut {q : Char} {s : Str} (h : q ∈ s) :
    ∃ u, s = s.takeWhile (· != q) ++ q :: u ∧ q ∉ s.takeWhile (· != q) ∧
      (s.dropWhile (· != q)).tail = u := by
  obtain ⟨u, hu⟩ := List.head?_eq_some_iff.mp (Regex.head?_dropWhile_ne h)
  refine ⟨u, ?_, fun hmem => ?_, by rw [hu]; rfl⟩
  · conv_lhs => rw [← List.takeWhile_append_dropWhile (p := (· != q)) (l := s), hu]
  · have hne := List.mem_takeWhile_imp hmem
    simp at hne

theorem cut_append {q : Char} {n : Str} (h : q ∉ n) (t : Str) :
    (n ++ q :: t).takeWhile (· != q) = n ∧ ((n ++ q :: t).dropWhile (· != q)).tail = t := by
  have hall : ∀ c ∈ n, (c != q) = true := by
    intro c hc
    rw [bne_iff_ne]
    rintro rfl
    exact h hc
  rw [List.takeWhile_append_of_pos hall, List.dropWhile_append_of_pos hall,
    List.takeWhile_cons_of_neg (by simp), List.dropWhile_cons_of_neg (by simp)]
  exact ⟨List.append_nil n, rfl⟩

theorem cutValue_plain {c x : Char} {p r : Str} (hp : ∀ d ∈ c :: p, inValue d = true)
    (hquote : c ≠ '\'' ∧ c ≠ '"') (hx : ¬ inValue x = true) :
    cutValue (c :: p ++ x :: r) = (c :: p, x :: r) := by
  have hno : ¬ ((c = '\'' ∨ c = '"') ∧ c ∈ p ++ x :: r) :=
    fun h => h.1.elim hquote.1 hquote.2
  rw [List.cons_append, cutValue, if_neg hno, ← List.cons_append,
    List.takeWhile_append_of_pos hp, List.dropWhile_append_of_pos hp,
    List.takeWhile_cons_of_neg hx, List.dropWhile_cons_of_neg hx, List.append_nil]

theorem cutValue_quoted {q : Char} {n : Str} (hquote : q = '\'' ∨ q = '"') (hq : q ∉ n) (t : Str) :
    cutValue (q :: (n ++ q :: t)) = (n, t) := by
  obtain ⟨hcut, htail⟩ := cut_append hq t
  rw [cutValue, if_pos ⟨hquote, by simp⟩]
  exact Prod.ext hcut htail

theorem lstrip_quoted {s u : Str} {q : Char} (hs : s.dropWhile isWhite = q :: u)
    (hq : q = '\'' ∨ q = '"') :
    lstrip s = q :: u ∧ s.takeWhile isSpace = s.takeWhile isWhite := by
  obtain ⟨hl, htake⟩ := lstrip_eq_dropWhile (s := s) (by
    rw [hs]
    intro c hc
    rw [← Option.some.inj hc]
    rcases hq with rfl | rfl <;> decide)
  exact ⟨hl.trans hs, htake⟩

theorem shownName_quoted {s u : Str} {q : Char} (hs : s.dropWhile isWhite = q :: u)
    (hq : q = '\'' ∨ q = '"') (hmem : q ∈ u) : shownName s = strip (u.takeWhile (· != q)) := by
  rw [shownName, (lstrip_quoted hs hq).1, cutValue, if_pos ⟨hq, hmem⟩]

theorem strip_of_stripped_stripEnd {p : Str} (h : Stripped (stripEnd p)) :
    strip p = stripEnd p := by
  have hp : p = stripEnd p ++ p.rtakeWhile isWhite := List.rdropWhile_append_rtakeWhile.symm
  have hwhite : ∀ c ∈ p.rtakeWhile isWhite, isSpace c = true :=
    fun c hc => isSpace_of_isWhite (List.mem_rtakeWhile_imp hc)
  calc strip p = strip (rstrip p) := (strip_rstrip p).symm
    _ = strip (rstrip (stripEnd p)) := by
        conv_lhs => rw [hp]
        rw [rstrip_append_white hwhite]
    _ = strip (stripEnd p) := strip_rstrip _
    _ = stripEnd p := h

section

variable {e : FlowEntry} {t r : Str} {x : Char}
  (hv : readFlowScalar (e.behind.dropWhile isWhite) = some (e.value, t))
  (ht : t.dropWhile isWhite = x :: r) (hx : x = ',' ∨ x = '\x7d') (hne : e.value.text ≠ [])
include hv

/-- The three kinds of values, with the text each of them takes up. A plain one begins with no quote
and holds none of the characters that end a value. -/
theorem value_cases :
    (∃ u n, e.behind.dropWhile isWhite = '"' :: u ∧ readDouble .none u = some (n, t) ∧
      e.value = .quoted n) ∨
    (∃ u n, e.behind.dropWhile isWhite = '\'' :: u ∧ readSingle u = some (n, t) ∧
      e.value = .quoted n) ∨
    ∃ p, (∀ c ∈ p, inValue c = true) ∧ e.behind.dropWhile isWhite = p ++ t ∧
      (∀ c, p.head? = some c → c ≠ '\'' ∧ c ≠ '"') ∧ endsPlain t = true ∧
      e.value = .plain (stripEnd p) := by
  unfold readFlowScalar at hv
  split_ifs at hv with hd hs hp
  · obtain ⟨u, hu⟩ := List.head?_eq_some_iff.mp hd
    rw [hu] at hv
    obtain ⟨⟨n, t'⟩, hread, heq⟩ := Option.map_eq_some_iff.mp hv
    obtain ⟨hval, rfl⟩ := Prod.mk.inj heq
    exact Or.inl ⟨u, n, hu, hread, hval.symm⟩
  · obtain ⟨u, hu⟩ := List.head?_eq_some_iff.mp hs
    rw [hu] at hv
    obtain ⟨⟨n, t'⟩, hread, heq⟩ := Option.map_eq_some_iff.mp hv
    obtain ⟨hval, rfl⟩ := Prod.mk.inj heq
    exact Or.inr (Or.inl ⟨u, n, hu, hread, hval.symm⟩)
  · obtain ⟨hval, rfl⟩ := Prod.mk.inj (Option.some.inj hv)
    have hsplit := (spanPlain_local (e.behind.dropWhile isWhite)).1
    refine Or.inr (Or.inr ⟨_, fun c hc => inValue_of_mem_spanPlain hc, hsplit, fun c hc => ?_,
      endsPlain_spanPlain _, hval.symm⟩)
    have hhead : (e.behind.dropWhile isWhite).head? = some c := by
      rw [hsplit]
      cases hspan : (spanPlain (e.behind.dropWhile isWhite)).1 with
      | nil => rw [hspan] at hc; cases hc
      | cons d p => rw [hspan] at hc; exact hc
    refine ⟨?_, ?_⟩
    · rintro rfl
      exact hs hhead
    · rintro rfl
      exact hd hhead

include ht hx hne

/-- A plain value without blanks at its ends is cut out exactly: the pattern stops at the character
that ends the value for the reader too. -/
theorem cutValue_of_plain {n : Str} (hplain : e.value = .plain n) (hstripped : Stripped n) :
    e.behind.takeWhile isSpace = e.behind.takeWhile isWhite ∧
      (cutValue (lstrip e.behind)).2 = t ∧ shownName e.behind = n := by
  rcases value_cases hv with ⟨_, _, -, -, hval⟩ | ⟨_, _, -, -, hval⟩ |
    ⟨p, hp, hsplit, hquote, hend, hval⟩
  · rw [hval] at hplain
    cases hplain
  · rw [hval] at hplain
    cases hplain
  · rw [hval] at hplain hne
    cases hplain
    obtain rfl := eq_of_endsPlain hend ht hx
    obtain ⟨c, m, hc⟩ : ∃ c m, stripEnd p = c :: m := List.exists_cons_of_ne_nil hne
    obtain ⟨p', rfl⟩ : ∃ p', p = c :: p' := by
      obtain ⟨w, hw⟩ := List.rdropWhile_prefix isWhite p
      exact ⟨m ++ w, by rw [← hw, ← List.cons_append, ← hc]; rfl⟩
    have hspace : isSpace c = false := (stripped_iff.mp hstripped).1 c (by rw [hc]; rfl)
    obtain ⟨hl, htake⟩ := lstrip_eq_dropWhile (s := e.behind) (by
      rw [hsplit]
      intro d hd
      rwa [← Option.some.inj hd])
    have hclosed : ¬ inValue x = true := by rcases hx with rfl | rfl <;> decide
    have hcv := cutValue_plain (r := r) hp (hquote c rfl) hclosed
    refine ⟨htake, ?_, ?_⟩
    · rw [hl, hsplit, hcv]
    · rw [shownName, hl, hsplit, hcv, strip_of_stripped_stripEnd hstripped]

omit ht hx in
/-- A quoted value that is written as it is ends at the next quote. In each kind of quotes a later
end would make the value longer. -/
theorem behind_quote {q : Char} {t' : Str} (hquote : q = '\'' ∨ q = '"') (hq : q ∉ e.value.text)
    (hbehind : e.behind.dropWhile isWhite = q :: (e.value.text ++ q :: t')) : t = t' := by
  rcases value_cases hv with ⟨u, n, hu, hread, hval⟩ | ⟨u, n, hu, hread, hval⟩ |
    ⟨p, -, hsplit, hno, -, hval⟩
  · obtain ⟨rfl, rfl⟩ := List.cons.inj (hu.symm.trans hbehind)
    have hn : '"' ∉ n := by
      rw [hval] at hq
      exact hq
    exact readDouble_first hq hn hread
  · obtain ⟨rfl, rfl⟩ := List.cons.inj (hu.symm.trans hbehind)
    have htext : e.value.text = n := by
      rw [hval]
      rfl
    rcases readSingle_plain hq hread with ⟨-, hlt⟩ | ⟨-, h⟩
    · rw [htext] at hlt
      exact absurd hlt (lt_irrefl _)
    · exact h
  · -- a plain value does not start with a quote
    exfalso
    cases p with
    | nil =>
        rw [hval] at hne
        exact hne rfl
    | cons c p =>
        obtain ⟨rfl, -⟩ := List.cons.inj (hsplit.symm.trans hbehind)
        obtain ⟨h1, h2⟩ := hno c rfl
        exact hquote.elim h1 h2

/-- A value that is written as it is is cut out exactly. For a plain value the pattern stops where
the scalar ends; for a quoted one without escapes it stops at the quote. -/
theorem cutValue_of_verbatim (h : Verbatim e) :
    e.behind.takeWhile isSpace = e.behind.takeWhile isWhite ∧
      (cutValue (lstrip e.behind)).2 = t ∧ shownName e.behind = e.value.text := by
  obtain ⟨hstripped, ⟨n, hplain⟩ | ⟨q, t', hkind, hq, hbehind⟩⟩ := h
  · have htext : e.value.text = n := by
      rw [hplain]
      rfl
    rw [htext] at hstripped ⊢
    exact cutValue_of_plain hv ht hx hne hplain hstripped
  · have hquote : q = '\'' ∨ q = '"' := hkind.imp_right And.left
    obtain rfl := behind_quote hv hne hquote hq hbehind
    obtain ⟨hl, htake⟩ := lstrip_quoted hbehind hquote
    have hcv := cutValue_quoted hquote hq t
    refine ⟨htake, ?_, ?_⟩
    · rw [hl, hcv]
    · rw [shownName, hl, hcv]
      exact hstripped

/-- **The name that is read is the value of the entry exactly if that is written as it is.** The
pattern takes the text up to the next quote and strips it; an escape or a doubled quote makes the
value another text, and shorter or longer. -/
theorem shownName_eq_iff : shownName e.behind = e.value.text ↔ Verbatim e := by
  refine ⟨fun h => ⟨?_, ?_⟩, fun h => (cutValue_of_verbatim hv ht hx hne h).2.2⟩
  · rw [← h]
    exact stripped_shownName _
  rcases value_cases hv with ⟨u, n, hu, hread, hval⟩ | ⟨u, n, hu, hread, hval⟩ |
    ⟨p, -, -, -, -, hval⟩
  · have htext : e.value.text = n := by
      rw [hval]
      rfl
    rw [htext] at h hne ⊢
    have hmem : '"' ∈ u := by
      obtain ⟨c, rfl, -⟩ := readDouble_local hread
      simp
    obtain ⟨u', hcut, hno, htail⟩ := exists_cut hmem
    rw [shownName_quoted hu (Or.inr rfl) hmem] at h
    rw [hcut] at hread
    obtain ⟨hsafe, hn, -⟩ := doubleSafe_of_strip hno hread h hne
    refine Or.inr ⟨'"', u', Or.inr ⟨rfl, ?_⟩, ?_, ?_⟩
    · rw [hn]
      exact fun hb => (hsafe _ hb).2.1 rfl
    · rw [hn]
      exact hno
    · rw [hu, hn, ← hcut]
  · have htext : e.value.text = n := by
      rw [hval]
      rfl
    rw [htext] at h ⊢
    have hmem : '\'' ∈ u := by
      obtain ⟨c, rfl, -⟩ := readSingle_local hread
      simp
    obtain ⟨u', hcut, hno, htail⟩ := exists_cut hmem
    rw [shownName_quoted hu (Or.inl rfl) hmem] at h
    rw [hcut] at hread
    rcases readSingle_plain hno hread with ⟨-, hlt⟩ | ⟨hn, -⟩
    · -- a doubled quote makes the value longer than what was cut out
      have hle : (strip (u.takeWhile (· != '\''))).length ≤ (u.takeWhile (· != '\'')).length :=
        (List.rdropWhile_prefix _ _).length_le.trans (List.dropWhile_suffix _).length_le
      rw [h] at hle
      exact absurd hlt (Nat.not_lt.mpr hle)
    · exact Or.inr ⟨'\'', u', Or.inl rfl, by rw [hn]; exact hno, by rw [hu, hn, ← hcut]⟩
  · exact Or.inl ⟨_, hval⟩

end

/-! ### One item as a document -/

/-- A line that is read as an item is of the flow form: blanks, a dash, blanks and braces, with no
line break between them. -/
theorem isMatch_flowItemRx_of_read {ln : Str} {es : List FlowEntry} (h : readFlowItem ln = some es) :
    flowItemRx.isMatch ln = true := by
  obtain ⟨hjson, w, g, u, n, hw, hg, -, rfl, hread⟩ := readFlowItem_inv h
  obtain ⟨d, w', rfl, hw', -⟩ := readFlowEntries_trim hread
  have hd : ∀ c ∈ d, (c != '\n') = true := by
    intro c hc
    have hc' : isNbJson c = true := List.all_eq_true.mp hjson c (by simp [hc])
    rw [bne_iff_ne]
    rintro rfl
    exact absurd hc' (by decide)
  rw [flowItemRx, Regex.isMatch, Regex.matchAt, Regex.run_seqs_cons]
  refine Regex.runMany_isSome.mpr ⟨w, _, rfl, fun c hc => isSpace_of_isWhite (hw c hc), ?_⟩
  simp only [Regex.run_seqs_cons]
  refine Regex.run_chr_isSome.mpr ⟨'-', _, rfl, rfl, ?_⟩
  refine Regex.runMany_isSome.mpr ⟨g, _, rfl, fun c hc => isSpace_of_isWhite (hg c hc), ?_⟩
  refine Regex.run_chr_isSome.mpr ⟨'\x7b', _, rfl, rfl, ?_⟩
  refine Regex.runMany_isSome.mpr ⟨d, _, rfl, hd, ?_⟩
  refine Regex.run_chr_isSome.mpr ⟨'\x7d', _, rfl, rfl, ?_⟩
  refine Regex.runMany_isSome.mpr ⟨w', [], by simp, fun c hc =>
    isSpace_of_isWhite (List.all_eq_true.mp hw' c hc), rfl⟩

/-- The answer with one item. -/
def oneItem (ln : Str) : Bytes := encode ("proxies:\n".toList ++ ln)

/-- What is returned for one item. An item at the left margin ends the block it should be in, so
nothing is returned for it. -/
theorem clashProxies_oneItem {ln : Str} {es : List FlowEntry} (h : readFlowItem ln = some es)
    (hline : OneLine ln) (label : Str) : clashProxies label (some (oneItem ln)) =
      if isTop ln then [] else (flowProxy label ln).toList := by
  obtain ⟨-, w, g, u, -, hw, -, -, hln, -⟩ := readFlowItem_inv h
  have hdash : lstrip ln = '-' :: (g ++ '\x7b' :: u) := by
    rw [lstrip, hln, List.dropWhile_append_of_pos fun c hc => isSpace_of_isWhite (hw c hc),
      List.dropWhile_cons_of_neg (by decide)]
  have hkey : isProxiesKey ln = false := by
    rw [isProxiesKey, Bool.and_eq_false_iff]
    refine Or.inl (Bool.eq_false_iff.mpr fun hstart => ?_)
    obtain ⟨v, hv⟩ := startswith_iff.mp hstart
    rw [hv] at hdash
    exact absurd (List.cons.inj hdash).1 (by decide)
  have hcomment : isComment ln = false := by
    rw [isComment, hdash]
    rfl
  have hsolid : strip ln ≠ [] := by
    rw [Ne, strip_eq_nil_iff]
    intro hall
    exact absurd (hall '-' (by rw [hln]; simp)) (by decide)
  let doc : ProxiesDoc := ⟨[], "proxies:".toList, [ln], by simp, by simpa using hkey⟩
  have hdoc : splitlines (decodeReplace (oneItem ln)) = doc.lines := by
    have hne : ln ≠ [] := by
      rw [hln]
      simp
    have hproxies : OneLine "proxies:".toList := by decide
    rw [oneItem, decodeReplace_encode]
    exact (splitlines_append_newline hproxies ln).trans (by rw [splitlines_oneLine hline hne]; rfl)
  have hitem : isItem ln = true := by simp [isItem, hcomment, hsolid]
  rw [ProxiesDoc.clashProxies_lines hdoc]
  by_cases htop : isTop ln = true
  · have hseen : doc.seen = [] := by simp [ProxiesDoc.seen, ProxiesDoc.body, doc, htop, hcomment]
    rw [if_pos htop, hseen]
    simp
  · have hseen : doc.seen = [ln] := by simp [ProxiesDoc.seen, ProxiesDoc.body, doc, htop]
    have hproxies : isProxiesKey "proxies:".toList = true := by decide
    rw [if_neg htop, hseen, if_pos ⟨hproxies, by simpa using fun _ => isMatch_flowItemRx_of_read h⟩]
    cases hf : flowProxy label ln <;> simp [hitem, hf]

/-! ### The rewritten line -/

/-- A quoted name is read back, unless another quote follows. -/
theorem readFlowScalar_yamlSq {s t : Str} (hs : s.all isNbJson = true) (ht : t.head? ≠ some '\'') :
    readFlowScalar (yamlSq s ++ t) = some (.quoted s, t) := by
  have hclose : readSingle ('\'' :: t) = some ([], t) := by
    cases t with
    | nil => rfl
    | cons c t => rw [readSingle, if_neg fun hc => ht (by rw [hc]; rfl)]
  have hread := readSingle_doubleQuotes s ('\'' :: t)
  rw [hclose, if_pos hs] at hread
  rw [yamlSq_eq, List.cons_append, List.append_assoc, readFlowScalar_single, List.singleton_append,
    hread]
  simp

theorem dropWhile_yamlSq (r name t : Str) :
    (r.takeWhile isWhite ++ (yamlSq name ++ t)).dropWhile isWhite = yamlSq name ++ t := by
  refine dropWhile_white (fun c hc => List.mem_takeWhile_imp hc) ?_
  rw [yamlSq_eq]
  intro c hc
  rw [← Option.some.inj hc]
  decide

theorem strip_between {w d w' : Str} (hw : ∀ c ∈ w, isWhite c = true)
    (hw' : ∀ c ∈ w', isWhite c = true) :
    strip (w ++ ('-' :: (d ++ ['\x7d']) ++ w')) = '-' :: (d ++ ['\x7d']) := by
  have hl : lstrip (w ++ ('-' :: (d ++ ['\x7d']) ++ w')) = '-' :: (d ++ ['\x7d']) ++ w' := by
    rw [lstrip, List.dropWhile_append_of_pos fun c hc => isSpace_of_isWhite (hw c hc)]
    exact List.dropWhile_cons_of_neg (by decide)
  rw [strip, hl, rstrip_append_white fun c hc => isSpace_of_isWhite (hw' c hc), ← List.cons_append,
    rstrip_concat (by decide)]

theorem mem_cutValue {c : Char} {r : Str} (h : c ∈ (cutValue r).1) : c ∈ r := by
  cases r with
  | nil => simp [cutValue] at h
  | cons q t =>
      rw [cutValue] at h
      split_ifs at h
      · exact List.mem_cons_of_mem _ ((List.takeWhile_prefix _).subset h)
      · exact (List.takeWhile_prefix _).subset h

theorem mem_shownName {c : Char} {r : Str} (h : c ∈ shownName r) : c ∈ r :=
  mem_lstrip (mem_cutValue (mem_strip h))

/-- The colon of a `name:` does not follow a quoted key, because the character before it is an `e`.
So the value is separated from it by a blank. -/
theorem behind_white {a a' behind : Str} (h : KeyEnd a' behind) (ha : a ++ "name:".toList = a') :
    ∃ x, behind.head? = some x ∧ isWhite x = true := by
  rcases h with h | ⟨a₀, q, w, rfl, hw, hq⟩
  · exact h
  · exfalso
    -- both texts end in a colon; the character before it is an `e`
    have hcut : a ++ "name".toList = a₀ ++ q :: w := by
      have hcolon : a ++ "name".toList ++ [':'] = a₀ ++ q :: w ++ [':'] := by simpa using ha
      exact List.append_cancel_right hcolon
    have hlast : (a₀ ++ q :: w).getLast? = some 'e' := by
      rw [← hcut, show "name".toList = "nam".toList ++ ['e'] from rfl, ← List.append_assoc,
        List.getLast?_concat]
    cases w using List.reverseRecOn with
    | nil =>
        rw [List.getLast?_concat] at hlast
        rcases hq with rfl | rfl <;> exact absurd hlast (by decide)
    | append_singleton w c _ =>
        rw [← List.cons_append, ← List.append_assoc, List.getLast?_concat] at hlast
        have hc := hw c (by simp)
        rw [Option.some.inj hlast] at hc
        exact absurd hc (by decide)

theorem mem_doubleQuotes {c : Char} {s : Str} (h : c ∈ s) : c ∈ doubleQuotes s := by
  refine List.mem_flatMap.mpr ⟨c, h, ?_⟩
  split_ifs with hq <;> simp [hq]

theorem all_yamlSq_iff {s : Str} : (yamlSq s).all isNbJson = true ↔ s.all isNbJson = true := by
  have hquote : isNbJson '\'' = true := by decide
  have hdouble : (doubleQuotes s).all isNbJson = true ↔ s.all isNbJson = true := by
    rw [List.all_eq_true, List.all_eq_true]
    refine ⟨fun h c hc => h c (mem_doubleQuotes hc), fun h c hc => ?_⟩
    obtain ⟨d, hd, hcd⟩ := List.mem_flatMap.mp hc
    split_ifs at hcd
    · rw [List.mem_pair.mp hcd |>.elim id id]
      exact hquote
    · rw [List.mem_singleton.mp hcd]
      exact h d hd
  rw [← hdouble, yamlSq_eq]
  simp [hquote]

section

variable {ln a : Str} {pre post : List FlowEntry} {e : FlowEntry}
  (hread : readFlowItem ln = some (pre ++ e :: post))
include hread

/-- **Rewriting an entry.** If the search stops at the key of an entry and the patterns cut off
what the reader takes for its value, then that value and nothing else is changed. -/
theorem readFlowItem_rewritten (hfirst : firstName ln = some (a, e.behind))
    (htake : e.behind.takeWhile isSpace = e.behind.takeWhile isWhite)
    (hcut : readFlowScalar (e.behind.dropWhile isWhite) =
      some (e.value, (cutValue (lstrip e.behind)).2)) {name : Str} (hjson : name.all isNbJson = true) :
    ∃ es, readFlowItem ("  ".toList ++ strip (a ++ ("name:".toList ++ (e.behind.takeWhile isSpace ++
        (yamlSq name ++ (cutValue (lstrip e.behind)).2))))) = some es ∧
      es.map FlowEntry.pair = pre.map FlowEntry.pair ++
        (e.key, .quoted name) :: post.map FlowEntry.pair := by
  obtain ⟨a', t, x, r, hs, hend, hv, ht, hx, hreplace⟩ := readFlowItem_replace hread
  obtain rfl : t = (cutValue (lstrip e.behind)).2 :=
    (Prod.mk.inj (Option.some.inj (hv.symm.trans hcut))).2
  generalize (cutValue (lstrip e.behind)).2 = t at hv ht hcut hreplace ⊢
  have hkey : a ++ "name:".toList = a' := by
    have hboth := (opensValue_of_firstName hfirst).1.symm.trans hs
    rw [← List.append_assoc] at hboth
    exact List.append_cancel_right hboth
  have hbehind : ∀ c ∈ e.behind, isNbJson c = true := by
    intro c hc
    exact List.all_eq_true.mp (readFlowItem_inv hread).1 c (by rw [hs]; simp [hc])
  have hbehind' : ∀ c ∈ t, c ∈ e.behind := by
    intro c hc
    obtain ⟨u, -, hdrop, -⟩ := readFlowScalar_local hv
    exact (List.dropWhile_suffix isWhite).subset (by rw [hdrop]; simp [hc])
  -- the new text behind the colon
  have hall : (e.behind.takeWhile isWhite ++ (yamlSq name ++ t)).all isNbJson = true := by
    rw [List.all_append, List.all_append, all_yamlSq_iff.mpr hjson, Bool.true_and, Bool.and_eq_true]
    exact ⟨List.all_eq_true.mpr fun c hc => hbehind c ((List.takeWhile_prefix _).subset hc),
      List.all_eq_true.mpr fun c hc => hbehind c (hbehind' c hc)⟩
  have hhead : (e.behind.takeWhile isWhite ++ (yamlSq name ++ t)).head? = e.behind.head? := by
    obtain ⟨y, hy, hwhite⟩ := behind_white hend hkey
    obtain ⟨u, hu⟩ := List.head?_eq_some_iff.mp hy
    rw [hu, List.takeWhile_cons_of_pos hwhite]
    rfl
  have hscalar : readFlowScalar ((e.behind.takeWhile isWhite ++ (yamlSq name ++ t)).dropWhile
      isWhite) = some (.quoted name, t) := by
    have hquote : t.head? ≠ some '\'' := by
      intro hq
      obtain ⟨u, rfl⟩ := List.head?_eq_some_iff.mp hq
      rw [List.dropWhile_cons_of_neg (by decide)] at ht
      obtain ⟨rfl, -⟩ := List.cons.inj ht
      rcases hx with h | h <;> exact absurd h (by decide)
    rw [dropWhile_yamlSq]
    exact readFlowScalar_yamlSq hjson hquote
  obtain ⟨es, hes, hpairs⟩ := hreplace _ _ hall hhead hscalar
  obtain ⟨w, d, w', hw, hw', hline, htrim⟩ := readFlowItem_trim hes
  obtain ⟨es', hes', hpairs'⟩ := htrim "  ".toList (by simp [isWhite])
  refine ⟨es', ?_, hpairs'.trans hpairs⟩
  rw [htake, ← List.append_assoc, hkey, hline, strip_between hw hw', hes']

variable (hne : e.value.text ≠ [])
include hne

/-- The name that is found at an entry is its value exactly if that is written as it is. -/
theorem shownName_entry : shownName e.behind = e.value.text ↔ Verbatim e := by
  obtain ⟨-, t, x, r, -, -, hv, ht, hx, -⟩ := readFlowItem_replace hread
  exact shownName_eq_iff hv ht hx hne

/-- A value that is written as it is is the one that is changed. -/
theorem flowProxy_of_verbatim (hfirst : firstName ln = some (a, e.behind)) (hverb : Verbatim e)
    (label : Str) : ∃ line, flowProxy label ln = some (line, labelled label e.value.text) ∧
      ((labelled label e.value.text).all isNbJson = true → ∃ es, readFlowItem line = some es ∧
        es.map FlowEntry.pair = pre.map FlowEntry.pair ++
          (e.key, .quoted (labelled label e.value.text)) :: post.map FlowEntry.pair) := by
  obtain ⟨-, t, x, r, -, -, hv, ht, hx, -⟩ := readFlowItem_replace hread
  obtain ⟨htake, htail, hshown⟩ := cutValue_of_verbatim hv ht hx hne hverb
  have hproxy := flowProxy_eq hfirst (by rw [hshown]; exact hne) label
  rw [hshown] at hproxy
  exact ⟨_, hproxy, fun hjson =>
    readFlowItem_rewritten hread hfirst htake (by rw [htail]; exact hv) hjson⟩

end

theorem strip_append_cons {x : Char} (hx : isSpace x = false) (u v : Str) :
    ∃ u', strip (u ++ x :: v) = u' ++ x :: rstrip v := by
  obtain ⟨u', hu'⟩ : ∃ u', lstrip (u ++ x :: v) = u' ++ x :: v := by
    rw [lstrip, List.dropWhile_append]
    split_ifs
    · exact ⟨[], List.dropWhile_cons_of_neg (by rw [hx]; decide)⟩
    · exact ⟨_, rfl⟩
  exact ⟨u', by rw [strip, hu', rstrip_append_cons hx]⟩

theorem mem_strip_of_not_space {x : Char} {s : Str} (hx : isSpace x = false) (hmem : x ∈ s) :
    x ∈ strip s := by
  obtain ⟨u, v, rfl⟩ := List.append_of_mem hmem
  obtain ⟨u', hu'⟩ := strip_append_cons hx u v
  rw [hu']
  simp

theorem mem_strip_between {x y c : Char} {u v z : Str} (hx : isSpace x = false)
    (hy : isSpace y = false) (hc : c ∈ v) : c ∈ strip (u ++ x :: (v ++ y :: z)) := by
  obtain ⟨u', hu'⟩ := strip_append_cons hx u (v ++ y :: z)
  rw [hu', rstrip_append_cons hy]
  simp [hc]

theorem firstName_of_flowProxy {label ln : Str} {p : Str × Str} (h : flowProxy label ln = some p) :
    ∃ a r, firstName ln = some (a, r) ∧ shownName r ≠ [] := by
  obtain ⟨a, r, hfirst, hshows⟩ := flowProxy_isSome_iff.mp (Option.isSome_iff_exists.mpr ⟨p, h⟩)
  exact ⟨a, r, hfirst, shownName_ne_nil_iff.mpr hshows⟩

theorem mem_line_of_mem_name {label ln line name : Str} {c : Char}
    (h : flowProxy label ln = some (line, name)) (hc : c ∈ name) : c ∈ line := by
  obtain ⟨a, r, hfirst, hne⟩ := firstName_of_flowProxy h
  obtain ⟨rfl, rfl⟩ := Prod.mk.inj (Option.some.inj ((flowProxy_eq hfirst hne label).symm.trans h))
  generalize labelled label (shownName r) = name at hc
  generalize (cutValue (lstrip r)).2 = tail
  have hsplit : a ++ ("name:".toList ++ (r.takeWhile isSpace ++ (yamlSq name ++ tail))) =
      (a ++ "name".toList) ++ ':' :: ((r.takeWhile isSpace ++ '\'' :: doubleQuotes name) ++
        '\'' :: tail) := by
    simp [yamlSq_eq]
  have hmem : c ∈ doubleQuotes name := mem_doubleQuotes hc
  rw [hsplit]
  exact List.mem_append_right _ (mem_strip_between (by decide) (by decide) (by simp [hmem]))

/-! ### The item as a whole -/

/-- The item is returned with its name changed to `label | n`, and nothing else. -/
def Renamed (label ln : Str) (es : List FlowEntry) (n : Str) : Prop :=
  ∃ line es', clashProxies label (some (oneItem ln)) = [(line, label ++ " | ".toList ++ n)] ∧
    readFlowItem line = some es' ∧ es'.map FlowEntry.pair = es.map fun e =>
      if e.key = "name".toList then (e.key, .quoted (label ++ " | ".toList ++ n)) else e.pair

/-- The item is indented, its first `name:` is the key of its name, the name is written as it
is, and the label is not empty and printable. -/
def Faithful (label ln : Str) (e : FlowEntry) : Prop :=
  isTop ln = false ∧ (∃ a, firstName ln = some (a, e.behind)) ∧ Verbatim e ∧ label ≠ [] ∧
    label.all isNbJson = true

/-- The search stops at no other place than the key of an entry: that of the name, or
another whose value is written as it is. -/
def StopsAtKey (ln : Str) (es : List FlowEntry) (e : FlowEntry) : Prop :=
  ∀ a r, firstName ln = some (a, r) → r = e.behind ∨
    ∃ e' ∈ es, e'.key ≠ "name".toList ∧ r = e'.behind ∧ Verbatim e' ∧ e'.value.text ≠ []

/-- A reported name with the label in front has a label, and the original name behind it. -/
theorem eq_of_labelled {label shown n : Str} (hs : Stripped shown)
    (h : labelled label shown = label ++ " | ".toList ++ n) : label ≠ [] ∧ shown = n := by
  unfold labelled at h
  split_ifs at h with hlabel
  · -- a stripped name does not start with the blank of the separator
    subst hlabel
    have hblank := (stripped_iff.mp hs).1 ' ' (by rw [h]; rfl)
    exact absurd hblank (by decide)
  · exact ⟨hlabel, List.append_cancel_left h⟩

theorem labelled_of_ne {label : Str} (h : label ≠ []) (n : Str) :
    labelled label n = label ++ " | ".toList ++ n := if_neg h

section

variable {ln : Str} {es : List FlowEntry} {e : FlowEntry} (hread : readFlowItem ln = some es)
  (hline : OneLine ln) (he : e ∈ es) (hne : e.value.text ≠ []) {label : Str}
include hread hline he hne

theorem renamed_of_faithful (hkeys : (es.map FlowEntry.key).Nodup) (hname : e.key = "name".toList)
    (h : Faithful label ln e) : Renamed label ln es e.value.text := by
  obtain ⟨htop, ⟨a, hfirst⟩, hverb, hlabel, hjson⟩ := h
  obtain ⟨pre, post, rfl⟩ := List.append_of_mem he
  obtain ⟨line, hproxy, hlines⟩ := flowProxy_of_verbatim hread hne hfirst hverb label
  rw [labelled_of_ne hlabel] at hproxy hlines
  have htext : e.value.text.all isNbJson = true := by
    refine List.all_eq_true.mpr (fun c hc => ?_)
    rw [← (shownName_entry hread hne).mpr hverb] at hc
    have hmem : c ∈ ln := by
      rw [(opensValue_of_firstName hfirst).1]
      simp [mem_shownName hc]
    exact List.all_eq_true.mp (readFlowItem_inv hread).1 c hmem
  have hall : (label ++ " | ".toList ++ e.value.text).all isNbJson = true := by
    rw [List.all_append, List.all_append, hjson, htext]
    decide
  obtain ⟨es', hes', hpairs⟩ := hlines hall
  refine ⟨line, es', ?_, hes', ?_⟩
  · rw [clashProxies_oneItem hread hline, if_neg (by rw [htop]; decide), hproxy]
    rfl
  · -- no other entry has the key
    rw [List.map_append, List.map_cons, List.nodup_middle, List.nodup_cons, ← List.map_append] at hkeys
    have hother : ∀ e' ∈ pre ++ post, (if e'.key = "name".toList then
        (e'.key, FlowScalar.quoted (label ++ " | ".toList ++ e.value.text)) else e'.pair) = e'.pair := by
      intro e' he'
      refine if_neg fun hkey => hkeys.1 ?_
      rw [hname, ← hkey]
      exact List.mem_map_of_mem he'
    rw [hpairs, List.map_append, List.map_cons, if_pos hname]
    rw [List.map_congr_left fun e' he' => hother e' (List.mem_append_left _ he'),
      List.map_congr_left fun e' he' => hother e' (List.mem_append_right _ he')]

theorem faithful_of_renamed (hstop : StopsAtKey ln es e) (h : Renamed label ln es e.value.text) :
    Faithful label ln e := by
  obtain ⟨line, es', hclash, hes', hpairs⟩ := h
  rw [clashProxies_oneItem hread hline] at hclash
  split_ifs at hclash with htop
  have hproxy : flowProxy label ln = some (line, label ++ " | ".toList ++ e.value.text) := by
    cases hp : flowProxy label ln with
    | none => rw [hp] at hclash; cases hclash
    | some p =>
        rw [hp] at hclash
        rw [List.cons.inj hclash |>.1]
  have hjson : (label ++ " | ".toList ++ e.value.text).all isNbJson = true :=
    List.all_eq_true.mpr fun c hc =>
      List.all_eq_true.mp (readFlowItem_inv hes').1 c (mem_line_of_mem_name hproxy hc)
  obtain ⟨a, r, hfirst, hshown⟩ := firstName_of_flowProxy hproxy
  have hreported := (Prod.mk.inj (Option.some.inj
    ((flowProxy_eq hfirst hshown label).symm.trans hproxy))).2
  obtain ⟨hlabel, hn⟩ := eq_of_labelled (stripped_shownName r) hreported
  rcases hstop a r hfirst with rfl | ⟨e', he', hkey, rfl, hverb, hne'⟩
  · obtain ⟨pre, post, rfl⟩ := List.append_of_mem he
    refine ⟨by simpa using htop, ⟨a, hfirst⟩, (shownName_entry hread hne).mp hn, hlabel, ?_⟩
    rw [List.all_append, List.all_append, Bool.and_eq_true, Bool.and_eq_true] at hjson
    exact hjson.1.1
  · -- then that entry is the one that has changed
    exfalso
    obtain ⟨pre, post, rfl⟩ := List.append_of_mem he'
    obtain ⟨line', hproxy', hlines⟩ := flowProxy_of_verbatim hread hne' hfirst hverb label
    obtain ⟨rfl, hlabelled⟩ := Prod.mk.inj (Option.some.inj (hproxy'.symm.trans hproxy))
    rw [hlabelled] at hlines
    obtain ⟨es'', hes'', hpairs'⟩ := hlines hjson
    obtain rfl := Option.some.inj (hes''.symm.trans hes')
    rw [hpairs', List.map_append, List.map_cons, if_neg hkey] at hpairs
    have hpair := (List.cons.inj (List.append_inj_right hpairs (by simp))).1
    have htext := congrArg FlowScalar.text (Prod.mk.inj hpair).2
    have hsame := (shownName_entry hread hne').mpr hverb
    rw [hn] at hsame
    have hlen := congrArg List.length htext
    change (label ++ " | ".toList ++ e.value.text).length = e'.value.text.length at hlen
    rw [← hsame, List.length_append, List.length_append] at hlen
    simp at hlen

end

/-- **Renaming touches only the name** if the item is faithful; and where the search stops at
a key, only then. The patterns find the name as text; the item is changed elsewhere if they
stop at another place, or cut off more or less than the reader takes for the value. -/
theorem rename_iff {ln : Str} {es : List FlowEntry} {e : FlowEntry}
    (hread : readFlowItem ln = some es) (hline : OneLine ln) (hkeys : (es.map FlowEntry.key).Nodup)
    (he : e ∈ es) (hname : e.key = "name".toList) (hne : e.value.text ≠ []) (label : Str) :
    (Faithful label ln e → Renamed label ln es e.value.text) ∧
      (StopsAtKey ln es e → Renamed label ln es e.value.text → Faithful label ln e) :=
  ⟨renamed_of_faithful hread hline he hne hkeys hname, faithful_of_renamed hread hline he hne⟩

/-- The entries of an item with the name at its end. -/
def smallEntries : List FlowEntry :=
  [⟨"type".toList, .plain "ss".toList, " ss, name: 'a b' \x7d".toList⟩,
    ⟨"name".toList, .quoted "a b".toList, " 'a b' \x7d".toList⟩]

theorem rename_iff_small :
    Renamed "L".toList "  - \x7b type: ss, name: 'a b' \x7d".toList smallEntries "a b".toList := by
  have hread : readFlowItem "  - \x7b type: ss, name: 'a b' \x7d".toList = some smallEntries := by
    decide
  have hline : OneLine "  - \x7b type: ss, name: 'a b' \x7d".toList := by decide
  refine (rename_iff hread hline (by decide) (e := smallEntries[1]) (by decide) rfl (by decide)
    "L".toList).1 ⟨by decide, ⟨"  - \x7b type: ss, ".toList, by decide⟩, ⟨by decide, ?_⟩,
    by decide, by decide⟩
  exact Or.inr ⟨'\'', " \x7d".toList, Or.inl rfl, by decide, by decide⟩

/-- The key `servername` ends in `name`, and stands in front of it. -/
theorem servername_is_renamed :
    (readFlowItem "  - \x7bservername: a, name: n\x7d".toList).map (·.map FlowEntry.pair) =
        some [("servername".toList, .plain "a".toList), ("name".toList, .plain "n".toList)] ∧
      clashProxies "L".toList (some (oneItem "  - \x7bservername: a, name: n\x7d".toList)) =
        [("  - \x7bservername: 'L | a', name: n\x7d".toList, "L | a".toList)] ∧
      ∀ es, ¬ Renamed "L".toList "  - \x7bservername: a, name: n\x7d".toList es "n".toList := by
  have hclash : clashProxies "L".toList (some (oneItem "  - \x7bservername: a, name: n\x7d".toList)) =
      [("  - \x7bservername: 'L | a', name: n\x7d".toList, "L | a".toList)] := by decide
  refine ⟨by decide, hclash, fun es h => ?_⟩
  obtain ⟨line, es', hline, -, -⟩ := h
  rw [hclash] at hline
  exact absurd (Prod.mk.inj (List.cons.inj hline).1).2 (by decide)

end BlogStuff.VlessSubs
