import BlogStuff.VlessSubs.Fetch
import BlogStuff.Yaml.Scalar

/-!
# BlogStuff.VlessSubs.FlowItems

How `fetch_clash_proxies` finds the items of a clash configuration and the name of each.

The block is cut out line by line: it ends at the first line that is not indented, and a
comment may be such a line. The items behind it are lost, while those in front are
returned. The name of an item is searched for as text: the first `name:` with something
behind it, up to a quote, a comma or a brace. An item in which this finds nothing is left
out of the result although the others stay (`all_or_nothing_iff`).
-/

namespace BlogStuff.VlessSubs

open BlogStuff.Python

/-! ### The name in an item -/

/-- A character of an unquoted value. -/
def inValue (c : Char) : Bool := c != ',' && c != '\x7d'

/-- Something stands behind the colon. -/
def opensValue (s : Str) : Bool := (s.head?.map inValue).getD false

/-- The first `name:` that opens a value: the text in front of it and the text behind. -/
def firstName : Str → Option (Str × Str)
  | [] => none
  | c :: s =>
      if startswith (c :: s) "name:".toList && opensValue ((c :: s).drop 5) then
        some ([], (c :: s).drop 5)
      else (firstName s).map fun (a, r) => (c :: a, r)

/-- A value as the patterns cut it: up to the next quote if it starts with one, else up to
a comma or a brace. -/
def cutValue (r : Str) : Str × Str :=
  match r with
  | [] => ([], [])
  | q :: t =>
      if (q = '\'' ∨ q = '"') ∧ q ∈ t then (t.takeWhile (· != q), (t.dropWhile (· != q)).tail)
      else (r.takeWhile inValue, r.dropWhile inValue)

/-- The name read from the text behind a `name:`. -/
def shownName (r : Str) : Str := strip (cutValue (lstrip r)).1

theorem opensValue_cons {c : Char} {s : Str} : opensValue (c :: s) = inValue c := rfl

theorem yamlSq_eq (s : Str) : yamlSq s = '\'' :: (Yaml.doubleQuotes s ++ ['\'']) := rfl

theorem isMatch_nameSubRx (s : Str) : nameSubRx.isMatch s = nameRx.isMatch s := by
  -- without their groups the two are one pattern, bracketed differently
  rw [← Regex.isMatch_erase nameSubRx, ← Regex.isMatch_erase nameRx]
  exact Regex.isMatch_seq_assoc _ _ _ s

section

variable {α : Type} {k : Str → Groups → Option α} (hk : ∀ u e, (k u e).isSome)
include hk

/-- The text up to the closing quote, whatever is captured on the way. -/
theorem runMany_quoted (q : Char) (t : Str) (g : Str → Groups) :
    Regex.runMany (· != q) (fun u => Regex.run (.chr (· == q)) u (g u) k) t =
      if q ∈ t then k (t.dropWhile (· != q)).tail (g (t.dropWhile (· != q))) else none := by
  rw [Regex.runMany_upTo]
  · split_ifs with hq
    · obtain ⟨b, hb⟩ := List.head?_eq_some_iff.mp (Regex.head?_dropWhile_ne hq)
      rw [hb]
      simp [Regex.run]
    · rfl
  · intro u
    cases u with
    | nil => simp [Regex.run]
    | cons c u => by_cases hc : c = q <;> simp [Regex.run, hc, hk]

/-- A quoted value, with the content as group `n`. -/
theorem run_quoted (q : Char) (n : Nat) (t : Str) (g : Groups) :
    Regex.run (.seqs [.chr (· == q), .group n (.many (· != q)), .chr (· == q)]) (q :: t) g k =
      if q ∈ t then k (t.dropWhile (· != q)).tail ((n, t.takeWhile (· != q)) :: g) else none := by
  have hrun : Regex.run (.seqs [.chr (· == q), .group n (.many (· != q)), .chr (· == q)])
      (q :: t) g k = Regex.runMany (· != q) (fun u => Regex.run (.chr (· == q)) u
        ((n, t.take (t.length - u.length)) :: g) k) t := by
    simp [Regex.seqs, Regex.run]
  rw [hrun, runMany_quoted hk q t fun u => (n, t.take (t.length - u.length)) :: g,
    Regex.take_sub_dropWhile]

theorem run_unquoted {c : Char} (hc : inValue c = true) (t : Str) (g : Groups) :
    Regex.run (.many1 inValue) (c :: t) g k = k (t.dropWhile inValue) g := by
  have hrun : Regex.run (.many1 inValue) (c :: t) g k =
      Regex.runMany inValue (fun u => k u g) t := by
    simp [Regex.many1, Regex.run, hc]
  rw [hrun, Regex.runMany_of_isSome (hk _ _)]

end

/-- The value part of `nameRx`. -/
def nameValueRx : Regex :=
  .alt (.seqs [.chr (· == '\''), .group 2 (.many (· != '\'')), .chr (· == '\'')])
    (.alt (.seqs [.chr (· == '"'), .group 3 (.many (· != '"')), .chr (· == '"')])
      (.group 4 (.many1 inValue)))

/-- The value part of `nameSubRx`. -/
def subValueRx : Regex :=
  .alt (.seqs [.chr (· == '\''), .many (· != '\''), .chr (· == '\'')])
    (.alt (.seqs [.chr (· == '"'), .many (· != '"'), .chr (· == '"')]) (.many1 inValue))

theorem nameRx_eq : nameRx =
    .seqs [.lit "name:".toList, .many isSpace, .group 1 nameValueRx] := rfl

theorem nameSubRx_eq : nameSubRx =
    .seqs [.group 1 (.seqs [.lit "name:".toList, .many isSpace]), .group 2 subValueRx] := rfl

/-- `m.group(2) or m.group(3) or m.group(4) or ""`. -/
def rawOf (g : Groups) : Str :=
  pyOr (Regex.groupD g 2) (pyOr (Regex.groupD g 3) (Regex.groupD g 4))

theorem run_seqs_chr_ne {α : Type} {q c : Char} (hc : c ≠ q) (r : Regex) (rs : List Regex) (t : Str)
    (g : Groups) (k : Str → Groups → Option α) :
    Regex.run (.seqs (.chr (· == q) :: r :: rs)) (c :: t) g k = none := by
  simp [Regex.seqs, Regex.run, hc]

/-- What the value part of the first pattern matches, and the text it captures. The alternatives are
tried in turn: a quoted text if the quote is closed, otherwise everything up to the end of the
value. -/
theorem run_nameValue {r : Str} (h : opensValue r = true) :
    ∃ g, Regex.run (.group 1 nameValueRx) r [] (fun s g => some (s, g)) =
      some ((cutValue r).2, g) ∧ rawOf g = (cutValue r).1 := by
  cases r with
  | nil => cases h
  | cons q t =>
      rw [opensValue_cons] at h
      simp only [Regex.run, nameValueRx]
      -- an unclosed quote is taken as part of an unquoted value
      have hplain := run_unquoted (k := fun s g => some (s, (1, (q :: t).take
        ((q :: t).length - s.length)) :: (4, (q :: t).take ((q :: t).length - s.length)) :: g))
        (fun _ _ => rfl) h t []
      have hcut : (q :: t).dropWhile inValue = t.dropWhile inValue :=
        List.dropWhile_cons_of_pos h
      rw [← hcut, Regex.take_sub_dropWhile] at hplain
      have hpyOr : ∀ a : Str, pyOr a [] = a := by
        intro a
        unfold pyOr
        split_ifs with ha
        · exact ha.symm
        · rfl
      by_cases h1 : q = '\''
      · subst h1
        rw [run_quoted (fun _ _ => rfl), run_seqs_chr_ne (by decide), hplain]
        by_cases hq : '\'' ∈ t
        · refine ⟨_, by rw [if_pos hq, cutValue, if_pos ⟨Or.inl rfl, hq⟩, Option.some_or], ?_⟩
          simp [cutValue, hq, rawOf, hpyOr]
        · refine ⟨_, by rw [if_neg hq, cutValue, if_neg (fun h => hq h.2), Option.none_or,
            Option.none_or], ?_⟩
          simp [cutValue, hq, rawOf]
      · by_cases h2 : q = '"'
        · subst h2
          rw [run_seqs_chr_ne (by decide), run_quoted (fun _ _ => rfl), hplain]
          by_cases hq : '"' ∈ t
          · refine ⟨_, by rw [if_pos hq, cutValue, if_pos ⟨Or.inr rfl, hq⟩, Option.some_or,
              Option.none_or], ?_⟩
            simp [cutValue, hq, rawOf, hpyOr]
          · refine ⟨_, by rw [if_neg hq, cutValue, if_neg (fun h => hq h.2), Option.none_or,
              Option.none_or], ?_⟩
            simp [cutValue, hq, rawOf]
        · rw [run_seqs_chr_ne h1, run_seqs_chr_ne h2, hplain]
          have hno : ¬ ((q = '\'' ∨ q = '"') ∧ q ∈ t) := fun h => h.1.elim h1 h2
          refine ⟨_, by rw [cutValue, if_neg hno, Option.none_or, Option.none_or], ?_⟩
          simp [cutValue, hno, rawOf]

/-- The value part of the second pattern matches the same text: it is the first without its
groups. -/
theorem run_subValue {r : Str} (h : opensValue r = true) (e : Groups) :
    ∃ v, Regex.run (.group 2 subValueRx) r e (fun s g => some (s, g)) =
      some ((cutValue r).2, (2, v) :: e) := by
  obtain ⟨g, hg, -⟩ := run_nameValue h
  have hsame := Regex.map_run_erase (f := fun p => (p.1, (2, r.take (r.length - p.1.length)) :: e))
    (i := id) (r := .group 1 nameValueRx) (s := r) (g := []) (e := e) (k := fun s g => some (s, g))
    (j := fun s g => some (s, (2, r.take (r.length - s.length)) :: g)) fun _ _ => rfl
  rw [hg, Option.map_some, Option.map_id_fun, id] at hsame
  exact ⟨_, hsame.symm⟩

/-- The value part of the first pattern, on its own. -/
def nameValue (u : Str) : Option (Str × Groups) :=
  Regex.run (.group 1 nameValueRx) u [] fun s g => some (s, g)

theorem nameValue_isSome (b : Str) : (nameValue b).isSome ↔ opensValue b = true := by
  by_cases hb : opensValue b = true
  · obtain ⟨g, hg, -⟩ := run_nameValue hb
    simp [nameValue, hg, hb]
  · cases b with
    | nil => simp [nameValue, Regex.run, nameValueRx, Regex.seqs, Regex.many1, opensValue]
    | cons c t =>
        rw [opensValue_cons] at hb ⊢
        have h1 : c ≠ '\'' := by
          rintro rfl
          exact hb rfl
        have h2 : c ≠ '"' := by
          rintro rfl
          exact hb rfl
        simp [nameValue, Regex.run, nameValueRx, run_seqs_chr_ne h1, run_seqs_chr_ne h2,
          Regex.many1, hb]

theorem inValue_of_isSpace {c : Char} (h : isSpace c = true) : inValue c = true :=
  of_isSpace (P := fun c => inValue c = true) (by decide) h

/-- The patterns match exactly at a `name:` that opens a value. Blanks behind the colon can be part
of the value, so it is enough to look at the first character. -/
theorem isMatch_nameRx {s : Str} : nameRx.isMatch s = true ↔
    startswith s "name:".toList = true ∧ opensValue (s.drop 5) = true := by
  have hmatch : nameRx.isMatch s = true ↔ ∃ r, s = "name:".toList ++ r ∧
      (Regex.runMany isSpace nameValue r).isSome := by
    rw [nameRx_eq, Regex.isMatch, Regex.matchAt, Regex.run_seqs_cons, Regex.run_lit_isSome]
    rfl
  rw [hmatch, startswith_iff]
  constructor
  · intro h
    obtain ⟨r, rfl, hr⟩ := h
    refine ⟨⟨r, rfl⟩, ?_⟩
    obtain ⟨a, b, rfl, ha, hb⟩ := Regex.runMany_isSome.mp hr
    rw [nameValue_isSome] at hb
    cases a with
    | nil => exact hb
    | cons c a =>
        exact inValue_of_isSpace (ha c List.mem_cons_self)
  · intro h
    obtain ⟨⟨r, rfl⟩, hr⟩ := h
    exact ⟨r, rfl, Regex.runMany_isSome.mpr ⟨[], r, rfl, by simp, (nameValue_isSome r).mpr hr⟩⟩

/-- A search with either pattern stops at the first `name:` that opens a value. Both match at the
same places, so they differ only in what they capture there. -/
theorem search_eq_firstName {rx : Regex} (hrx : ∀ s, rx.isMatch s = nameRx.isMatch s) (ln : Str) :
    rx.search ln = (firstName ln).bind fun (a, r) =>
      (rx.matchAt ("name:".toList ++ r)).map fun (s', g) => (a, g, s') := by
  induction ln with
  | nil =>
      have hno : rx.matchAt [] = none := by
        have h : rx.isMatch [] = false := by
          rw [hrx]
          decide
        rwa [Regex.isMatch, Option.isSome_eq_false_iff, Option.isNone_iff_eq_none] at h
      rw [Regex.search, hno]
      rfl
  | cons c s ih =>
      rw [firstName]
      split_ifs with h
      · obtain ⟨hstart, hopens⟩ := Bool.and_eq_true_iff.mp h
        obtain ⟨r, hr⟩ := startswith_iff.mp hstart
        have hmatch : rx.isMatch (c :: s) = true := by
          rw [hrx]
          exact isMatch_nameRx.mpr ⟨hstart, hopens⟩
        obtain ⟨⟨s', g⟩, hsome⟩ := Option.isSome_iff_exists.mp hmatch
        have hdrop : (c :: s).drop 5 = r := by
          rw [hr]
          rfl
        have hsome' : rx.matchAt ("name:".toList ++ r) = some (s', g) := by rw [← hr, hsome]
        rw [Regex.search, hsome, hdrop]
        simp only [Option.bind_some, hsome', Option.map_some]
      · have hno : rx.matchAt (c :: s) = none := by
          have hmatch : rx.isMatch (c :: s) = false := by
            rw [hrx, Bool.eq_false_iff, Ne, isMatch_nameRx, ← Bool.and_eq_true_iff]
            exact h
          rwa [Regex.isMatch, Option.isSome_eq_false_iff, Option.isNone_iff_eq_none] at hmatch
        rw [Regex.search, hno, ih]
        cases firstName s with
        | none => rfl
        | some p =>
            simp only [Option.bind_some, Option.map_some, Option.map_map]
            rfl

theorem opensValue_of_firstName {ln a r : Str} (h : firstName ln = some (a, r)) :
    ln = a ++ ("name:".toList ++ r) ∧ opensValue r = true := by
  induction ln generalizing a with
  | nil => cases h
  | cons c s ih =>
      rw [firstName] at h
      split_ifs at h with hc
      · obtain ⟨hstart, hopens⟩ := Bool.and_eq_true_iff.mp hc
        obtain ⟨t, ht⟩ := startswith_iff.mp hstart
        obtain ⟨rfl, rfl⟩ := Prod.mk.inj (Option.some.inj h)
        refine ⟨?_, hopens⟩
        rw [ht]
        rfl
      · obtain ⟨⟨a', r'⟩, hs, he⟩ := Option.map_eq_some_iff.mp h
        obtain ⟨rfl, rfl⟩ := Prod.mk.inj he
        obtain ⟨hs', hopens⟩ := ih hs
        exact ⟨congrArg (c :: ·) hs', hopens⟩

/-- In front of a comma, a brace or the end there is no value. -/
theorem cutValue_of_closed {r : Str} (h : ¬ opensValue r = true) : (cutValue r).1 = [] := by
  cases r with
  | nil => rfl
  | cons q t =>
      rw [opensValue_cons] at h
      have hno : ¬ ((q = '\'' ∨ q = '"') ∧ q ∈ t) := by
        intro hquote
        rcases hquote.1 with rfl | rfl
        · exact h rfl
        · exact h rfl
      rw [cutValue, if_neg hno, List.takeWhile_cons_of_neg h]

/-- A blank in front of something that is no value shows nothing: the value that is cut out is the
blank alone, and it is stripped. -/
theorem strip_cutValue_blank {c : Char} {s : Str} (hc : isSpace c = true)
    (hs : ¬ opensValue s = true) : strip (cutValue (c :: s)).1 = [] := by
  have hq : ¬ ((c = '\'' ∨ c = '"') ∧ c ∈ s) := by
    intro hquote
    rcases hquote.1 with rfl | rfl
    · exact absurd hc (by decide)
    · exact absurd hc (by decide)
  have htake : s.takeWhile inValue = [] := by
    cases s with
    | nil => rfl
    | cons d t =>
        rw [opensValue_cons] at hs
        exact List.takeWhile_cons_of_neg hs
  rw [cutValue, if_neg hq, List.takeWhile_cons_of_pos (inValue_of_isSpace hc), htake,
    strip_eq_nil_iff]
  simpa using hc

/-- The last blank in front of something that is no value. The pattern can match there although the
stripped text has no value, with the blank for the value. -/
theorem exists_last_blank {r : Str} (h : opensValue r = true) (hl : ¬ opensValue (lstrip r) = true) :
    ∃ w c, (∀ d ∈ w, isSpace d = true) ∧ isSpace c = true ∧ r = w ++ c :: lstrip r := by
  have hall := List.takeWhile_append_dropWhile (p := isSpace) (l := r)
  have hne : r.takeWhile isSpace ≠ [] := by
    intro hnil
    rw [hnil, List.nil_append] at hall
    rw [lstrip, hall] at hl
    exact hl h
  obtain ⟨w, c, hw⟩ : ∃ w c, r.takeWhile isSpace = w ++ [c] :=
    ⟨_, _, (List.dropLast_append_getLast hne).symm⟩
  have hspace : ∀ d ∈ w ++ [c], isSpace d = true := by
    rw [← hw]
    exact fun d hd => List.mem_takeWhile_imp hd
  refine ⟨w, c, fun d hd => hspace d (List.mem_append_left _ hd), hspace c (by simp), ?_⟩
  rw [hw, List.append_assoc] at hall
  exact hall.symm

/-- The first pattern at a `name:`. Where only blanks stand in front of a comma or a
brace, it takes the last of them. -/
theorem matchAt_nameRx {r : Str} (h : opensValue r = true) :
    ∃ s' g, nameRx.matchAt ("name:".toList ++ r) = some (s', g) ∧ strip (rawOf g) = shownName r := by
  have hrun : nameRx.matchAt ("name:".toList ++ r) = Regex.runMany isSpace nameValue r := by
    rw [nameRx_eq, Regex.matchAt, Regex.run_seqs_cons, Regex.run_lit_append]
    rfl
  rw [hrun]
  by_cases hl : opensValue (lstrip r) = true
  · obtain ⟨g, hg, hraw⟩ := run_nameValue hl
    refine ⟨(cutValue (lstrip r)).2, g, ?_, by rw [hraw, shownName]⟩
    exact (Regex.runMany_of_isSome ((nameValue_isSome _).mpr hl)).trans hg
  · obtain ⟨w, c, hw, hc, hsplit⟩ := exists_last_blank h hl
    have hnone : Regex.runMany isSpace nameValue (lstrip r) = none := by
      refine (Regex.runMany_of_head (List.dropWhile_idempotent isSpace r)).trans ?_
      exact Option.not_isSome_iff_eq_none.mp fun hs => hl ((nameValue_isSome _).mp hs)
    obtain ⟨g, hg, hraw⟩ := run_nameValue (r := c :: lstrip r) (inValue_of_isSpace hc)
    refine ⟨(cutValue (c :: lstrip r)).2, g, ?_, ?_⟩
    · have hlast : (nameValue (c :: lstrip r)).isSome := by
        rw [nameValue, hg]
        rfl
      have hgive := Regex.runMany_giveback hw hc hnone hlast
      rw [← hsplit] at hgive
      exact hgive.trans hg
    · rw [hraw, strip_cutValue_blank hc hl, shownName, cutValue_of_closed hl]
      rfl

/-- **The name of an item.** -/
theorem flowName_eq (ln : Str) :
    flowName ln = ((firstName ln).map fun (_, r) => shownName r).getD [] := by
  rw [flowName, search_eq_firstName (fun _ => rfl)]
  cases hfirst : firstName ln with
  | none => rfl
  | some p =>
      obtain ⟨a, r⟩ := p
      obtain ⟨s', g, hmatch, hraw⟩ := matchAt_nameRx (opensValue_of_firstName hfirst).2
      simp only [Option.bind_some, hmatch, Option.map_some, Option.getD_some]
      exact hraw

theorem opensValue_of_shownName {r : Str} (h : shownName r ≠ []) : opensValue (lstrip r) = true := by
  by_contra hclosed
  exact h (by rw [shownName, cutValue_of_closed hclosed]; rfl)

/-- The second pattern at a `name:` with a value. The blanks behind the colon are taken first, and
since the value then opens, none of them is given back. -/
theorem matchAt_nameSubRx {r : Str} (h : opensValue (lstrip r) = true) :
    ∃ v, nameSubRx.matchAt ("name:".toList ++ r) = some ((cutValue (lstrip r)).2,
      [(2, v), (1, "name:".toList ++ r.takeWhile isSpace)]) := by
  obtain ⟨v, hv⟩ := run_subValue h [(1, "name:".toList ++ r.takeWhile isSpace)]
  refine ⟨v, ?_⟩
  have hrun : nameSubRx.matchAt ("name:".toList ++ r) = Regex.runMany isSpace (fun u =>
      Regex.run (.group 2 subValueRx) u [(1, ("name:".toList ++ r).take
        (("name:".toList ++ r).length - u.length))] (fun s g => some (s, g))) r := by
    rw [nameSubRx_eq, Regex.matchAt, Regex.run_seqs_cons, Regex.run, Regex.run_seqs_cons,
      Regex.run_lit_append]
    rfl
  have htake : ("name:".toList ++ r).take (("name:".toList ++ r).length - (lstrip r).length) =
      "name:".toList ++ r.takeWhile isSpace := by
    have hle : (lstrip r).length ≤ r.length := (List.dropWhile_suffix isSpace).length_le
    rw [List.length_append, Nat.add_sub_assoc hle, List.take_length_add_append, lstrip,
      Regex.take_sub_dropWhile]
  rw [hrun, Regex.runMany_of_isSome]
  · change Regex.run _ (lstrip r) _ _ = _
    rw [← lstrip, htake, hv]
  · rw [← lstrip, htake, hv]
    rfl

/-- **The rewritten item.** -/
theorem flowProxy_eq {ln a r : Str} (hfirst : firstName ln = some (a, r)) (hname : shownName r ≠ [])
    (label : Str) : flowProxy label ln = some ("  ".toList ++ strip (a ++ ("name:".toList ++
      (r.takeWhile isSpace ++ (yamlSq (labelled label (shownName r)) ++ (cutValue (lstrip r)).2)))),
      labelled label (shownName r)) := by
  have hflow : flowName ln = shownName r := by simp [flowName_eq, hfirst]
  obtain ⟨v, hmatch⟩ := matchAt_nameSubRx (opensValue_of_shownName hname)
  have hsearch : nameSubRx.search ln = some (a, [(2, v), (1, "name:".toList ++ r.takeWhile isSpace)],
      (cutValue (lstrip r)).2) := by
    rw [search_eq_firstName isMatch_nameSubRx, hfirst]
    simp only [Option.bind_some, hmatch, Option.map_some]
  rw [flowProxy, if_neg (by rw [hflow]; exact hname), hflow]
  simp only [Regex.subOnce, hsearch]
  simp

/-- The text behind a `name:` shows a name: a value that is not blank. -/
def ShowsName (r : Str) : Prop :=
  match lstrip r with
  | [] => False
  | q :: t => inValue q = true ∧
      ((q = '\'' ∨ q = '"') → q ∈ t → ∃ c ∈ t.takeWhile (· != q), isSpace c = false)

/-- The search finds a name in the item. -/
def HasName (ln : Str) : Prop := ∃ a r, firstName ln = some (a, r) ∧ ShowsName r

theorem shownName_ne_nil_iff {r : Str} : shownName r ≠ [] ↔ ShowsName r := by
  have hexists : ∀ s : Str, strip s ≠ [] ↔ ∃ c ∈ s, isSpace c = false := by
    intro s
    rw [Ne, strip_eq_nil_iff]
    simp
  rw [shownName, hexists, ShowsName]
  cases hr : lstrip r with
  | nil => simp [cutValue]
  | cons q t =>
      have hq : isSpace q = false := head_lstrip hr
      by_cases hin : inValue q = true
      · rw [cutValue]
        split_ifs with hquote
        · simp [hin, hquote.1, hquote.2]
        · -- the value starts with its own first character
          rw [List.takeWhile_cons_of_pos hin]
          refine iff_of_true ⟨q, List.mem_cons_self, hq⟩ ⟨hin, fun h1 h2 => ?_⟩
          exact absurd ⟨h1, h2⟩ hquote
      · rw [cutValue_of_closed (by rwa [opensValue_cons])]
        simp [hin]

theorem flowProxy_isSome_iff {label ln : Str} : (flowProxy label ln).isSome ↔ HasName ln := by
  have hflow : (flowProxy label ln).isSome ↔ flowName ln ≠ [] := by
    unfold flowProxy
    split_ifs with h <;> simp [h]
  rw [hflow, flowName_eq]
  unfold HasName
  cases firstName ln with
  | none => simp
  | some p =>
      obtain ⟨a, r⟩ := p
      simp only [Option.map_some, Option.getD_some, shownName_ne_nil_iff, Option.some.injEq,
        Prod.mk.injEq]
      constructor
      · intro h
        exact ⟨a, r, ⟨rfl, rfl⟩, h⟩
      · intro h
        obtain ⟨a', r', ⟨rfl, rfl⟩, h⟩ := h
        exact h

/-! ### The block of the proxies -/

/-- The line is not indented. -/
def isTop (l : Str) : Bool := (l.head?.map fun c => !isSpace c).getD false

/-- A comment line, at any column. -/
def isComment (l : Str) : Bool := (lstrip l).head? == some '#'

/-- A line with something on it that is no comment. -/
def isItem (l : Str) : Bool := strip l != [] && !isComment l

/-- The line `proxies:`. -/
def isProxiesKey (l : Str) : Bool :=
  startswith l "proxies:".toList && (l.drop "proxies:".toList.length).all isSpace

/-- A clash configuration by its lines, as `str.splitlines` cuts them: that is the reader whose
lines `fetch_clash_proxies` goes through. It also cuts at separators such as U+0085 and
U+2028, at which a YAML reader does not (`Yaml.isBreak`), so an item here can be a part of
what is one line to such a reader. The key line is any line, say one with a comment behind
the colon; `proxies:` alone stands on no other. -/
structure ProxiesDoc where
  before : List Str
  key : Str
  rest : List Str
  before_key : ∀ l ∈ before, isProxiesKey l = false
  rest_key : ∀ l ∈ rest, isProxiesKey l = false

namespace ProxiesDoc

variable (doc : ProxiesDoc)

def lines : List Str := doc.before ++ doc.key :: doc.rest

/-- The lines of the sequence: up to the first that is neither indented nor a comment. -/
def body : List Str := doc.rest.takeWhile fun l => !isTop l || isComment l

/-- The items of the sequence. -/
def items : List Str := doc.body.filter isItem

/-- The lines in front of the first comment at column 0. -/
def seen : List Str := doc.body.takeWhile fun l => !isTop l

/-- The lines from the first comment at column 0 on. -/
def unseen : List Str := doc.body.dropWhile fun l => !isTop l

/-- All of the items are returned, in order, or nothing is. -/
def AllOrNothing (label : Str) (result : List (Str × Str)) : Prop :=
  result = [] ∨ doc.items.map (flowProxy label) = result.map some

/-- The cases in which nothing is lost. -/
def Kept : Prop :=
  -- nothing is returned, for want of a block, of the flow form, or of names
  isProxiesKey doc.key = false ∨ (∃ l ∈ doc.seen, strip l ≠ [] ∧ flowItemRx.isMatch l = false) ∨
    (∀ l ∈ doc.seen, isItem l = true → ¬ HasName l) ∨
  -- everything is seen, and has a name that is found
    ((∀ l ∈ doc.unseen, isItem l = false) ∧ ∀ l ∈ doc.items, HasName l)

end ProxiesDoc

theorem isMatch_topLevelRx (l : Str) : topLevelRx.isMatch l = isTop l := by
  cases l with
  | nil => rfl
  | cons c l =>
      cases hc : isSpace c <;> simp [topLevelRx, Regex.isMatch, Regex.matchAt, Regex.run, isTop, hc]

theorem isMatch_proxiesKeyRx (l : Str) : proxiesKeyRx.isMatch l = isProxiesKey l := by
  rw [Bool.eq_iff_iff, isProxiesKey, Bool.and_eq_true, startswith_iff]
  have hmatch : proxiesKeyRx.isMatch l = true ↔ ∃ r, l = "proxies:".toList ++ r ∧
      (Regex.runMany isSpace (fun u => Regex.run .eol u [] (fun s g => some (s, g))) r).isSome := by
    rw [proxiesKeyRx, Regex.isMatch, Regex.matchAt, Regex.run_seqs_cons, Regex.run_lit_isSome]
    rfl
  rw [hmatch]
  constructor
  · intro h
    obtain ⟨r, rfl, hr⟩ := h
    obtain ⟨a, b, rfl, ha, hb⟩ := Regex.runMany_isSome.mp hr
    refine ⟨⟨_, rfl⟩, ?_⟩
    have hend : b = [] ∨ b = ['\n'] := by
      by_contra hno
      simp [Regex.run, hno] at hb
    rw [List.drop_left, List.all_append, List.all_eq_true.mpr ha, Bool.true_and]
    rcases hend with rfl | rfl
    · rfl
    · decide
  · intro h
    obtain ⟨⟨r, rfl⟩, hr⟩ := h
    rw [List.drop_left] at hr
    exact ⟨r, rfl, Regex.runMany_isSome.mpr ⟨r, [], by simp, List.all_eq_true.mp hr, rfl⟩⟩

theorem not_isMatch_flowItemRx {l : Str} (h : isComment l = true) : flowItemRx.isMatch l = false := by
  rw [Bool.eq_false_iff]
  intro hmatch
  rw [flowItemRx, Regex.isMatch, Regex.matchAt, Regex.run_seqs_cons] at hmatch
  obtain ⟨a, b, rfl, ha, hb⟩ := Regex.runMany_isSome.mp hmatch
  simp only [Regex.run_seqs_cons] at hb
  obtain ⟨c, t, rfl, hc, -⟩ := Regex.run_chr_isSome.mp hb
  obtain rfl : c = '-' := by simpa using hc
  have hl : lstrip (a ++ '-' :: t) = '-' :: t := by
    rw [lstrip, List.dropWhile_append_of_pos ha, List.dropWhile_cons_of_neg (by decide)]
  rw [isComment, hl] at h
  exact absurd h (by simp)

theorem proxiesBlock_true {ls : List Str} (h : ∀ l ∈ ls, isProxiesKey l = false) :
    proxiesBlock true ls = (ls.takeWhile fun l => !isTop l).filter fun l => strip l != [] := by
  induction ls with
  | nil => rfl
  | cons l ls ih =>
      have hl := h l List.mem_cons_self
      have hls := ih fun m hm => h m (List.mem_cons_of_mem _ hm)
      rw [proxiesBlock, isMatch_proxiesKeyRx, hl, isMatch_topLevelRx]
      by_cases htop : isTop l = true
      · simp [htop]
      · by_cases hblank : strip l = []
        · simp [htop, hblank, hls]
        · simp [htop, hblank, hls]

theorem proxiesBlock_false {before rest : List Str} (h : ∀ l ∈ before, isProxiesKey l = false) :
    proxiesBlock false (before ++ rest) = proxiesBlock false rest := by
  induction before with
  | nil => rfl
  | cons l before ih =>
      rw [List.cons_append, proxiesBlock, isMatch_proxiesKeyRx, h l List.mem_cons_self]
      simpa using ih fun m hm => h m (List.mem_cons_of_mem _ hm)

namespace ProxiesDoc

variable (doc : ProxiesDoc)

/-- The block that is cut out: the lines under the key up to the next one at the top level, without
the blank ones. With another key no block is opened. -/
theorem proxiesBlock_lines : proxiesBlock false doc.lines =
    if isProxiesKey doc.key then doc.seen.filter fun l => strip l != [] else [] := by
  have hseen : (doc.rest.takeWhile fun l => !isTop l) = doc.seen := by
    rw [seen, body, List.takeWhile_takeWhile]
    congr 1
    funext l
    cases isTop l <;> simp
  rw [lines, proxiesBlock_false doc.before_key, proxiesBlock, isMatch_proxiesKeyRx]
  by_cases hkey : isProxiesKey doc.key = true
  · rw [if_pos hkey, if_pos hkey, proxiesBlock_true doc.rest_key, hseen]
  · -- without the key no block is opened
    have hrest : proxiesBlock false (doc.rest ++ []) = proxiesBlock false [] :=
      proxiesBlock_false doc.rest_key
    rw [List.append_nil] at hrest
    rw [if_neg hkey, if_neg hkey, if_neg Bool.false_ne_true, hrest]
    rfl

theorem items_eq : doc.items = doc.seen.filter isItem ++ doc.unseen.filter isItem := by
  rw [items, ← List.filter_append, seen, unseen, List.takeWhile_append_dropWhile]

variable {doc}

/-- Among lines of the flow form the non-blank ones are the items. -/
theorem filter_seen (h : ∀ l ∈ doc.seen, strip l ≠ [] → flowItemRx.isMatch l = true) :
    (doc.seen.filter fun l => strip l != []) = doc.seen.filter isItem := by
  refine List.filter_congr (fun l hl => ?_)
  by_cases hblank : strip l = []
  · simp [isItem, hblank]
  · have hcomment : isComment l = false := by
      by_contra hc
      rw [Bool.not_eq_false] at hc
      have hno := not_isMatch_flowItemRx hc
      rw [h l hl hblank] at hno
      cases hno
    simp [isItem, hcomment]

/-- **What is returned for a document.** The block is used only if all its lines that are not blank
are items of the flow form; one that is not makes the source return nothing. -/
theorem clashProxies_lines {bytes : Bytes} (hdoc : splitlines (decodeReplace bytes) = doc.lines)
    (label : Str) : clashProxies label (some bytes) =
      if isProxiesKey doc.key = true ∧ ∀ l ∈ doc.seen, strip l ≠ [] → flowItemRx.isMatch l = true
      then (doc.seen.filter isItem).filterMap (flowProxy label) else [] := by
  simp only [clashProxies, hdoc, doc.proxiesBlock_lines]
  by_cases hkey : isProxiesKey doc.key = true
  · simp only [hkey, if_true, true_and]
    by_cases hflow : ∀ l ∈ doc.seen, strip l ≠ [] → flowItemRx.isMatch l = true
    · have hall : ((doc.seen.filter fun l => strip l != []).filter flowItemRx.isMatch) =
          doc.seen.filter isItem := by
        rw [List.filter_eq_self.mpr, filter_seen hflow]
        intro l hl
        obtain ⟨hmem, hne⟩ := List.mem_filter.mp hl
        exact hflow l hmem (by simpa using hne)
      rw [if_pos hflow, hall, filter_seen hflow]
      split_ifs with hnil
      · rcases hnil with hnil | hlen
        · rw [hnil]
          rfl
        · exact absurd rfl hlen
      · rfl
    · rw [if_neg hflow, if_pos (Or.inr ?_)]
      intro hlen
      refine hflow (fun l hl hne => ?_)
      exact List.length_filter_eq_length_iff.mp hlen l (List.mem_filter.mpr ⟨hl, by simpa using hne⟩)
  · simp [hkey]

/-- One pair per item, in order. -/
theorem map_some_filterMap {f : Str → Option (Str × Str)} {ls : List Str}
    (h : ∀ l ∈ ls, (f l).isSome) : ls.map f = (ls.filterMap f).map some := by
  induction ls with
  | nil => rfl
  | cons l ls ih =>
      obtain ⟨p, hp⟩ := Option.isSome_iff_exists.mp (h l List.mem_cons_self)
      rw [List.map_cons, List.filterMap_cons_some hp, List.map_cons, hp,
        ih fun m hm => h m (List.mem_cons_of_mem _ hm)]

end ProxiesDoc

open ProxiesDoc in
/-- **Inlining is all or nothing** exactly in the cases `Kept` lists. Lines are lost in two
ways that do not empty the result: behind a comment at column 0, where the block seems to end,
and for want of a name the search can find. -/
theorem all_or_nothing_iff (doc : ProxiesDoc) {bytes : Bytes}
    (hdoc : splitlines (decodeReplace bytes) = doc.lines) (label : Str) :
    doc.AllOrNothing label (clashProxies label (some bytes)) ↔ doc.Kept := by
  rw [clashProxies_lines hdoc]
  by_cases hkey : isProxiesKey doc.key = true
  swap
  · exact iff_of_true (Or.inl (by simp [hkey])) (Or.inl (by simpa using hkey))
  by_cases hflow : ∀ l ∈ doc.seen, strip l ≠ [] → flowItemRx.isMatch l = true
  swap
  · refine iff_of_true (Or.inl (by rw [if_neg fun h => hflow h.2])) (Or.inr (Or.inl ?_))
    simpa using hflow
  rw [if_pos ⟨hkey, hflow⟩]
  have hsome : ∀ l, (flowProxy label l).isSome ↔ HasName l := fun l => flowProxy_isSome_iff
  have hnone : (doc.seen.filter isItem).filterMap (flowProxy label) = [] ↔
      ∀ l ∈ doc.seen, isItem l = true → ¬ HasName l := by
    rw [List.filterMap_eq_nil_iff]
    simp only [List.mem_filter, ← hsome, Option.not_isSome_iff_eq_none, and_imp]
  constructor
  · intro h
    rcases h with hnil | hall
    · exact Or.inr (Or.inr (Or.inl (hnone.mp hnil)))
    · refine Or.inr (Or.inr (Or.inr ⟨?_, ?_⟩))
      · -- the result is no longer than the items that were seen
        have hlen := congrArg List.length hall
        have hle := List.length_filterMap_le (flowProxy label) (doc.seen.filter isItem)
        rw [List.length_map, List.length_map, doc.items_eq, List.length_append] at hlen
        have hzero : (doc.unseen.filter isItem).length = 0 := by omega
        simpa [List.filter_eq_nil_iff] using List.length_eq_zero_iff.mp hzero
      · intro l hl
        have hmem : flowProxy label l ∈ doc.items.map (flowProxy label) := List.mem_map_of_mem hl
        rw [hall] at hmem
        obtain ⟨p, -, hp⟩ := List.mem_map.mp hmem
        rw [← hsome, ← hp]
        rfl
  · intro h
    rcases h with h | h | h | h
    · rw [hkey] at h
      cases h
    · obtain ⟨l, hl, hne, hno⟩ := h
      rw [hflow l hl hne] at hno
      cases hno
    · exact Or.inl (hnone.mpr h)
    · obtain ⟨hunseen, hnames⟩ := h
      have hbehind : doc.unseen.filter isItem = [] :=
        List.filter_eq_nil_iff.mpr fun l hl => by simp [hunseen l hl]
      have hitems : doc.items = doc.seen.filter isItem := by
        rw [doc.items_eq, hbehind, List.append_nil]
      refine Or.inr ?_
      rw [hitems] at hnames ⊢
      exact map_some_filterMap fun l hl => flowProxy_isSome_iff.mpr (hnames l hl)

/-- Two items with a comment between them. -/
def commentDoc (indented : Bool) : ProxiesDoc where
  before := ["port: 1".toList]
  key := "proxies:".toList
  rest := ["  - \x7bname: a\x7d".toList, if indented then "  # b".toList else "# b".toList,
    "  - \x7bname: b\x7d".toList]
  before_key := by simp [isProxiesKey, startswith]
  rest_key := by cases indented <;> simp [isProxiesKey, startswith]

/-- Behind an indented comment nothing is returned at all. -/
theorem all_or_nothing_iff_indented : (commentDoc true).AllOrNothing []
    (clashProxies [] (some (encode
      "port: 1\nproxies:\n  - \x7bname: a\x7d\n  # b\n  - \x7bname: b\x7d\n".toList))) := by
  refine (all_or_nothing_iff (commentDoc true) (by decide) []).mpr ?_
  exact Or.inr (Or.inl ⟨"  # b".toList, by decide, by decide, by decide⟩)

/-- A comment at column 0 between two items truncates the result to the first. -/
theorem comment_truncates : ∃ bytes, splitlines (decodeReplace bytes) = (commentDoc false).lines ∧
    (commentDoc false).items = ["  - \x7bname: a\x7d".toList, "  - \x7bname: b\x7d".toList] ∧
    clashProxies "L".toList (some bytes) =
      [("  - \x7bname: 'L | a'\x7d".toList, "L | a".toList)] ∧
    ¬ (commentDoc false).AllOrNothing "L".toList (clashProxies "L".toList (some bytes)) := by
  refine ⟨encode "port: 1\nproxies:\n  - \x7bname: a\x7d\n# b\n  - \x7bname: b\x7d\n".toList,
    by decide, by decide, by decide, ?_⟩
  unfold ProxiesDoc.AllOrNothing
  decide

end BlogStuff.VlessSubs
