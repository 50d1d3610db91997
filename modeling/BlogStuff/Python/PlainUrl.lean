import BlogStuff.Python.Url

/-!
# BlogStuff.Python.PlainUrl

Texts that go through the functions of `urllib.parse` unchanged.

* `unquote` is the identity exactly on texts without an escape (`unquote_eq_self_iff`):
  an escape takes three characters and yields one byte, and decoding bytes never yields
  more characters than bytes.
* Names and values without `&`, `=`, `+` and `%` survive the way through a query string
  (`qsGet_joinQuery`).
* The parts of a URL in the usual form are the texts it was put together from
  (`splitParts_plain`).
-/

namespace BlogStuff.Python

/-! ### Escapes -/

/-- The text holds a `%` with two hexadecimal digits behind it. -/
def HasEscape (s : Str) : Prop :=
  ∃ pre a b post, s = pre ++ '%' :: a :: b :: post ∧ isHexDigit a = true ∧ isHexDigit b = true

theorem hasEscape_cons {c : Char} {s : Str} (h : HasEscape s) : HasEscape (c :: s) := by
  obtain ⟨pre, a, b, post, rfl, ha, hb⟩ := h
  exact ⟨c :: pre, a, b, post, rfl, ha, hb⟩

theorem HasEscape.mem {s : Str} (h : HasEscape s) : '%' ∈ s := by
  obtain ⟨pre, a, b, post, rfl, -⟩ := h
  simp

theorem HasEscape.of_infix {r s : Str} (h : HasEscape r) (hr : r <:+: s) : HasEscape s := by
  obtain ⟨pre, a, b, post, rfl, ha, hb⟩ := h
  obtain ⟨x, y, rfl⟩ := hr
  exact ⟨x ++ pre, a, b, post ++ y, by simp, ha, hb⟩

theorem isAlphanum_of_isHexDigit {c : Char} (h : isHexDigit c = true) : c.isAlphanum = true := by
  simp only [isHexDigit, Bool.or_eq_true, Bool.and_eq_true, decide_eq_true_eq] at h
  rw [Char.isAlphanum, Bool.or_eq_true, isAlpha_iff]
  rcases h with (hdigit | ⟨ha, hf⟩) | ⟨hA, hF⟩
  · exact .inr hdigit
  · have hf' : c.toNat ≤ 102 := hf
    exact .inl (.inr ⟨ha, by omega⟩)
  · have hF' : c.toNat ≤ 70 := hF
    exact .inl (.inl ⟨hA, by omega⟩)

theorem isAsciiChar_of_isAlphanum {c : Char} (h : c.isAlphanum = true) : isAsciiChar c = true := by
  rw [Char.isAlphanum, Bool.or_eq_true, isAlpha_iff, isDigit_iff] at h
  rw [isAsciiChar, decide_eq_true_eq]
  omega

theorem isAsciiChar_of_isHexDigit {c : Char} (h : isHexDigit c = true) : isAsciiChar c = true :=
  isAsciiChar_of_isAlphanum (isAlphanum_of_isHexDigit h)

/-- Without escapes the bytes are the characters. A `%` may be there as long as no two hexadecimal
digits follow it: it then stands for itself. -/
theorem unquoteToBytes_of_not_hasEscape {s : Str} (h : ¬ HasEscape s) :
    unquoteToBytes s = s.map fun c => UInt8.ofNat c.toNat := by
  induction s using unquoteToBytes.induct with
  | case1 a b s hab ih =>
      obtain ⟨ha, hb⟩ := Bool.and_eq_true_iff.mp hab
      exact absurd ⟨[], a, b, s, rfl, ha, hb⟩ h
  | case2 a b s hab ih =>
      rw [unquoteToBytes, if_neg hab, ih (fun h' => h (hasEscape_cons h'))]
      rfl
  | case3 c s hc ih =>
      rw [unquoteToBytes, ih (fun h' => h (hasEscape_cons h'))]
      · rfl
      · exact hc
  | case4 => rfl

/-- An escape shortens the text: three characters become one byte, and every other character one
byte at most. -/
theorem length_unquoteToBytes (s : Str) : (unquoteToBytes s).length ≤ s.length ∧
    (HasEscape s → (unquoteToBytes s).length < s.length) := by
  induction s using unquoteToBytes.induct with
  | case1 a b s hab ih =>
      rw [unquoteToBytes, if_pos hab]
      simp only [List.length_cons]
      exact ⟨by omega, fun _ => by omega⟩
  | case2 a b s hab ih =>
      rw [unquoteToBytes, if_neg hab]
      simp only [List.length_cons] at ih ⊢
      refine ⟨by omega, fun h => ?_⟩
      obtain ⟨pre, a', b', post, hs, ha, hb⟩ := h
      cases pre with
      | nil =>
          obtain ⟨-, rfl, rfl, -⟩ : '%' = '%' ∧ a = a' ∧ b = b' ∧ s = post := by simpa using hs
          simp [ha, hb] at hab
      | cons d pre =>
          have := ih.2 ⟨pre, a', b', post, (List.cons.inj hs).2, ha, hb⟩
          omega
  | case3 c s hc ih =>
      rw [unquoteToBytes]
      · simp only [List.length_cons]
        refine ⟨by omega, fun h => ?_⟩
        obtain ⟨pre, a, b, post, hs, ha, hb⟩ := h
        cases pre with
        | nil =>
            obtain ⟨rfl, rfl⟩ := List.cons.inj hs
            exact absurd rfl (hc a b post rfl)
        | cons d pre =>
            have := ih.2 ⟨pre, a, b, post, (List.cons.inj hs).2, ha, hb⟩
            omega
      · exact hc
  | case4 =>
      refine ⟨le_rfl, fun h => ?_⟩
      simpa using h.mem

/-! ### Runs -/

/-- The runs `unquote` works on: all ASCII, or without any ASCII character. Neighbours in a run
agree on this, and so do any two characters of it. -/
theorem isAscii_of_mem_run {s r : Str} {c : Char}
    (hr : r ∈ s.splitBy fun a b => isAsciiChar a == isAsciiChar b) (hc : c ∈ r)
    (hascii : isAsciiChar c = true) : isAscii r = true := by
  have hchain : r.IsChain fun a b => isAsciiChar a = isAsciiChar b := by
    refine (List.isChain_of_mem_splitBy hr).imp ?_
    intro a b hab
    exact beq_iff_eq.mp hab
  have htrans : Trans (fun a b => isAsciiChar a = isAsciiChar b)
      (fun a b => isAsciiChar a = isAsciiChar b) (fun a b => isAsciiChar a = isAsciiChar b) :=
    ⟨Eq.trans⟩
  have hsymm : Std.Symm (fun a b : Char => isAsciiChar a = isAsciiChar b) := ⟨fun _ _ => Eq.symm⟩
  have hall : ∀ ⦃x⦄, x ∈ r → ∀ ⦃y⦄, y ∈ r → isAsciiChar x = isAsciiChar y :=
    List.Pairwise.forall_of_forall (R := fun a b => isAsciiChar a = isAsciiChar b)
      (fun _ _ => rfl) hchain.pairwise
  refine List.all_eq_true.mpr (fun d hd => ?_)
  rw [hall hd hc, hascii]

/-- An escape lies inside one run, since its three characters are ASCII and a run ends only between
an ASCII character and another one. -/
theorem exists_hasEscape_run {runs : List Str}
    (hruns : runs.IsChain fun a b => ∃ (ha : a ≠ []) (hb : b ≠ []),
      (isAsciiChar (a.getLast ha) == isAsciiChar (b.head hb)) = false)
    (h : HasEscape runs.flatten) : ∃ r ∈ runs, HasEscape r := by
  induction runs with
  | nil => exact absurd h.mem (by simp)
  | cons r rs ih =>
      obtain ⟨pre, a, b, post, hs, ha, hb⟩ := h
      -- no two neighbours of the escape are separated
      have hjoin : ∀ {x y : Char} {z t : Str}, r = z ++ [x] → rs.flatten = y :: t →
          isAsciiChar x = true → isAsciiChar y = true → False := by
        intro x y z t hr hrs hx hy
        cases rs with
        | nil => simp at hrs
        | cons r' rs =>
            obtain ⟨⟨hne, hne', hcut⟩, -⟩ := List.isChain_cons_cons.mp hruns
            have hhead : r'.head hne' = y := by
              cases r' with
              | nil => exact absurd rfl hne'
              | cons d r' => exact (List.cons.inj hrs).1
            have hlast : r.getLast hne = x := by simp [hr]
            rw [hhead, hlast, hx, hy] at hcut
            cases hcut
      have hpa : isAsciiChar '%' = true := by decide
      have haa := isAsciiChar_of_isHexDigit ha
      have hba := isAsciiChar_of_isHexDigit hb
      rw [List.flatten_cons] at hs
      rcases List.append_eq_append_iff.mp hs with ⟨z, -, hz⟩ | ⟨z, hr, hz⟩
      · obtain ⟨r', hmem, hesc⟩ := ih hruns.tail ⟨z, a, b, post, hz, ha, hb⟩
        exact ⟨r', by simp [hmem], hesc⟩
      · match z, hr, hz with
        | [], hr, hz =>
            obtain ⟨r', hmem, hesc⟩ := ih hruns.tail ⟨[], a, b, post, hz.symm, ha, hb⟩
            exact ⟨r', by simp [hmem], hesc⟩
        | [x], hr, hz =>
            obtain ⟨rfl, hrs⟩ := List.cons.inj hz
            exact (hjoin hr hrs.symm hpa haa).elim
        | [x, y], hr, hz =>
            obtain ⟨rfl, hz'⟩ := List.cons.inj hz
            obtain ⟨rfl, hrs⟩ := List.cons.inj hz'
            exact (hjoin (z := pre ++ ['%']) (by simp [hr]) hrs.symm haa hba).elim
        | x :: y :: w :: z, hr, hz =>
            obtain ⟨rfl, hz'⟩ := List.cons.inj hz
            obtain ⟨rfl, hz''⟩ := List.cons.inj hz'
            obtain ⟨rfl, -⟩ := List.cons.inj hz''
            exact ⟨r, by simp, pre, a, b, z, hr, ha, hb⟩

theorem length_unquoteRun_le (r : Str) : (unquoteRun r).length ≤ r.length := by
  unfold unquoteRun
  split_ifs
  · exact (length_decodeReplace_le _).trans (length_unquoteToBytes r).1
  · exact le_rfl

theorem unquoteRun_of_not_hasEscape {r : Str} (h : ¬ HasEscape r) : unquoteRun r = r := by
  unfold unquoteRun
  split_ifs with hr
  · rw [unquoteToBytes_of_not_hasEscape h, ← encode_ascii hr, decodeReplace_encode]
  · rfl

/-- Unquoting a text with an escape shortens it. No run gets longer, and the one with the escape has
three characters where at most one is left. -/
theorem length_unquote_lt {s : Str} (h : HasEscape s) : (unquote s).length < s.length := by
  have hflat := List.flatten_splitBy (fun a b => isAsciiChar a == isAsciiChar b) s
  obtain ⟨r, hr, hesc⟩ := exists_hasEscape_run
    (List.isChain_getLast_head_splitBy (fun a b => isAsciiChar a == isAsciiChar b) s)
    (by rwa [hflat])
  have hstrict : (unquoteRun r).length < r.length := by
    rw [unquoteRun, if_pos (isAscii_of_mem_run hr hesc.mem (by decide))]
    exact (length_decodeReplace_le _).trans_lt ((length_unquoteToBytes r).2 hesc)
  have hsum : s.length = ((s.splitBy fun a b => isAsciiChar a == isAsciiChar b).map
      List.length).sum := by
    conv_lhs => rw [← hflat]
    exact List.length_flatten
  rw [unquote, if_pos (by simpa using h.mem), List.length_flatMap, hsum]
  exact List.sum_lt_sum _ _ (fun r _ => length_unquoteRun_le r) ⟨r, hr, hstrict⟩

/-- **Unquoting is the identity exactly on texts without escapes.** An escape makes the text
shorter, and without one every run is returned as it is. -/
theorem unquote_eq_self_iff {s : Str} : unquote s = s ↔ ¬ HasEscape s := by
  constructor
  · intro h hesc
    exact absurd (congrArg List.length h) (length_unquote_lt hesc).ne
  · intro h
    unfold unquote
    split_ifs
    · have hruns : ∀ r ∈ s.splitBy (fun a b => isAsciiChar a == isAsciiChar b),
          unquoteRun r = r := by
        intro r hr
        refine unquoteRun_of_not_hasEscape (fun hesc => h (hesc.of_infix ?_))
        obtain ⟨before, behind, hsplit⟩ := List.append_of_mem hr
        rw [← List.flatten_splitBy (fun a b => isAsciiChar a == isAsciiChar b) s, hsplit]
        exact ⟨before.flatten, behind.flatten, by simp⟩
      rw [List.flatMap_congr hruns]
      exact List.flatMap_id'.trans (List.flatten_splitBy _ s)
    · rfl

theorem length_unquote_le (s : Str) : (unquote s).length ≤ s.length := by
  by_cases h : HasEscape s
  · exact (length_unquote_lt h).le
  · rw [unquote_eq_self_iff.mpr h]

theorem unquote_of_not_mem {s : Str} (h : '%' ∉ s) : unquote s = s :=
  unquote_eq_self_iff.mpr (fun hesc => h hesc.mem)

/-! ### Quoted text -/

theorem isHexDigit_hexDigit : ∀ n < 16, isHexDigit (hexDigit n) = true := by decide

theorem hexVal_hexDigit : ∀ n < 16, hexVal (hexDigit n) = n := by decide

theorem toNat_ofNat_of_ascii {n : Nat} (h : n < 128) : (Char.ofNat n).toNat = n := by
  have hvalid : n.isValidChar := Or.inl (by omega)
  rw [Char.ofNat, dif_pos hvalid]
  rfl

theorem isAscii_quoteByte (b : UInt8) : isAscii (quoteByte b) = true := by
  have hb := b.toNat_lt
  unfold quoteByte
  split_ifs with h
  · obtain ⟨-, hlow⟩ : isAlwaysSafe (Char.ofNat b.toNat) = true ∧ b.toNat < 128 := by simpa using h
    simp [isAscii, isAsciiChar, toNat_ofNat_of_ascii hlow, hlow]
  · have hhi := isAsciiChar_of_isHexDigit (isHexDigit_hexDigit (b.toNat / 16) (by omega))
    have hlo := isAsciiChar_of_isHexDigit (isHexDigit_hexDigit (b.toNat % 16) (by omega))
    have hpct : isAsciiChar '%' = true := by decide
    simp [isAscii, hhi, hlo, hpct]

theorem isAscii_quote (s : Str) : isAscii (quote s) = true := by
  refine List.all_eq_true.mpr (fun c hc => ?_)
  obtain ⟨b, -, hb⟩ := List.mem_flatMap.mp hc
  exact List.all_eq_true.mp (isAscii_quoteByte b) c hb

/-- One quoted byte is read back as that byte, whether it was left as a safe character, which is no
`%`, or written as an escape. -/
theorem unquoteToBytes_quoteByte (b : UInt8) (s : Str) :
    unquoteToBytes (quoteByte b ++ s) = b :: unquoteToBytes s := by
  have hb := b.toNat_lt
  unfold quoteByte
  split_ifs with h
  · obtain ⟨hsafe, hlow⟩ : isAlwaysSafe (Char.ofNat b.toNat) = true ∧ b.toNat < 128 := by
      simpa using h
    rw [List.singleton_append, unquoteToBytes, toNat_ofNat_of_ascii hlow, UInt8.ofNat_toNat]
    -- a safe character is no `%`
    intro x y t hx
    rw [hx] at hsafe
    exact absurd hsafe (by decide)
  · have hhi := isHexDigit_hexDigit (b.toNat / 16) (by omega)
    have hlo := isHexDigit_hexDigit (b.toNat % 16) (by omega)
    have hvhi := hexVal_hexDigit (b.toNat / 16) (by omega)
    have hvlo := hexVal_hexDigit (b.toNat % 16) (by omega)
    have hval : b.toNat / 16 * 16 + b.toNat % 16 = b.toNat := by omega
    simp only [List.cons_append, List.nil_append]
    rw [unquoteToBytes, hhi, hlo, hvhi, hvlo, hval, UInt8.ofNat_toNat, Bool.and_self, if_pos rfl]

theorem unquoteToBytes_flatMap_quoteByte (bs : Bytes) :
    unquoteToBytes (bs.flatMap quoteByte) = bs := by
  induction bs with
  | nil => rfl
  | cons b bs ih => rw [List.flatMap_cons, unquoteToBytes_quoteByte, ih]

theorem unquote_of_isAscii {s : Str} (h : isAscii s = true) :
    unquote s = decodeReplace (unquoteToBytes s) := by
  by_cases hp : '%' ∈ s
  · have hchain : s.IsChain fun a b => isAsciiChar a == isAsciiChar b := by
      have hall := List.all_eq_true.mp h
      refine List.Pairwise.isChain (List.pairwise_of_forall_mem_list (fun a ha b hb => ?_))
      rw [hall a ha, hall b hb, beq_self_eq_true]
    rw [unquote, if_pos (by simpa using hp), List.splitBy_of_isChain (List.ne_nil_of_mem hp) hchain]
    simp [unquoteRun, h]
  · rw [unquote_of_not_mem hp, unquoteToBytes_of_not_hasEscape (fun hesc => hp hesc.mem),
      ← encode_ascii h, decodeReplace_encode]

/-- **Unquoting undoes quoting**, for every text. -/
theorem unquote_quote (s : Str) : unquote (quote s) = s := by
  rw [unquote_of_isAscii (isAscii_quote s), quote, unquoteToBytes_flatMap_quoteByte,
    decodeReplace_encode]

/-! ### Safe characters -/

theorem isAlwaysSafe_of_isAlphanum {c : Char} (h : c.isAlphanum = true) : isAlwaysSafe c = true := by
  simp [isAlwaysSafe, h]

theorem isAsciiChar_of_isAlwaysSafe {c : Char} (h : isAlwaysSafe c = true) :
    isAsciiChar c = true := by
  simp only [isAlwaysSafe, Bool.or_eq_true, beq_iff_eq] at h
  rcases h with (((h | rfl) | rfl) | rfl) | rfl
  · exact isAsciiChar_of_isAlphanum h
  all_goals decide

theorem ne_of_safe {x c : Char} (hx : isAlwaysSafe x = false) (hc : isAlwaysSafe c = true) :
    c ≠ x := by
  rintro rfl
  rw [hc] at hx
  cases hx

theorem isUnsafe_of_safe {c : Char} (h : isAlwaysSafe c = true) : isUnsafe c = false := by
  have h1 : c ≠ '\t' := ne_of_safe (by decide) h
  have h2 : c ≠ '\r' := ne_of_safe (by decide) h
  have h3 : c ≠ '\n' := ne_of_safe (by decide) h
  simp [isUnsafe, h1, h2, h3]

theorem isNetlocEnd_of_safe {c : Char} (h : isAlwaysSafe c = true) : isNetlocEnd c = false := by
  have h1 : c ≠ '/' := ne_of_safe (by decide) h
  have h2 : c ≠ '?' := ne_of_safe (by decide) h
  have h3 : c ≠ '#' := ne_of_safe (by decide) h
  simp [isNetlocEnd, h1, h2, h3]

theorem isSpace_of_safe {c : Char} (h : isAlwaysSafe c = true) : isSpace c = false := by
  by_contra hc
  have hno : isAlwaysSafe c = false :=
    of_isSpace (P := fun c => isAlwaysSafe c = false) (by decide) (by simpa using hc)
  rw [hno] at h
  cases h

theorem not_mem_of_safe {x : Char} {s : Str} (hx : isAlwaysSafe x = false)
    (hs : ∀ c ∈ s, isAlwaysSafe c = true) : x ∉ s := by
  intro h
  rw [hs x h] at hx
  cases hx

/-! ### Queries -/

/-- A query string of names and values. -/
def joinQuery (fields : List (Str × Str)) : Str :=
  List.intercalate ['&'] (fields.map fun f => f.1 ++ '=' :: f.2)

theorem unquotePlus_of_safe {s : Str} (hs : ∀ c ∈ s, isAlwaysSafe c = true) : unquotePlus s = s := by
  have hplus : (s.map fun c => if c = '+' then ' ' else c) = s := by
    conv_rhs => rw [← List.map_id s]
    refine List.map_congr_left (fun c hc => ?_)
    have hne : c ≠ '+' := fun e => not_mem_of_safe (by decide) hs (e ▸ hc)
    simp [hne]
  rw [unquotePlus, hplus, unquote_of_not_mem (not_mem_of_safe (by decide) hs)]

/-- Safe names and values are read back, apart from the blank values. No delimiter is a safe
character, so the query is cut exactly where it was joined, and nothing in it is an escape. -/
theorem parseQsl_joinQuery {fields : List (Str × Str)} (hne : fields ≠ [])
    (h : ∀ f ∈ fields, (∀ c ∈ f.1, isAlwaysSafe c = true) ∧ ∀ c ∈ f.2, isAlwaysSafe c = true) :
    parseQsl (joinQuery fields) = fields.filter fun f => f.2 ≠ [] := by
  have hsplit : (joinQuery fields).splitOn '&' = fields.map fun f => f.1 ++ '=' :: f.2 := by
    refine List.splitOn_intercalate '&' ?_ (by simpa using hne)
    intro l hl
    obtain ⟨f, hf, rfl⟩ := List.mem_map.mp hl
    have h1 : '&' ∉ f.1 := not_mem_of_safe (by decide) (h f hf).1
    have h2 : '&' ∉ f.2 := not_mem_of_safe (by decide) (h f hf).2
    simp [h1, h2]
  rw [parseQsl, hsplit, List.filterMap_map, ← List.filterMap_eq_filter]
  refine List.filterMap_congr (fun f hf => ?_)
  have hpart : partition '=' (f.1 ++ '=' :: f.2) = (f.1, true, f.2) :=
    partition_append (not_mem_of_safe (by decide) (h f hf).1) f.2
  simp only [Function.comp_apply, hpart, unquotePlus_of_safe (h f hf).1,
    unquotePlus_of_safe (h f hf).2]
  by_cases h0 : f.2 = [] <;> simp [h0, Option.guard]

/-- Each field of a query of distinct safe names gets its value; a blank one counts as
missing. -/
theorem qsGet_joinQuery {fields : List (Str × Str)} (hnodup : (fields.map Prod.fst).Nodup)
    (h : ∀ f ∈ fields, (∀ c ∈ f.1, isAlwaysSafe c = true) ∧ ∀ c ∈ f.2, isAlwaysSafe c = true)
    {k v : Str} (hkv : (k, v) ∈ fields) (dflt : Str) :
    qsGet (parseQs (joinQuery fields)) k dflt = pyOr v dflt := by
  have hne : fields ≠ [] := List.ne_nil_of_mem hkv
  obtain ⟨before, behind, rfl⟩ := List.append_of_mem hkv
  rw [List.map_append, List.map_cons, List.nodup_append'] at hnodup
  obtain ⟨-, hbehind, hdisj⟩ := hnodup
  have hnone : ∀ l : List (Str × Str), k ∉ l.map Prod.fst →
      (l.filter fun f => f.2 ≠ []).filterMap (fun p => if p.1 = k then some p.2 else none) = [] := by
    intro l hl
    refine List.filterMap_eq_nil_iff.mpr (fun p hp => if_neg (fun e => hl ?_))
    exact List.mem_map.mpr ⟨p, List.mem_of_mem_filter hp, e⟩
  have h1 := hnone before (fun hmem => hdisj hmem (by simp))
  have h2 := hnone behind (List.nodup_cons.mp hbehind).1
  rw [qsGet, parseQs, parseQsl_joinQuery hne h, List.filter_append, List.filterMap_append, h1,
    List.filter_cons]
  by_cases h0 : v = []
  · rw [if_neg (by simp [h0]), List.nil_append, h2, h0]
    rfl
  · simp [h0, pyOr]

/-! ### The parts of a URL -/

theorem filter_unsafe_iff {s : Str} :
    (s.filter fun c => !isUnsafe c) = s ↔ ∀ c ∈ s, c ≠ '\t' ∧ c ≠ '\r' ∧ c ≠ '\n' := by
  rw [List.filter_eq_self]
  simp [isUnsafe, and_assoc]

/-- The URL `scheme://netloc?query#fragment` is taken apart as it was put together; tabs
and line ends in the fragment are dropped. -/
theorem splitParts_plain {c : Char} {scheme netloc query fragment : Str}
    (hc : c.isAlpha = true ∧ isC0OrSpace c = false)
    (hscheme : ∀ d ∈ c :: scheme, isSchemeChar d = true ∧ isUnsafe d = false)
    (hnetloc : ∀ d ∈ netloc, isNetlocEnd d = false ∧ isUnsafe d = false)
    (hquery : ∀ d ∈ query, d ≠ '#' ∧ isUnsafe d = false) :
    splitParts (c :: scheme ++ ':' :: '/' :: '/' :: (netloc ++ '?' :: (query ++ '#' :: fragment))) =
      ⟨(c :: scheme).map Char.toLower, netloc, [], query,
        fragment.filter fun c => !isUnsafe c⟩ := by
  have hclean : cleanUrl (c :: scheme ++ ':' :: '/' :: '/' ::
      (netloc ++ '?' :: (query ++ '#' :: fragment))) =
        c :: scheme ++ ':' :: '/' :: '/' ::
          (netloc ++ '?' :: (query ++ '#' :: fragment.filter fun c => !isUnsafe c)) := by
    have hkeep : ∀ {l : Str}, (∀ d ∈ l, isUnsafe d = false) →
        (l.filter fun c => !isUnsafe c) = l := by
      intro l hl
      exact List.filter_eq_self.mpr (fun d hd => by rw [hl d hd]; rfl)
    rw [cleanUrl, List.cons_append, List.dropWhile_cons_of_neg (by simp [hc.2]), ← List.cons_append,
      List.filter_append, hkeep (fun d hd => (hscheme d hd).2)]
    simp only [List.filter_cons, List.filter_append, hkeep (fun d hd => (hnetloc d hd).2),
      hkeep (fun d hd => (hquery d hd).2)]
    rfl
  have hcolon : ':' ∉ c :: scheme := by
    intro hmem
    exact absurd (hscheme _ hmem).1 (by decide)
  have hall : (c :: scheme).all isSchemeChar = true :=
    List.all_eq_true.mpr (fun d hd => (hscheme d hd).1)
  have hsplit : ∀ rest, splitScheme (c :: scheme ++ ':' :: rest) =
      ((c :: scheme).map Char.toLower, rest) := by
    intro rest
    simp only [splitScheme, partition_append hcolon rest, hall, List.head?_cons, Option.map_some,
      Option.getD_some, hc.1, Bool.and_self, if_true]
  have hend : ∀ d ∈ netloc, (!isNetlocEnd d) = true := by
    intro d hd
    rw [(hnetloc d hd).1]
    rfl
  have hhash : '#' ∉ '?' :: query := by
    intro hmem
    rcases List.mem_cons.mp hmem with h | h
    · exact absurd h (by decide)
    · exact (hquery _ h).1 rfl
  have htake : ∀ rest, (netloc ++ '?' :: rest).takeWhile (fun c => !isNetlocEnd c) = netloc := by
    intro rest
    rw [List.takeWhile_append_of_pos hend, List.takeWhile_cons_of_neg (by decide), List.append_nil]
  have hdrop : ∀ rest, (netloc ++ '?' :: rest).dropWhile (fun c => !isNetlocEnd c) = '?' :: rest := by
    intro rest
    rw [List.dropWhile_append_of_pos hend, List.dropWhile_cons_of_neg (by decide)]
  have hfrag := partition_append hhash (fragment.filter fun c => !isUnsafe c)
  have hquest : partition '?' ('?' :: query) = ([], true, query) :=
    partition_append (a := []) (by simp) query
  have hstart : ∀ rest, startswith ('/' :: '/' :: rest) ['/', '/'] = true := fun rest => by
    simp [startswith]
  rw [List.cons_append] at hfrag
  simp only [splitParts, hclean, hsplit, hstart, if_true, List.drop_succ_cons, List.drop_zero,
    htake, hdrop, hfrag, hquest]

end BlogStuff.Python
