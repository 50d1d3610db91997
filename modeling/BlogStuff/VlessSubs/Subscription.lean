import BlogStuff.VlessSubs.ExtraSubs

/-!
# BlogStuff.VlessSubs.Subscription

The base64 subscription as a data format. A subscription is a list of node lines
(`IsNodeLine`): trimmed, without line boundaries, beginning with a scheme.

* Such a list survives the way through `build_base64` and `fetch_sub_lines`
  (`subLines_base64`), and everything `build_base64` collects is such a list: the own
  URLs because `load_nodes` reads them from lines, the labelled ones because the
  fragment is percent-encoded again.
* The plain text of such a list is read as the same list (`subLines_plain`). The
  reader first tries to decode it as base64; that fails because the `//` after the
  scheme becomes a byte that UTF-8 never uses.
-/

namespace BlogStuff.VlessSubs

open BlogStuff.Python

/-! ### Node lines -/

/-- A line `fetch_sub_lines` returns. -/
structure IsNodeLine (s : Str) : Prop where
  stripped : Stripped s
  oneLine : OneLine s
  scheme : schemeRx.isMatch s = true

/-- The scheme pattern is a letter, scheme characters and `://`. It is the form in which the
patterns are used: no match has to be looked for any more. -/
theorem schemeRx_iff {s : Str} : schemeRx.isMatch s = true ↔
    ∃ c a rest, s = c :: a ++ "://".toList ++ rest ∧ isLetterI c = true ∧
      ∀ d ∈ a, isSchemeCharI d = true := by
  have hrun : schemeRx.isMatch s = (Regex.run (.chr isLetterI) s [] (fun s g =>
      Regex.run (.many isSchemeCharI) s g (fun s g =>
        Regex.run (.lit "://".toList) s g (fun s' g => some (s', g))))).isSome := rfl
  rw [hrun, Regex.run_chr_isSome]
  constructor
  · intro ⟨c, t, ht, hc, hk⟩
    obtain ⟨a, b, rfl, ha, hb⟩ := Regex.runMany_isSome.mp hk
    obtain ⟨rest, rfl, -⟩ := Regex.run_lit_isSome.mp hb
    exact ⟨c, a, rest, by simp [ht], hc, ha⟩
  · intro ⟨c, a, rest, hs, hc, ha⟩
    refine ⟨c, a ++ ("://".toList ++ rest), by simp [hs], hc, ?_⟩
    refine Regex.runMany_isSome.mpr ⟨a, _, rfl, ha, ?_⟩
    exact Regex.run_lit_isSome.mpr ⟨rest, rfl, rfl⟩

/-- The characters of a scheme, which under `re.I` include four beyond ASCII, are no
white space. -/
theorem schemeCharI_not_space {c : Char} (h : isSchemeCharI c = true) : isSpace c = false := by
  by_contra hc
  have hno : isSchemeCharI c = false := by
    refine of_isSpace (P := fun c => isSchemeCharI c = false) (by decide) (by simpa using hc)
  rw [hno] at h
  cases h

theorem schemeCharI_of_letterI {c : Char} (h : isLetterI c = true) : isSchemeCharI c = true := by
  simp [isSchemeCharI, h]

theorem not_mem_scheme {x c : Char} {a : Str} (hx : isSchemeCharI x = false)
    (hc : isLetterI c = true) (ha : ∀ d ∈ a, isSchemeCharI d = true) : x ∉ c :: a := by
  intro hmem
  have hscheme : isSchemeCharI x = true := by
    rcases List.mem_cons.mp hmem with h | h
    · rw [h]
      exact schemeCharI_of_letterI hc
    · exact ha x h
  rw [hx] at hscheme
  cases hscheme

theorem IsNodeLine.ne_nil {s : Str} (h : IsNodeLine s) : s ≠ [] := by
  obtain ⟨c, a, rest, rfl, -⟩ := schemeRx_iff.mp h.scheme
  simp

/-! ### Reading base64 -/

theorem padding_b64encode (bs : Bytes) : padding (b64encode bs) = [] := by
  simp [padding, length_b64encode_mod]

theorem subLines_b64encode (text : Str) :
    subLines (some (encode (b64encode (encode text)))) = urlLines text := by
  have hstrip : strip (b64encode (encode text)) = b64encode (encode text) :=
    strip_of_forall (fun c hc => not_isSpace_of_mem_b64encode hc)
  have hdecode : decodeBody (b64encode (encode text)) = text := by
    rw [decodeBody, padding_b64encode, List.append_nil, b64decode_b64encode, Option.bind_some,
      decode_encode]
    rfl
  rw [subLines, bodyText, Option.bind_some, decode_encode, Option.map_some, hstrip]
  exact congrArg urlLines hdecode

theorem urlLines_intercalate {urls : List Str} (h : ∀ u ∈ urls, IsNodeLine u) :
    urlLines (List.intercalate ['\n'] urls) = urls := by
  have hlines : splitlines (List.intercalate ['\n'] urls) = urls :=
    splitlines_intercalate (fun u hu => ⟨(h u hu).oneLine, (h u hu).ne_nil⟩)
  have hmap : urls.map strip = urls := by
    conv_rhs => rw [← List.map_id urls]
    exact List.map_congr_left (fun u hu => (h u hu).stripped)
  rw [urlLines, hlines, hmap]
  exact List.filter_eq_self.mpr (fun u hu => (h u hu).scheme)

theorem subLines_base64 {urls : List Str} (h : ∀ u ∈ urls, IsNodeLine u) :
    subLines (some (encode (encodeUrls urls))) = urls := by
  rw [encodeUrls, subLines_b64encode, urlLines_intercalate h]

/-! ### What `build_base64` collects -/

/-- Whatever an endpoint answers, `fetch_sub_lines` returns node lines. -/
theorem isNodeLine_of_mem_subLines {answer : Option Bytes} {u : Str} (h : u ∈ subLines answer) :
    IsNodeLine u := by
  unfold subLines at h
  split at h
  · simp at h
  · obtain ⟨hmem, hscheme⟩ := List.mem_filter.mp h
    obtain ⟨l, hl, rfl⟩ := List.mem_map.mp hmem
    exact ⟨stripped_strip l, oneLine_strip (oneLine_of_mem_splitlines hl), hscheme⟩

/-- A labelled line, with its scheme in view. -/
theorem prefixUrlName_scheme {x : Str} (hx : '#' ∉ x) (rest label : Str) :
    ∃ base name, prefixUrlName (x ++ rest) label = x ++ (base ++ '#' :: quote name) ∧
      ∀ c ∈ base, c ∈ rest := by
  have hleft : (partition '#' (x ++ rest)).1 = x ++ (partition '#' rest).1 := by
    simp [partition, List.takeWhile_append_of_pos (bne_of_not_mem hx)]
  refine ⟨(partition '#' rest).1, prefixedName (x ++ rest) label, ?_,
    fun c hc => mem_partition_left hc⟩
  rw [prefixUrlName, hleft, List.append_assoc, List.append_assoc]
  rfl

/-- The label keeps a node line one. It is put into the fragment, and what is quoted has no white
space and no line break. -/
theorem isNodeLine_prefixUrlName {u : Str} (h : IsNodeLine u) (label : Str) :
    IsNodeLine (prefixUrlName u label) := by
  obtain ⟨c, a, rest, rfl, hc, ha⟩ := schemeRx_iff.mp h.scheme
  have hhash : '#' ∉ c :: a ++ "://".toList := by
    rw [List.mem_append, not_or]
    exact ⟨not_mem_scheme (by decide) hc ha, by decide⟩
  obtain ⟨base, name, hname, hbase⟩ := prefixUrlName_scheme hhash rest label
  rw [hname]
  have hlast : ∀ d, ('#' :: quote name).getLast? = some d → isSpace d = false := by
    intro d hd
    rcases List.mem_cons.mp (List.mem_of_getLast? hd) with hd | hd
    · rw [hd]
      decide
    · exact not_isSpace_of_mem_quote hd
  refine ⟨stripped_iff.mpr ⟨?_, ?_⟩, ?_, ?_⟩
  · intro d hd
    rw [← Option.some.inj hd]
    exact schemeCharI_not_space (schemeCharI_of_letterI hc)
  · intro d hd
    rw [← List.append_assoc, List.getLast?_append_of_ne_nil _ (by simp)] at hd
    exact hlast d hd
  · -- the base is part of the line, and quoting leaves no white space
    obtain ⟨hscheme, hrest⟩ := oneLine_append.mp h.oneLine
    refine oneLine_append.mpr ⟨hscheme, oneLine_append.mpr ⟨fun d hd => hrest d (hbase d hd), ?_⟩⟩
    intro d hd
    by_contra hb
    have hspace : isSpace d = true := isSpace_of_isLineBreak (by simpa using hb)
    rcases List.mem_cons.mp hd with hd | hd
    · rw [hd] at hspace
      exact absurd hspace (by decide)
    · rw [not_isSpace_of_mem_quote hd] at hspace
      cases hspace
  · exact schemeRx_iff.mpr ⟨c, a, base ++ '#' :: quote name, rfl, hc, ha⟩

theorem isNodeLine_of_confNode [UnicodeData] {text : Str} {n : Node}
    (h : confNode text = .ok (some n)) : IsNodeLine n.url := by
  obtain ⟨hurl, -, hscheme⟩ := Node.init_url (confNode_inv h)
  refine ⟨?_, (oneLine_of_confNode h).1, ?_⟩
  · rw [hurl]
    exact stripped_strip _
  · obtain ⟨rest, hrest⟩ := startswith_iff.mp hscheme
    have hless : "less".toList.all isSchemeCharI = true := by decide
    exact schemeRx_iff.mpr ⟨'v', "less".toList, rest, hrest, by decide, List.all_eq_true.mp hless⟩

theorem isNodeLine_labelledUrls {net : Net} {c : Nat} {extras : List (Str × Str)} {u : Str}
    (h : u ∈ labelledUrls net c extras) : IsNodeLine u := by
  induction extras generalizing c with
  | nil => simp [labelledUrls] at h
  | cons e rest ih =>
      obtain ⟨label, url⟩ := e
      rcases List.mem_append.mp h with h | h
      · obtain ⟨line, hline, rfl⟩ := List.mem_map.mp h
        exact isNodeLine_prefixUrlName (isNodeLine_of_mem_subLines hline) label
      · exact ih h

/-- **Subscription round trip.** Served as a response, what `build_base64` makes of the
loaded nodes and the extra subscriptions is read by `fetch_sub_lines` as exactly the own
URLs followed by the labelled URLs, in order. -/
theorem fetchSubLines_buildBase64 [UnicodeData] {site : Site} {w : World} {ns : List Node}
    (hnodes : w.nodes site = .ok ns) {net : Net} {extras : List (Str × Str)}
    (hreq : ∀ e ∈ extras, isRequestUrl e.2 = true) (v : World) :
    ∃ text, (buildBase64 net ns extras).run v =
        .ok text { v with requests := v.requests + extras.length } ∧
      ∀ (served : Net) (url : Str) (v' : World), isRequestUrl url = true →
        served.web v'.requests url subFetchUA = some (encode text) →
        (fetchSubLines served url).run v' =
          .ok (ns.map Node.url ++ labelledUrls net v.requests extras)
            { v' with requests := v'.requests + 1 } := by
  refine ⟨_, run_buildBase64 hreq ns v, ?_⟩
  intro served url v' hurl hserved
  have hlines : ∀ u ∈ ns.map Node.url ++ labelledUrls net v.requests extras, IsNodeLine u := by
    intro u hu
    rcases List.mem_append.mp hu with hu | hu
    · obtain ⟨n, hn, rfl⟩ := List.mem_map.mp hu
      obtain ⟨t, -, ht⟩ := (mem_confNodes hnodes).mp hn
      exact isNodeLine_of_confNode ht
    · exact isNodeLine_labelledUrls hu
  rw [run_fetchSubLines hurl, hserved, subLines_base64 hlines]

section

attribute [local instance] asciiData

/-- One own node and one extra subscription, served to itself. -/
theorem fetchSubLines_buildBase64_small :
    ∃ text, (buildBase64 (serving "ss://a".toList) [smallNode] [("L".toList, "http://e".toList)]).run
        smallWorld = .ok text { smallWorld with requests := smallWorld.requests + 1 } ∧
      ∀ (served : Net) (url : Str) (v' : World), isRequestUrl url = true →
        served.web v'.requests url subFetchUA = some (encode text) →
        (fetchSubLines served url).run v' =
          .ok ([smallNode].map Node.url ++
              labelledUrls (serving "ss://a".toList) 0 [("L".toList, "http://e".toList)])
            { v' with requests := v'.requests + 1 } :=
  have hnodes : smallWorld.nodes smallSite = .ok [smallNode] := by decide
  fetchSubLines_buildBase64 hnodes (by decide) smallWorld

end

/-! ### Reading plain text -/

/-- The base64 attempt on a plain list fails, whatever padding is added: the two slashes behind the
first scheme are characters of the alphabet, and the bytes they become part of are not UTF-8. -/
theorem decode_plain_eq_none {urls : List Str} (hne : urls ≠ []) (h : ∀ u ∈ urls, IsNodeLine u)
    (pad : Str) : (b64decode (List.intercalate ['\n'] urls ++ pad)).bind decode = none := by
  cases urls with
  | nil => exact absurd rfl hne
  | cons u us =>
      obtain ⟨c, a, rest, hu, hc, ha⟩ := schemeRx_iff.mp (h u (by simp)).scheme
      obtain ⟨t, ht⟩ := intercalate_cons ['\n'] u us
      have hpad : '=' ∉ c :: a := not_mem_scheme (by decide) hc ha
      have hsplit : List.intercalate ['\n'] (u :: us) ++ pad =
          c :: a ++ ':' :: '/' :: '/' :: (rest ++ t ++ pad) := by
        rw [ht, hu]
        simp
      rw [hsplit]
      exact decode_b64decode_slashes hpad _

theorem subLines_plain {urls : List Str} (hne : urls ≠ []) (h : ∀ u ∈ urls, IsNodeLine u) :
    subLines (some (encode (List.intercalate ['\n'] urls))) = urls := by
  have hstrip : strip (List.intercalate ['\n'] urls) = List.intercalate ['\n'] urls :=
    stripped_intercalate (fun u hu => ⟨(h u hu).stripped, (h u hu).ne_nil⟩)
  have hbody : decodeBody (List.intercalate ['\n'] urls) = List.intercalate ['\n'] urls := by
    rw [decodeBody, decode_plain_eq_none hne h]
    rfl
  rw [subLines, bodyText, Option.bind_some, decode_encode, Option.map_some, hstrip]
  exact (congrArg urlLines hbody).trans (urlLines_intercalate h)

/-- **The two encodings agree.** A non-empty list of node lines is read the same from
its plain text and from the base64 of it; on the plain text the base64 attempt never
succeeds. -/
theorem subLines_plain_eq_base64 {urls : List Str} (hne : urls ≠ [])
    (h : ∀ u ∈ urls, Stripped u ∧ OneLine u ∧ schemeRx.isMatch u = true) :
    subLines (some (encode (List.intercalate ['\n'] urls))) = urls ∧
      subLines (some (encode (encodeUrls urls))) = urls ∧
      (b64decode (List.intercalate ['\n'] urls ++
        padding (List.intercalate ['\n'] urls))).bind decode = none := by
  have hlines : ∀ u ∈ urls, IsNodeLine u := by
    intro u hu
    obtain ⟨h1, h2, h3⟩ := h u hu
    exact ⟨h1, h2, h3⟩
  exact ⟨subLines_plain hne hlines, subLines_base64 hlines, decode_plain_eq_none hne hlines _⟩

/-- Two lines of two protocols. -/
theorem subLines_plain_eq_base64_small :
    subLines (some (encode (List.intercalate ['\n'] ["ss://a".toList, "x://".toList]))) =
        ["ss://a".toList, "x://".toList] ∧
      subLines (some (encode (encodeUrls ["ss://a".toList, "x://".toList]))) =
        ["ss://a".toList, "x://".toList] ∧
      (b64decode (List.intercalate ['\n'] ["ss://a".toList, "x://".toList] ++
        padding (List.intercalate ['\n'] ["ss://a".toList, "x://".toList]))).bind decode = none :=
  subLines_plain_eq_base64 (by simp) (by decide)

end BlogStuff.VlessSubs
