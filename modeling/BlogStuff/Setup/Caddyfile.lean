import BlogStuff.Python.Base64
import BlogStuff.Shell.Grep

/-!
# BlogStuff.Setup.Caddyfile

The Caddyfile `setup_vless_caddy_sub.sh` writes, and the search for the subscription
token in it when the script runs again. The search takes the first line with
`/sub/` and a character of a token; the line of the token's own handler is preceded by
the Aliyun keys, the site address and the base64 form of the node name, and each of them
may hold such a text as well.

The lines before the handler that hold text of the user are `earlierLines`. The token
comes back exactly if none of them matches, or if the first that does holds the token
itself and nothing else (`extractToken_caddyfile_iff`). For the node name the condition is
about the bits of its UTF-8 bytes: only one alignment of `/sub/` in base64 is the
encoding of a text, and it takes the character U+CE7F (`mem_of_holdsToken_title`). So it is
enough to look for that character in the name, and at the site line (`extractToken_of_name`).
-/

namespace BlogStuff.Setup

open BlogStuff.Python BlogStuff.Shell

/-! ### The search -/

/-- `[A-Za-z0-9_-]`. -/
def isTokenChar (c : Char) : Bool := c.isAlphanum || c == '_' || c == '-'

/-- `/sub/[A-Za-z0-9_-]+`. -/
def subRx : Regex := litRun "/sub/".toList isTokenChar

/-- `SUB_TOKEN` as a later run reads it from the Caddyfile; empty if there is none. -/
def extractToken (caddyfile : Str) : Str :=
  captured ((firstMatching subRx (fileLines caddyfile)).map (cutField '/' 3))

/-! ### The template -/

/-- The shell variables the Caddyfile is made of. -/
structure CaddyVars where
  nodeName : Str
  siteAddress : Str
  /-- The Aliyun key pair of DNS-01 mode. -/
  aliKeys : Option (Str × Str)
  subToken : Str
  subToken_ok : ∀ c ∈ subToken, isTokenChar c = true

namespace CaddyVars

/-- `SUB_TITLE_B64`. -/
def subTitleB64 (v : CaddyVars) : Str := b64encode (encode v.nodeName)

/-- `GLOBAL_BLOCK`. -/
def globalBlock (v : CaddyVars) : Str :=
  match v.aliKeys with
  | none => []
  | some (keyId, keySecret) =>
      "\x7b\n    acme_dns alidns \x7b\n        access_key_id     ".toList ++ keyId ++
        "\n        access_key_secret ".toList ++ keySecret ++ "\n    \x7d\n\x7d\n\n".toList

/-- The line that opens the site, with the global block in front of it. -/
def siteLine (v : CaddyVars) : Str := v.globalBlock ++ v.siteAddress ++ " \x7b".toList

/-- The line of the subscription title. -/
def titleLine (v : CaddyVars) : Str :=
  "    header profile-title \"base64:".toList ++ v.subTitleB64 ++ "\"".toList

/-- The line of the handler the token is read from. -/
def handleLine (subToken : Str) : Str := "    handle /sub/".toList ++ subToken ++ " \x7b".toList

/-- A block of directives for one kind of client. -/
def clientBlock (name agent file mime : String) : List Str :=
  [("        @" ++ name ++ " \x7b").toList,
    ("            header User-Agent *" ++ agent ++ "*").toList,
    "        \x7d".toList,
    ("        handle @" ++ name ++ " \x7b").toList,
    "            root * /etc/caddy/sub".toList,
    ("            rewrite * /" ++ file).toList,
    "            file_server".toList,
    ("            header Content-Type \"" ++ mime ++ "; charset=utf-8\"").toList,
    "            header Cache-Control \"no-cache\"".toList,
    "        \x7d".toList,
    []]

/-- An endpoint that returns one format. -/
def endpoint (subToken : Str) (name file mime : String) : List Str :=
  ["    handle /sub/".toList ++ subToken ++ ("/" ++ name ++ " \x7b").toList,
    "        root * /etc/caddy/sub".toList,
    ("        rewrite * /" ++ file).toList,
    "        file_server".toList,
    ("        header Content-Type \"" ++ mime ++ "; charset=utf-8\"").toList,
    "        header Cache-Control \"no-cache\"".toList,
    "    \x7d".toList,
    []]

/-- The lines between the site line and the title. -/
def noteLines : List Str :=
  [[], "    # Friendly subscription title for Clash-family clients (Clash Verge / Mihomo /".toList,
    "    # Stash). Base64-encoded so non-ASCII names work. Applied to every response.".toList]

/-- The lines between the title and the handler. -/
def dispatchLines : List Str :=
  [[], "    # Smart dispatch: return format based on client User-Agent".toList]

/-- The lines behind the one the token is read from. -/
def restLines (subToken : Str) : List Str :=
  [[]] ++ clientBlock "shadowrocket" "Shadowrocket" "base64.txt" "text/plain" ++
    clientBlock "v2rayng" "okhttp" "base64.txt" "text/plain" ++
    clientBlock "stash" "Stash" "clash.yaml" "application/x-yaml" ++
    clientBlock "clash" "clash" "clash.yaml" "application/x-yaml" ++
    ["        # Default: return Clash YAML".toList,
      "        handle \x7b".toList,
      "            root * /etc/caddy/sub".toList,
      "            rewrite * /clash.yaml".toList,
      "            file_server".toList,
      "            header Content-Type \"application/x-yaml; charset=utf-8\"".toList,
      "            header Cache-Control \"no-cache\"".toList,
      "        \x7d".toList,
      "    \x7d".toList,
      [],
      "    # Explicit format endpoints (for debugging)".toList] ++
    endpoint subToken "base64" "base64.txt" "text/plain" ++
    endpoint subToken "clash" "clash.yaml" "application/x-yaml" ++
    ["    handle \x7b".toList, "        respond 404".toList, "    \x7d".toList, "\x7d".toList]

/-- `/etc/caddy/Caddyfile`. -/
def caddyfile (v : CaddyVars) : Str :=
  (v.siteLine :: noteLines ++ v.titleLine :: dispatchLines ++
    handleLine v.subToken :: restLines v.subToken).flatMap (· ++ ['\n'])

/-! ### The token comes back -/

/-- `/sub/` stands in the text with a character of a token behind it. -/
def HoldsToken (s : Str) : Prop := HoldsRun "/sub/".toList isTokenChar s

/-- The lines before the handler that hold text of the user. -/
def earlierLines (v : CaddyVars) : List Str := v.siteLine.splitOn '\n' ++ [v.titleLine]

theorem onlyMatching_eq_nil_iff {s : Str} : onlyMatching subRx s = [] ↔ ¬ HoldsToken s :=
  onlyMatching_litRun_eq_nil_iff (by decide)

theorem ne_of_isTokenChar {c d : Char} (hc : isTokenChar c = true) (hd : isTokenChar d = false) :
    c ≠ d := by
  rintro rfl
  rw [hc] at hd
  cases hd

theorem not_mem_of_isTokenChar {d : Char} {s : Str} (hs : ∀ c ∈ s, isTokenChar c = true)
    (hd : isTokenChar d = false) : d ∉ s :=
  fun h => ne_of_isTokenChar (hs d h) hd rfl

theorem cutField_token {token : Str} (h : ∀ c ∈ token, isTokenChar c = true) :
    cutField '/' 3 ("/sub/".toList ++ token) = token := by
  have hslash : '/' ∉ token := not_mem_of_isTokenChar h (by decide)
  have hcut : "/sub/".toList ++ token = [] ++ '/' :: ("sub".toList ++ '/' :: token) := rfl
  rw [cutField, if_pos (by simp), hcut, List.splitOn_append_cons_self,
    List.splitOn_append_cons_self, List.splitOn_eq_singleton hslash]
  rfl

/-- The search returns a token exactly if the matches it found are this one token. Each match is
`/sub/` and a run of token characters, so the third field of `cut` is the run, and a second match
would leave a line break in what is captured. -/
theorem captured_matches_iff {l token : Str} (hl : HoldsToken l)
    (h : ∀ c ∈ token, isTokenChar c = true) :
    captured ((onlyMatching subRx l).map (cutField '/' 3)) = token ↔
      onlyMatching subRx l = ["/sub/".toList ++ token] := by
  have hmem : ∀ m ∈ onlyMatching subRx l,
      ∃ run, m = "/sub/".toList ++ run ∧ run ≠ [] ∧ ∀ c ∈ run, isTokenChar c = true :=
    fun m hm => mem_scan_litRun hm
  have hback : ∀ m ∈ onlyMatching subRx l, "/sub/".toList ++ cutField '/' 3 m = m := by
    intro m hm
    obtain ⟨run, rfl, -, hrun⟩ := hmem m hm
    rw [cutField_token hrun]
  have hfields : ∀ u ∈ (onlyMatching subRx l).map (cutField '/' 3), '\n' ∉ u ∧ u ≠ [] := by
    intro u hu
    obtain ⟨m, hm, rfl⟩ := List.mem_map.mp hu
    obtain ⟨run, rfl, hne, hrun⟩ := hmem m hm
    rw [cutField_token hrun]
    exact ⟨not_mem_of_isTokenChar hrun (by decide), hne⟩
  have hne : onlyMatching subRx l ≠ [] := fun h => onlyMatching_eq_nil_iff.mp h hl
  rw [captured_eq_iff hfields (by simpa using hne) (not_mem_of_isTokenChar h (by decide))]
  constructor
  · intro hmap
    obtain ⟨m, hm, hcut⟩ := List.map_eq_singleton_iff.mp hmap
    rw [hm, ← hcut, hback m (by rw [hm]; simp)]
  · intro hm
    rw [hm, List.map_singleton, cutField_token h]

theorem onlyMatching_handleLine {v : CaddyVars} (h : v.subToken ≠ []) :
    onlyMatching subRx (handleLine v.subToken) = ["/sub/".toList ++ v.subToken] := by
  have hlit : "    handle /sub/".toList = "    handle ".toList ++ "/sub/".toList := by decide
  have hhead : "/sub/".toList.head? = some '/' := by decide
  have hbefore : '/' ∉ "    handle ".toList := by decide
  have hbehind : '/' ∉ " \x7b".toList := by decide
  have hstop : ∀ c ∈ " \x7b".toList.head?, isTokenChar c = false := by
    intro c hc
    obtain rfl : ' ' = c := by simpa using hc
    decide
  exact onlyMatching_litRun_single hlit hhead hbefore hbehind h v.subToken_ok hstop

theorem onlyMatching_fixedLines :
    ∀ l ∈ noteLines ++ dispatchLines, onlyMatching subRx l = [] := by
  have hall : (noteLines ++ dispatchLines).all (fun l => onlyMatching subRx l = []) = true := by
    decide +kernel
  intro l hl
  simpa using List.all_eq_true.mp hall l hl

/-- Without a token nothing matches from the handler on. -/
theorem onlyMatching_restLines :
    ∀ l ∈ (handleLine [] :: restLines []).flatMap (List.splitOn '\n'), onlyMatching subRx l = [] := by
  have hall : ((handleLine [] :: restLines []).flatMap (List.splitOn '\n')).all
      (fun l => onlyMatching subRx l = []) = true := by
    decide +kernel
  intro l hl
  simpa using List.all_eq_true.mp hall l hl

theorem newline_not_mem_titleLine (v : CaddyVars) : '\n' ∉ v.titleLine := by
  have hopen : '\n' ∉ "    header profile-title \"base64:".toList := by decide
  have hclose : '\n' ∉ "\"".toList := by decide
  have htitle : '\n' ∉ v.subTitleB64 := by
    intro h
    have hspace := not_isSpace_of_mem_b64encode h
    exact absurd hspace (by decide)
  intro h
  rcases List.mem_append.mp h with h | h
  · rcases List.mem_append.mp h with h | h
    · exact hopen h
    · exact htitle h
  · exact hclose h

/-- The lines of the file, cut at the handler's. -/
theorem fileLines_caddyfile (v : CaddyVars) :
    fileLines v.caddyfile = v.siteLine.splitOn '\n' ++ noteLines ++ [v.titleLine] ++
      dispatchLines ++ (handleLine v.subToken :: restLines v.subToken).flatMap (List.splitOn '\n') := by
  have hnotes : noteLines.flatMap (List.splitOn '\n') = noteLines := by decide +kernel
  have hdispatch : dispatchLines.flatMap (List.splitOn '\n') = dispatchLines := by decide +kernel
  have htitle : v.titleLine.splitOn '\n' = [v.titleLine] :=
    List.splitOn_eq_singleton v.newline_not_mem_titleLine
  rw [caddyfile, fileLines_flatMap]
  simp only [List.flatMap_append, List.flatMap_cons, List.cons_append, hnotes, hdispatch, htitle,
    List.append_assoc, List.nil_append]

theorem splitOn_handleLine {token : Str} (h : ∀ c ∈ token, isTokenChar c = true) :
    (handleLine token).splitOn '\n' = [handleLine token] := by
  have hopen : '\n' ∉ "    handle /sub/".toList := by decide
  have hclose : '\n' ∉ " \x7b".toList := by decide
  have htoken : '\n' ∉ token := not_mem_of_isTokenChar h (by decide)
  refine List.splitOn_eq_singleton (fun h => ?_)
  rcases List.mem_append.mp h with h | h
  · rcases List.mem_append.mp h with h | h
    · exact hopen h
    · exact htoken h
  · exact hclose h

/-- What the search sees: the lines with text of the user, then those from the handler on. -/
theorem firstMatching_caddyfile (v : CaddyVars) :
    firstMatching subRx (fileLines v.caddyfile) = firstMatching subRx (v.earlierLines ++
      handleLine v.subToken :: (restLines v.subToken).flatMap (List.splitOn '\n')) := by
  have hnotes : ∀ l ∈ noteLines, onlyMatching subRx l = [] :=
    fun l hl => onlyMatching_fixedLines l (by simp [hl])
  have hdispatch : ∀ l ∈ dispatchLines, onlyMatching subRx l = [] :=
    fun l hl => onlyMatching_fixedLines l (by simp [hl])
  rw [fileLines_caddyfile, List.flatMap_cons, splitOn_handleLine v.subToken_ok,
    List.singleton_append, firstMatching_drop hdispatch, List.append_assoc _ [v.titleLine],
    firstMatching_drop hnotes, earlierLines, List.append_assoc]

/-- If no earlier line matches, the search reaches the handler; without a token it finds nothing
there either. -/
theorem extractToken_of_earlier {v : CaddyVars} (h : ∀ l ∈ v.earlierLines, ¬ HoldsToken l) :
    extractToken v.caddyfile = v.subToken := by
  have hearlier : ∀ l ∈ v.earlierLines, onlyMatching subRx l = [] :=
    fun l hl => onlyMatching_eq_nil_iff.mpr (h l hl)
  rw [extractToken, firstMatching_caddyfile]
  by_cases htoken : v.subToken = []
  · rw [firstMatching_eq_nil, htoken]
    · rfl
    · intro l hl
      rcases List.mem_append.mp hl with hl | hl
      · exact hearlier l hl
      · rw [htoken] at hl
        refine onlyMatching_restLines l ?_
        rwa [List.flatMap_cons, splitOn_handleLine (by simp), List.singleton_append]
  · have hhandle := onlyMatching_handleLine htoken
    rw [firstMatching_append hearlier (by rw [hhandle]; simp), hhandle, List.map_singleton,
      cutField_token v.subToken_ok]
    exact (captured_eq_iff (by simpa using
      ⟨not_mem_of_isTokenChar v.subToken_ok (by decide), htoken⟩) (by simp)
      (not_mem_of_isTokenChar v.subToken_ok (by decide))).mpr rfl

/-- **The token comes back exactly if no earlier line matches, or if the first that does holds
this token and nothing else.** `grep -m1` stops at the first line that matches, and prints
every match in it; the lines of the template itself hold none before the handler. -/
theorem extractToken_caddyfile_iff (v : CaddyVars) :
    extractToken v.caddyfile = v.subToken ↔
      (∀ l ∈ v.earlierLines, ¬ HoldsToken l) ∨
        ∃ before l behind, v.earlierLines = before ++ l :: behind ∧
          (∀ k ∈ before, ¬ HoldsToken k) ∧
          onlyMatching subRx l = ["/sub/".toList ++ v.subToken] := by
  by_cases hnone : ∀ l ∈ v.earlierLines, ¬ HoldsToken l
  · exact iff_of_true (extractToken_of_earlier hnone) (Or.inl hnone)
  · -- the first line that matches decides
    rw [extractToken, firstMatching_caddyfile]
    have hfirst : ∀ {before behind : List Str} {l : Str},
        v.earlierLines = before ++ l :: behind → (∀ k ∈ before, ¬ HoldsToken k) →
        HoldsToken l → (captured ((firstMatching subRx (v.earlierLines ++ handleLine v.subToken ::
          (restLines v.subToken).flatMap (List.splitOn '\n'))).map (cutField '/' 3)) = v.subToken ↔
            onlyMatching subRx l = ["/sub/".toList ++ v.subToken]) := by
      intro before behind l hlines hbefore hl
      rw [hlines, List.append_assoc, List.cons_append, firstMatching_append
        (fun k hk => onlyMatching_eq_nil_iff.mpr (hbefore k hk))
        (fun h => onlyMatching_eq_nil_iff.mp h hl)]
      exact captured_matches_iff hl v.subToken_ok
    constructor
    · intro h
      obtain ⟨before, l, behind, hlines, hbefore, hl⟩ : ∃ before l behind,
          v.earlierLines = before ++ l :: behind ∧
            (∀ k ∈ before, onlyMatching subRx k = []) ∧ onlyMatching subRx l ≠ [] := by
        refine exists_first_match ?_
        push Not at hnone
        obtain ⟨k, hk, hhold⟩ := hnone
        exact ⟨k, hk, fun h => onlyMatching_eq_nil_iff.mp h hhold⟩
      have hbefore' : ∀ k ∈ before, ¬ HoldsToken k :=
        fun k hk => onlyMatching_eq_nil_iff.mp (hbefore k hk)
      have hl' : HoldsToken l := by
        by_contra hno
        exact hl (onlyMatching_eq_nil_iff.mpr hno)
      exact Or.inr ⟨before, l, behind, hlines, hbefore', (hfirst hlines hbefore' hl').mp h⟩
    · intro h
      rcases h with h | ⟨before, l, behind, hlines, hbefore, hl⟩
      · exact absurd h hnone
      · have hhold : HoldsToken l := by
          by_contra hno
          rw [onlyMatching_eq_nil_iff.mpr hno] at hl
          cases hl
        exact (hfirst hlines hbefore hhold).mpr hl

/-- A name whose base64 form is `YU/sub/EgA==`. -/
theorem extractToken_caddyfile_title :
    extractToken (CaddyVars.mk "aO칿Ā".toList ":8080".toList none "tok".toList
      (List.all_eq_true.mp (by decide))).caddyfile = "EgA".toList := by
  -- the search ends at the title, before the rest of the file
  rw [extractToken, firstMatching_caddyfile]
  decide +kernel

/-! ### Node names -/

theorem b64Value_of_b64Char {n : Nat} {c : Char} (hn : n < 64) (h : b64Char n = c) :
    b64Value c = some n := by
  rw [← h, b64Value_b64Char n hn]

/-- Where `/sub/` stands in base64 text, the bytes are not UTF-8 or hold those of U+CE7F:
at three of the four places in a group, one of the bytes is too large. -/
theorem infix_of_sub_b64encode {bs : Bytes} {a b : Str} {c : Char}
    (h : b64encode bs = a ++ '/' :: 's' :: 'u' :: 'b' :: '/' :: c :: b) :
    (∃ x ∈ bs, 0xf5 ≤ x.toNat) ∨ [0xec, 0xb9, 0xbf] <:+: bs := by
  induction bs using b64encode.induct generalizing a with
  | case1 => simp [b64encode] at h
  | case2 x =>
      have hlen := congrArg List.length h
      simp only [b64encode, List.length_append, List.length_cons, List.length_nil] at hlen
      omega
  | case3 x y =>
      have hlen := congrArg List.length h
      simp only [b64encode, List.length_append, List.length_cons, List.length_nil] at hlen
      omega
  | case4 x y z bs ih =>
      have hx := x.toNat_lt
      have hy := y.toNat_lt
      have hz := z.toNat_lt
      -- the values of the four characters, wherever the text stands among them
      have hslash : ∀ {n : Nat}, n < 64 → b64Char n = '/' → n = 63 :=
        fun hn h => Option.some.inj (b64Value_of_b64Char hn h).symm
      have hs : ∀ {n : Nat}, n < 64 → b64Char n = 's' → n = 44 :=
        fun hn h => Option.some.inj (b64Value_of_b64Char hn h).symm
      have hu : ∀ {n : Nat}, n < 64 → b64Char n = 'u' → n = 46 :=
        fun hn h => Option.some.inj (b64Value_of_b64Char hn h).symm
      have hb : ∀ {n : Nat}, n < 64 → b64Char n = 'b' → n = 27 :=
        fun hn h => Option.some.inj (b64Value_of_b64Char hn h).symm
      rw [b64encode] at h
      rcases a with _ | ⟨p, _ | ⟨q, _ | ⟨r, _ | ⟨t, a⟩⟩⟩⟩ <;>
        simp only [List.nil_append, List.cons_append, List.cons.injEq] at h
      · obtain ⟨h0, h1, -⟩ := h
        have := hslash (by omega) h0
        have := hs (by omega) h1
        exact Or.inl ⟨x, by simp, by omega⟩
      · obtain ⟨-, h1, h2, -⟩ := h
        have := hslash (by omega) h1
        have := hs (by omega) h2
        exact Or.inl ⟨y, by simp, by omega⟩
      · obtain ⟨-, -, h2, h3, hrest⟩ := h
        have := hslash (by omega) h2
        have := hs (by omega) h3
        obtain rfl : z = 0xec := UInt8.toNat_inj.mp (by change z.toNat = 236; omega)
        rcases bs with _ | ⟨x', _ | ⟨y', _ | ⟨z', bs⟩⟩⟩ <;>
          simp only [b64encode, List.cons.injEq, reduceCtorEq] at hrest
        · exact absurd hrest.2.2.1 (by decide)
        · have hy' := y'.toNat_lt
          have := hslash (by omega) hrest.2.2.1
          omega
        · have hx' := x'.toNat_lt
          have hy' := y'.toNat_lt
          have hz' := z'.toNat_lt
          have := hu (by omega) hrest.1
          have := hb (by omega) hrest.2.1
          have := hslash (by omega) hrest.2.2.1
          obtain rfl : x' = 0xb9 := UInt8.toNat_inj.mp (by change x'.toNat = 185; omega)
          obtain rfl : y' = 0xbf := UInt8.toNat_inj.mp (by change y'.toNat = 191; omega)
          exact Or.inr ⟨[x, y], z' :: bs, rfl⟩
      · obtain ⟨-, -, -, -, hrest⟩ := h
        rcases bs with _ | ⟨x', _ | ⟨y', _ | ⟨z', bs⟩⟩⟩ <;>
          simp only [b64encode, List.cons.injEq, reduceCtorEq] at hrest
        · exact absurd hrest.2.2.1 (by decide)
        · exact absurd hrest.2.2.2.1 (by decide)
        · have hy' := y'.toNat_lt
          have hz' := z'.toNat_lt
          have := hb (by omega) hrest.2.2.1
          have := hslash (by omega) hrest.2.2.2.1
          exact Or.inl ⟨z', by simp, by omega⟩
      · rcases ih h.2.2.2.2 with ⟨w, hw, hhigh⟩ | hin
        · exact Or.inl ⟨w, by simp [hw], hhigh⟩
        · exact Or.inr (hin.trans ⟨[x, y, z], [], by simp⟩)

/-- A match inside a quoted text lies between the quotes: its first character does not occur in
front of the text, and its last is not the closing quote. -/
theorem exists_append_of_quoted {pre t a b x : Str} {c d e : Char} (hpre : d ∉ pre) (hc : c ≠ e)
    (h : pre ++ t ++ [e] = a ++ (d :: x ++ c :: b)) : ∃ a' b', t = a' ++ (d :: x ++ c :: b') := by
  rw [List.append_assoc] at h
  -- the match does not start before the opening quote
  obtain ⟨a', ha⟩ : ∃ a', t ++ [e] = a' ++ (d :: x ++ c :: b) := by
    rcases List.append_eq_append_iff.mp h with ⟨z, -, hz⟩ | ⟨z, hz, hz'⟩
    · exact ⟨z, hz⟩
    · cases z with
      | nil => exact ⟨[], hz'.symm⟩
      | cons f z =>
          obtain ⟨rfl, -⟩ := List.cons.inj hz'
          exact absurd (by rw [hz]; simp) hpre
  -- nor does it end behind the closing one
  rcases List.eq_nil_or_concat' b with rfl | ⟨b', f, rfl⟩
  · have hlast : t ++ [e] = (a' ++ d :: x) ++ [c] := by rw [ha]; simp
    exact absurd (List.append_inj_right' hlast rfl) (by simpa using hc.symm)
  · have hlast : t ++ [e] = (a' ++ (d :: x ++ c :: b')) ++ [f] := by rw [ha]; simp
    exact ⟨a', b', List.append_inj_left' hlast rfl⟩

theorem exists_sub_of_holdsToken_title {v : CaddyVars} (h : HoldsToken v.titleLine) :
    ∃ a c b, v.subTitleB64 = a ++ '/' :: 's' :: 'u' :: 'b' :: '/' :: c :: b := by
  obtain ⟨a, c, b, hline, hc⟩ := h
  have hpre : '/' ∉ "    header profile-title \"base64:".toList := by decide
  have hsub : "/sub/".toList = '/' :: ['s', 'u', 'b', '/'] := by decide
  have hclose : "\"".toList = ['"'] := by decide
  obtain ⟨a', b', htitle⟩ := exists_append_of_quoted (t := v.subTitleB64) (e := '"') hpre
    (ne_of_isTokenChar hc (by decide)) (by rw [← hclose, ← hsub]; exact hline)
  exact ⟨a', c, b', htitle⟩

/-- **A title that holds a token takes a node name with U+CE7F.** At three of the four places
in a group of base64, `/sub/` gives a byte that no UTF-8 text has; at the fourth it gives
those of this character. -/
theorem mem_of_holdsToken_title {v : CaddyVars} (h : HoldsToken v.titleLine) :
    Char.ofNat 0xce7f ∈ v.nodeName := by
  obtain ⟨a, c, b, htitle⟩ := exists_sub_of_holdsToken_title h
  rcases infix_of_sub_b64encode htitle with ⟨x, hx, hhigh⟩ | hin
  · have hnone := decode_eq_none_of_high hx hhigh
    rw [decode_encode] at hnone
    cases hnone
  · have henc : String.utf8EncodeChar (Char.ofNat 0xce7f) = [0xec, 0xb9, 0xbf] := by decide
    rw [← henc] at hin
    exact mem_of_infix_encode (by decide) hin

/-- **The token comes back for every node name without U+CE7F**, unless the site line holds a
token itself. The name stands in the file in base64 only, and there `/sub/` takes this
character. -/
theorem extractToken_of_name {v : CaddyVars} (hname : Char.ofNat 0xce7f ∉ v.nodeName)
    (hsite : ∀ l ∈ v.siteLine.splitOn '\n', ¬ HoldsToken l) : extractToken v.caddyfile = v.subToken := by
  refine extractToken_of_earlier fun l hl => ?_
  rcases List.mem_append.mp hl with hl | hl
  · exact hsite l hl
  · rw [List.mem_singleton.mp hl]
    exact fun h => hname (mem_of_holdsToken_title h)

/-- A name with `/sub/` in it, and Aliyun keys. -/
def slashedName : CaddyVars :=
  ⟨"node/sub/a".toList, "a.b".toList, some ("id".toList, "key".toList), "tok".toList,
    List.all_eq_true.mp (by decide)⟩

theorem extractToken_of_name_slashed : extractToken slashedName.caddyfile = "tok".toList := by
  refine extractToken_of_name (v := slashedName) (by decide) fun l hl => ?_
  have hnone : (slashedName.siteLine.splitOn '\n').all (fun l => onlyMatching subRx l = []) = true := by
    decide +kernel
  exact onlyMatching_eq_nil_iff.mp (by simpa using List.all_eq_true.mp hnone l hl)

end CaddyVars

end BlogStuff.Setup
