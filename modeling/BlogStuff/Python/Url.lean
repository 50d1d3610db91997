import BlogStuff.Python.Base64

/-!
# BlogStuff.Python.Url

The parts of `urllib.parse` the scripts use: `quote`, `unquote`, `parse_qs`, and
`urlsplit` with the lazily computed `username`, `hostname` and `port` of its
result.

`urlsplit` is not a mere tokenizer. It silently drops tabs and newlines, refuses
some bracketed hosts and some non-ASCII ones, and `port` may raise after the
split itself has succeeded; all of these are `Except` values here.
-/

namespace BlogStuff.Python

/-! ### Percent encoding -/

/-- The value of a hexadecimal digit. -/
def hexVal (c : Char) : Nat :=
  if c.isDigit then c.toNat - 48
  else if 'a' ≤ c ∧ c ≤ 'f' then c.toNat - 87
  else c.toNat - 55

/-- The upper-case hexadecimal digit of a value below 16. -/
def hexDigit (n : Nat) : Char := if n < 10 then Char.ofNat (n + 48) else Char.ofNat (n + 55)

/-- `unquote_to_bytes` of ASCII text: a `%` not followed by two hexadecimal
digits stands for itself. -/
def unquoteToBytes : Str → Bytes
  | '%' :: a :: b :: s =>
      if isHexDigit a && isHexDigit b then UInt8.ofNat (hexVal a * 16 + hexVal b) :: unquoteToBytes s
      else UInt8.ofNat ('%'.toNat) :: unquoteToBytes (a :: b :: s)
  | c :: s => UInt8.ofNat c.toNat :: unquoteToBytes s
  | [] => []

/-- `unquote` on one maximal run of ASCII or of non-ASCII characters. -/
def unquoteRun (run : Str) : Str :=
  if isAscii run then decodeReplace (unquoteToBytes run) else run

/-- `unquote(s)`: the ASCII runs are unescaped to bytes and decoded, the rest is kept. -/
def unquote (s : Str) : Str :=
  if s.contains '%' then
    (s.splitBy (fun a b => isAsciiChar a == isAsciiChar b)).flatMap unquoteRun
  else s

/-- The characters `quote` never escapes. -/
def isAlwaysSafe (c : Char) : Bool :=
  c.isAlphanum || c == '_' || c == '.' || c == '-' || c == '~'

/-- One byte under `quote(.., safe='')`. -/
def quoteByte (b : UInt8) : Str :=
  if isAlwaysSafe (Char.ofNat b.toNat) && b.toNat < 128 then [Char.ofNat b.toNat]
  else ['%', hexDigit (b.toNat / 16), hexDigit (b.toNat % 16)]

/-- `quote(s, safe='')`. -/
def quote (s : Str) : Str := (encode s).flatMap quoteByte

theorem hexDigit_not_space : ∀ n < 16, isSpace (hexDigit n) = false := by decide

theorem alwaysSafe_not_space : ∀ n < 128, isAlwaysSafe (Char.ofNat n) = true →
    isSpace (Char.ofNat n) = false := by decide

/-- Quoted text holds no white space. -/
theorem not_isSpace_of_mem_quote {c : Char} {s : Str} (h : c ∈ quote s) : isSpace c = false := by
  obtain ⟨b, -, hb⟩ := List.mem_flatMap.mp h
  have hlt := b.toNat_lt
  unfold quoteByte at hb
  split_ifs at hb with hs
  · obtain ⟨hsafe, hlow⟩ : isAlwaysSafe (Char.ofNat b.toNat) = true ∧ b.toNat < 128 := by simpa using hs
    rw [List.mem_singleton.mp hb]
    exact alwaysSafe_not_space _ hlow hsafe
  · simp only [List.mem_cons, List.not_mem_nil, or_false] at hb
    rcases hb with hb | hb | hb
    · rw [hb]
      decide
    · rw [hb]
      exact hexDigit_not_space _ (by omega)
    · rw [hb]
      exact hexDigit_not_space _ (by omega)

/-! ### Query strings -/

/-- `unquote_plus`. -/
def unquotePlus (s : Str) : Str := unquote (s.map fun c => if c = '+' then ' ' else c)

/-- `parse_qsl`: the name/value pairs of a query string, blank values dropped. -/
def parseQsl (qs : Str) : List (Str × Str) :=
  (qs.splitOn '&').filterMap fun field =>
    let (name, _, value) := partition '=' field
    if value = [] then none else some (unquotePlus name, unquotePlus value)

/-- `parse_qs` as a dictionary: the values of a name, in order (`[]` when absent). -/
def parseQs (qs name : Str) : List Str :=
  (parseQsl qs).filterMap fun p => if p.1 = name then some p.2 else none

/-- `q.get(key, [default])[0]`. -/
def qsGet (q : Str → List Str) (key dflt : Str) : Str := (q key).headD dflt

/-! ### Internet addresses, as far as bracketed hosts are checked -/

/-- A decimal octet without leading zeros. -/
def isOctet (s : Str) : Bool :=
  !s.isEmpty && s.all Char.isDigit && s.length ≤ 3 && (s == ['0'] || s.head? != some '0') &&
    s.foldl (fun n c => n * 10 + (c.toNat - 48)) 0 ≤ 255

/-- Accepted by `ipaddress.IPv4Address`. -/
def isIPv4 (s : Str) : Bool := (s.splitOn '.').length == 4 && (s.splitOn '.').all isOctet

/-- One to four hexadecimal digits. -/
def isHextet (s : Str) : Bool := !s.isEmpty && s.length ≤ 4 && s.all isHexDigit

/-- The parts of an IPv6 address; a dotted tail counts as two hextets. -/
def ipv6Parts (s : Str) : Option (List Str) :=
  let parts := s.splitOn ':'
  let last := parts.getLastD []
  if parts.length < 3 then none
  else if last.contains '.' then
    if isIPv4 last then some (parts.dropLast ++ [['0'], ['0']]) else none
  else some parts

/-- The hextet layout `ipaddress` accepts: eight parts, or fewer around one `::`. -/
def ipv6Layout (parts : List Str) : Bool :=
  let inner := parts.tail.dropLast
  if parts.length > 9 then false
  else match inner.count [] with
    | 0 => parts.length == 8 && parts.all isHextet
    | 1 =>
        let skip := inner.idxOf [] + 1
        let before := parts.take skip
        let after := parts.drop (skip + 1)
        -- a leading or trailing empty part must belong to the `::` itself
        let hi := if parts.headD [] = [] then before.tail else before
        let lo := if parts.getLastD [] = [] then after.dropLast else after
        (parts.headD [] != [] || hi.isEmpty) && (parts.getLastD [] != [] || lo.isEmpty) &&
          hi.length + lo.length < 8 && hi.all isHextet && lo.all isHextet
    | _ => false

/-- Accepted by `ipaddress.IPv6Address`. -/
def isIPv6 (s : Str) : Bool :=
  let (addr, percent, scope) := partition '%' s
  !s.contains '/' && (!percent || (!scope.isEmpty && !scope.contains '%')) &&
    ((ipv6Parts addr).map ipv6Layout).getD false

/-! ### `urlsplit` -/

/-- Why `urlsplit` or the `port` of its result raises `ValueError`. -/
inductive UrlError
  | invalidIPv6
  | invalidIPvFuture
  | notAnAddress
  | bracketedIPv4
  | invalidUnderNFKC
  | portNotInteger
  | portOutOfRange
  deriving Repr, DecidableEq

/-- The result of `urlsplit`. -/
structure SplitResult where
  scheme : Str
  netloc : Str
  path : Str
  query : Str
  fragment : Str
  deriving Repr, DecidableEq

/-- The characters `urlsplit` strips from the left. -/
def isC0OrSpace (c : Char) : Bool := c.toNat ≤ 0x20

/-- The characters `urlsplit` deletes everywhere. -/
def isUnsafe (c : Char) : Bool := c == '\t' || c == '\r' || c == '\n'

/-- The characters of a URL scheme. -/
def isSchemeChar (c : Char) : Bool := c.isAlphanum || c == '+' || c == '-' || c == '.'

/-- The characters whose NFKC normal form holds one of `/?#@:`. None of the five
takes part in a canonical composition, so a netloc normalises to text with one of
them exactly when it holds one of these. -/
def nfkcDelimiters : List Nat :=
  [0x2047, 0x2048, 0x2049, 0x2100, 0x2101, 0x2105, 0x2106, 0x2a74, 0xfe13, 0xfe16, 0xfe55,
    0xfe56, 0xfe5f, 0xfe6b, 0xff03, 0xff0f, 0xff1a, 0xff1f, 0xff20]

/-- `_checknetloc`. -/
def checkNetloc (netloc : Str) : Except UrlError Unit :=
  if netloc.any (fun c => nfkcDelimiters.contains c.toNat) then .error .invalidUnderNFKC
  else .ok ()

/-- `_check_bracketed_host`. -/
def checkBracketedHost (host : Str) : Except UrlError Unit :=
  if startswith host ['v'] then
    let (digits, dot, rest) := partition '.' host.tail
    if dot && !digits.isEmpty && digits.all isHexDigit && !rest.isEmpty && !rest.contains '\n' then
      .ok ()
    else .error .invalidIPvFuture
  else if isIPv4 host then .error .bracketedIPv4
  else if isIPv6 host then .ok ()
  else .error .notAnAddress

/-- The bracket checks `urlsplit` makes on a netloc. -/
def checkBrackets (netloc : Str) : Except UrlError Unit :=
  if netloc.contains '[' != netloc.contains ']' then .error .invalidIPv6
  else if netloc.contains '[' then
    checkBracketedHost (partition ']' (partition '[' netloc).2.2).1
  else .ok ()

/-- Cut the scheme off, if there is one. -/
def splitScheme (url : Str) : Str × Str :=
  let (scheme, colon, rest) := partition ':' url
  if colon && (scheme.head?.map Char.isAlpha).getD false && scheme.all isSchemeChar then
    (scheme.map Char.toLower, rest)
  else ([], url)

/-- The end of a netloc. -/
def isNetlocEnd (c : Char) : Bool := c == '/' || c == '?' || c == '#'

/-- The text `urlsplit` takes apart: leading blanks and all tabs and line ends are
dropped first. -/
def cleanUrl (url : Str) : Str := (url.dropWhile isC0OrSpace).filter (fun c => !isUnsafe c)

/-- The five parts of a URL, before they are checked: the scheme, the network location behind `//`,
and what `#` and then `?` cut off the rest. -/
def splitParts (url : Str) : SplitResult :=
  let (scheme, url) := splitScheme (cleanUrl url)
  let hasNetloc := startswith url ['/', '/']
  let netloc := if hasNetloc then (url.drop 2).takeWhile (fun c => !isNetlocEnd c) else []
  let url := if hasNetloc then (url.drop 2).dropWhile (fun c => !isNetlocEnd c) else url
  let (url, _, fragment) := partition '#' url
  let (path, _, query) := partition '?' url
  { scheme, netloc, path, query, fragment }

/-- `urlsplit(url)`. -/
def urlsplit (url : Str) : Except UrlError SplitResult := do
  checkBrackets (splitParts url).netloc
  checkNetloc (splitParts url).netloc
  return splitParts url

namespace SplitResult

/-- `parts.username`. -/
def username (parts : SplitResult) : Option Str :=
  let (userinfo, haveInfo, _) := rpartition '@' parts.netloc
  if haveInfo then some (partition ':' userinfo).1 else none

/-- `parts._hostinfo`: the host text and the port text (`[]` for `None`). Between brackets a colon
belongs to the host. -/
def hostinfo (parts : SplitResult) : Str × Str :=
  let (_, _, hostinfo) := rpartition '@' parts.netloc
  let (_, haveOpenBr, bracketed) := partition '[' hostinfo
  if haveOpenBr then
    let (hostname, _, port) := partition ']' bracketed
    (hostname, (partition ':' port).2.2)
  else
    let (hostname, _, port) := partition ':' hostinfo
    (hostname, port)

/-- `parts.hostname`: lower-cased up to the zone of a scoped address. -/
def hostname [UnicodeData] (parts : SplitResult) : Option Str :=
  if parts.hostinfo.1 = [] then none
  else
    let (host, percent, zone) := partition '%' parts.hostinfo.1
    some (UnicodeData.lower host ++ (if percent then ['%'] else []) ++ zone)

/-- `parts.port`: `None` when the port text is empty. A number that is too large and a text that is
no number are errors. -/
def port (parts : SplitResult) : Except UrlError (Option Nat) :=
  let port := parts.hostinfo.2
  if port = [] then .ok none
  else if port.all Char.isDigit then
    let n := port.foldl (fun n c => n * 10 + (c.toNat - 48)) 0
    if n ≤ 65535 then .ok (some n) else .error .portOutOfRange
  else .error .portNotInteger

end SplitResult

/-! ### What the parts are made of -/

theorem urlsplit_inv {url : Str} {parts : SplitResult} (h : urlsplit url = .ok parts) :
    parts = splitParts url := by
  unfold urlsplit at h
  cases h1 : checkBrackets (splitParts url).netloc with
  | error e => simp [h1, bind, Except.bind] at h
  | ok _ =>
      cases h2 : checkNetloc (splitParts url).netloc with
      | error e => simp [h1, h2, bind, Except.bind] at h
      | ok _ =>
          simp only [h1, h2, bind, Except.bind] at h
          exact (Except.ok.inj h).symm

theorem mem_cleanUrl {c : Char} {url : Str} (h : c ∈ cleanUrl url) : c ∈ url :=
  (List.dropWhile_suffix isC0OrSpace).mem (List.mem_of_mem_filter h)

theorem mem_splitScheme {c : Char} {url : Str} (h : c ∈ (splitScheme url).2) : c ∈ url := by
  simp only [splitScheme] at h
  split_ifs at h
  · exact mem_partition_right h
  · exact h

theorem mem_netloc {c : Char} {url : Str} (h : c ∈ (splitParts url).netloc) : c ∈ url := by
  refine mem_cleanUrl (mem_splitScheme ?_)
  simp only [splitParts] at h
  split_ifs at h
  · exact List.mem_of_mem_drop ((List.takeWhile_prefix _).mem h)
  · simp at h

theorem mem_hostinfo {c : Char} {parts : SplitResult} (h : c ∈ parts.hostinfo.1) :
    c ∈ parts.netloc := by
  simp only [SplitResult.hostinfo] at h
  split_ifs at h
  · exact mem_rpartition_right (mem_partition_right (mem_partition_left h))
  · exact mem_rpartition_right (mem_partition_left h)

theorem mem_hostname [UnicodeData] {c : Char} {parts : SplitResult} (hc : isSpace c = true)
    (h : c ∈ parts.hostname.getD []) : c ∈ parts.netloc := by
  unfold SplitResult.hostname at h
  split_ifs at h with h0
  · simp at h
  · simp only [Option.getD_some, List.mem_append] at h
    rcases h with (h | h) | h
    · exact mem_hostinfo (mem_partition_left (UnicodeData.lower_space _ _ hc h))
    · split_ifs at h
      · obtain rfl : c = '%' := by simpa using h
        exact absurd hc (by decide)
      · simp at h
    · exact mem_hostinfo (mem_partition_right h)

/-! ### `urllib.request.Request` -/

/-- `unwrap(url)`. -/
def unwrap (url : Str) : Str :=
  let url := strip url
  let url := if url.head? = some '<' ∧ url.getLast? = some '>' then strip url.tail.dropLast else url
  if startswith url "URL:".toList then strip (url.drop 4) else url

/-- The URL without its tag: the text before the last `#`, if there is one. -/
def dropTag (url : Str) : Str :=
  let (path, hash, rest) := rpartition '#' url
  if hash then path else rest

theorem dropTag_append {x t : Str} (hx : '#' ∉ x) : ∃ z, dropTag (x ++ t) = x ++ z := by
  unfold dropTag
  rcases last_char '#' (x ++ t) with h | ⟨a, b, hab, hb⟩
  · exact ⟨t, by simp [rpartition_of_not_mem h]⟩
  · rw [hab, rpartition_append hb]
    rcases List.append_eq_append_iff.mp hab with ⟨z, hz, -⟩ | ⟨z, hz, hz'⟩
    · exact ⟨z, by simp [hz]⟩
    · -- `x` ends before that `#`, or would hold it
      cases z with
      | nil => exact ⟨[], by simpa using hz.symm⟩
      | cons d z =>
          obtain ⟨rfl, -⟩ := List.cons.inj hz'
          exact absurd (by simp [hz]) hx

/-- Without its tag, the URL has a non-empty type before its first colon. -/
def hasUrlType (url : Str) : Bool :=
  let (type, colon, _) := partition ':' (dropTag (unwrap url))
  colon && !type.isEmpty && !type.contains '/'

/-- `full_url` of a `Request`: an empty tag is left out. -/
def fullUrl (url : Str) : Str :=
  let (_, hash, tag) := rpartition '#' (unwrap url)
  if hash && tag.isEmpty then dropTag (unwrap url) else unwrap url

/-- The constructor of `Request` accepts the URL: it has a type, and `request_host` can split
it. -/
def isRequestUrl (url : Str) : Bool := hasUrlType url && (urlsplit (fullUrl url)).toBool

theorem urlsplit_toBool_iff {url : Str} :
    (urlsplit url).toBool = true ↔ ∃ parts, urlsplit url = .ok parts := by
  cases urlsplit url <;> simp [Except.toBool]

/-- Whether a URL can be split depends on its network location. -/
theorem urlsplit_toBool_congr {url url' : Str} (h : (splitParts url).netloc = (splitParts url').netloc) :
    (urlsplit url).toBool = (urlsplit url').toBool := by
  unfold urlsplit
  rw [h]
  cases checkBrackets (splitParts url').netloc with
  | error e => rfl
  | ok _ => cases checkNetloc (splitParts url').netloc <;> rfl

/-- A tag at the end is not part of the network location. The character is removed by none of the
steps before the cut, and it is one of those that end the location. -/
theorem netloc_concat_hash {c : Char} {s : Str} (hc : isC0OrSpace c = false) (hcolon : ':' ∈ c :: s) :
    (splitParts (c :: s ++ ['#'])).netloc = (splitParts (c :: s)).netloc := by
  have hclean : cleanUrl (c :: s ++ ['#']) = cleanUrl (c :: s) ++ ['#'] := by
    rw [cleanUrl, cleanUrl, List.cons_append, List.dropWhile_cons_of_neg (by simp [hc]),
      List.dropWhile_cons_of_neg (by simp [hc]), ← List.cons_append, List.filter_append]
    rfl
  have hmem : ':' ∈ cleanUrl (c :: s) := by
    rw [cleanUrl, List.dropWhile_cons_of_neg (by simp [hc])]
    exact List.mem_filter.mpr ⟨hcolon, by decide⟩
  obtain ⟨a, b, hab, ha⟩ := List.eq_append_cons_of_mem hmem
  have hscheme : (splitScheme (cleanUrl (c :: s) ++ ['#'])).2 =
      (splitScheme (cleanUrl (c :: s))).2 ++ ['#'] := by
    rw [hab, List.append_assoc, List.cons_append]
    simp only [splitScheme, partition_append ha]
    split_ifs <;> simp
  have hslashes : ∀ x : Str, startswith (x ++ ['#']) ['/', '/'] = startswith x ['/', '/'] := by
    intro x
    match x with
    | [] => rfl
    | [d] => simp [startswith, List.isPrefixOf]
    | d :: e :: x => simp [startswith, List.isPrefixOf]
  simp only [splitParts, hclean, hscheme, hslashes]
  split_ifs with hnet
  · obtain ⟨t, ht⟩ := startswith_iff.mp hnet
    have htake : (t ++ ['#']).takeWhile (fun c => !isNetlocEnd c) =
        t.takeWhile fun c => !isNetlocEnd c := by
      rw [List.takeWhile_append]
      split_ifs with hall
      · rw [(List.takeWhile_prefix _).eq_of_length hall]
        simp [isNetlocEnd]
      · rfl
    rw [ht]
    exact htake
  · rfl

end BlogStuff.Python
