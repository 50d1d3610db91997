import BlogStuff.VlessSubs.Registry

/-!
# BlogStuff.VlessSubs.Fetch

Reading subscriptions (`fetch_sub_urls`, `fetch_sub_lines`, `fetch_clash_proxies`
and `uri_clash_proxies` of `vless_subs.py`).

An endpoint may answer every request differently, so the network is a function of
the number of the request, the URL and the User-Agent. A fetcher is one request
followed by a pure function of the answer (`subUrls`, `subLines`, `clashProxies`,
`uriProxies`), and what is proved about fetchers is proved about those. The two
clash fetchers return the proxy lines paired with their names.
-/

namespace BlogStuff.VlessSubs

open BlogStuff.Python

/-- What a process gets from outside: the answer to its `i`-th request (`none`
where opening or reading fails) and the time stamp it writes. -/
structure Net where
  web : Nat → Str → Str → Option Bytes
  now : Str

/-- `SUB_FETCH_UA`. -/
def subFetchUA : Str := "okhttp/3.12.0".toList

/-- `PROVIDER_FETCH_UA`. -/
def providerFetchUA : Str := "clash.meta".toList

/-- `Request(url, ..)` followed by `urlopen` and `read`. The constructor is outside
the `try` of its callers: it raises on a URL without a type and on a host it cannot split. -/
def request (net : Net) (url ua : Str) : Prog (Option Bytes) := do
  if isRequestUrl url then
    let w ← get
    set { w with requests := w.requests + 1 }
    return net.web w.requests url ua
  else throw .request

/-! ### Decoding a subscription body -/

/-- `"=" * (-len(s) % 4)`. -/
def padding (s : Str) : Str := List.replicate ((4 - s.length % 4) % 4) '='

/-- `resp.read().decode().strip()`, or `none` if one of the three fails. -/
def bodyText (answer : Option Bytes) : Option Str := (answer.bind decode).map strip

/-- The base64 of the body if it is that, else the body as it is. -/
def decodeBody (body : Str) : Str :=
  ((b64decode (body ++ padding body)).bind decode).getD body

/-- The VLESS URLs of a subscription text. -/
def vlessLines (text : Str) : List Str :=
  ((splitlines text).map strip).filter fun u => startswith u vlessScheme

/-- The VLESS URLs of an answer; `none` where the fetch counts as failed. -/
def subUrls (answer : Option Bytes) : Option (List Str) :=
  (bodyText answer).map fun body => vlessLines (decodeBody body)

/-- `fetch_sub_urls(sub_url)`. The text of the caught exception is left out of the
first message. -/
def fetchSubUrls (net : Net) (subUrl : Str) : Prog (List Str) := do
  match subUrls (← request net subUrl subFetchUA) with
  | none => throw (.die ("Could not fetch ".toList ++ subUrl ++ ": ".toList))
  | some [] =>
      throw (.die ("No VLESS URLs found at ".toList ++ subUrl ++
        ". Use the .../base64 endpoint?".toList))
  | some urls => return urls

/-- What `fetch_sub_urls` returns when it is the `c`-th request; `none` if it stops
the program. -/
def fetchedUrls (net : Net) (c : Nat) (subUrl : Str) : Option (List Str) :=
  if isRequestUrl subUrl then (subUrls (net.web c subUrl subFetchUA)).filter (· ≠ []) else none

/-- `[a-z]` under `re.I`: besides the ASCII letters, four letters that fold to them. -/
def isLetterI (c : Char) : Bool :=
  c.isAlpha || [0x130, 0x131, 0x17f, 0x212a].contains c.toNat

/-- `[a-z0-9+.\-]` under `re.I`. -/
def isSchemeCharI (c : Char) : Bool :=
  isLetterI c || c.isDigit || c == '+' || c == '.' || c == '-'

/-- `^[a-z][a-z0-9+.\-]*://` under `re.I`. -/
def schemeRx : Regex :=
  .seqs [.chr isLetterI, .many isSchemeCharI, .lit "://".toList]

/-- The node URLs of a subscription text, any protocol. -/
def urlLines (text : Str) : List Str :=
  ((splitlines text).map strip).filter schemeRx.isMatch

/-- The node URLs of an answer; a failure yields none of them. -/
def subLines (answer : Option Bytes) : List Str :=
  match bodyText answer with
  | none => []
  | some body => urlLines (decodeBody body)

/-- `fetch_sub_lines(sub_url)`. -/
def fetchSubLines (net : Net) (subUrl : Str) : Prog (List Str) := do
  return subLines (← request net subUrl subFetchUA)

/-! ### Clash configurations -/

/-- `^proxies:\s*$`. -/
def proxiesKeyRx : Regex := .seqs [.lit "proxies:".toList, .many isSpace, .eol]

/-- `^\S`. -/
def topLevelRx : Regex := .chr fun c => !isSpace c

/-- `^\s*-\s*\{.*\}\s*$`. -/
def flowItemRx : Regex :=
  .seqs [.many isSpace, .chr (· == '-'), .many isSpace, .chr (· == '\x7b'), .many (· != '\n'),
    .chr (· == '\x7d'), .many isSpace, .eol]

/-- `name:\s*('([^']*)'|"([^"]*)"|([^,}]+))`. -/
def nameRx : Regex :=
  .seqs [.lit "name:".toList, .many isSpace, .group 1
    (.alt (.seqs [.chr (· == '\''), .group 2 (.many (· != '\'')), .chr (· == '\'')])
      (.alt (.seqs [.chr (· == '"'), .group 3 (.many (· != '"')), .chr (· == '"')])
        (.group 4 (.many1 fun c => c != ',' && c != '\x7d'))))]

/-- `(name:\s*)('[^']*'|"[^"]*"|[^,}]+)`. -/
def nameSubRx : Regex :=
  .seqs [.group 1 (.seqs [.lit "name:".toList, .many isSpace]), .group 2
    (.alt (.seqs [.chr (· == '\''), .many (· != '\''), .chr (· == '\'')])
      (.alt (.seqs [.chr (· == '"'), .many (· != '"'), .chr (· == '"')])
        (.many1 fun c => c != ',' && c != '\x7d')))]

/-- The lines of the top-level `proxies:` block. Another key at the left margin ends it; blank lines
are passed over, and a second `proxies:` line goes on with the block. -/
def proxiesBlock (inBlock : Bool) : List Str → List Str
  | [] => []
  | ln :: lns =>
      if proxiesKeyRx.isMatch ln then proxiesBlock true lns
      else if inBlock then
        if topLevelRx.isMatch ln then []
        else if strip ln = [] then proxiesBlock true lns
        else ln :: proxiesBlock true lns
      else proxiesBlock false lns

/-- `_yaml_sq(s)`. -/
def yamlSq (s : Str) : Str :=
  "'".toList ++ s.flatMap (fun c => if c = '\'' then ['\'', '\''] else [c]) ++ "'".toList

/-- `f"{label} | {raw}" if label else raw`. -/
def labelled (label raw : Str) : Str := if label = [] then raw else label ++ " | ".toList ++ raw

/-- The name of a flow item, stripped; empty if it has none. -/
def flowName (ln : Str) : Str :=
  match nameRx.search ln with
  | some (_, g, _) => strip (pyOr (Regex.groupD g 2) (pyOr (Regex.groupD g 3) (Regex.groupD g 4)))
  | none => []

/-- One flow item with its name rewritten, and that name. -/
def flowProxy (label ln : Str) : Option (Str × Str) :=
  if flowName ln = [] then none
  else
    let name := labelled label (flowName ln)
    let ln := nameSubRx.subOnce (fun g => Regex.groupD g 1 ++ yamlSq name) ln
    some ("  ".toList ++ strip ln, name)

/-- The proxies of an answer; none on any failure. A block with a line that is not of the flow form
is a failure as a whole. -/
def clashProxies (label : Str) (answer : Option Bytes) : List (Str × Str) :=
  match answer with
  | none => []
  | some bytes =>
      let block := proxiesBlock false (splitlines (decodeReplace bytes))
      let flow := block.filter flowItemRx.isMatch
      if flow = [] ∨ flow.length ≠ block.length then [] else flow.filterMap (flowProxy label)

theorem exists_flowProxy_of_mem {label : Str} {answer : Option Bytes} {p : Str × Str}
    (h : p ∈ clashProxies label answer) : ∃ ln, flowProxy label ln = some p := by
  cases answer with
  | none => simp [clashProxies] at h
  | some bytes =>
      simp only [clashProxies] at h
      split_ifs at h
      · simp at h
      · obtain ⟨ln, -, hln⟩ := List.mem_filterMap.mp h
        exact ⟨ln, hln⟩

/-- `fetch_clash_proxies(sub_url, label)`. -/
def fetchClashProxies (net : Net) (subUrl label : Str) : Prog (List (Str × Str)) := do
  return clashProxies label (← request net subUrl providerFetchUA)

/-! ### Node URL lists as clash proxies -/

/-- `_b64decode_loose(s)`, or `none` where it raises. -/
def b64decodeLoose (s : Str) : Option Str :=
  let s := (strip s).map fun c => if c = '-' then '+' else if c = '_' then '/' else c
  (b64decode (s ++ padding s)).bind decode

section

variable [UnicodeData]

/-- The user info and the address of an `ss://` body, in either form: with an `@` only the user info
may be encoded, without one the whole body is. -/
def ssParts (body : Str) : Option (Str × Str) :=
  if body.contains '@' then do
    let (userinfo, _, hostport) := rpartition '@' body
    let userinfo := unquote userinfo
    if userinfo.contains ':' then return (userinfo, hostport)
    else return (← b64decodeLoose userinfo, hostport)
  else do
    let (userinfo, _, hostport) := rpartition '@' (← b64decodeLoose body)
    return (userinfo, hostport)

/-- `_ss_clash_proxy(url, name)`. A plugin, an empty field or a port that is not a number make it
return nothing; the method is written without quotes. -/
def ssClashProxy (url name : Str) : Option Str := do
  let (body, _, _) := partition '#' (url.drop "ss://".toList.length)
  let (body, _, query) := partition '?' body
  if hasSub query "plugin=".toList then none
  let (userinfo, hostport) ← ssParts (body.rdropWhile (· == '/'))
  let (method, _, password) := partition ':' userinfo
  let (host, _, port) := rpartition ':' hostport
  let host := stripChars (fun c => c == '[' || c == ']') host
  if method = [] ∨ password = [] ∨ host = [] ∨ !isDigitStr port then none
  return "  - \x7bname: ".toList ++ yamlSq name ++ ", type: ss, server: ".toList ++ yamlSq host ++
    ", port: ".toList ++ port ++ ", cipher: ".toList ++ method ++ ", password: ".toList ++
    yamlSq password ++ ", udp: true\x7d".toList

/-- `url.split("://", 1)[0].lower()`. -/
def urlScheme (url : Str) : Str :=
  UnicodeData.lower (((splitOnce "://".toList url).map Prod.fst).getD url)

/-- The display name of the `i`-th URL of a list. -/
def rawName (i : Nat) (url : Str) : Str :=
  if url.contains '#' then unquote (partition '#' url).2.2
  else urlScheme url ++ "-".toList ++ Nat.toDigits 10 i

/-- The node is vless+reality: it has that security and a public key. -/
def isReality (parts : SplitResult) : Bool :=
  qsGet (parseQs parts.query) "security".toList [] = "reality".toList ∧
    qsGet (parseQs parts.query) "pbk".toList [] ≠ []

/-- The proxy block of one `vless` URL of a list; `none` if it is not reality. The
constructor of `Node` and `urlsplit` may stop the program here. -/
def vlessClashProxy (url name : Str) : Except Exit (Option Str) := do
  let parts ← liftUrl (urlsplit url)
  if isReality parts then do
    let node ← Node.init url []
    return some { node with name := name }.clashProxy
  else return none

/-- The proxy of one URL of a list. -/
def uriProxy (url name : Str) : Except Exit (Option Str) :=
  if urlScheme url = "vless".toList then vlessClashProxy url name
  else if urlScheme url = "ss".toList then .ok (ssClashProxy url name)
  else .ok none

/-- The loop of `uri_clash_proxies`, from the `i`-th URL on. The number goes into the name of a URL
that has none; a URL that is not understood is passed over. -/
def uriProxies (label : Str) : Nat → List Str → Except Exit (List (Str × Str))
  | _, [] => .ok []
  | i, url :: urls => do
      let name := labelled label (rawName i url)
      let line ← uriProxy url name
      let rest ← uriProxies label (i + 1) urls
      return (line.map fun line => (line, name)).toList ++ rest

/-- `uri_clash_proxies(sub_url, label)`. -/
def uriClashProxies (net : Net) (subUrl label : Str) : Prog (List (Str × Str)) := do
  check (uriProxies label 1 (← fetchSubLines net subUrl))

end

/-! ### Runs of the fetchers -/

section

variable {net : Net} {w : World}

theorem run_request {url : Str} (h : isRequestUrl url = true) (ua : Str) :
    (request net url ua).run w =
      .ok (net.web w.requests url ua) { w with requests := w.requests + 1 } := by
  simp only [request, h, if_true, EStateM.run_bind, EStateM.run_get, EStateM.run_set]
  rfl

theorem run_request_error {url : Str} (h : isRequestUrl url = false) (ua : Str) :
    (request net url ua).run w = .error .request w := by
  rw [request, if_neg (by simp [h])]
  rfl

theorem run_fetchSubLines {url : Str} (h : isRequestUrl url = true) :
    (fetchSubLines net url).run w = .ok (subLines (net.web w.requests url subFetchUA))
      { w with requests := w.requests + 1 } := by
  rw [fetchSubLines, run_bind_of_ok (run_request h _)]
  rfl

theorem run_fetchClashProxies {url : Str} (h : isRequestUrl url = true) (label : Str) :
    (fetchClashProxies net url label).run w =
      .ok (clashProxies label (net.web w.requests url providerFetchUA))
        { w with requests := w.requests + 1 } := by
  rw [fetchClashProxies, run_bind_of_ok (run_request h _)]
  rfl

theorem run_fetchSubUrls {subUrl : Str} {urls : List Str}
    (h : fetchedUrls net w.requests subUrl = some urls) :
    (fetchSubUrls net subUrl).run w = .ok urls { w with requests := w.requests + 1 } := by
  unfold fetchedUrls at h
  split_ifs at h with ht
  obtain ⟨hs, hne⟩ := Option.filter_eq_some_iff.mp h
  rw [fetchSubUrls, run_bind_of_ok (run_request ht _), hs]
  cases urls with
  | nil => simp at hne
  | cons u us => rfl

/-- A failed fetch leaves everything but the request count. -/
theorem run_fetchSubUrls_error {subUrl : Str} (h : fetchedUrls net w.requests subUrl = none) :
    ∃ e c, (fetchSubUrls net subUrl).run w = .error e { w with requests := c } := by
  unfold fetchedUrls at h
  split_ifs at h with ht
  · rw [fetchSubUrls, run_bind_of_ok (run_request ht _)]
    cases hs : subUrls (net.web w.requests subUrl subFetchUA) with
    | none => exact ⟨_, _, rfl⟩
    | some urls =>
        cases urls with
        | nil => exact ⟨_, _, rfl⟩
        | cons u us => simp [hs] at h
  · rw [fetchSubUrls, run_bind_of_error (run_request_error (by simpa using ht) _)]
    exact ⟨_, w.requests, rfl⟩

theorem fetchedUrls_ne_nil {c : Nat} {subUrl : Str} : fetchedUrls net c subUrl ≠ some [] := by
  intro h
  unfold fetchedUrls at h
  split_ifs at h
  simpa using (Option.filter_eq_some_iff.mp h).2

theorem oneLine_fetchedUrls {c : Nat} {subUrl : Str} {urls : List Str}
    (h : fetchedUrls net c subUrl = some urls) {u : Str} (hu : u ∈ urls) :
    OneLine u ∧ Stripped u ∧ startswith u vlessScheme = true := by
  unfold fetchedUrls at h
  split_ifs at h
  obtain ⟨hs, -⟩ := Option.filter_eq_some_iff.mp h
  obtain ⟨body, -, rfl⟩ := Option.map_eq_some_iff.mp hs
  obtain ⟨hmem, hv⟩ := List.mem_filter.mp hu
  obtain ⟨l, hl, rfl⟩ := List.mem_map.mp hmem
  exact ⟨oneLine_strip (oneLine_of_mem_splitlines hl), stripped_strip l, hv⟩

end

end BlogStuff.VlessSubs
