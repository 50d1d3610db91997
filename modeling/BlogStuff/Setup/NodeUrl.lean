import BlogStuff.Python.PlainUrl
import BlogStuff.VlessSubs.Node

/-!
# BlogStuff.Setup.NodeUrl

The node as `setup_vless_caddy_sub.sh` writes it, twice: as the VLESS URL it prints and
serves, and as the proxy block of the `clash.yaml` it serves. `vless_subs.py` parses the
URL and renders a block of its own.

Every field but the name is over an alphabet that needs no escaping, so it comes back as
it was (`init_vlessUrl`). The name is put into the fragment as it is, while the reader
strips the URL, drops tabs and line ends and decodes escapes. Each of these can only
shorten the name, so the two blocks agree exactly when none of them applies
(`proxyBlock_agrees_iff`).
-/

namespace BlogStuff.Setup

open BlogStuff.Python BlogStuff.VlessSubs

/-! ### The templates -/

/-- The shell variables a node is made of, as the script has obtained them. An empty node
name has been replaced by a default. -/
structure Vars where
  uuid : Str
  serverIp : Str
  realitySni : Str
  publicKey : Str
  shortId : Str
  nodeName : Str
  /-- `xray uuid`. -/
  uuid_ok : uuid ≠ [] ∧ ∀ c ∈ uuid, isHexDigit c = true ∨ c = '-'
  /-- An IPv4 address. -/
  serverIp_ok : serverIp ≠ [] ∧ ∀ c ∈ serverIp, c.isDigit = true ∨ c = '.'
  /-- A host name. -/
  realitySni_ok : ∀ c ∈ realitySni, c.isAlphanum = true ∨ c = '-' ∨ c = '.'
  /-- Base64 in the URL alphabet. -/
  publicKey_ok : publicKey ≠ [] ∧ ∀ c ∈ publicKey, c.isAlphanum = true ∨ c = '-' ∨ c = '_'
  /-- `openssl rand -hex 4`. -/
  shortId_ok : ∀ c ∈ shortId, isHexDigit c = true
  nodeName_ok : nodeName ≠ []

namespace Vars

/-- `VLESS_URL`. -/
def vlessUrl (v : Vars) : Str :=
  "vless://".toList ++ v.uuid ++ "@".toList ++ v.serverIp ++
    ":443?encryption=none&flow=xtls-rprx-vision&security=reality&sni=".toList ++ v.realitySni ++
    "&fp=chrome&pbk=".toList ++ v.publicKey ++ "&sid=".toList ++ v.shortId ++
    "&type=tcp#".toList ++ v.nodeName

/-- The entry under `proxies:` in `/etc/caddy/sub/clash.yaml`. -/
def proxyBlock (v : Vars) : Str :=
  List.intercalate ['\n'] [
    "  - name: \"".toList ++ v.nodeName ++ "\"".toList,
    "    type: vless".toList,
    "    server: ".toList ++ v.serverIp,
    "    port: 443".toList,
    "    uuid: ".toList ++ v.uuid,
    "    flow: xtls-rprx-vision".toList,
    "    tls: true".toList,
    "    network: tcp".toList,
    "    reality-opts:".toList,
    "      public-key: ".toList ++ v.publicKey,
    "      short-id: ".toList ++ v.shortId,
    "    servername: ".toList ++ v.realitySni,
    "    client-fingerprint: chrome".toList,
    "    udp: true".toList]

/-! ### The fields are safe -/

theorem safe_uuid (v : Vars) : ∀ c ∈ v.uuid, isAlwaysSafe c = true := by
  intro c hc
  rcases v.uuid_ok.2 c hc with h | rfl
  · exact isAlwaysSafe_of_isAlphanum (isAlphanum_of_isHexDigit h)
  · decide

theorem safe_serverIp (v : Vars) : ∀ c ∈ v.serverIp, isAlwaysSafe c = true := by
  intro c hc
  rcases v.serverIp_ok.2 c hc with h | rfl
  · exact isAlwaysSafe_of_isAlphanum (by simp [Char.isAlphanum, h])
  · decide

theorem safe_realitySni (v : Vars) : ∀ c ∈ v.realitySni, isAlwaysSafe c = true := by
  intro c hc
  rcases v.realitySni_ok c hc with h | rfl | rfl
  · exact isAlwaysSafe_of_isAlphanum h
  · decide
  · decide

theorem safe_publicKey (v : Vars) : ∀ c ∈ v.publicKey, isAlwaysSafe c = true := by
  intro c hc
  rcases v.publicKey_ok.2 c hc with h | rfl | rfl
  · exact isAlwaysSafe_of_isAlphanum h
  · decide
  · decide

theorem safe_shortId (v : Vars) : ∀ c ∈ v.shortId, isAlwaysSafe c = true :=
  fun c hc => isAlwaysSafe_of_isAlphanum (isAlphanum_of_isHexDigit (v.shortId_ok c hc))

/-! ### The shape of the URL -/

/-- The part between `//` and `?`. -/
def netloc (v : Vars) : Str := v.uuid ++ '@' :: (v.serverIp ++ ':' :: "443".toList)

/-- The fields of the query. -/
def fields (v : Vars) : List (Str × Str) :=
  [("encryption".toList, "none".toList), ("flow".toList, "xtls-rprx-vision".toList),
    ("security".toList, "reality".toList), ("sni".toList, v.realitySni),
    ("fp".toList, "chrome".toList), ("pbk".toList, v.publicKey), ("sid".toList, v.shortId),
    ("type".toList, "tcp".toList)]

/-- The literals of the template are cut at the delimiters they hold. They are replaced by variables
first, so that the rewriting does not run through their characters. -/
theorem vlessUrl_eq (v : Vars) : v.vlessUrl = 'v' :: "less".toList ++ ':' :: '/' :: '/' ::
    (v.netloc ++ '?' :: (joinQuery v.fields ++ '#' :: v.nodeName)) := by
  have hcut : ∀ t₁ t₂ t₃ t₄ t₅ t₆ : Str,
      t₁ = 'v' :: "less".toList ++ [':', '/', '/'] → t₂ = ['@'] →
      t₃ = ':' :: "443".toList ++ '?' :: ("encryption".toList ++ '=' :: "none".toList ++
        '&' :: ("flow".toList ++ '=' :: "xtls-rprx-vision".toList ++
          '&' :: ("security".toList ++ '=' :: "reality".toList ++ '&' :: ("sni".toList ++ ['='])))) →
      t₄ = '&' :: ("fp".toList ++ '=' :: "chrome".toList ++ '&' :: ("pbk".toList ++ ['='])) →
      t₅ = '&' :: ("sid".toList ++ ['=']) →
      t₆ = '&' :: ("type".toList ++ '=' :: "tcp".toList ++ ['#']) →
      t₁ ++ v.uuid ++ t₂ ++ v.serverIp ++ t₃ ++ v.realitySni ++ t₄ ++ v.publicKey ++ t₅ ++
          v.shortId ++ t₆ ++ v.nodeName =
        'v' :: "less".toList ++ ':' :: '/' :: '/' ::
          (v.netloc ++ '?' :: (joinQuery v.fields ++ '#' :: v.nodeName)) := by
    rintro _ _ _ _ _ _ rfl rfl rfl rfl rfl rfl
    simp only [netloc, fields, joinQuery, List.map_cons, List.map_nil, List.intercalate_cons_cons,
      List.intercalate_singleton, List.append_assoc, List.cons_append, List.nil_append]
  exact hcut _ _ _ _ _ _ (by decide) (by decide) (by decide) (by decide) (by decide)
    (by decide)

theorem safe_fields (v : Vars) : ∀ f ∈ v.fields,
    (∀ c ∈ f.1, isAlwaysSafe c = true) ∧ ∀ c ∈ f.2, isAlwaysSafe c = true := by
  have hlit : ∀ {s : Str}, s.all isAlwaysSafe = true → ∀ c ∈ s, isAlwaysSafe c = true :=
    fun h => List.all_eq_true.mp h
  have hsni : "sni".toList.all isAlwaysSafe = true := by decide
  have hpbk : "pbk".toList.all isAlwaysSafe = true := by decide
  have hsid : "sid".toList.all isAlwaysSafe = true := by decide
  intro f hf
  simp only [fields, List.mem_cons, List.not_mem_nil, or_false] at hf
  rcases hf with rfl | rfl | rfl | rfl | rfl | rfl | rfl | rfl
  · exact ⟨hlit (by decide), hlit (by decide)⟩
  · exact ⟨hlit (by decide), hlit (by decide)⟩
  · exact ⟨hlit (by decide), hlit (by decide)⟩
  · exact ⟨hlit hsni, v.safe_realitySni⟩
  · exact ⟨hlit (by decide), hlit (by decide)⟩
  · exact ⟨hlit hpbk, v.safe_publicKey⟩
  · exact ⟨hlit hsid, v.safe_shortId⟩
  · exact ⟨hlit (by decide), hlit (by decide)⟩

/-! ### What the reader gets -/

theorem mem_netloc {v : Vars} {c : Char} (h : c ∈ v.netloc) :
    isAlwaysSafe c = true ∨ c = '@' ∨ c = ':' := by
  have hport : ∀ c ∈ "443".toList, isAlwaysSafe c = true := List.all_eq_true.mp (by decide)
  simp only [netloc, List.mem_append, List.mem_cons] at h
  rcases h with h | rfl | h | rfl | h
  · exact Or.inl (v.safe_uuid c h)
  · exact Or.inr (Or.inl rfl)
  · exact Or.inl (v.safe_serverIp c h)
  · exact Or.inr (Or.inr rfl)
  · exact Or.inl (hport c h)

/-- What holds of safe characters and of the two delimiters holds in the network
location. -/
theorem not_mem_netloc {x : Char} (v : Vars) (hx : isAlwaysSafe x = false) (h1 : x ≠ '@')
    (h2 : x ≠ ':') : x ∉ v.netloc := by
  intro h
  rcases mem_netloc h with h | h | h
  · rw [hx] at h
    cases h
  · exact h1 h
  · exact h2 h

/-- The parts `urlsplit` finds, with whatever becomes of the fragment. -/
def parts (v : Vars) (fragment : Str) : SplitResult :=
  ⟨"vless".toList, v.netloc, [], joinQuery v.fields, fragment⟩

theorem mem_joinQuery {v : Vars} {c : Char} (h : c ∈ joinQuery v.fields) :
    isAlwaysSafe c = true ∨ c = '=' ∨ c = '&' := by
  obtain ⟨l, hl, hc⟩ | rfl := mem_intercalate_singleton h
  · obtain ⟨f, hf, rfl⟩ := List.mem_map.mp hl
    rcases List.mem_append.mp hc with hc | hc
    · exact Or.inl ((v.safe_fields f hf).1 c hc)
    · rcases List.mem_cons.mp hc with rfl | hc
      · exact Or.inr (Or.inl rfl)
      · exact Or.inl ((v.safe_fields f hf).2 c hc)
  · exact Or.inr (Or.inr rfl)

/-- Neither check of `urlsplit` refuses the network location: the script's address, port and uuid
are safe characters of ASCII, with `@` and `:` between them. -/
theorem urlsplit_plain (v : Vars) (name : Str) :
    urlsplit ('v' :: "less".toList ++ ':' :: '/' :: '/' ::
      (v.netloc ++ '?' :: (joinQuery v.fields ++ '#' :: name))) =
        .ok (v.parts (name.filter fun c => !isUnsafe c)) := by
  have hsplit : splitParts ('v' :: "less".toList ++ ':' :: '/' :: '/' ::
      (v.netloc ++ '?' :: (joinQuery v.fields ++ '#' :: name))) =
        v.parts (name.filter fun c => !isUnsafe c) := by
    have hscheme : ('v' :: "less".toList).all (fun d => isSchemeChar d && !isUnsafe d) = true := by
      decide
    refine splitParts_plain (by decide) ?_ ?_ ?_
    · intro c hc
      simpa using List.all_eq_true.mp hscheme c hc
    · intro c hc
      rcases mem_netloc hc with hc | rfl | rfl
      · exact ⟨isNetlocEnd_of_safe hc, isUnsafe_of_safe hc⟩
      · decide
      · decide
    · intro c hc
      rcases mem_joinQuery hc with hc | rfl | rfl
      · exact ⟨ne_of_safe (by decide) hc, isUnsafe_of_safe hc⟩
      · decide
      · decide
  have hopen : '[' ∉ v.netloc := v.not_mem_netloc (by decide) (by decide) (by decide)
  have hclose : ']' ∉ v.netloc := v.not_mem_netloc (by decide) (by decide) (by decide)
  have hbrackets : checkBrackets v.netloc = .ok () := by
    simp [checkBrackets, hopen, hclose]
  have hnetloc : checkNetloc v.netloc = .ok () := by
    have hnone : v.netloc.any (fun c => nfkcDelimiters.contains c.toNat) = false := by
      have hhigh : ∀ n ∈ nfkcDelimiters, 128 ≤ n := by decide
      refine List.any_eq_false.mpr (fun c hc hmem => ?_)
      have hascii : c.toNat < 128 := by
        rcases mem_netloc hc with hc | rfl | rfl
        · simpa [isAsciiChar] using isAsciiChar_of_isAlwaysSafe hc
        · decide
        · decide
      exact absurd hascii (Nat.not_lt.mpr (hhigh _ (by simpa using hmem)))
    rw [checkNetloc, hnone]
    rfl
  have hparts : (v.parts (name.filter fun c => !isUnsafe c)).netloc = v.netloc := rfl
  simp only [urlsplit, hsplit, hparts, hbrackets, hnetloc]
  rfl

theorem username_parts (v : Vars) (fragment : Str) :
    (v.parts fragment).username = some v.uuid := by
  have hat : '@' ∉ v.serverIp ++ ':' :: "443".toList := by
    have := not_mem_of_safe (x := '@') (by decide) v.safe_serverIp
    simp [this]
  have hcolon : ':' ∉ v.uuid := not_mem_of_safe (by decide) v.safe_uuid
  simp only [SplitResult.username, parts, netloc, rpartition_append hat, if_true,
    partition_of_not_mem hcolon]

theorem hostinfo_parts (v : Vars) (fragment : Str) :
    (v.parts fragment).hostinfo = (v.serverIp, "443".toList) := by
  have hat : '@' ∉ v.serverIp ++ ':' :: "443".toList := by
    have := not_mem_of_safe (x := '@') (by decide) v.safe_serverIp
    simp [this]
  have hopen : '[' ∉ v.serverIp ++ ':' :: "443".toList := by
    have := not_mem_of_safe (x := '[') (by decide) v.safe_serverIp
    simp [this]
  have hcolon : ':' ∉ v.serverIp := not_mem_of_safe (by decide) v.safe_serverIp
  simp only [SplitResult.hostinfo, parts, netloc, rpartition_append hat, partition_of_not_mem hopen,
    partition_append hcolon]
  rfl

theorem port_parts (v : Vars) (fragment : Str) : (v.parts fragment).port = .ok (some 443) := by
  simp only [SplitResult.port, hostinfo_parts]
  decide

/-- The node `vless_subs.py` makes of the URL. The fields are the variables of the script, but for
the name: escapes in it are decoded, and blanks at its end and tabs and line ends are lost. -/
def node (v : Vars) : Node where
  url := strip v.vlessUrl
  ssh := []
  uuid := v.uuid
  server := v.serverIp
  port := 443
  name := pyOr (unquote ((rstrip v.nodeName).filter fun c => !isUnsafe c)) v.serverIp
  flow := "xtls-rprx-vision".toList
  sni := v.realitySni
  pbk := v.publicKey
  sid := v.shortId
  fp := "chrome".toList
  network := "tcp".toList
  security := "reality".toList

section

variable [UnicodeData]

/-- An IPv4 address has no letters to lower, and no zone behind a `%`, so the host name is the
address as it was given. -/
theorem hostname_parts (v : Vars) (fragment : Str) :
    (v.parts fragment).hostname = some v.serverIp := by
  have hascii : isAscii v.serverIp = true :=
    List.all_eq_true.mpr (fun c hc => isAsciiChar_of_isAlwaysSafe (v.safe_serverIp c hc))
  have hlower : UnicodeData.lower v.serverIp = v.serverIp := by
    rw [UnicodeData.lower_ascii _ hascii]
    conv_rhs => rw [← List.map_id v.serverIp]
    refine List.map_congr_left (fun c hc => ?_)
    rcases v.serverIp_ok.2 c hc with h | rfl
    · exact toLower_of_isDigit h
    · decide
  have hpercent : '%' ∉ v.serverIp := not_mem_of_safe (by decide) v.safe_serverIp
  simp only [SplitResult.hostname, hostinfo_parts, if_neg v.serverIp_ok.1,
    partition_of_not_mem hpercent, hlower]
  simp

theorem ofParts_parts (v : Vars) :
    Node.ofParts (strip v.vlessUrl) [] (v.parts ((rstrip v.nodeName).filter fun c => !isUnsafe c))
      (some 443) = v.node := by
  have hget : ∀ {k w : Str}, (k, w) ∈ v.fields → ∀ dflt,
      qsGet (parseQs (joinQuery v.fields)) k dflt = pyOr w dflt := by
    intro k w hmem dflt
    refine qsGet_joinQuery ?_ v.safe_fields hmem dflt
    exact (by decide : (["encryption".toList, "flow".toList, "security".toList, "sni".toList,
      "fp".toList, "pbk".toList, "sid".toList, "type".toList] : List Str).Nodup)
  have hor : ∀ w : Str, pyOr w [] = w := by
    intro w
    cases w <;> rfl
  have huuid : unquote v.uuid = v.uuid := unquote_of_not_mem (not_mem_of_safe (by decide) v.safe_uuid)
  have hflow : ("flow".toList, "xtls-rprx-vision".toList) ∈ v.fields := by simp [fields]
  have hsni : ("sni".toList, v.realitySni) ∈ v.fields := by simp [fields]
  have hpbk : ("pbk".toList, v.publicKey) ∈ v.fields := by simp [fields]
  have hsid : ("sid".toList, v.shortId) ∈ v.fields := by simp [fields]
  have hfp : ("fp".toList, "chrome".toList) ∈ v.fields := by simp [fields]
  have htype : ("type".toList, "tcp".toList) ∈ v.fields := by simp [fields]
  have hsecurity : ("security".toList, "reality".toList) ∈ v.fields := by simp [fields]
  have hquery : ∀ fragment, (v.parts fragment).query = joinQuery v.fields := fun _ => rfl
  simp only [Node.ofParts, username_parts, hostname_parts, Option.getD_some, huuid, hquery,
    hget hflow, hget hsni, hget hpbk, hget hsid, hget hfp, hget htype, hget hsecurity, hor]
  rfl

/-- **The URL is accepted**, and every field but the name comes back as it was. The name is last, so
what `strip` and `urlsplit` take away can only be taken from it. -/
theorem init_vlessUrl (v : Vars) : Node.init v.vlessUrl [] = .ok v.node := by
  have hstrip : strip v.vlessUrl = 'v' :: "less".toList ++ ':' :: '/' :: '/' ::
      (v.netloc ++ '?' :: (joinQuery v.fields ++ '#' :: rstrip v.nodeName)) := by
    have hassoc : ∀ t, 'v' :: "less".toList ++ ':' :: '/' :: '/' ::
        (v.netloc ++ '?' :: (joinQuery v.fields ++ '#' :: t)) =
          ('v' :: "less".toList ++ ':' :: '/' :: '/' ::
            (v.netloc ++ '?' :: joinQuery v.fields)) ++ '#' :: t := by
      intro t
      simp only [List.append_assoc, List.cons_append]
    rw [vlessUrl_eq, strip, List.cons_append, lstrip_cons (by decide), ← List.cons_append, hassoc,
      hassoc]
    exact rstrip_append_cons (by decide)
  have hscheme : startswith (strip v.vlessUrl) vlessScheme = true := by
    rw [hstrip]
    exact startswith_iff.mpr ⟨_, rfl⟩
  have hsplit : urlsplit (strip v.vlessUrl) =
      .ok (v.parts ((rstrip v.nodeName).filter fun c => !isUnsafe c)) := by
    rw [hstrip]
    exact v.urlsplit_plain (rstrip v.nodeName)
  have hcomplete : v.node.isComplete = true := by
    simp [Node.isComplete, node, v.uuid_ok.1, v.serverIp_ok.1, v.publicKey_ok.1]
  have hnil : strip ([] : Str) = [] := rfl
  simp only [Node.init, Node.parse, hscheme, if_true, hsplit, liftUrl, Except.mapError, port_parts,
    hnil, ofParts_parts, bind, Except.bind, hcomplete]

end

/-! ### The two blocks -/

theorem clashProxy_node (v : Vars) : v.node.clashProxy = v.proxyBlock ↔ v.node.name = v.nodeName := by
  have hport : "    port: ".toList ++ Nat.toDigits 10 443 = "    port: 443".toList := by decide
  have hflow : "    flow: ".toList ++ "xtls-rprx-vision".toList =
      "    flow: xtls-rprx-vision".toList := by
    decide
  have hnetwork : "    network: ".toList ++ "tcp".toList = "    network: tcp".toList := by decide
  have hfp : "    client-fingerprint: ".toList ++ "chrome".toList =
      "    client-fingerprint: chrome".toList := by
    decide
  rw [Node.clashProxy, proxyBlock]
  simp only [node, hport, hflow, hnetwork, hfp, List.intercalate_cons_cons, List.append_assoc,
    List.append_cancel_left_eq, List.append_cancel_right_eq]

/-- None of the three changes the reader makes applies to the name. -/
structure NamePlain (name : Str) : Prop where
  /-- No escape is decoded. -/
  escape : ¬ HasEscape name
  /-- No tab or line end is dropped. -/
  line : ∀ c ∈ name, c ≠ '\t' ∧ c ≠ '\r' ∧ c ≠ '\n'
  /-- No white space is stripped from the end of the URL. -/
  last : ∀ c, name.getLast? = some c → isSpace c = false

theorem name_node (v : Vars) : v.node.name = v.nodeName ↔ NamePlain v.nodeName := by
  show pyOr (unquote ((rstrip v.nodeName).filter fun c => !isUnsafe c)) v.serverIp = v.nodeName ↔ _
  constructor
  · intro h
    by_cases hnil : unquote ((rstrip v.nodeName).filter fun c => !isUnsafe c) = []
    · -- the server stands in for the name, and it is plain
      rw [hnil, pyOr_nil] at h
      rw [← h]
      refine ⟨fun hesc => not_mem_of_safe (by decide) v.safe_serverIp hesc.mem, ?_, ?_⟩
      · intro c hc
        have hsafe := v.safe_serverIp c hc
        exact ⟨ne_of_safe (by decide) hsafe, ne_of_safe (by decide) hsafe,
          ne_of_safe (by decide) hsafe⟩
      · intro c hc
        exact isSpace_of_safe (v.safe_serverIp c (List.mem_of_getLast? hc))
    · -- each step shortens the name or leaves it alone
      rw [pyOr_of_ne hnil] at h
      have hlen := congrArg List.length h
      have h1 := length_unquote_le ((rstrip v.nodeName).filter fun c => !isUnsafe c)
      have h2 := List.length_filter_le (fun c => !isUnsafe c) (rstrip v.nodeName)
      have hprefix : rstrip v.nodeName <+: v.nodeName := List.rdropWhile_prefix _ _
      have h3 := hprefix.length_le
      have hstrip : rstrip v.nodeName = v.nodeName := hprefix.eq_of_length (by omega)
      rw [hstrip] at h hlen h1 h2
      have hfilter : (v.nodeName.filter fun c => !isUnsafe c) = v.nodeName :=
        List.filter_sublist.eq_of_length (by omega)
      rw [hfilter] at h
      exact ⟨unquote_eq_self_iff.mp h, filter_unsafe_iff.mp hfilter, rstrip_eq_self_iff.mp hstrip⟩
  · intro ⟨hescape, hline, hlast⟩
    rw [rstrip_eq_self_iff.mpr hlast, filter_unsafe_iff.mpr hline, unquote_eq_self_iff.mpr hescape,
      pyOr_of_ne v.nodeName_ok]

/-- **Setup script and manager agree on a node** exactly when its name has no escape
sequence, no tab or line end, and no white space at its end. -/
theorem proxyBlock_agrees_iff [UnicodeData] (v : Vars) :
    (∃ n, Node.init v.vlessUrl [] = .ok n ∧ n.clashProxy = v.proxyBlock) ↔
      NamePlain v.nodeName := by
  rw [← name_node, ← clashProxy_node]
  constructor
  · intro ⟨n, hn, hblock⟩
    obtain rfl := Except.ok.inj (v.init_vlessUrl.symm.trans hn)
    exact hblock
  · intro hblock
    exact ⟨v.node, v.init_vlessUrl, hblock⟩

section

attribute [local instance] asciiData

/-- A node whose name holds a percent sign. -/
def percentVars : Vars where
  uuid := "0-a".toList
  serverIp := "1.2.3.4".toList
  realitySni := "a.b".toList
  publicKey := "k_-".toList
  shortId := "0f".toList
  nodeName := "a%41".toList
  uuid_ok := by simpa using (by decide : isHexDigit '0' = true ∧ isHexDigit 'a' = true)
  serverIp_ok := by simp
  realitySni_ok := by simp
  publicKey_ok := by simp
  shortId_ok := by simpa using (by decide : isHexDigit '0' = true ∧ isHexDigit 'f' = true)
  nodeName_ok := by simp

/-- The manager calls that node `aA`. -/
theorem percent_name_differs :
    (Node.init percentVars.vlessUrl []).toOption.map Node.name = some "aA".toList ∧
      (Node.init percentVars.vlessUrl []).toOption.map Node.clashProxy ≠
        some percentVars.proxyBlock := by
  decide

end

end Vars

end BlogStuff.Setup
