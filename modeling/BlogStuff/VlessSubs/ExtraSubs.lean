import BlogStuff.VlessSubs.Conf

/-!
# BlogStuff.VlessSubs.ExtraSubs

`gen` with extra subscriptions, against endpoints that may answer anything.

Almost every failure of an endpoint is absorbed: a failed fetch, bytes that are no
text, a document without a `proxies:` block all count as an empty list. One path is
not. When an endpoint serves no clash configuration, its node URLs are converted by
`uri_clash_proxies`, which runs `urlsplit` and the constructor of `Node` on
them. A URL those refuse ends the program between the two writes. Nor is an endpoint with a
host that cannot be split absorbed: `Request` is made outside the `try`, and a labelled value is not
split before. `gen_completes_iff` says that these are the only ways: `gen` completes exactly when the
endpoints can be requested and no line that is converted is refused (`Harmless`).
-/

namespace BlogStuff.VlessSubs

open BlogStuff.Python

/-! ### Extra subscriptions can be requested -/

/-- The delimiters that end the type of a URL. -/
def typeEnds : List Char := ['/', ':', '#']

/-- A character that matches a letter of `https`, in either case, is no delimiter. -/
theorem eqI_not_mem {c d : Char} (hc : c ∈ "https".toList) (h : eqI c d = true) : d ∉ typeEnds := by
  have hno : ∀ c ∈ "https".toList, ∀ d ∈ typeEnds, eqI c d = false := by simp [eqI, typeEnds]
  intro hd
  rw [hno c hc d hd] at h
  cases h

theorem eqI_ne_of_c0 {c : Char} (h : c.toNat ≤ 0x20) : ¬ eqI 'h' c = true := by
  have hall : ∀ n ≤ 0x20, eqI 'h' (Char.ofNat n) = false := by decide
  rw [← Char.ofNat_toNat c, hall c.toNat h]
  decide

theorem forall₂_eqI_not_mem {t a : Str} (ht : ∀ c ∈ t, c ∈ "https".toList)
    (h : List.Forall₂ (fun c d => eqI c d = true) t a) : ∀ d ∈ a, d ∉ typeEnds := by
  induction h with
  | nil => simp
  | cons hcd _ ih =>
      intro d hd
      rcases List.mem_cons.mp hd with hd | hd
      · rw [hd]
        exact eqI_not_mem (ht _ (by simp)) hcd
      · exact ih (fun c hc => ht c (by simp [hc])) d hd

/-- A match of `https?://` is some letters, the first an `h`, and `://`. None of the letters is a
character at which the type of a URL would end earlier. -/
theorem httpRx_inv {url : Str} (h : httpRx.isMatch url = true) :
    ∃ c a rest, url = c :: a ++ ':' :: '/' :: '/' :: rest ∧ eqI 'h' c = true ∧
      ∀ d ∈ c :: a, d ∉ typeEnds := by
  have h1 : (Regex.run (.litWith eqI "http".toList) url [] (fun s g =>
      Regex.run (.opt (.litWith eqI "s".toList)) s g (fun s g =>
        Regex.run (.lit "://".toList) s g (fun s' g => some (s', g))))).isSome = true := h
  obtain ⟨a, b, rfl, ha, hb⟩ := Regex.run_litWith_isSome.mp h1
  have hno := forall₂_eqI_not_mem (by simp) ha
  obtain ⟨c, a, hc, rfl⟩ : ∃ c a', eqI 'h' c = true ∧ a = c :: a' := by
    cases ha with
    | cons hd _ => exact ⟨_, _, hd, rfl⟩
  rw [Regex.opt, Regex.run, Option.isSome_or, Bool.or_eq_true] at hb
  rcases hb with hb | hb
  · obtain ⟨a', b', rfl, ha', hb'⟩ := Regex.run_litWith_isSome.mp hb
    obtain ⟨rest, rfl, -⟩ := Regex.run_lit_isSome.mp hb'
    refine ⟨c, a ++ a', rest, by simp, hc, ?_⟩
    intro d hd
    rw [← List.cons_append, List.mem_append] at hd
    rcases hd with hd | hd
    · exact hno d hd
    · exact forall₂_eqI_not_mem (by simp) ha' d hd
  · obtain ⟨rest, rfl, -⟩ := Regex.run_lit_isSome.mp hb
    exact ⟨c, a, rest, by simp, hc, hno⟩

/-- A URL of this type is not wrapped in anything: `unwrap` takes off `<`, `>` and `URL:`, and this
one begins with an `h`. -/
theorem unwrap_of_http {url : Str} (hs : Stripped url) (h : httpRx.isMatch url = true) :
    unwrap url = url := by
  obtain ⟨c, a, rest, rfl, hc, -⟩ := httpRx_inv h
  have hlt : c ≠ '<' := by
    intro hd
    rw [hd] at hc
    exact absurd hc (by decide)
  have hu : c ≠ 'U' := by
    intro hd
    rw [hd] at hc
    exact absurd hc (by decide)
  have hstart : startswith (c :: a ++ ':' :: '/' :: '/' :: rest) "URL:".toList = false := by
    rw [← Bool.not_eq_true, startswith_iff]
    intro ⟨t, ht⟩
    exact hu (List.cons.inj ht).1
  have hbr : ¬((c :: a ++ ':' :: '/' :: '/' :: rest).head? = some '<' ∧
      (c :: a ++ ':' :: '/' :: '/' :: rest).getLast? = some '>') := by
    intro hd
    exact hlt (Option.some.inj hd.1)
  rw [unwrap, show strip _ = _ from hs, if_neg hbr, hstart]
  rfl

/-- It has its type: nothing in the scheme is a delimiter, so the first colon is the one behind it,
and no slash comes before. -/
theorem hasUrlType_of_http {url : Str} (hs : Stripped url) (h : httpRx.isMatch url = true) :
    hasUrlType url = true := by
  have hunwrap := unwrap_of_http hs h
  obtain ⟨c, a, rest, rfl, hc, hno⟩ := httpRx_inv h
  have hx : '#' ∉ c :: a ++ [':'] := by
    intro hd
    rcases List.mem_append.mp hd with hd | hd
    · exact hno _ hd (by decide)
    · simp at hd
  obtain ⟨z, hz⟩ := dropTag_append (t := '/' :: '/' :: rest) hx
  have hcolon : ':' ∉ c :: a := fun hd => hno _ hd (by decide)
  have hslash : '/' ∉ c :: a := fun hd => hno _ hd (by decide)
  rw [hasUrlType, hunwrap]
  rw [List.append_assoc, List.singleton_append] at hz
  rw [hz, List.append_assoc, List.singleton_append, partition_append hcolon]
  simp [hslash]

/-- `full_url` has the same network location. It differs from the URL by a tag that is empty, if at
all, and the tag stands behind the location. -/
theorem netloc_fullUrl {url : Str} (hs : Stripped url) (h : httpRx.isMatch url = true) :
    (splitParts (fullUrl url)).netloc = (splitParts url).netloc := by
  have hunwrap := unwrap_of_http hs h
  simp only [fullUrl, hunwrap]
  split_ifs with htag
  · -- the URL ends in `#`, which is cut off
    rcases last_char '#' url with hnone | ⟨x, y, hxy, hy⟩
    · rw [rpartition_of_not_mem hnone] at htag
      simp at htag
    · rw [hxy, rpartition_append hy] at htag
      obtain rfl : y = [] := by simpa using htag
      obtain ⟨c, a, rest, hurl, hc, hno⟩ := httpRx_inv h
      have hdrop : dropTag url = x := by
        rw [dropTag, hxy, rpartition_append hy]
        rfl
      have hlong : c :: a ++ [':'] <+: x := by
        have hpre : c :: a ++ [':'] <+: x ++ ['#'] := by
          rw [← hxy, hurl]
          exact ⟨'/' :: '/' :: rest, by simp⟩
        rcases List.prefix_concat_iff.mp hpre with heq | hpre
        · exact absurd (List.append_inj_right' heq rfl) (by decide)
        · exact hpre
      obtain ⟨z, rfl⟩ := hlong
      have hc0 : isC0OrSpace c = false := by
        by_contra hspace
        rw [Bool.not_eq_false, isC0OrSpace, decide_eq_true_eq] at hspace
        exact absurd hc (eqI_ne_of_c0 hspace)
      rw [hdrop, hxy]
      exact (netloc_concat_hash hc0 (by simp)).symm
  · rfl

/-- **What `parse_extra_sub` accepts can be requested** exactly if it can be split. -/
theorem isRequestUrl_iff_of_http {url : Str} (hs : Stripped url) (h : httpRx.isMatch url = true) :
    isRequestUrl url = true ↔ ∃ parts, urlsplit url = .ok parts := by
  rw [isRequestUrl, hasUrlType_of_http hs h, Bool.true_and,
    urlsplit_toBool_congr (netloc_fullUrl hs h), urlsplit_toBool_iff]

theorem stripped_splitSpec (spec : Str) : Stripped (splitSpec spec).2 := by
  unfold splitSpec
  split
  · exact stripped_strip _
  · exact stripped_strip _

section

variable [UnicodeData]

/-- What an accepted value went through: its URL is one, and its label is not empty. A missing label
is replaced by the host, and a missing host by a fixed word. -/
theorem parseExtraSub_inv {spec label url : Str} (h : parseExtraSub spec = .ok (label, url)) :
    httpRx.isMatch url = true ∧ url = (splitSpec spec).2 ∧ label ≠ [] := by
  simp only [parseExtraSub] at h
  split_ifs at h with hm hl
  · cases hu : urlsplit (splitSpec spec).2 with
    | error e => simp [hu, liftUrl, Except.mapError, bind, Except.bind] at h
    | ok parts =>
        simp only [hu, liftUrl, Except.mapError, bind, Except.bind] at h
        obtain ⟨rfl, rfl⟩ := Prod.mk.inj (Except.ok.inj h)
        refine ⟨hm, rfl, ?_⟩
        unfold pyOr
        split_ifs with hhost
        · decide
        · exact hhost
  · obtain ⟨rfl, rfl⟩ := Prod.mk.inj (Except.ok.inj h)
    exact ⟨hm, rfl, hl⟩

/-- Every extra subscription comes from a value that was accepted: one that is not ends the whole
list. -/
theorem mem_parseExtraSubs {specs : List Str} {extras : List (Str × Str)}
    (h : parseExtraSubs specs = .ok extras) : ∀ e ∈ extras, ∃ spec, parseExtraSub spec = .ok e := by
  induction specs generalizing extras with
  | nil =>
      obtain rfl := Except.ok.inj h
      simp
  | cons spec specs ih =>
      rw [parseExtraSubs] at h
      cases hp : parseExtraSub spec with
      | error e => simp [hp, bind, Except.bind] at h
      | ok p =>
          cases hps : parseExtraSubs specs with
          | error e => simp [hp, hps, bind, Except.bind] at h
          | ok ps =>
              simp only [hp, hps, bind, Except.bind] at h
              obtain rfl := Except.ok.inj h
              exact List.forall_mem_cons.mpr ⟨⟨spec, hp⟩, ih hps⟩

theorem parseExtraSubs_isRequestUrl_iff {specs : List Str} {extras : List (Str × Str)}
    (h : parseExtraSubs specs = .ok extras) {e : Str × Str} (he : e ∈ extras) :
    isRequestUrl e.2 = true ↔ ∃ parts, urlsplit e.2 = .ok parts := by
  obtain ⟨spec, hspec⟩ := mem_parseExtraSubs h e he
  obtain ⟨hmatch, hurl, -⟩ := parseExtraSub_inv hspec
  refine isRequestUrl_iff_of_http ?_ hmatch
  rw [hurl]
  exact stripped_splitSpec spec

end

/-! ### The base64 builder -/

/-- The URLs of the extra subscriptions, labelled, when the first of them is the
`c`-th request. -/
def labelledUrls (net : Net) : Nat → List (Str × Str) → List Str
  | _, [] => []
  | c, (label, url) :: rest =>
      (subLines (net.web c url subFetchUA)).map (prefixUrlName · label) ++
        labelledUrls net (c + 1) rest

theorem run_extraUrls {net : Net} {extras : List (Str × Str)}
    (hreq : ∀ e ∈ extras, isRequestUrl e.2 = true) (w : World) : (extraUrls net extras).run w =
      .ok (labelledUrls net w.requests extras)
        { w with requests := w.requests + extras.length } := by
  induction extras generalizing w with
  | nil => rfl
  | cons e rest ih =>
      obtain ⟨label, url⟩ := e
      have hurl : isRequestUrl url = true := hreq (label, url) (by simp)
      have hrest := ih (fun e he => hreq e (by simp [he])) { w with requests := w.requests + 1 }
      rw [extraUrls, run_bind_of_ok (run_fetchSubLines hurl), run_bind_of_ok hrest]
      simp [labelledUrls, Nat.add_assoc, Nat.add_comm 1]

/-- A URL that cannot be requested ends the loop. The sources before it have been asked, so only the
number of requests has changed. -/
theorem run_extraUrls_error (net : Net) {extras : List (Str × Str)} {e : Str × Str} (he : e ∈ extras)
    (hno : isRequestUrl e.2 = false) (w : World) :
    ∃ c, (extraUrls net extras).run w = .error .request { w with requests := c } := by
  induction extras generalizing w with
  | nil => simp at he
  | cons e' rest ih =>
      obtain ⟨label, url⟩ := e'
      cases hurl : isRequestUrl url with
      | false =>
          have hfetch : (fetchSubLines net url).run w = .error .request w := by
            rw [fetchSubLines, run_bind_of_error (run_request_error hurl _)]
          exact ⟨w.requests, by rw [extraUrls, run_bind_of_error hfetch]⟩
      | true =>
          have hrest : e ∈ rest := by
            rcases List.mem_cons.mp he with rfl | hrest
            · rw [hurl] at hno
              cases hno
            · exact hrest
          obtain ⟨c, hrun⟩ := ih hrest { w with requests := w.requests + 1 }
          refine ⟨c, ?_⟩
          rw [extraUrls, run_bind_of_ok (run_fetchSubLines hurl), run_bind_of_error hrun]

theorem run_buildBase64 {net : Net} {extras : List (Str × Str)}
    (hreq : ∀ e ∈ extras, isRequestUrl e.2 = true) (ns : List Node) (w : World) :
    (buildBase64 net ns extras).run w =
      .ok (encodeUrls (ns.map Node.url ++ labelledUrls net w.requests extras))
        { w with requests := w.requests + extras.length } := by
  rw [buildBase64, run_bind_of_ok (run_extraUrls hreq w)]
  rfl

section

variable [UnicodeData]

/-! ### The lines an endpoint may serve -/

/-- A node URL that the conversion to clash does not stop at: a `vless` URL must split
and, if it is reality, be accepted by `Node`. -/
def HarmlessUrl (url : Str) : Prop :=
  urlScheme url = "vless".toList →
    ∃ parts, urlsplit url = .ok parts ∧ (isReality parts = true → ∃ n, Node.init url [] = .ok n)

theorem vlessClashProxy_ok_iff (url name : Str) : (∃ r, vlessClashProxy url name = .ok r) ↔
    ∃ parts, urlsplit url = .ok parts ∧
      (isReality parts = true → ∃ n, Node.init url [] = .ok n) := by
  unfold vlessClashProxy
  cases hu : urlsplit url with
  | error e => simp [liftUrl, Except.mapError, bind, Except.bind]
  | ok parts =>
      cases hr : isReality parts with
      | false => simp [liftUrl, Except.mapError, bind, Except.bind, pure, Except.pure, hr]
      | true =>
          cases hn : Node.init url [] with
          | error e => simp [liftUrl, Except.mapError, bind, Except.bind, hr]
          | ok n => simp [liftUrl, Except.mapError, bind, Except.bind, pure, Except.pure, hr]

theorem uriProxy_ok_iff (url name : Str) : (∃ r, uriProxy url name = .ok r) ↔ HarmlessUrl url := by
  unfold uriProxy HarmlessUrl
  split_ifs with hv hss
  · rw [vlessClashProxy_ok_iff]
    exact ⟨fun h _ => h, fun h => h hv⟩
  · exact ⟨fun _ h => absurd h hv, fun _ => ⟨_, rfl⟩⟩
  · exact ⟨fun _ h => absurd h hv, fun _ => ⟨_, rfl⟩⟩

/-- The conversion of a list stops at the first harmful URL. -/
theorem uriProxies_ok_iff (label : Str) (i : Nat) (urls : List Str) :
    (∃ ps, uriProxies label i urls = .ok ps) ↔ ∀ url ∈ urls, HarmlessUrl url := by
  induction urls generalizing i with
  | nil => simp [uriProxies]
  | cons url urls ih =>
      rw [List.forall_mem_cons, ← ih (i + 1), ← uriProxy_ok_iff url (labelled label (rawName i url)),
        uriProxies]
      cases uriProxy url (labelled label (rawName i url)) with
      | error e => simp [bind, Except.bind]
      | ok r =>
          cases uriProxies label (i + 1) urls with
          | error e => simp [bind, Except.bind]
          | ok ps => simp [bind, Except.bind, pure, Except.pure]

/-- No source, from the `c`-th request on, makes the conversion stop. A source is
converted only when its clash configuration yields nothing. -/
def Harmless (net : Net) : Nat → List (Str × Str) → Prop
  | _, [] => True
  | c, (label, url) :: rest =>
      if clashProxies label (net.web c url providerFetchUA) = [] then
        (∀ line ∈ subLines (net.web (c + 1) url subFetchUA), HarmlessUrl line) ∧
          Harmless net (c + 2) rest
      else Harmless net (c + 1) rest

/-! ### The clash builder -/

variable {net : Net}

/-- The proxies of a source when its clash fetch is the `c`-th request. -/
def sourceResult (net : Net) (c : Nat) (label url : Str) : Except Exit (List (Str × Str)) × Nat :=
  if clashProxies label (net.web c url providerFetchUA) = [] then
    (uriProxies label 1 (subLines (net.web (c + 1) url subFetchUA)), c + 2)
  else (.ok (clashProxies label (net.web c url providerFetchUA)), c + 1)

theorem run_sourceProxies {label url : Str} (hreq : isRequestUrl url = true) (w : World) :
    (sourceProxies net label url).run w =
      (check (sourceResult net w.requests label url).1).run
        { w with requests := (sourceResult net w.requests label url).2 } := by
  rw [sourceProxies, run_bind_of_ok (run_fetchClashProxies hreq label), sourceResult]
  split_ifs
  · rw [uriClashProxies, run_bind_of_ok (run_fetchSubLines hreq)]
  · rfl

theorem harmless_cons {c : Nat} {label url : Str} {rest : List (Str × Str)} :
    Harmless net c ((label, url) :: rest) ↔ (∃ ps, (sourceResult net c label url).1 = .ok ps) ∧
      Harmless net (sourceResult net c label url).2 rest := by
  rw [Harmless, sourceResult]
  split_ifs
  · rw [uriProxies_ok_iff]
  · simp

/-- The source loop ends well exactly when no source is harmful. Only the request count
changes. -/
theorem run_gather {extras : List (Str × Str)} (hreq : ∀ e ∈ extras, isRequestUrl e.2 = true)
    (g : Gathered) (w : World) :
    (Harmless net w.requests extras →
        ∃ g' c, (gather net extras g).run w = .ok g' { w with requests := c }) ∧
      (¬ Harmless net w.requests extras →
        ∃ e c, (gather net extras g).run w = .error e { w with requests := c }) := by
  induction extras generalizing g w with
  | nil => exact ⟨fun _ => ⟨g, w.requests, rfl⟩, fun h => absurd trivial h⟩
  | cons e rest ih =>
      obtain ⟨label, url⟩ := e
      have hrest : ∀ e ∈ rest, isRequestUrl e.2 = true := fun e he => hreq e (by simp [he])
      have hrun : (sourceProxies net label url).run w =
          (check (sourceResult net w.requests label url).1).run
            { w with requests := (sourceResult net w.requests label url).2 } :=
        run_sourceProxies (hreq (label, url) (by simp)) w
      rw [harmless_cons]
      cases hres : (sourceResult net w.requests label url).1 with
      | error e =>
          rw [hres] at hrun
          refine ⟨fun h => absurd h.1 (by simp), fun _ =>
            ⟨e, (sourceResult net w.requests label url).2, ?_⟩⟩
          rw [gather, run_bind_of_error hrun]
      | ok ps =>
          rw [hres] at hrun
          rw [gather, run_bind_of_ok hrun]
          obtain ⟨hok, herr⟩ := ih hrest (g.add label url ps)
            { w with requests := (sourceResult net w.requests label url).2 }
          exact ⟨fun h => hok h.2, fun h => herr (fun h' => h ⟨⟨ps, rfl⟩, h'⟩)⟩

/-! ### `gen` as a whole -/

/-- Both outputs are there and hold every own node: the base64 file its URL, before
those of the extra subscriptions, the clash file its proxy block. -/
structure Completed (site : Site) (ns : List Node) (w : World) : Prop where
  base64 : ∃ text urls, w.read (base64Path site) = some text ∧
    (b64decode text).bind decode = some (List.intercalate ['\n'] (ns.map Node.url ++ urls))
  clash : ∃ text, w.read (clashPath site) = some text ∧ ∀ n ∈ ns, n.clashProxy <:+: text

/-- `gen` writes the base64 file before the clash builder runs. From then on an error of the builder
leaves the new base64 file beside the old clash file. -/
theorem run_cmdGen_base64 {site : Site} {w : World} {specs : List Str} {extras : List (Str × Str)}
    {ns : List Node} (hspecs : parseExtraSubs specs = .ok extras) (hnodes : w.nodes site = .ok ns)
    (hne : ¬(ns = [] ∧ extras = [])) (hreq : ∀ e ∈ extras, isRequestUrl e.2 = true) :
    ∃ v : World, v.requests = w.requests + extras.length ∧ v.outDir = true ∧
      v.read (base64Path site) =
        some (encodeUrls (ns.map Node.url ++ labelledUrls net w.requests extras)) ∧
      (cmdGen site net specs).run w = (do
        let text ← buildClash net ns extras
        writeText site (clashPath site) text
        return ns : Prog (List Node)).run v := by
  have hload : (loadNodes site).run w = .ok ns { w with nodesDir := true } := by
    rw [run_loadNodes, hnodes]
  refine ⟨World.write { w with
      nodesDir := true, outDir := true, requests := w.requests + extras.length } (base64Path site)
        (encodeUrls (ns.map Node.url ++ labelledUrls net w.requests extras)), rfl, rfl, ?_, ?_⟩
  · rw [World.read_write, if_pos rfl]
  · rw [cmdGen, hspecs, run_bind_of_ok (run_check_ok _ _), run_bind_of_ok hload, if_neg hne,
      mkOutDir, run_bind_of_ok (EStateM.run_modify _ _),
      run_bind_of_ok (run_buildBase64 hreq ns _),
      run_bind_of_ok (run_write_base64 rfl _)]

/-- A URL that cannot be requested ends `gen` before anything is written. The base64 text is built
first, and for it every extra subscription is fetched. -/
theorem run_cmdGen_badUrl (net : Net) {site : Site} {w : World} {specs : List Str} {extras : List (Str × Str)}
    {ns : List Node} (hspecs : parseExtraSubs specs = .ok extras) (hnodes : w.nodes site = .ok ns)
    {e : Str × Str} (he : e ∈ extras) (hno : isRequestUrl e.2 = false) :
    ∃ c, (cmdGen site net specs).run w =
      .error .request { w with nodesDir := true, outDir := true, requests := c } := by
  have hload : (loadNodes site).run w = .ok ns { w with nodesDir := true } := by
    rw [run_loadNodes, hnodes]
  have hne : ¬(ns = [] ∧ extras = []) := by
    rintro ⟨-, rfl⟩
    simp at he
  obtain ⟨c, hrun⟩ := run_extraUrls_error net he hno { w with nodesDir := true, outDir := true }
  have hbuild : (buildBase64 net ns extras).run { w with nodesDir := true, outDir := true } =
      .error .request { w with nodesDir := true, outDir := true, requests := c } := by
    rw [buildBase64, run_bind_of_error hrun]
  refine ⟨c, ?_⟩
  rw [cmdGen, hspecs, run_bind_of_ok (run_check_ok _ _), run_bind_of_ok hload, if_neg hne,
    mkOutDir, run_bind_of_ok (EStateM.run_modify _ _), run_bind_of_error hbuild]

/-- **`gen` against arbitrary endpoints.** For a registry that loads and extra
subscriptions that parse, `gen` writes both files, with every own node, exactly when
there is something to write, the URL of every extra subscription can be split, and no converted
line is harmful. -/
theorem gen_completes_iff {site : Site} {w : World} {specs : List Str} {extras : List (Str × Str)}
    {ns : List Node} (hspecs : parseExtraSubs specs = .ok extras) (hnodes : w.nodes site = .ok ns) :
    (∃ w', (cmdGen site net specs).run w = .ok ns w' ∧ Completed site ns w') ↔
      (ns ≠ [] ∨ extras ≠ []) ∧ (∀ e ∈ extras, ∃ parts, urlsplit e.2 = .ok parts) ∧
        Harmless net (w.requests + extras.length) extras := by
  by_cases hempty : ns = [] ∧ extras = []
  · -- nothing to write: `gen` dies
    have hload : (loadNodes site).run w = .ok ns { w with nodesDir := true } := by
      rw [run_loadNodes, hnodes]
    have hrun : (cmdGen site net specs).run w =
        .error (.die noNodesMsg) { w with nodesDir := true } := by
      rw [cmdGen, hspecs, run_bind_of_ok (run_check_ok _ _), run_bind_of_ok hload, if_pos hempty]
      rfl
    rw [hrun, hempty.1, hempty.2]
    constructor
    · intro h
      obtain ⟨w', h, -⟩ := h
      cases h
    · intro h
      obtain ⟨h, -⟩ := h
      simp at h
  by_cases hreq : ∀ e ∈ extras, isRequestUrl e.2 = true
  · have hsplit : ∀ e ∈ extras, ∃ parts, urlsplit e.2 = .ok parts := fun e he =>
      (parseExtraSubs_isRequestUrl_iff hspecs he).mp (hreq e he)
    obtain ⟨v, hvreq, hvout, hvread, hrun⟩ := run_cmdGen_base64 hspecs hnodes hempty hreq
    obtain ⟨hok, herr⟩ := run_gather hreq (Gathered.start ns) v
    rw [hvreq] at hok herr
    rw [hrun]
    by_cases hh : Harmless net (w.requests + extras.length) extras
    · obtain ⟨g, c, hg⟩ := hok hh
      have hclash : (buildClash net ns extras).run v =
          .ok ((clashDoc ns g).render net.now) { v with requests := c } := by
        rw [buildClash, run_bind_of_ok hg]
        rfl
      have hwrite : (writeText site (clashPath site) ((clashDoc ns g).render net.now)).run
          { v with requests := c } = .ok () (World.write { v with requests := c } (clashPath site)
            ((clashDoc ns g).render net.now)) :=
        run_write_clash (w := { v with requests := c }) hvout _
      have hdone : Completed site ns (World.write { v with requests := c } (clashPath site)
          ((clashDoc ns g).render net.now)) := by
        refine ⟨⟨_, labelledUrls net w.requests extras, ?_, decode_encodeUrls _⟩,
          _, ?_, fun n hn => infix_render hn g net.now⟩
        · rw [World.read_write, if_neg (clashPath_ne_base64Path site)]
          exact hvread
        · rw [World.read_write, if_pos rfl]
      rw [run_bind_of_ok hclash, run_bind_of_ok hwrite]
      exact ⟨fun _ => ⟨by tauto, hsplit, hh⟩, fun _ => ⟨_, rfl, hdone⟩⟩
    · -- the clash builder stops, and nothing is written after it
      obtain ⟨e, c, hg⟩ := herr hh
      have hclash : (buildClash net ns extras).run v = .error e { v with requests := c } := by
        rw [buildClash, run_bind_of_error hg]
      rw [run_bind_of_error hclash]
      constructor
      · intro h
        obtain ⟨w', h, -⟩ := h
        cases h
      · intro h
        exact absurd h.2.2 hh
  · -- the base64 builder stops
    push Not at hreq
    obtain ⟨e, he, hno⟩ := hreq
    obtain ⟨c, hrun⟩ := run_cmdGen_badUrl net hspecs hnodes he (by simpa using hno)
    rw [hrun]
    constructor
    · intro h
      obtain ⟨w', h, -⟩ := h
      cases h
    · intro h
      exact absurd ((parseExtraSubs_isRequestUrl_iff hspecs he).mpr (h.2.1 e he)) hno

end

section

attribute [local instance] asciiData

/-- One own node, and an extra subscription that cannot be reached. -/
theorem gen_completes_iff_small :
    (∃ w', (cmdGen smallSite silent ["http://e".toList]).run smallWorld = .ok [smallNode] w' ∧
        Completed smallSite [smallNode] w') ↔
      ([smallNode] ≠ [] ∨ [("e".toList, "http://e".toList)] ≠ []) ∧
        (∀ e ∈ [("e".toList, "http://e".toList)], ∃ parts, urlsplit e.2 = .ok parts) ∧
        Harmless silent 1 [("e".toList, "http://e".toList)] :=
  gen_completes_iff (by decide) (by decide)

/-- A reality URL without a user id, in an extra subscription, ends `gen` by `die`. -/
theorem gen_stops_at_bad_line :
    parseExtraSubs ["http://e".toList] = .ok [("e".toList, "http://e".toList)] ∧
      smallWorld.nodes smallSite = .ok [smallNode] ∧
      exitOf ((cmdGen smallSite (serving "vless://h?security=reality&pbk=k".toList)
          ["http://e".toList]).run smallWorld) =
        some (.die (missingMsg "vless://h?security=reality&pbk=k".toList)) := by
  refine ⟨?_, ?_, ?_⟩
  · decide
  · decide
  · decide

end

end BlogStuff.VlessSubs
