import BlogStuff.VlessSubs.Fetch

/-!
# BlogStuff.VlessSubs.Generate

Building the two subscription files (`build_base64`, `build_clash` and `cmd_gen`
of `vless_subs.py`).

`build_clash` fetches each extra source, keeps the proxies whose name is new
(`Gathered.add`), and then writes a document. The document is a value of its own,
`ClashDoc`, so that the names it lists can be read off without parsing text;
`ClashDoc.render` is the text the script concatenates.
-/

namespace BlogStuff.VlessSubs

open BlogStuff.Python

/-! ### Extra subscriptions on the command line -/

/-- A character of a literal under `re.I`; the long s folds to `s`. -/
def eqI (c d : Char) : Bool := d.toLower == c || (c == 's' && d.toNat == 0x17f)

/-- `https?://` under `re.I`. -/
def httpRx : Regex :=
  .seqs [.litWith eqI "http".toList, .opt (.litWith eqI "s".toList), .lit "://".toList]

/-- `^([^=/\s]+)=(\s*https?://\S+)$` under `re.I`. -/
def extraSubRx : Regex :=
  .seqs [.group 1 (.many1 fun c => c != '=' && c != '/' && !isSpace c), .chr (· == '='),
    .group 2 (.seqs [.many isSpace, httpRx, .many1 fun c => !isSpace c]), .eol]

/-- The label, empty if there is none, and the URL of a `LABEL=URL` value. -/
def splitSpec (spec : Str) : Str × Str :=
  match extraSubRx.matchAt (strip spec) with
  | some (_, g) => (strip (Regex.groupD g 1), strip (Regex.groupD g 2))
  | none => ([], strip spec)

/-- The message for a value without an HTTP URL. -/
def extraSubMsg (spec : Str) : Str :=
  "--extra-sub expects an http(s) URL (optionally 'LABEL=URL'): ".toList ++ spec

section

variable [UnicodeData]

/-- `parse_extra_sub(spec)`: the label and the URL. Without a label the host is the label, which is
where `urlsplit` can raise an error. -/
def parseExtraSub (spec : Str) : Except Exit (Str × Str) :=
  let (label, url) := splitSpec spec
  if httpRx.isMatch url then
    if label = [] then do
      let parts ← liftUrl (urlsplit url)
      return (pyOr (parts.hostname.getD []) "sub".toList, url)
    else .ok (label, url)
  else .error (.die (extraSubMsg spec))

/-! ### The base64 file -/

/-- The display name `_prefix_url_name` gives a URL: its decoded fragment behind the
label, or the label alone. -/
def prefixedName (url label : Str) : Str :=
  let (_, hash, frag) := partition '#' url
  let name := if hash then unquote frag else []
  if name = [] then label else label ++ " | ".toList ++ name

/-- `_prefix_url_name(url, label)`. -/
def prefixUrlName (url label : Str) : Str :=
  (partition '#' url).1 ++ ['#'] ++ quote (prefixedName url label)

/-- The loop of `build_base64` over the extra subscriptions. -/
def extraUrls (net : Net) : List (Str × Str) → Prog (List Str)
  | [] => return []
  | (label, url) :: rest => do
      let lines ← fetchSubLines net url
      let urls ← extraUrls net rest
      return lines.map (prefixUrlName · label) ++ urls

/-- The base64 text of a list of URLs. -/
def encodeUrls (urls : List Str) : Str := b64encode (encode (List.intercalate ['\n'] urls))

/-- `build_base64(nodes, extra_subs)`. -/
def buildBase64 (net : Net) (nodes : List Node) (extraSubs : List (Str × Str)) : Prog Str := do
  let extra ← extraUrls net extraSubs
  return encodeUrls (nodes.map Node.url ++ extra)

/-! ### Gathering the proxies of the extra sources -/

/-- One entry of `sources`. A slug is set for a source that is only referred to. -/
structure Source where
  label : Str
  names : List Str
  slug : Option Str
  url : Str
  deriving DecidableEq

/-- The variables of the source loop of `build_clash`. -/
structure Gathered where
  extraProxies : List (Str × Str)
  sources : List Source
  seenNames : List Str
  seenSlugs : Str → Nat

/-- The proxies of one source whose name has not been seen, and the names seen then. -/
def dedup (seen : List Str) : List (Str × Str) → List (Str × Str) × List Str
  | [] => ([], seen)
  | (line, name) :: rest =>
      if name ∈ seen then dedup seen rest
      else ((line, name) :: (dedup (name :: seen) rest).1, (dedup (name :: seen) rest).2)

/-- `_slugify(s)`. -/
def slugify (s : Str) : Str :=
  let slug := s.map fun c => if c.isAlphanum || c == '_' || c == '-' then c else '-'
  pyOr (stripChars (· == '-') slug) "sub".toList

/-- One round of the source loop, with the proxies the fetchers returned. A source without proxies
becomes a provider with a slug; of the others those with a new name are kept. -/
def Gathered.add (g : Gathered) (label url : Str) (proxies : List (Str × Str)) : Gathered :=
  if proxies = [] then
    let base := slugify label
    let count := g.seenSlugs base + 1
    let slug := if count = 1 then base else base ++ "-".toList ++ Nat.toDigits 10 count
    { g with
      sources := g.sources ++ [⟨label, [], some slug, url⟩]
      seenSlugs := Function.update g.seenSlugs base count }
  else
    let (kept, seen) := dedup g.seenNames proxies
    { g with
      extraProxies := g.extraProxies ++ kept
      sources := g.sources ++ [⟨label, kept.map Prod.snd, none, url⟩]
      seenNames := seen }

/-- The state before the loop. -/
def Gathered.start (nodes : List Node) : Gathered where
  extraProxies := []
  sources := []
  seenNames := nodes.map Node.name
  seenSlugs := fun _ => 0

/-- The proxies of one source: its clash configuration, else its converted URLs. -/
def sourceProxies (net : Net) (label url : Str) : Prog (List (Str × Str)) := do
  let proxies ← fetchClashProxies net url label
  if proxies = [] then uriClashProxies net url label else return proxies

/-- The source loop of `build_clash`. -/
def gather (net : Net) : List (Str × Str) → Gathered → Prog Gathered
  | [], g => return g
  | (label, url) :: rest, g => do
      let proxies ← sourceProxies net label url
      gather net rest (g.add label url proxies)

/-! ### The clash document -/

/-- A proxy group: the lines that give its type, the providers it uses and the
names it lists. -/
structure Group where
  name : Str
  kind : Str
  use : List Str
  members : List Str

/-- The content of a generated `clash.yaml`: the fallback providers (slug and URL),
the proxies (name and text), and the groups. -/
structure ClashDoc where
  providers : List (Str × Str)
  proxies : List (Str × Str)
  groups : List Group

/-- The type line of a select group. -/
def selectKind : Str := "    type: select\n".toList

/-- The type lines of the Auto group. -/
def urlTestKind : Str :=
  "    type: url-test\n    url: http://www.gstatic.com/generate_204\n    interval: 300\n".toList

/-- The group of one source. -/
def Source.group (s : Source) : Group := ⟨s.label, selectKind, s.slug.toList, s.names⟩

/-- The document `build_clash` writes for its own nodes and the gathered sources: the groups Proxy,
Auto and Direct, and between the last two one for each source. -/
def clashDoc (nodes : List Node) (g : Gathered) : ClashDoc :=
  let ownNames := nodes.map Node.name
  let slugs := g.sources.filterMap Source.slug
  { providers := g.sources.filterMap fun s => s.slug.map fun slug => (slug, s.url)
    proxies := nodes.map (fun n => (n.name, n.clashProxy)) ++ g.extraProxies.map Prod.swap
    groups :=
      [⟨"Proxy".toList, selectKind, [],
          ["Auto".toList] ++ ownNames ++ g.sources.map Source.label ++ ["DIRECT".toList]⟩,
        ⟨"Auto".toList, urlTestKind, slugs, ownNames ++ g.sources.flatMap Source.names⟩] ++
      g.sources.map Source.group ++
      [⟨"Direct".toList, selectKind, [], ["DIRECT".toList, "Proxy".toList]⟩] }

/-- A group as text: a list it does not have is left out. The names are written between double
quotes without escapes. -/
def Group.render (g : Group) : Str :=
  "  - name: \"".toList ++ g.name ++ "\"\n".toList ++ g.kind ++
    (if g.use = [] then []
      else "    use:\n".toList ++ g.use.flatMap fun s => "      - ".toList ++ s ++ ['\n']) ++
    (if g.members = [] then []
      else "    proxies:\n".toList ++
        g.members.flatMap fun m => "      - \"".toList ++ m ++ "\"\n".toList) ++ ['\n']

/-- A fallback provider as text. -/
def renderProvider (slug url : Str) : Str :=
  "  ".toList ++ slug ++ ":\n    type: http\n    url: \"".toList ++ url ++
    "\"\n    interval: 3600\n    path: ./providers/".toList ++ slug ++
    ".yaml\n    header:\n      User-Agent:\n        - \"".toList ++ providerFetchUA ++
    "\"\n    health-check:\n      enable: true\n".toList ++
    "      url: http://www.gstatic.com/generate_204\n      interval: 300".toList

/-- `CLASH_HEADER.format(generated=now)`. -/
def clashHeader (now : Str) : Str :=
  "# Generated by vless_subs.py on ".toList ++ now ++ " - do not edit by hand.\n".toList ++
    "mixed-port: 7890\nallow-lan: false\nmode: rule\nlog-level: warning\n\n".toList ++
    "dns:\n  enable: true\n  nameserver:\n    - 223.5.5.5\n    - 119.29.29.29\n".toList ++
    "  fallback:\n    - 8.8.8.8\n    - 1.1.1.1\n".toList

/-- `CLASH_RULES`. -/
def clashRules : Str :=
  ("rules:\n  - GEOIP,private,DIRECT,no-resolve\n  - GEOSITE,cn,Direct\n" ++
    "  - GEOIP,CN,Direct\n  - MATCH,Proxy\n").toList

/-- The `proxies:` section around its entries. -/
def proxiesSection (body : Str) : Str :=
  if body = [] then "proxies: []\n\n".toList
  else "proxies:\n".toList ++ body ++ "\n\n".toList

/-- The text of the document. -/
def ClashDoc.render (now : Str) (d : ClashDoc) : Str :=
  clashHeader now ++ ['\n'] ++
    (if d.providers = [] then []
      else "proxy-providers:\n".toList ++
        List.intercalate ['\n'] (d.providers.map fun p => renderProvider p.1 p.2) ++
        "\n\n".toList) ++
    proxiesSection (List.intercalate ['\n'] (d.proxies.map Prod.snd)) ++
    "proxy-groups:\n".toList ++ d.groups.flatMap Group.render ++ clashRules

/-- `build_clash(nodes, extra_subs)`. -/
def buildClash (net : Net) (nodes : List Node) (extraSubs : List (Str × Str)) : Prog Str := do
  let g ← gather net extraSubs (Gathered.start nodes)
  return (clashDoc nodes g).render net.now

/-! ### `gen` -/

/-- The path of `out/base64.txt`. -/
def base64Path (site : Site) : Path := site.outDir ++ ["base64.txt".toList]

/-- The path of `out/clash.yaml`. -/
def clashPath (site : Site) : Path := site.outDir ++ ["clash.yaml".toList]

/-- `[parse_extra_sub(s) for s in ..]`. -/
def parseExtraSubs : List Str → Except Exit (List (Str × Str))
  | [] => .ok []
  | spec :: specs => do
      let p ← parseExtraSub spec
      let ps ← parseExtraSubs specs
      return p :: ps

/-- The message for an empty registry. -/
def noNodesMsg : Str := "No nodes registered. Add one first: vless_subs.py add <ssh-target>".toList

/-- `cmd_gen(args)`. The base64 file is written before the clash file is built, so an error in
between leaves the two apart. -/
def cmdGen (site : Site) (net : Net) (extraSub : List Str) : Prog (List Node) := do
  let extraSubs ← check (parseExtraSubs extraSub)
  let nodes ← loadNodes site
  if nodes = [] ∧ extraSubs = [] then throw (.die noNodesMsg)
  else
    mkOutDir
    writeText site (base64Path site) (← buildBase64 net nodes extraSubs)
    writeText site (clashPath site) (← buildClash net nodes extraSubs)
    return nodes

end

/-! ### What the outputs hold -/

theorem decode_encodeUrls (urls : List Str) :
    (b64decode (encodeUrls urls)).bind decode = some (List.intercalate ['\n'] urls) := by
  rw [encodeUrls, b64decode_b64encode, Option.bind_some, decode_encode]

/-- The clash text holds the block of every own node: it is one of the proxies that are joined, and
the section they are in is part of the text. -/
theorem infix_render {ns : List Node} {n : Node} (hn : n ∈ ns) (g : Gathered) (now : Str) :
    n.clashProxy <:+: (clashDoc ns g).render now := by
  have hmem : n.clashProxy ∈ (clashDoc ns g).proxies.map Prod.snd := by
    rw [clashDoc, List.map_append, List.mem_append, List.map_map]
    exact Or.inl (List.mem_map_of_mem hn)
  have hsection : n.clashProxy <:+:
      proxiesSection (List.intercalate ['\n'] ((clashDoc ns g).proxies.map Prod.snd)) := by
    have hbody := infix_intercalate ['\n'] hmem
    unfold proxiesSection
    split_ifs with h0
    · rw [h0, List.infix_nil] at hbody
      rw [hbody]
      exact List.nil_infix
    · exact List.infix_append_of_infix_left (List.infix_append_of_infix_right hbody)
  unfold ClashDoc.render
  refine List.infix_append_of_infix_left (List.infix_append_of_infix_left
    (List.infix_append_of_infix_left (List.infix_append_of_infix_right hsection)))

theorem clashPath_ne_base64Path (site : Site) : clashPath site ≠ base64Path site := by
  intro h
  rw [clashPath, base64Path, List.append_cancel_left_eq] at h
  exact absurd h (by decide)

/-! ### Runs of `gen` -/

section

variable {site : Site} {w : World}

theorem target_out {f : Str} (hdir : w.outDir = true) (hf : f ≠ ['.', '.']) (hnul : '\x00' ∉ f) :
    w.target site (site.outDir ++ [f]) = some (site.outDir ++ [f]) := by
  have hout : site.outDir ++ [f] = site.home ++ ["out".toList, f] := by
    rw [Site.outDir, List.append_assoc]
    rfl
  rw [hout]
  exact target_entry (by decide) (isDir_outDir.trans hdir) hf hnul

theorem run_write_base64 (hdir : w.outDir = true) (text : Str) :
    (writeText site (base64Path site) text).run w =
      .ok () (w.write (base64Path site) text) := by
  have ht : w.target site (base64Path site) = some (base64Path site) :=
    target_out hdir (by decide) (by decide)
  rw [run_writeText, ht]

theorem run_write_clash (hdir : w.outDir = true) (text : Str) :
    (writeText site (clashPath site) text).run w =
      .ok () (w.write (clashPath site) text) := by
  have ht : w.target site (clashPath site) = some (clashPath site) :=
    target_out hdir (by decide) (by decide)
  rw [run_writeText, ht]

/-- The world after both outputs have been written. -/
def World.generated (site : Site) (w : World) (b64 clash : Str) : World :=
  ({ w with nodesDir := true, outDir := true }.write (base64Path site) b64).write
    (clashPath site) clash

variable [UnicodeData]

/-- The clash text for own nodes alone. -/
def ownClash (net : Net) (nodes : List Node) : Str :=
  (clashDoc nodes (Gathered.start nodes)).render net.now

theorem run_cmdGen_error {net : Net} {e : Exit} (h : w.nodes site = .error e) :
    (cmdGen site net []).run w = .error e { w with nodesDir := true } := by
  have hload : (loadNodes site).run w = .error e { w with nodesDir := true } := by
    rw [run_loadNodes, h]
  rw [cmdGen, parseExtraSubs, run_bind_of_ok (run_check_ok _ _), run_bind_of_error hload]

theorem run_cmdGen_empty {net : Net} (h : w.nodes site = .ok []) :
    (cmdGen site net []).run w = .error (.die noNodesMsg) { w with nodesDir := true } := by
  have hload : (loadNodes site).run w = .ok [] { w with nodesDir := true } := by
    rw [run_loadNodes, h]
  rw [cmdGen, parseExtraSubs, run_bind_of_ok (run_check_ok _ _), run_bind_of_ok hload,
    if_pos ⟨rfl, rfl⟩]
  rfl

/-- A regeneration writes both files from the loaded nodes. Without extra subscriptions nothing is
fetched, so neither text depends on the world. -/
theorem run_cmdGen_nodes {net : Net} {ns : List Node} (h : w.nodes site = .ok ns) (hne : ns ≠ []) :
    (cmdGen site net []).run w =
      .ok ns (w.generated site (encodeUrls (ns.map Node.url)) (ownClash net ns)) := by
  have hload : (loadNodes site).run w = .ok ns { w with nodesDir := true } := by
    rw [run_loadNodes, h]
  have hb64 : ∀ v : World, (buildBase64 net ns []).run v = .ok (encodeUrls (ns.map Node.url)) v := by
    intro v
    simp [buildBase64, extraUrls]
  have hclash : ∀ v : World, (buildClash net ns []).run v = .ok (ownClash net ns) v := fun _ => rfl
  rw [cmdGen, parseExtraSubs, run_bind_of_ok (run_check_ok _ _), run_bind_of_ok hload,
    if_neg (fun h => hne h.1), mkOutDir, run_bind_of_ok (EStateM.run_modify _ _),
    run_bind_of_ok (hb64 _), run_bind_of_ok (run_write_base64 rfl _), run_bind_of_ok (hclash _),
    run_bind_of_ok (run_write_clash rfl _)]
  rfl

end

end BlogStuff.VlessSubs
