import BlogStuff.VlessSubs.Commands

/-!
# BlogStuff.VlessSubs.Conf

The conf files as a data format: what `save_node` writes, `load_nodes` reads back.

`confText` puts the SSH target before the URL, and the last assignment to a key
counts. So the URL survives any SSH text (`confNode_saved_url`), while the SSH
target survives, trimmed, when it is one line (`confNode_saved`). The file a node
is stored in is found again by its name as long as the name is one path component
(`target_conf`).
-/

namespace BlogStuff.VlessSubs

open BlogStuff.Python

/-! ### Reading assignments -/

theorem confData_append (a b : Str) :
    confData (a ++ '\n' :: b) = confData (a ++ ['\n']) ++ confData b := by
  rw [confData, splitlines_append, List.filterMap_append]
  rfl

theorem confData_line {l : Str} (hl : OneLine l) : confData (l ++ ['\n']) = (confLine l).toList := by
  rw [confData, splitlines_append_newline hl]
  cases h : confLine l <;> simp [splitlines, h]

theorem confLine_assign {c : Char} {k v : Str} (hc : isSpace c = false) (hh : c ≠ '#')
    (hk : '=' ∉ c :: k) (hs : Stripped (c :: k)) :
    confLine (c :: k ++ '=' :: v) = some (c :: k, strip v) := by
  have hstrip : strip (c :: k ++ '=' :: v) = c :: k ++ '=' :: rstrip v := by
    rw [strip, List.cons_append, lstrip_cons hc, ← List.cons_append]
    exact rstrip_append_cons (by decide)
  have hstart : startswith (c :: k ++ '=' :: rstrip v) ['#'] = false := by
    rw [← Bool.not_eq_true, startswith_iff]
    rintro ⟨t, ht⟩
    exact hh (List.cons.inj ht).1
  have hpart := partition_append hk (rstrip v)
  simp only [confLine, hstrip, hstart, hpart, strip_rstrip]
  simp [show strip (c :: k) = c :: k from hs]

theorem confLine_url (v : Str) : confLine ("URL=".toList ++ v) = some ("URL".toList, strip v) :=
  confLine_assign (c := 'U') (k := ['R', 'L']) (by decide) (by decide) (by decide) (by decide)

theorem confLine_ssh (v : Str) : confLine ("SSH=".toList ++ v) = some ("SSH".toList, strip v) :=
  confLine_assign (c := 'S') (k := ['S', 'H']) (by decide) (by decide) (by decide) (by decide)

/-- The assignments of a saved conf file, whatever the SSH text is. -/
theorem confData_confText {n : Node} (hu : OneLine n.url) :
    ∃ data, confData (confText n) = data ++ [("URL".toList, strip n.url)] := by
  have hline : OneLine ("URL=".toList ++ n.url) := oneLine_append.mpr ⟨by decide, hu⟩
  refine ⟨confData (confHeader ++ '\n' :: ("SSH=".toList ++ n.ssh) ++ ['\n']), ?_⟩
  rw [confText, List.append_assoc, List.cons_append, confData_append, confData_line hline,
    confLine_url]
  rfl

/-- The assignments of a saved conf file, part by part. -/
theorem confData_parts (n : Node) : confData (confText n) =
    confData ("SSH=".toList ++ n.ssh ++ ['\n']) ++ confData ("URL=".toList ++ n.url ++ ['\n']) := by
  have htext : confText n = confHeader ++ '\n' :: (("SSH=".toList ++ n.ssh) ++
      '\n' :: (("URL=".toList ++ n.url) ++ ['\n'])) := by
    rw [confText, List.append_assoc, List.append_assoc]
    rfl
  have hhead : confData (confHeader ++ ['\n']) = [] := by decide
  rw [htext, confData_append, hhead, confData_append]
  rfl

theorem confData_confText_ssh {n : Node} (hu : OneLine n.url) (hs : OneLine n.ssh) :
    confData (confText n) = [("SSH".toList, strip n.ssh), ("URL".toList, strip n.url)] := by
  have hssh : OneLine ("SSH=".toList ++ n.ssh) := oneLine_append.mpr ⟨by decide, hs⟩
  have hurl : OneLine ("URL=".toList ++ n.url) := oneLine_append.mpr ⟨by decide, hu⟩
  rw [confData_parts, confData_line hssh, confLine_ssh, confData_line hurl, confLine_url]
  rfl

theorem dataGet_concat (data : List (Str × Str)) (k v : Str) : dataGet (data ++ [(k, v)]) k = v := by
  simp [dataGet]

theorem confLine_value {line : Str} {kv : Str × Str} (h : confLine line = some kv)
    (hl : OneLine line) : OneLine kv.2 := by
  simp only [confLine, Option.ite_none_left_eq_some, Option.some.injEq] at h
  obtain ⟨-, rfl⟩ := h
  exact fun c hc => hl c (mem_strip (mem_partition_right (mem_strip hc)))

theorem oneLine_dataGet (text key : Str) : OneLine (dataGet (confData text) key) := by
  cases h : (confData text).reverse.lookup key with
  | none =>
      rw [dataGet, h]
      exact fun c hc => absurd hc (by simp)
  | some v =>
      obtain ⟨l₁, l₂, hl, -⟩ := List.lookup_eq_some_iff.mp h
      have hmem : (key, v) ∈ confData text := by
        rw [← List.mem_reverse, hl]
        simp
      obtain ⟨line, hline, hkv⟩ := List.mem_filterMap.mp hmem
      rw [dataGet, h]
      exact confLine_value hkv (oneLine_of_mem_splitlines hline)

/-! ### Saved nodes -/

theorem Node.url_ne_nil {n : Node} (h : startswith n.url vlessScheme = true) : n.url ≠ [] := by
  intro h0
  rw [h0] at h
  exact absurd h (by decide)

section

variable [UnicodeData]

/-- A saved node is read back from its own URL, whatever its SSH text does. -/
theorem confNode_saved_url {u s : Str} {n : Node} (h : Node.init u s = .ok n) (hu : OneLine n.url)
    (ssh : Str) :
    confNode (confText (n.withSsh ssh)) = .ok (some (n.withSsh
      (strip (dataGet (confData (confText (n.withSsh ssh))) "SSH".toList)))) := by
  obtain ⟨hurl, -, hscheme⟩ := Node.init_url h
  obtain ⟨data, hdata⟩ := confData_confText (n := n.withSsh ssh) hu
  have hget : dataGet (confData (confText (n.withSsh ssh))) "URL".toList = n.url := by
    rw [hdata, dataGet_concat, Node.withSsh_url, hurl, strip_idem]
  rw [confNode]
  simp only [hget, if_neg (Node.url_ne_nil hscheme), Node.init_again h]
  rfl

/-- **Conf files read back.** With a one-line SSH target a saved node is read back
as it was, the target trimmed. -/
theorem confNode_saved {u s : Str} {n : Node} (h : Node.init u s = .ok n) (hu : OneLine n.url)
    {ssh : Str} (hs : OneLine ssh) :
    confNode (confText (n.withSsh ssh)) = .ok (some (n.withSsh (strip ssh))) := by
  have hget : dataGet (confData (confText (n.withSsh ssh))) "SSH".toList = strip ssh := by
    rw [confData_confText_ssh (n := n.withSsh ssh) hu hs]
    rfl
  rw [confNode_saved_url h hu, hget, strip_idem]

theorem Node.oneLine_server {u s : Str} {n : Node} (h : Node.init u s = .ok n) (hu : OneLine u) :
    OneLine n.server := by
  obtain ⟨-, parts, port, hparts, -, rfl, -⟩ := Node.parse_inv h
  obtain rfl := urlsplit_inv hparts
  intro c hc
  by_contra hb
  have hb' : isLineBreak c = true := by simpa using hb
  have hmem := mem_strip (mem_netloc (mem_hostname (isSpace_of_isLineBreak hb') hc))
  exact absurd (hu c hmem) hb

theorem oneLine_rootAt {u s : Str} {n : Node} (h : Node.init u s = .ok n) (hu : OneLine u) :
    OneLine (rootAt n) :=
  oneLine_append.mpr ⟨by decide, Node.oneLine_server h hu⟩

/-! ### Loaded nodes -/

theorem confNode_inv {text : Str} {n : Node} (h : confNode text = .ok (some n)) :
    Node.init (dataGet (confData text) "URL".toList) (dataGet (confData text) "SSH".toList) =
      .ok n := by
  rw [confNode] at h
  split_ifs at h with h0
  · cases h
  cases hn : Node.init (dataGet (confData text) "URL".toList)
      (dataGet (confData text) "SSH".toList) with
  | error e => rw [hn] at h; cases h
  | ok m =>
      rw [hn] at h
      obtain rfl : m = n := Option.some.inj (Except.ok.inj h)
      rfl

theorem oneLine_of_confNode {text : Str} {n : Node} (h : confNode text = .ok (some n)) :
    OneLine n.url ∧ OneLine n.ssh := by
  obtain ⟨hu, hs, -⟩ := Node.init_url (confNode_inv h)
  rw [hu, hs]
  exact ⟨oneLine_strip (oneLine_dataGet _ _), oneLine_strip (oneLine_dataGet _ _)⟩

/-! ### The loop of `load_nodes` -/

theorem confNodes_cons_ok {text : Str} {texts : List Str} {ns : List Node} :
    confNodes (text :: texts) = .ok ns ↔
      ∃ r ms, confNode text = .ok r ∧ confNodes texts = .ok ms ∧ ns = r.toList ++ ms := by
  rw [confNodes]
  cases confNode text with
  | error e => simp [bind, Except.bind]
  | ok r =>
      cases confNodes texts with
      | error e => simp [bind, Except.bind]
      | ok ms => simp [bind, Except.bind, pure, Except.pure, eq_comm]

/-- Loading succeeds exactly when every conf file does. -/
theorem confNodes_isOk {texts : List Str} :
    (∃ ns, confNodes texts = .ok ns) ↔ ∀ t ∈ texts, ∃ r, confNode t = .ok r := by
  induction texts with
  | nil => simp [confNodes]
  | cons text texts ih =>
      rw [List.forall_mem_cons, ← ih]
      constructor
      · rintro ⟨ns, h⟩
        obtain ⟨r, ms, hr, hms, -⟩ := confNodes_cons_ok.mp h
        exact ⟨⟨r, hr⟩, ms, hms⟩
      · rintro ⟨⟨r, hr⟩, ms, hms⟩
        exact ⟨r.toList ++ ms, confNodes_cons_ok.mpr ⟨r, ms, hr, hms, rfl⟩⟩

/-- The loaded nodes are those of the conf files. -/
theorem mem_confNodes {texts : List Str} {ns : List Node} (h : confNodes texts = .ok ns) {n : Node} :
    n ∈ ns ↔ ∃ t ∈ texts, confNode t = .ok (some n) := by
  induction texts generalizing ns with
  | nil =>
      obtain rfl := Except.ok.inj h
      simp
  | cons text texts ih =>
      obtain ⟨r, ms, hr, hms, rfl⟩ := confNodes_cons_ok.mp h
      rw [List.mem_append, ih hms, Option.mem_toList]
      simp [hr]

end

/-! ### The files in `NODES_DIR` -/

section

variable {site : Site} {w : World}

theorem nodesDir_append (f : Str) : site.nodesDir ++ [f] = site.home ++ ["nodes".toList, f] := by
  rw [Site.nodesDir, List.append_assoc]
  rfl

/-- What the glob makes of one file: it takes those directly in the directory of the nodes whose
name has the suffix. -/
theorem confEntry_eq_some {p : Path} {text : Str} {c : Str × Str} :
    (if p.dropLast = site.nodesDir ∧ endswith (p.getLastD []) confSuffix then
      some (p.getLastD [], text) else none) = some c ↔
    p = site.nodesDir ++ [c.1] ∧ text = c.2 ∧ endswith c.1 confSuffix = true := by
  obtain ⟨f, t⟩ := c
  simp only [Option.ite_none_right_eq_some, Option.some.injEq, Prod.mk.injEq]
  constructor
  · rintro ⟨⟨hdir, hsuf⟩, rfl, rfl⟩
    have hp : p ≠ [] := by
      rintro rfl
      simp [Site.nodesDir] at hdir
    refine ⟨?_, rfl, hsuf⟩
    rw [← hdir, List.getLastD_eq_getLast?, List.getLast?_eq_some_getLast hp]
    exact (List.dropLast_append_getLast hp).symm
  · rintro ⟨rfl, rfl, hsuf⟩
    simp [hsuf]

theorem mem_confs {c : Str × Str} : c ∈ w.confs site ↔
    w.read (site.nodesDir ++ [c.1]) = some c.2 ∧ endswith c.1 confSuffix = true := by
  rw [World.confs, List.mem_filterMap]
  constructor
  · rintro ⟨⟨p, text⟩, hmem, h⟩
    obtain ⟨rfl, rfl, hsuf⟩ := confEntry_eq_some.mp h
    exact ⟨Std.ExtTreeMap.mem_toList_iff_getElem?_eq_some.mp hmem, hsuf⟩
  · rintro ⟨hget, hsuf⟩
    exact ⟨(site.nodesDir ++ [c.1], c.2), Std.ExtTreeMap.mem_toList_iff_getElem?_eq_some.mpr hget,
      confEntry_eq_some.mpr ⟨rfl, rfl, hsuf⟩⟩

theorem nodup_confs : ((w.confs site).map Prod.fst).Nodup := by
  rw [List.Nodup, List.pairwise_map, World.confs, List.pairwise_filterMap]
  refine Std.ExtTreeMap.distinct_keys_toList.imp ?_
  intro a b hne c hc d hd hcd
  obtain ⟨ha, -, -⟩ := confEntry_eq_some.mp hc
  obtain ⟨hb, -, -⟩ := confEntry_eq_some.mp hd
  exact hne (by rw [ha, hb, hcd]; exact Std.ReflCmp.compare_self)

theorem sorted_confs : (w.confs site).Pairwise fun a b =>
    compare (site.nodesDir ++ [a.1]) (site.nodesDir ++ [b.1]) = .lt := by
  rw [World.confs, List.pairwise_filterMap]
  refine Std.ExtTreeMap.ordered_keys_toList.imp ?_
  intro a b hlt c hc d hd
  obtain ⟨ha, -, -⟩ := confEntry_eq_some.mp hc
  obtain ⟨hb, -, -⟩ := confEntry_eq_some.mp hd
  rwa [ha, hb] at hlt

theorem confs_congr {v : World}
    (h : ∀ f, v.read (site.nodesDir ++ [f]) = w.read (site.nodesDir ++ [f])) :
    v.confs site = w.confs site := by
  have hperm : (v.confs site).Perm (w.confs site) := by
    rw [List.perm_ext_iff_of_nodup (nodup_confs.of_map _) (nodup_confs.of_map _)]
    intro c
    rw [mem_confs, mem_confs, h]
  refine hperm.eq_of_pairwise ?_ sorted_confs sorted_confs
  intro a b _ _ hab hba
  exact absurd hba (Std.OrientedCmp.not_lt_of_lt hab)

/-! ### Node names as file names -/

/-- A name that is one path component: `name.conf` is then a file name. -/
def IsComponent (name : Str) : Prop := '/' ∉ name ∧ '\x00' ∉ name

instance (name : Str) : Decidable (IsComponent name) :=
  inferInstanceAs (Decidable ('/' ∉ name ∧ '\x00' ∉ name))

theorem endswith_confSuffix (name : Str) : endswith (name ++ confSuffix) confSuffix = true := by
  simp [endswith]

theorem confSuffix_cases {f : Str} (h : endswith f confSuffix = true) :
    ∃ name, f = name ++ confSuffix := by
  rw [endswith, List.isSuffixOf_iff_suffix] at h
  obtain ⟨name, h⟩ := h
  exact ⟨name, h.symm⟩

theorem confSuffix_ne {name : Str} {s : Str} (h : s.length < 5) : name ++ confSuffix ≠ s := by
  intro h0
  have := congrArg List.length h0
  rw [List.length_append, show confSuffix.length = 5 by decide] at this
  omega

/-- A name without a separator stays inside `NODES_DIR`. -/
theorem confPath_eq {name : Str} (h : '/' ∉ name) :
    confPath site name = site.nodesDir ++ [name ++ confSuffix] := by
  have hmem : '/' ∉ name ++ confSuffix := by
    rw [List.mem_append, not_or]
    exact ⟨h, by decide⟩
  have hstart : startswith (name ++ confSuffix) ['/'] = false := by
    rw [← Bool.not_eq_true, startswith_iff]
    rintro ⟨t, ht⟩
    exact hmem (by rw [ht]; simp)
  rw [confPath, joinPath, hstart,
    pathParts_of_not_mem hmem (confSuffix_ne (by decide)) (confSuffix_ne (by decide))]
  rfl

/-- Whatever the name, the last component of its conf path has the suffix. -/
theorem confPath_concat (site : Site) (name : Str) : ∃ d b, confPath site name = d ++ [b ++ confSuffix] := by
  rcases last_char '/' name with h | ⟨a, b, rfl, hb⟩
  · exact ⟨site.nodesDir, name, confPath_eq h⟩
  · have hmem : '/' ∉ b ++ confSuffix := by
      rw [List.mem_append, not_or]
      exact ⟨hb, by decide⟩
    have hparts : pathParts (a ++ '/' :: b ++ confSuffix) = pathParts a ++ [b ++ confSuffix] := by
      rw [List.append_assoc, List.cons_append]
      exact pathParts_append_slash hmem (confSuffix_ne (by decide)) (confSuffix_ne (by decide))
    rw [confPath, joinPath, hparts]
    split_ifs
    · exact ⟨pathParts a, b, rfl⟩
    · exact ⟨site.nodesDir ++ pathParts a, b, by rw [List.append_assoc]⟩

/-- Every conf file that is written has the suffix, wherever it lies. -/
theorem target_confPath {name : Str} {q : Path} (h : w.target site (confPath site name) = some q) :
    ∃ d b, q = d ++ [b ++ confSuffix] := by
  obtain ⟨d, b, hd⟩ := confPath_concat site name
  rw [World.target, Option.filter_eq_some_iff, hd] at h
  obtain ⟨e, rfl⟩ := walk_concat (confSuffix_ne (by decide)) h.1
  exact ⟨e, b, rfl⟩

theorem target_conf {name : Str} (h : IsComponent name) (hdir : w.nodesDir = true) :
    w.target site (confPath site name) = some (site.nodesDir ++ [name ++ confSuffix]) := by
  rw [confPath_eq h.1, nodesDir_append]
  refine target_entry (by decide) ?_ (confSuffix_ne (by decide)) ?_
  · exact isDir_nodesDir.trans hdir
  · rw [List.mem_append, not_or]
    exact ⟨h.2, by decide⟩

/-- The conf file of such a node exists when it is there. Without the directory the path does not
resolve; with it the file is found, and it is no directory itself. -/
theorem exists_conf {name : Str} (h : IsComponent name) :
    w.exists site (confPath site name) =
      (w.nodesDir && (w.read (site.nodesDir ++ [name ++ confSuffix])).isSome) := by
  cases hdir : w.nodesDir with
  | true =>
      have ht : w.target site (confPath site name) = some (site.nodesDir ++ [name ++ confSuffix]) :=
        target_conf h hdir
      rw [World.target, Option.filter_eq_some_iff] at ht
      obtain ⟨hres, hnot⟩ := ht
      have hnot' : w.isDir site (site.nodesDir ++ [name ++ confSuffix]) = false := by
        simpa using hnot
      simp [World.exists, hres, hnot']
  | false =>
      have hres : resolve (w.isDir site) (confPath site name) = none := by
        rw [confPath_eq h.1, nodesDir_append]
        exact target_of_not_dir (by decide) (isDir_nodesDir.trans hdir)
      simp [World.exists, hres]

/-- The world after a node has been saved under its own name. -/
def World.saved (site : Site) (w : World) (n : Node) : World :=
  { w with nodesDir := true }.write (site.nodesDir ++ [n.name ++ confSuffix]) (confText n)

theorem run_saveNode_component {n : Node} (h : IsComponent n.name) :
    (saveNode site n).run w = .ok () (w.saved site n) := by
  rw [run_saveNode, run_writeText, target_conf h rfl]
  rfl

/-- A registry of one node. -/
def smallWorld : World := emptyWorld.saved smallSite smallNode

/-- The text of `name.conf`. -/
def World.conf (site : Site) (w : World) (name : Str) : Option Str :=
  w.read (site.nodesDir ++ [name ++ confSuffix])

theorem confFile_inj {k name : Str} :
    site.nodesDir ++ [k ++ confSuffix] = site.nodesDir ++ [name ++ confSuffix] ↔ k = name := by
  simp

theorem out_ne_nodes (f g : Str) : site.outDir ++ [f] ≠ site.nodesDir ++ [g] := by
  intro h
  have h' := List.append_inj_left' h rfl
  rw [Site.outDir, Site.nodesDir, List.append_cancel_left_eq] at h'
  exact absurd h' (by decide)

theorem read_generated (b64 clash f : Str) :
    (w.generated site b64 clash).read (site.nodesDir ++ [f]) = w.read (site.nodesDir ++ [f]) := by
  rw [World.generated, World.read_write, World.read_write, clashPath, base64Path,
    if_neg (out_ne_nodes _ _), if_neg (out_ne_nodes _ _)]
  rfl

/-- No conf file is the base64 output, wherever it lies. -/
theorem conf_ne_base64Path {name : Str} {q : Path}
    (h : w.target site (confPath site name) = some q) : q ≠ base64Path site := by
  obtain ⟨d, b, rfl⟩ := target_confPath h
  intro heq
  obtain ⟨-, hlast⟩ := List.append_inj' heq rfl
  have hend := endswith_confSuffix b
  rw [(List.cons.inj hlast).1] at hend
  exact absurd hend (by decide)

end

end BlogStuff.VlessSubs
