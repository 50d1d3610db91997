import BlogStuff.VlessSubs.Confine

/-!
# BlogStuff.VlessSubs.Import

What `import` does to the conf files. The loop of `cmd_import` takes the lines of a
subscription one by one: it parses the line, then overwrites the conf file its name
denotes. Which file that is depends on the line and on the directories alone
(`importDest`), so a file ends up with the text of the last line that goes to it
(`LastWriter`).

* The loop stops at the first line that is no node or has no place to go; the files of
  the lines before it stay written (`import_error_unchanged_iff`).
* A successful import keeps a URL registered when a conf file holds it that no line
  overwrites, or when it is the last line for its file (`import_registers_iff`).
-/

namespace BlogStuff.VlessSubs

open BlogStuff.Python

/-! ### The loop -/

section

variable [UnicodeData] (site : Site)

/-- The file the loop writes for a line; `none` where it stops. -/
def importDest (w : World) (url : Str) : Option Path :=
  match Node.init url [] with
  | .error _ => none
  | .ok n => { w with nodesDir := true }.target site (confPath site n.name)

/-- The text it writes there. -/
def importText (ssh url : Str) : Str :=
  match Node.init url [] with
  | .error _ => []
  | .ok n => confText (importNode n ssh)

/-- The world after the lines have been written one by one; the directories are those
of `w`. -/
def imported (w : World) (ssh : Str) (v : World) : List Str → World
  | [] => v
  | url :: urls =>
      match importDest site w url with
      | some q => imported w ssh (v.write q (importText ssh url)) urls
      | none => imported w ssh v urls

end

section

variable [UnicodeData] {site : Site} {w v : World} {ssh : Str}

theorem importDest_congr (h : v.outDir = w.outDir) (url : Str) :
    importDest site v url = importDest site w url := by
  have hdir : World.isDir site { v with nodesDir := true } =
      World.isDir site { w with nodesDir := true } := by
    funext p
    simp only [World.isDir, h]
  simp only [importDest, World.target, hdir]

theorem imported_append (a b : List Str) :
    imported site w ssh v (a ++ b) = imported site w ssh (imported site w ssh v a) b := by
  induction a generalizing v with
  | nil => rfl
  | cons url a ih =>
      cases hd : importDest site w url with
      | none => simpa only [List.cons_append, imported, hd] using ih
      | some q => simpa only [List.cons_append, imported, hd] using ih

theorem imported_outDir (ssh : Str) (v : World) (urls : List Str) :
    (imported site w ssh v urls).outDir = v.outDir := by
  induction urls generalizing v with
  | nil => rfl
  | cons url urls ih =>
      cases hd : importDest site w url with
      | none =>
          simp only [imported, hd]
          exact ih v
      | some q =>
          simp only [imported, hd]
          exact ih (v.write q (importText ssh url))

theorem imported_nodesDir (ssh : Str) (v : World) (d : Bool) (urls : List Str) :
    { imported site w ssh v urls with nodesDir := d } =
      imported site w ssh { v with nodesDir := d } urls := by
  induction urls generalizing v with
  | nil => rfl
  | cons url urls ih =>
      cases hd : importDest site w url with
      | none =>
          simp only [imported, hd]
          exact ih v
      | some q =>
          simp only [imported, hd]
          exact ih (v.write q (importText ssh url))

/-- The loop gets past a line that has a place to go: the node is parsed, and its conf file is
written there. -/
theorem run_importLoop_cons {url : Str} {q : Path} (hv : v.outDir = w.outDir)
    (hd : importDest site w url = some q) (urls : List Str) :
    (importLoop site ssh (url :: urls)).run v =
      (importLoop site ssh urls).run ({ v with nodesDir := true }.write q (importText ssh url)) := by
  rw [← importDest_congr hv] at hd
  cases hn : Node.init url [] with
  | error e => simp [importDest, hn] at hd
  | ok n =>
      have htarget : { v with nodesDir := true }.target site (confPath site n.name) = some q := by
        simpa only [importDest, hn] using hd
      have hsave : (saveNode site (importNode n ssh)).run v =
          .ok () ({ v with nodesDir := true }.write q (importText ssh url)) := by
        have hname : (importNode n ssh).name = n.name := rfl
        simp only [run_saveNode, run_writeText, hname, htarget, importText, hn]
      rw [importLoop, hn, run_bind_of_ok (run_check_ok n v), run_bind_of_ok hsave]

/-- The loop writes the lines that have a place to go and continues behind them. Where a line goes
is read off the first world, since writing a conf changes no directory but that of the nodes. -/
theorem run_importLoop_append (ssh : Str) {pre : List Str}
    (hpre : ∀ u ∈ pre, (importDest site w u).isSome = true) (hv : v.outDir = w.outDir) (rest : List Str) :
    ∃ d, (importLoop site ssh (pre ++ rest)).run v =
      (importLoop site ssh rest).run (imported site w ssh { v with nodesDir := d } pre) := by
  induction pre generalizing v with
  | nil => exact ⟨v.nodesDir, rfl⟩
  | cons url pre ih =>
      obtain ⟨q, hd⟩ := Option.isSome_iff_exists.mp (hpre url (by simp))
      obtain ⟨d, hrun⟩ := ih (v := { v with nodesDir := true }.write q (importText ssh url))
        (fun u hu => hpre u (by simp [hu])) hv
      refine ⟨d, ?_⟩
      rw [List.cons_append, run_importLoop_cons hv hd, hrun]
      simp only [imported, hd]
      rfl

/-- It stops at a line that has none, and writes nothing for it: the line is not parsed, or the name
it has cannot be written to. What came before stays written. -/
theorem run_importLoop_stop {bad : Str} (hbad : importDest site w bad = none)
    (hv : v.outDir = w.outDir) (post : List Str) :
    ∃ e d, (importLoop site ssh (bad :: post)).run v = .error e { v with nodesDir := d } := by
  rw [← importDest_congr hv] at hbad
  cases hn : Node.init bad [] with
  | error e =>
      refine ⟨e, v.nodesDir, ?_⟩
      rw [importLoop, hn, run_bind_of_error (run_check_error e v)]
  | ok n =>
      have htarget : { v with nodesDir := true }.target site (confPath site n.name) = none := by
        simpa only [importDest, hn] using hbad
      have hsave : (saveNode site (importNode n ssh)).run v =
          .error .os { v with nodesDir := true } := by
        have hname : (importNode n ssh).name = n.name := rfl
        simp only [run_saveNode, run_writeText, hname, htarget]
      refine ⟨.os, true, ?_⟩
      rw [importLoop, hn, run_bind_of_ok (run_check_ok n v), run_bind_of_error hsave]

/-- Either every line has a place to go, or there is a first that has none. -/
theorem importDest_cases (site : Site) (w : World) (urls : List Str) :
    (∀ u ∈ urls, (importDest site w u).isSome = true) ∨
      ∃ pre bad post, urls = pre ++ bad :: post ∧
        (∀ u ∈ pre, (importDest site w u).isSome = true) ∧ importDest site w bad = none := by
  induction urls with
  | nil => exact Or.inl (by simp)
  | cons url urls ih =>
      cases hd : importDest site w url with
      | none => exact Or.inr ⟨[], url, urls, rfl, by simp, hd⟩
      | some q =>
          have hsome : (importDest site w url).isSome = true := by simp [hd]
          rcases ih with h | ⟨pre, bad, post, rfl, hpre, hbad⟩
          · exact Or.inl (List.forall_mem_cons.mpr ⟨hsome, h⟩)
          · exact Or.inr ⟨url :: pre, bad, post, rfl, List.forall_mem_cons.mpr ⟨hsome, hpre⟩, hbad⟩

/-- **All the loop can do**: write every line, or write the lines before the first that
has no place to go and stop there. -/
theorem importLoop_cases (ssh : Str) (hv : v.outDir = w.outDir) (urls : List Str) :
    (∃ d, (∀ u ∈ urls, (importDest site w u).isSome = true) ∧
        (importLoop site ssh urls).run v =
          .ok () (imported site w ssh { v with nodesDir := d } urls)) ∨
      ∃ pre bad post e d, urls = pre ++ bad :: post ∧
        (∀ u ∈ pre, (importDest site w u).isSome = true) ∧ importDest site w bad = none ∧
        (importLoop site ssh urls).run v =
          .error e (imported site w ssh { v with nodesDir := d } pre) := by
  rcases importDest_cases site w urls with h | ⟨pre, bad, post, rfl, hpre, hbad⟩
  · obtain ⟨d, hrun⟩ := run_importLoop_append ssh h hv []
    rw [List.append_nil] at hrun
    exact Or.inl ⟨d, h, hrun⟩
  · obtain ⟨d, hrun⟩ := run_importLoop_append ssh hpre hv (bad :: post)
    obtain ⟨e, d', hstop⟩ := run_importLoop_stop hbad
      ((imported_outDir ssh { v with nodesDir := d } pre).trans hv) post
    refine Or.inr ⟨pre, bad, post, e, d', rfl, hpre, hbad, ?_⟩
    rw [hrun, hstop, imported_nodesDir]

/-! ### What the files hold afterwards -/

/-- The last of the lines that go to a file. -/
def LastWriter (site : Site) (w : World) (urls : List Str) (p : Path) (url : Str) : Prop :=
  ∃ pre post, urls = pre ++ url :: post ∧ importDest site w url = some p ∧
    ∀ u ∈ post, importDest site w u ≠ some p

theorem read_imported_of_none {urls : List Str} {p : Path}
    (h : ∀ u ∈ urls, importDest site w u ≠ some p) :
    (imported site w ssh v urls).read p = v.read p := by
  induction urls generalizing v with
  | nil => rfl
  | cons url urls ih =>
      obtain ⟨hne, hrest⟩ := List.forall_mem_cons.mp h
      cases hd : importDest site w url with
      | none =>
          simp only [imported, hd]
          exact ih hrest
      | some q =>
          have hqp : q ≠ p := fun e => hne (by rw [hd, e])
          simp only [imported, hd]
          rw [ih hrest, World.read_write, if_neg hqp]

theorem read_imported_of_last {urls : List Str} {p : Path} {url : Str}
    (h : LastWriter site w urls p url) :
    (imported site w ssh v urls).read p = some (importText ssh url) := by
  obtain ⟨pre, post, rfl, hd, hpost⟩ := h
  rw [imported_append]
  simp only [imported, hd]
  rw [read_imported_of_none hpost, World.read_write, if_pos rfl]

/-- A file some line goes to has a last writer. -/
theorem lastWriter_or (site : Site) (w : World) (urls : List Str) (p : Path) :
    (∃ url, LastWriter site w urls p url) ∨ ∀ u ∈ urls, importDest site w u ≠ some p := by
  induction urls with
  | nil => exact Or.inr (by simp)
  | cons url urls ih =>
      rcases ih with ⟨u, pre, post, rfl, hd, hpost⟩ | hnone
      · exact Or.inl ⟨u, url :: pre, post, rfl, hd, hpost⟩
      · by_cases hd : importDest site w url = some p
        · exact Or.inl ⟨url, [], urls, rfl, hd, hnone⟩
        · exact Or.inr (List.forall_mem_cons.mpr ⟨hd, hnone⟩)

theorem confUrl_importText {url : Str} {p : Path} (hu : OneLine url) (hs : Stripped url)
    (hd : importDest site w url = some p) : confUrl (importText ssh url) = some url := by
  cases hn : Node.init url [] with
  | error e => simp [importDest, hn] at hd
  | ok n =>
      have hurl : n.url = url := (Node.init_url hn).1.trans hs
      simp only [importText, hn]
      rw [← hurl]
      exact (confUrl_confText hn (pyOr ssh (rootAt n))).mpr (hurl ▸ hu)

theorem importDest_suffix {url : Str} {p : Path} (hd : importDest site w url = some p) :
    ∃ d b, p = d ++ [b ++ confSuffix] := by
  cases hn : Node.init url [] with
  | error e => simp [importDest, hn] at hd
  | ok n =>
      simp only [importDest, hn] at hd
      exact target_confPath hd

/-! ### The command -/

/-- Once its lines are fetched, and `--ssh` is no obstacle, the command is the loop
followed by a regeneration. -/
theorem run_cmdImport {net : Net} {url : Str} {urls : List Str}
    (hf : fetchedUrls net w.requests url = some urls) (hssh : ¬ (ssh ≠ [] ∧ urls.length > 1)) :
    (cmdImport site net url ssh).run w =
      (do importLoop site ssh urls; afterChange site net : Prog Unit).run
        { w with requests := w.requests + 1 } := by
  rw [cmdImport, run_bind_of_ok (run_fetchSubUrls hf), if_neg hssh]

/-- **An import that stops at a bad line.** If `Node` accepts the lines before it, their
conf files can be written and it is rejected, the command fails with the error of
`Node`; the files are then those before the command exactly when each file that was
written, with what the last line for it put there, held that text already. -/
theorem import_error_unchanged_iff {net : Net} {url : Str} {pre post : List Str} {bad : Str} {e : Exit}
    (hf : fetchedUrls net w.requests url = some (pre ++ bad :: post))
    (hssh : ¬ (ssh ≠ [] ∧ (pre ++ bad :: post).length > 1))
    (hpre : ∀ u ∈ pre, (importDest site w u).isSome = true) (hbad : Node.init bad [] = .error e) :
    ∃ w', (cmdImport site net url ssh).run w = .error e w' ∧
      ((∀ p, w'.read p = w.read p) ↔
        ∀ p u, LastWriter site w pre p u → w.read p = some (importText ssh u)) := by
  obtain ⟨d, hloop⟩ := run_importLoop_append (v := { w with requests := w.requests + 1 })
    ssh hpre rfl (bad :: post)
  refine ⟨imported site w ssh { w with requests := w.requests + 1, nodesDir := d } pre, ?_, ?_⟩
  · have hstop : ∀ v, (importLoop site ssh (bad :: post)).run v = .error e v := by
      intro v
      rw [importLoop, hbad, run_bind_of_error (run_check_error e v)]
    rw [run_cmdImport hf hssh, run_bind_of_error (hloop.trans (hstop _))]
  · constructor
    · intro hsame p u hlast
      rw [← hsame p, read_imported_of_last hlast]
    · intro hcond p
      rcases lastWriter_or site w pre p with ⟨u, hlast⟩ | hnone
      · rw [read_imported_of_last hlast, hcond p u hlast]
      · rw [read_imported_of_none hnone]
        rfl

end

section

attribute [local instance] asciiData

/-- A node, and a line without a user. -/
def brokenBody : Str := smallUrl ++ "\nvless://h?pbk=k#m".toList

/-- The good line before the bad one is new here, so the files have changed. -/
theorem import_error_unchanged_small :
    ∃ w', (cmdImport smallSite (serving brokenBody) "http://e".toList []).run emptyWorld =
        .error (.die (missingMsg "vless://h?pbk=k#m".toList)) w' ∧
      ((∀ p, w'.read p = emptyWorld.read p) ↔
        ∀ p u, LastWriter smallSite emptyWorld [smallUrl] p u →
          emptyWorld.read p = some (importText [] u)) :=
  have hf : fetchedUrls (serving brokenBody) 0 "http://e".toList =
      some ([smallUrl] ++ ["vless://h?pbk=k#m".toList]) := by
    decide
  import_error_unchanged_iff hf (by simp) (by decide) (by decide)

/-- The import of a body with a bad second line stops with an error and leaves the first
line registered. -/
theorem import_error_leaves_file :
    exitOf ((cmdImport smallSite (serving brokenBody) "http://e".toList []).run emptyWorld) =
        some (.die (missingMsg "vless://h?pbk=k#m".toList)) ∧
      emptyWorld.conf smallSite "n".toList = none ∧
      (after ((cmdImport smallSite (serving brokenBody) "http://e".toList []).run emptyWorld)).conf
        smallSite "n".toList = some (confText smallNode) := by
  decide +kernel

end

/-! ### Registered URLs -/

section

variable [UnicodeData] {site : Site} {w v : World} {ssh : Str}

/-- After the lines have been imported there is a conf file for the URL: one that held it
before and that no line goes to, or one it goes to as the last line. -/
def KeepsConf (site : Site) (w : World) (urls : List Str) (url : Str) : Prop :=
  (∃ c ∈ w.confs site, confUrl c.2 = some url ∧
      ∀ u ∈ urls, importDest site w u ≠ some (site.nodesDir ++ [c.1])) ∨
    ∃ f, LastWriter site w urls (site.nodesDir ++ [f]) url

theorem registered_congr (h : ∀ f, v.read (site.nodesDir ++ [f]) = w.read (site.nodesDir ++ [f]))
    (url : Str) : Registered site v url ↔ Registered site w url := by
  simp only [Registered, mem_confs, h]

/-- What is registered after the loop: the URLs of the files that no line has written to, and for
every other file the URL of the last line that has. -/
theorem registered_imported {urls : List Str} (hurls : ∀ u ∈ urls, OneLine u ∧ Stripped u)
    (hv : ∀ p, v.read p = w.read p) (url : Str) :
    Registered site (imported site w ssh v urls) url ↔ KeepsConf site w urls url := by
  have htext : ∀ {p u}, LastWriter site w urls p u → confUrl (importText ssh u) = some u := by
    intro p u ⟨pre, post, hsplit, hd, _⟩
    obtain ⟨hone, hstrip⟩ := hurls u (by simp [hsplit])
    exact confUrl_importText hone hstrip hd
  constructor
  · intro ⟨c, hc, hurl⟩
    obtain ⟨hread, hsuf⟩ := mem_confs.mp hc
    rcases lastWriter_or site w urls (site.nodesDir ++ [c.1]) with ⟨u, hlast⟩ | hnone
    · rw [read_imported_of_last hlast] at hread
      rw [← Option.some.inj hread, htext hlast] at hurl
      exact Or.inr ⟨c.1, Option.some.inj hurl ▸ hlast⟩
    · rw [read_imported_of_none hnone, hv] at hread
      exact Or.inl ⟨c, mem_confs.mpr ⟨hread, hsuf⟩, hurl, hnone⟩
  · intro h
    rcases h with ⟨c, hc, hurl, hnone⟩ | ⟨f, hlast⟩
    · obtain ⟨hread, hsuf⟩ := mem_confs.mp hc
      refine ⟨c, mem_confs.mpr ⟨?_, hsuf⟩, hurl⟩
      rw [read_imported_of_none hnone, hv, hread]
    · obtain ⟨pre, post, hsplit, hd, hpost⟩ := hlast
      obtain ⟨e, b, hp⟩ := importDest_suffix hd
      obtain ⟨-, hf⟩ := List.append_inj' hp rfl
      refine ⟨(f, importText ssh url), mem_confs.mpr ⟨?_, ?_⟩, htext ⟨pre, post, hsplit, hd, hpost⟩⟩
      · exact read_imported_of_last ⟨pre, post, hsplit, hd, hpost⟩
      · rw [(List.cons.inj hf).1]
        exact endswith_confSuffix b

/-- A successful import has written every line, and then the outputs. A line that could not be
written would have ended the loop, and with it the import. -/
theorem cmdImport_ok {net : Net} {url : Str} {urls : List Str} {w' : World}
    (hf : fetchedUrls net w.requests url = some urls)
    (hrun : (cmdImport site net url ssh).run w = .ok () w') :
    ∃ d b64 clash, w' = World.generated site
      (imported site w ssh { w with requests := w.requests + 1, nodesDir := d } urls) b64 clash := by
  by_cases hssh : ssh ≠ [] ∧ urls.length > 1
  · rw [cmdImport, run_bind_of_ok (run_fetchSubUrls hf), if_pos hssh] at hrun
    cases hrun
  · rw [run_cmdImport hf hssh] at hrun
    obtain ⟨_, v, hloop, hafter⟩ := run_bind_eq_ok.mp hrun
    obtain ⟨ns, -, -, rfl⟩ := afterChange_ok hafter
    have hdir : { w with requests := w.requests + 1 }.outDir = w.outDir := rfl
    rcases importLoop_cases ssh hdir urls with
      ⟨d, -, hall⟩ | ⟨pre, bad, post, e, d, -, -, -, hstop⟩
    · rw [hall] at hloop
      obtain ⟨-, rfl⟩ := EStateM.Result.ok.inj hloop
      exact ⟨d, _, _, rfl⟩
    · rw [hstop] at hloop
      cases hloop

/-- **What a successful import keeps.** Every URL registered before is still registered, and
every line of the body is, exactly when each of them keeps a conf file. The loop writes each
line to the file of its name without looking whether there is one, so a file holds what was
written to it last. -/
theorem import_registers_iff {net : Net} {url : Str} {urls : List Str} {w' : World}
    (hf : fetchedUrls net w.requests url = some urls)
    (hrun : (cmdImport site net url ssh).run w = .ok () w') :
    ((∀ u, Registered site w u → Registered site w' u) ∧ ∀ u ∈ urls, Registered site w' u) ↔
      ∀ u, Registered site w u ∨ u ∈ urls → KeepsConf site w urls u := by
  obtain ⟨d, b64, clash, rfl⟩ := cmdImport_ok hf hrun
  have hurls : ∀ u ∈ urls, OneLine u ∧ Stripped u := by
    intro u hu
    obtain ⟨hone, hstrip, -⟩ := oneLine_fetchedUrls hf hu
    exact ⟨hone, hstrip⟩
  have hafter : ∀ u, Registered site (World.generated site (imported site w ssh
      { w with requests := w.requests + 1, nodesDir := d } urls) b64 clash) u ↔
        KeepsConf site w urls u := by
    intro u
    rw [registered_congr (read_generated b64 clash)]
    have hsame : ∀ p, { w with requests := w.requests + 1, nodesDir := d }.read p = w.read p :=
      fun _ => rfl
    exact registered_imported hurls hsame u
  simp only [hafter]
  exact ⟨fun h u hu => hu.elim (h.1 u) (h.2 u), fun h => ⟨fun u hu => h u (Or.inl hu),
    fun u hu => h u (Or.inr hu)⟩⟩

end

section

attribute [local instance] asciiData

/-- A registry with one node. -/
def oneNode : World := emptyWorld.write (smallSite.nodesDir ++ ["n.conf".toList]) (confText smallNode)

/-- A second node of the name in it, and a node of another name. -/
def mixedUrls : List Str := ["vless://v@h?pbk=k#n".toList, "vless://w@h?pbk=k#m".toList]

def mixedBody : Str := "vless://v@h?pbk=k#n\nvless://w@h?pbk=k#m".toList

/-- One of two lines has the name of the node that is registered. -/
theorem import_registers_mixed : Registered smallSite oneNode smallUrl ∧
    (((∀ u, Registered smallSite oneNode u → Registered smallSite
          (after ((cmdImport smallSite (serving mixedBody) "http://e".toList []).run oneNode)) u) ∧
        ∀ u ∈ mixedUrls, Registered smallSite
          (after ((cmdImport smallSite (serving mixedBody) "http://e".toList []).run oneNode)) u) ↔
      ∀ u, Registered smallSite oneNode u ∨ u ∈ mixedUrls → KeepsConf smallSite oneNode mixedUrls u) :=
  ⟨by decide +kernel, import_registers_iff (by decide +kernel) (eq_ok_of_exitOf (by decide +kernel))⟩

/-- Two nodes of one name. -/
def twinBody : Str := smallUrl ++ "\nvless://v@h?pbk=k#n".toList

/-- The import of two nodes of one name succeeds and loses the first. -/
theorem import_loses_twin :
    exitOf ((cmdImport smallSite (serving twinBody) "http://e".toList []).run emptyWorld) = none ∧
      smallUrl ∈ (fetchedUrls (serving twinBody) 0 "http://e".toList).getD [] ∧
      ¬ Registered smallSite
        (after ((cmdImport smallSite (serving twinBody) "http://e".toList []).run emptyWorld)) smallUrl := by
  decide +kernel

end

end BlogStuff.VlessSubs
