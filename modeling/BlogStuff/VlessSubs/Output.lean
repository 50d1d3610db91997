import BlogStuff.VlessSubs.Import

/-!
# BlogStuff.VlessSubs.Output

Whether `out/base64.txt` is up to date. Every command that changes the registry first
edits the conf files and then regenerates the outputs. The regeneration can stop before
it writes anything, and then the old output stays: when the last node is gone, when a
conf file does not load, and when an import stops at a bad line half-way.

The invariant `Current` says that the output, if there is one, was made from the nodes
that load now. A command keeps it if the conf files it leaves can be loaded and hold a
node, which `Invocation.Safe` says in terms of the command line and the files before it.
As long as there is no output, every command is harmless.
-/

namespace BlogStuff.VlessSubs

open BlogStuff.Python

section

variable [UnicodeData]

/-- `out/base64.txt` is there. -/
def HasOutput (site : Site) (w : World) : Prop := (w.read (base64Path site)).isSome = true

/-- The output, if it is there, decodes to the URLs of the nodes that load. -/
def Tracks (site : Site) (w : World) : Prop :=
  ∀ text, w.read (base64Path site) = some text → ∃ ns, w.nodes site = .ok ns ∧
    (b64decode text).bind decode = some (List.intercalate ['\n'] (ns.map Node.url))

/-- The output, if it is there, is what a regeneration would write. -/
def Current (site : Site) (w : World) : Prop :=
  ∀ text, w.read (base64Path site) = some text → ∃ ns, w.nodes site = .ok ns ∧ ns ≠ [] ∧
    text = encodeUrls (ns.map Node.url)

/-- A regeneration would get through: the conf files load, and one of them holds a node. -/
structure Loads (site : Site) (w : World) : Prop where
  readable : ∀ c ∈ w.confs site, ∃ r, confNode c.2 = .ok r
  node : ∃ c ∈ w.confs site, (confUrl c.2).isSome = true

/-- Once there is an output, a command is safe if the conf files it leaves behind load
and hold a node: what it writes can be read back, what it deletes is not the last node,
and an import does not stop half-way. -/
def Invocation.Safe (site : Site) (w : World) (i : Invocation) : Prop :=
  match i.command with
  | .add url ssh => ∀ n, Node.init url ssh = .ok n → w.exists site (confPath site n.name) = false →
      (confUrl (confText (addNode n))).isSome = true
  | .update url ssh => ∀ n, Node.init url [] = .ok n → ∀ ns, w.nodes site = .ok ns →
      ∀ old, findNode ns n.name = some old →
        (confUrl (confText (updateNode n old ssh))).isSome = true
  | .remove name => ∀ q, w.target site (confPath site name) = some q →
      (w.read q).isSome = true →
        ∃ c ∈ w.confs site, q ≠ site.nodesDir ++ [c.1] ∧ (confUrl c.2).isSome = true
  | .importSub url ssh => ∀ urls, fetchedUrls i.net 0 url = some urls →
      ¬ (ssh ≠ [] ∧ urls.length > 1) →
        (∀ u ∈ urls, (importDest site w u).isSome = true) ∨
          ∀ u ∈ urls.head?, importDest site w u = none

/-- Every step of the session is safe where it is taken. -/
def SafeRun (site : Site) : World → List Invocation → Prop
  | _, [] => True
  | w, i :: is => (HasOutput site w → i.Safe site w) ∧ SafeRun site (i.run site w).2 is

end

/-! ### Loading -/

section

variable [UnicodeData] {site : Site} {w v : World}

theorem loads_iff : Loads site w ↔ ∃ ns, w.nodes site = .ok ns ∧ ns ≠ [] := by
  constructor
  · intro ⟨hread, c, hc, hnode⟩
    have hall : ∀ t ∈ (w.confs site).map Prod.snd, ∃ r, confNode t = .ok r := by
      intro t ht
      obtain ⟨d, hd, rfl⟩ := List.mem_map.mp ht
      exact hread d hd
    obtain ⟨ns, hns⟩ := confNodes_isOk.mpr hall
    obtain ⟨u, hu⟩ := Option.isSome_iff_exists.mp hnode
    obtain ⟨n, hn, -⟩ := confUrl_eq_some.mp hu
    have hmem : n ∈ ns := (mem_confNodes hns).mpr ⟨c.2, List.mem_map_of_mem hc, hn⟩
    exact ⟨ns, hns, List.ne_nil_of_mem hmem⟩
  · intro ⟨ns, hns, hne⟩
    constructor
    · intro c hc
      exact confNodes_isOk.mp ⟨ns, hns⟩ c.2 (List.mem_map_of_mem hc)
    · obtain ⟨n, hmem⟩ := List.exists_mem_of_ne_nil ns hne
      obtain ⟨t, ht, hn⟩ := (mem_confNodes hns).mp hmem
      obtain ⟨c, hc, rfl⟩ := List.mem_map.mp ht
      exact ⟨c, hc, by rw [confUrl_eq_some.mpr ⟨n, hn, rfl⟩]; rfl⟩

/-- Writing a conf text that holds a node keeps the registry loadable: the new text can be read, and
if it took the place of the only node there was, it is one itself. -/
theorem Loads.write (h : Loads site w) {text : Str} (ht : (confUrl text).isSome = true) (q : Path) :
    Loads site (w.write q text) := by
  obtain ⟨u, hu⟩ := Option.isSome_iff_exists.mp ht
  obtain ⟨n, hn, -⟩ := confUrl_eq_some.mp hu
  constructor
  · intro c hc
    obtain ⟨hread, hsuf⟩ := mem_confs.mp hc
    rw [World.read_write] at hread
    split_ifs at hread with hq
    · exact ⟨some n, by rw [← Option.some.inj hread, hn]⟩
    · exact h.readable c (mem_confs.mpr ⟨hread, hsuf⟩)
  · obtain ⟨c, hc, hnode⟩ := h.node
    obtain ⟨hread, hsuf⟩ := mem_confs.mp hc
    -- the file that held a node does so still, with the new text if it was overwritten
    by_cases hq : q = site.nodesDir ++ [c.1]
    · exact ⟨(c.1, text), mem_confs.mpr ⟨by rw [World.read_write, if_pos hq], hsuf⟩, ht⟩
    · exact ⟨c, mem_confs.mpr ⟨by rw [World.read_write, if_neg hq, hread], hsuf⟩, hnode⟩

theorem Loads.delete (h : Loads site w) {q : Path}
    (hother : ∃ c ∈ w.confs site, q ≠ site.nodesDir ++ [c.1] ∧ (confUrl c.2).isSome = true) :
    Loads site (w.delete q) := by
  constructor
  · intro c hc
    obtain ⟨hread, hsuf⟩ := mem_confs.mp hc
    rw [World.read_delete] at hread
    split_ifs at hread
    exact h.readable c (mem_confs.mpr ⟨hread, hsuf⟩)
  · obtain ⟨c, hc, hq, hnode⟩ := hother
    obtain ⟨hread, hsuf⟩ := mem_confs.mp hc
    exact ⟨c, mem_confs.mpr ⟨by rw [World.read_delete, if_neg hq, hread], hsuf⟩, hnode⟩

theorem Loads.imported (h : Loads site w) {ssh : Str} {urls : List Str}
    (hurls : ∀ u ∈ urls, OneLine u ∧ Stripped u) (v : World) :
    Loads site (imported site v ssh w urls) := by
  induction urls generalizing w with
  | nil => exact h
  | cons url urls ih =>
      obtain ⟨⟨hone, hstrip⟩, hrest⟩ := List.forall_mem_cons.mp hurls
      cases hd : importDest site v url with
      | none =>
          simp only [VlessSubs.imported, hd]
          exact ih h hrest
      | some q =>
          simp only [VlessSubs.imported, hd]
          refine ih (h.write ?_ q) hrest
          rw [confUrl_importText hone hstrip hd]
          rfl

/-! ### One command -/

theorem Current.loads (h : Current site w) (hout : HasOutput site w) : Loads site w := by
  obtain ⟨text, ht⟩ := Option.isSome_iff_exists.mp hout
  obtain ⟨ns, hns, hne, -⟩ := h text ht
  exact loads_iff.mpr ⟨ns, hns, hne⟩

theorem current_of_not_hasOutput (h : ¬ HasOutput site w) : Current site w := by
  intro text ht
  exact absurd (Option.isSome_iff_exists.mpr ⟨text, ht⟩) h

/-- A regeneration brings the output up to date, unless it cannot and there is none. It fails only
if nothing loads, and by the hypothesis there is no output then. -/
theorem current_afterChange (h : HasOutput site w → Loads site w) (net : Net) :
    Current site (after ((afterChange site net).run w)) := by
  rcases afterChange_cases site net w with ⟨ns, hns, hne, hrun⟩ | ⟨e, hnil, hrun⟩
  · rw [hrun, after_ok]
    intro text ht
    have hbase : (w.generated site (encodeUrls (ns.map Node.url)) (ownClash net ns)).read
        (base64Path site) = some (encodeUrls (ns.map Node.url)) := by
      rw [World.generated, World.read_write, if_neg (clashPath_ne_base64Path site),
        World.read_write, if_pos rfl]
    have hnodes : (w.generated site (encodeUrls (ns.map Node.url)) (ownClash net ns)).nodes site =
        .ok ns := by
      rw [World.nodes, confs_congr (read_generated _ _)]
      exact hns
    exact ⟨ns, hnodes, hne, Option.some.inj (ht.symm.trans hbase)⟩
  · rw [hrun, after_error]
    refine current_of_not_hasOutput (fun hout => ?_)
    obtain ⟨ns, hns, hne⟩ := loads_iff.mp (h hout)
    exact hne (hnil ns hns)

/-- Saving a node and regenerating. If the file cannot be written, nothing has changed; otherwise
the registry still loads wherever there is an output. -/
theorem Current.save (h : Current site w) {n : Node}
    (ht : HasOutput site w → (confUrl (confText n)).isSome = true) (net : Net) :
    Current site (after ((do saveNode site n; afterChange site net : Prog Unit).run w)) := by
  cases htarget : { w with nodesDir := true }.target site (confPath site n.name) with
  | none =>
      have hsave : (saveNode site n).run w = .error .os { w with nodesDir := true } := by
        simp only [run_saveNode, run_writeText, htarget]
      rw [run_bind_of_error hsave]
      exact h
  | some q =>
      have hsave : (saveNode site n).run w =
          .ok () ({ w with nodesDir := true }.write q (confText n)) := by
        simp only [run_saveNode, run_writeText, htarget]
      rw [run_bind_of_ok hsave]
      refine current_afterChange (fun hout => ?_) net
      have hout' : HasOutput site w := by
        rwa [HasOutput, World.read_write, if_neg (conf_ne_base64Path htarget)] at hout
      have h' : Current site { w with nodesDir := true } := h
      exact (h'.loads hout').write (ht hout') q

theorem current_cmdAdd (h : Current site w) (net : Net) {url ssh : Str}
    (hsafe : HasOutput site w → (Invocation.mk (.add url ssh) net).Safe site w) :
    Current site (after ((cmdAdd site net url ssh).run w)) := by
  cases hn : Node.init url ssh with
  | error e =>
      rw [cmdAdd, hn, run_bind_of_error (run_check_error e w)]
      exact h
  | ok n =>
      rw [cmdAdd, hn, run_bind_of_ok (run_check_ok n w), run_bind_of_ok (EStateM.run_get w)]
      split_ifs with htaken
      · exact h
      · exact h.save (fun hout => hsafe hout n hn (by simpa using htaken)) net

theorem current_cmdUpdate (h : Current site w) (net : Net) {url ssh : Str}
    (hsafe : HasOutput site w → (Invocation.mk (.update url ssh) net).Safe site w) :
    Current site (after ((cmdUpdate site net url ssh).run w)) := by
  cases hn : Node.init url [] with
  | error e =>
      rw [cmdUpdate, hn, run_bind_of_error (run_check_error e w)]
      exact h
  | ok n =>
      rw [cmdUpdate, hn, run_bind_of_ok (run_check_ok n w)]
      cases hns : w.nodes site with
      | error e =>
          have hload : (loadNodes site).run w = .error e { w with nodesDir := true } := by
            rw [run_loadNodes, hns]
          rw [run_bind_of_error hload]
          exact h
      | ok ns =>
          have hload : (loadNodes site).run w = .ok ns { w with nodesDir := true } := by
            rw [run_loadNodes, hns]
          rw [run_bind_of_ok hload]
          cases hf : findNode ns n.name with
          | none => exact h
          | some old =>
              have h' : Current site { w with nodesDir := true } := h
              exact h'.save (fun hout => hsafe hout n hn ns hns old hf) net

theorem current_cmdRemove (h : Current site w) (net : Net) {name : Str}
    (hsafe : HasOutput site w → (Invocation.mk (.remove name) net).Safe site w) :
    Current site (after ((cmdRemove site net name).run w)) := by
  rw [cmdRemove, run_bind_of_ok (EStateM.run_get w)]
  split_ifs
  · cases htarget : w.target site (confPath site name) with
    | none =>
        have hrun : (unlink site (confPath site name)).run w = .error .os w := by
          simp only [run_unlink, htarget]
        rw [run_bind_of_error hrun]
        exact h
    | some q =>
        by_cases hfile : (w.read q).isSome = true
        · have hrun : (unlink site (confPath site name)).run w = .ok () (w.delete q) := by
            simp only [run_unlink, htarget, if_pos hfile]
          rw [run_bind_of_ok hrun]
          refine current_afterChange (fun hout => ?_) net
          have hout' : HasOutput site w := by
            rwa [HasOutput, World.read_delete, if_neg (conf_ne_base64Path htarget)] at hout
          exact (h.loads hout').delete (hsafe hout' q htarget hfile)
        · have hrun : (unlink site (confPath site name)).run w = .error .os w := by
            simp only [run_unlink, htarget, if_neg hfile]
          rw [run_bind_of_error hrun]
          exact h
  · exact h

/-- The loop of an import never touches the output. -/
theorem hasOutput_imported (ssh : Str) (urls : List Str) :
    HasOutput site (imported site w ssh v urls) ↔ HasOutput site v := by
  have hne : ∀ u ∈ urls, importDest site w u ≠ some (base64Path site) := by
    intro u _ hd
    cases hn : Node.init u [] with
    | error e => simp [importDest, hn] at hd
    | ok n =>
        simp only [importDest, hn] at hd
        exact conf_ne_base64Path hd rfl
  rw [HasOutput, read_imported_of_none hne, HasOutput]

theorem current_cmdImport (h : Current site w) (net : Net) (hreq : w.requests = 0) {url ssh : Str}
    (hsafe : HasOutput site w → (Invocation.mk (.importSub url ssh) net).Safe site w) :
    Current site (after ((cmdImport site net url ssh).run w)) := by
  cases hf : fetchedUrls net w.requests url with
  | none =>
      obtain ⟨e, c, hrun⟩ := run_fetchSubUrls_error hf
      rw [cmdImport, run_bind_of_error hrun]
      exact h
  | some urls =>
      by_cases hssh : ssh ≠ [] ∧ urls.length > 1
      · rw [cmdImport, run_bind_of_ok (run_fetchSubUrls hf), if_pos hssh]
        exact h
      have hdir : { w with requests := w.requests + 1 }.outDir = w.outDir := rfl
      rw [run_cmdImport hf hssh]
      rcases importLoop_cases ssh hdir urls with
        ⟨d, -, hrun⟩ | ⟨pre, bad, post, e, d, rfl, hpre, hbad, hrun⟩
      · rw [run_bind_of_ok hrun]
        refine current_afterChange (fun hout => ?_) net
        have hout' := (hasOutput_imported ssh urls).mp hout
        have h' : Current site { w with requests := w.requests + 1, nodesDir := d } := h
        refine (h'.loads hout').imported ?_ w
        intro u hu
        obtain ⟨hone, hstrip, -⟩ := oneLine_fetchedUrls hf hu
        exact ⟨hone, hstrip⟩
      · rw [run_bind_of_error hrun, after_error]
        by_cases hout : HasOutput site w
        · -- a safe import that stops has not written anything
          have hnil : pre = [] := by
            rcases hsafe hout _ (hreq ▸ hf) hssh with hall | hfirst
            · have := hall bad (by simp)
              simp [hbad] at this
            · cases pre with
              | nil => rfl
              | cons u pre =>
                  have hnone := hfirst u rfl
                  have := hpre u (by simp)
                  simp [hnone] at this
          rw [hnil]
          exact h
        · refine current_of_not_hasOutput (fun hout' => hout ?_)
          have hout'' := (hasOutput_imported ssh pre).mp hout'
          exact hout''

/-! ### Sessions -/

theorem Invocation.run_current {i : Invocation} (h : Current site w)
    (hsafe : HasOutput site w → i.Safe site w) : Current site (i.run site w).2 := by
  obtain ⟨command, net⟩ := i
  have h0 : Current site { w with requests := 0 } := h
  cases command with
  | importSub url ssh => exact current_cmdImport h0 net rfl hsafe
  | add url ssh => exact current_cmdAdd h0 net hsafe
  | update url ssh => exact current_cmdUpdate h0 net hsafe
  | remove name => exact current_cmdRemove h0 net hsafe

theorem Current.runs {is : List Invocation} (h : Current site w) (hsafe : SafeRun site w is) :
    Current site (runs site w is) := by
  induction is generalizing w with
  | nil => exact h
  | cons i is ih => exact ih (Invocation.run_current h hsafe.1) hsafe.2

theorem SafeRun.of_append {is js : List Invocation} (h : SafeRun site w (is ++ js)) :
    SafeRun site w is := by
  induction is generalizing w with
  | nil => trivial
  | cons i is ih => exact ⟨h.1, ih h.2⟩

theorem Current.tracks (h : Current site w) : Tracks site w := by
  intro text ht
  obtain ⟨ns, hns, -, rfl⟩ := h text ht
  exact ⟨ns, hns, decode_encodeUrls _⟩

/-- **The output tracks the registry.** In every state a session of safe steps reaches
from a fresh home, the base64 output, if it is there, decodes to the URLs of the nodes
that load in that state. -/
theorem output_tracks_registry (hfresh : w.Fresh site) {is : List Invocation}
    (hsafe : SafeRun site w is) {pre : List Invocation} (hpre : pre <+: is) :
    Tracks site (runs site w pre) := by
  have hcurrent : Current site w := by
    refine current_of_not_hasOutput ?_
    have hprefix : site.home <+: base64Path site := by
      rw [base64Path, Site.outDir, List.append_assoc]
      exact List.prefix_append _ _
    rw [HasOutput, hfresh.files _ hprefix]
    simp
  obtain ⟨post, rfl⟩ := hpre
  exact (hcurrent.runs hsafe.of_append).tracks

end

section

attribute [local instance] asciiData

/-- Two nodes are added. -/
theorem output_tracks_small :
    Tracks smallSite (runs smallSite emptyWorld
      [⟨.add smallUrl [], silent⟩, ⟨.add "vless://u@h?pbk=k#m".toList [], silent⟩]) := by
  have hfirst : ∀ n, Node.init smallUrl [] = .ok n →
      (confUrl (confText (addNode n))).isSome = true := by
    decide
  have hsecond : ∀ n, Node.init "vless://u@h?pbk=k#m".toList [] = .ok n →
      (confUrl (confText (addNode n))).isSome = true := by
    decide
  have hsafe : SafeRun smallSite emptyWorld
      [⟨.add smallUrl [], silent⟩, ⟨.add "vless://u@h?pbk=k#m".toList [], silent⟩] :=
    ⟨fun _ n hn _ => hfirst n hn, fun _ n hn _ => hsecond n hn, trivial⟩
  exact output_tracks_registry (fresh_emptyWorld smallSite) hsafe (List.prefix_refl _)

/-- Removing the only node leaves its URL in the output. -/
theorem output_stale_after_remove :
    ¬ Tracks smallSite (runs smallSite emptyWorld
      [⟨.add smallUrl [], silent⟩, ⟨.remove "n".toList, silent⟩]) := by
  have hout : (runs smallSite emptyWorld [⟨.add smallUrl [], silent⟩,
      ⟨.remove "n".toList, silent⟩]).read (base64Path smallSite) = some (encodeUrls [smallUrl]) := by
    decide +kernel
  have hnodes : (runs smallSite emptyWorld [⟨.add smallUrl [], silent⟩,
      ⟨.remove "n".toList, silent⟩]).nodes smallSite = .ok [] := by
    decide +kernel
  intro h
  obtain ⟨ns, hns, hdecode⟩ := h _ hout
  obtain rfl := Except.ok.inj (hnodes.symm.trans hns)
  rw [decode_encodeUrls] at hdecode
  exact absurd hdecode (by decide)

end

end BlogStuff.VlessSubs
