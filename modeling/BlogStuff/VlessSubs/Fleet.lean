import BlogStuff.VlessSubs.Output
import BlogStuff.VlessSubs.Refinement
import BlogStuff.VlessSubs.Subscription
import BlogStuff.VlessSubs.Sync

/-!
# BlogStuff.VlessSubs.Fleet

One subscription on many servers: sessions of the tool that also regenerate and sync.

A sync pushes the outputs that are there, so what the servers get depends on the invariant
`Current` of `BlogStuff.VlessSubs.Output`, which `gen` and `sync` keep as well
(`Act.run_current`). After a sync that succeeds every server of the registry that has an SSH target
then serves the whole registry, and since a node is its URL, the subscription of any one of them is
enough to build the registry again somewhere else. `gen --extra-sub` is left out of these sessions:
its outputs hold foreign nodes as well, which a sync after it pushes too.
-/

namespace BlogStuff.VlessSubs

open BlogStuff.Python

/-! ### Sessions -/

/-- One process of the tool: a command that changes the registry, `gen` without extra
subscriptions, or `sync`. -/
inductive Act (M : Type)
  | command (i : Invocation)
  | gen (net : Net)
  | sync (net : Net) (env : Rsync M)

section

variable {M : Type} [DecidableEq M] [UnicodeData] (site : Site)

/-- The program of a process. -/
def Act.prog : Act M → Remote M Unit
  | .command i => onManager (i.command.prog site i.net)
  | .gen net => onManager (do let _ ← cmdGen site net [])
  | .sync net env => cmdSync site net env

/-- Its outcome, and the files and machines it leaves. -/
def Act.run (a : Act M) (s : Deployment M) : Option Exit × Deployment M :=
  let result := (a.prog site).run { s with world := { s.world with requests := 0 } }
  (exitOf result, after result)

/-- The files and machines after a session. -/
def Deployment.runs (s : Deployment M) : List (Act M) → Deployment M
  | [] => s
  | a :: as => Deployment.runs (a.run site s).2 as

/-- Every command of the session is safe where it is given. -/
def SafeActs : Deployment M → List (Act M) → Prop
  | _, [] => True
  | s, a :: as =>
      (∀ i, a = .command i → HasOutput site s.world → i.Safe site s.world) ∧ SafeActs (a.run site s).2 as

/-- The commands of the session are tidy. -/
def TidyActs (as : List (Act M)) : Prop := ∀ i, Act.command i ∈ as → i.Tidy

end

section

variable {M : Type} [DecidableEq M] [UnicodeData] {site : Site} {net : Net} {env : Rsync M}
  {s : Deployment M} {m : Registry}

theorem Act.run_command (i : Invocation) :
    ((Act.command i).run site s).2 = { s with world := (i.run site s.world).2 } :=
  after_onManager _

theorem Act.run_gen : ((Act.gen net).run site s).2 =
    { s with world := after ((afterChange site net).run { s.world with requests := 0 }) } :=
  after_onManager _

theorem Act.run_sync_eq_none {ns : List Node} (hns : s.world.nodes site = .ok ns) (ht : targets ns ≠ [])
    (hrsync : env.installed = true) (hstarted : started site ns = targets ns)
    (hall : failed env 0 (targets ns) = []) (net : Net) :
    ((Act.sync net env).run site s).1 = none := by
  obtain ⟨w', text, clash, -, hexit, -⟩ :=
    run_cmdSync (s := { s with world := { s.world with requests := 0 } }) net env hns ht hrsync
  rw [syncExit, if_neg (not_not.mpr hstarted), if_pos hall] at hexit
  exact hexit

theorem Act.nodes_sync {s' : Deployment M} (h : (Act.sync net env).run site s = (none, s')) :
    s'.world.nodes site = s.world.nodes site := by
  obtain ⟨hok, rfl⟩ := Prod.mk.inj h
  obtain ⟨ns, w', text, clash, -, -, hready, rfl, -⟩ := cmdSync_ok hok
  exact hready.nodes

theorem Current.sync (h : Current site s.world) :
    Current site (after ((cmdSync site net env).run s)).world := by
  rcases cmdSync_world net env s with hw | ⟨ns, text, clash, hns, hne, hready⟩
  · rw [hw]
    exact h
  · intro text' ht'
    rcases hready.kept with hkept | hnew
    · obtain ⟨ms, hms, hrest⟩ := h text' (hkept ▸ ht')
      exact ⟨ms, by rw [hready.nodes, hms], hrest⟩
    · refine ⟨ns, by rw [hready.nodes, hns], hne, ?_⟩
      rw [← hnew ns hns]
      exact Option.some.inj (ht'.symm.trans hready.base64)

theorem Act.run_current {a : Act M} (h : Current site s.world)
    (hsafe : ∀ i, a = .command i → HasOutput site s.world → i.Safe site s.world) :
    Current site (a.run site s).2.world := by
  cases a with
  | command i =>
      rw [Act.run_command]
      exact Invocation.run_current h (hsafe i rfl)
  | gen net =>
      rw [Act.run_gen]
      have h0 : Current site { s.world with requests := 0 } := h
      exact current_afterChange h0.loads net
  | sync net env => exact Current.sync (s := { s with world := { s.world with requests := 0 } }) h

theorem Deployment.runs_current {as : List (Act M)} (h : Current site s.world) (hsafe : SafeActs site s as) :
    Current site (s.runs site as).world := by
  induction as generalizing s with
  | nil => exact h
  | cons a as ih => exact ih (Act.run_current h hsafe.1) hsafe.2

theorem current_of_fresh {w : World} (h : w.Fresh site) : Current site w := by
  refine current_of_not_hasOutput ?_
  have hhome : site.home <+: base64Path site := by
    rw [base64Path, Site.outDir, List.append_assoc]
    exact List.prefix_append _ _
  rw [HasOutput, h.files _ hhome]
  simp

/-- What a session of safe commands and a successful sync leave. -/
theorem synced {s' : Deployment M} (hfresh : s.world.Fresh site) {as : List (Act M)}
    (hsafe : SafeActs site s as) (hsync : (Act.sync net env).run site (s.runs site as) = (none, s')) :
    ∃ ns text clash, s'.world.nodes site = .ok ns ∧ targets ns ≠ [] ∧ text = encodeUrls (ns.map Node.url) ∧
      ∀ n ∈ ns, n.ssh ≠ [] → s'.fleet (env.reaches site n) = ⟨some text, some clash⟩ := by
  have hcurrent : Current site ((Act.sync net env).run site (s.runs site as)).2.world :=
    Act.run_current (Deployment.runs_current (current_of_fresh hfresh) hsafe) (by simp)
  rw [hsync] at hcurrent
  obtain ⟨hok, rfl⟩ := Prod.mk.inj hsync
  obtain ⟨ns, w', text, clash, hns, hne, hready, rfl, hfleet⟩ := cmdSync_ok hok
  have hnodes := hready.nodes.trans hns
  obtain ⟨ms, hms, -, rfl⟩ := hcurrent text hready.base64
  obtain rfl := Except.ok.inj (hnodes.symm.trans hms)
  exact ⟨ns, _, clash, hnodes, hne, rfl, hfleet⟩

/-- **All servers serve the registry.** After any session of safe commands, `gen` without extra
subscriptions and `sync` from a fresh home that ends in a successful sync, every server of the
registry with an SSH target holds the same two files, and the base64 one decodes to the URLs of all
registered nodes. -/
theorem synced_servers_agree {s' : Deployment M} (hfresh : s.world.Fresh site) {as : List (Act M)}
    (hsafe : SafeActs site s as) (hsync : (Act.sync net env).run site (s.runs site as) = (none, s')) :
    ∃ ns text clash, s'.world.nodes site = .ok ns ∧ targets ns ≠ [] ∧
      (b64decode text).bind decode = some (List.intercalate ['\n'] (ns.map Node.url)) ∧
      ∀ n ∈ ns, n.ssh ≠ [] → s'.fleet (env.reaches site n) = ⟨some text, some clash⟩ := by
  obtain ⟨ns, text, clash, hns, hne, rfl, hfleet⟩ := synced hfresh hsafe hsync
  exact ⟨ns, _, clash, hns, hne, decode_encodeUrls _, hfleet⟩

end

section

attribute [local instance] asciiData

/-- Nothing is registered, and no machine has a file. -/
def smallStart : Deployment Str := ⟨emptyWorld, fun _ => ⟨none, none⟩⟩

/-- Two nodes are added. -/
def smallSession : List (Act Str) :=
  [.command ⟨.add smallUrl [], silent⟩, .command ⟨.add otherUrl [], silent⟩]

/-- Every target is a machine of its own, and every transfer succeeds. -/
def wholeRsync : Rsync Str := ⟨true, fun cmd => cmd.getLastD [], fun _ => .good⟩

/-- What a sync then leaves. -/
@[irreducible] def smallSynced : Deployment Str :=
  ((Act.sync silent wholeRsync).run smallSite (smallStart.runs smallSite smallSession)).2

theorem safe_smallSession : SafeActs smallSite smallStart smallSession := by
  have hsaved : ∀ n, Node.init smallUrl [] = .ok n → (confUrl (confText (addNode n))).isSome = true := by
    decide
  have hsaved' : ∀ n, Node.init otherUrl [] = .ok n → (confUrl (confText (addNode n))).isSome = true := by
    decide
  refine ⟨fun i hi _ => ?_, fun i hi _ => ?_, trivial⟩
  · obtain rfl := Act.command.inj hi
    exact fun n hn _ => hsaved n hn
  · obtain rfl := Act.command.inj hi
    exact fun n hn _ => hsaved' n hn

theorem tidy_smallSession : TidyActs smallSession := by
  intro i hi
  rcases List.mem_cons.mp hi with hi | hi
  · obtain rfl := Act.command.inj hi
    decide
  · obtain rfl := Act.command.inj (List.mem_singleton.mp hi)
    decide

/-- Both nodes are registered, each with its server for a target. -/
theorem smallSession_nodes : ∃ ns, (smallStart.runs smallSite smallSession).world.nodes smallSite = .ok ns ∧
    (∀ n ∈ ns, n.ssh = smallNode.ssh ∨ n.ssh = otherNode.ssh) ∧
    (∃ n ∈ ns, n.ssh = smallNode.ssh) ∧ ∃ n ∈ ns, n.ssh = otherNode.ssh := by
  have hinit : Node.init smallUrl [] = .ok (smallNode.withSsh []) := by decide
  have hinit' : Node.init otherUrl [] = .ok (otherNode.withSsh []) := by decide
  have hspec : (Command.add smallUrl []).spec silent ∅ =
      (true, (∅ : Registry).insert "n".toList (smallUrl, smallNode.ssh)) := by
    simp only [Command.spec, hinit]
    rfl
  have hspec' : (Command.add otherUrl []).spec silent
      ((∅ : Registry).insert "n".toList (smallUrl, smallNode.ssh)) =
      (true, ((∅ : Registry).insert "n".toList (smallUrl, smallNode.ssh)).insert "m".toList
        (otherUrl, otherNode.ssh)) := by
    have hnew : (otherNode.withSsh []).name ∉
        (∅ : Registry).insert "n".toList (smallUrl, smallNode.ssh) := by
      intro hmem
      rcases Std.ExtTreeMap.mem_insert.mp hmem with hmem | hmem
      · exact absurd hmem (by decide)
      · exact absurd hmem Std.ExtTreeMap.not_mem_empty
    have htarget : strip (pyOr (otherNode.withSsh []).ssh (rootAt (otherNode.withSsh []))) =
        otherNode.ssh := by decide
    simp only [Command.spec, hinit', if_neg hnew, htarget]
    rfl
  have hfirst := (Invocation.run_spec (i := ⟨.add smallUrl [], silent⟩) (by decide)
    (stores_fresh (fresh_emptyWorld smallSite))).2
  rw [hspec] at hfirst
  have hsecond := (Invocation.run_spec (i := ⟨.add otherUrl [], silent⟩) (by decide) hfirst).2
  rw [hspec'] at hsecond
  obtain ⟨ns, hns, hlists⟩ := hsecond.loads
  refine ⟨ns, ?_, fun n hn => ?_, ?_, ?_⟩
  · rw [smallSession, Deployment.runs, Act.run_command, Deployment.runs, Act.run_command, Deployment.runs,
      smallStart, hns]
  · have hentry := (hlists.mem n.name _).mpr ⟨n, hn, rfl, rfl⟩
    simp only [Std.ExtTreeMap.getElem?_insert] at hentry
    split_ifs at hentry
    · exact Or.inr (Prod.mk.inj (Option.some.inj hentry)).2.symm
    · exact Or.inl (Prod.mk.inj (Option.some.inj hentry)).2.symm
    · simp at hentry
  · obtain ⟨n, hn, -, hentry⟩ := (hlists.mem "n".toList (smallUrl, smallNode.ssh)).mp (by
      rw [Std.ExtTreeMap.getElem?_insert, if_neg (by decide), Std.ExtTreeMap.getElem?_insert_self])
    exact ⟨n, hn, (Prod.mk.inj hentry).2⟩
  · obtain ⟨n, hn, -, hentry⟩ := (hlists.mem "m".toList (otherUrl, otherNode.ssh)).mp
      Std.ExtTreeMap.getElem?_insert_self
    exact ⟨n, hn, (Prod.mk.inj hentry).2⟩

theorem smallSession_synced : (Act.sync silent wholeRsync).run smallSite
    (smallStart.runs smallSite smallSession) = (none, smallSynced) := by
  obtain ⟨ns, hns, hssh, ⟨n, hn, hn'⟩, -⟩ := smallSession_nodes
  have ht : targets ns ≠ [] := by
    refine List.ne_nil_of_mem (List.mem_filter.mpr ⟨hn, ?_⟩)
    rw [hn']
    decide
  have hstarted : started smallSite ns = targets ns := by
    refine started_eq_iff.mpr fun k hk => ?_
    rw [Startable]
    rcases hssh k (List.mem_of_mem_filter hk) with h | h
    · rw [h]
      decide
    · rw [h]
      decide
  have hall : failed wholeRsync 0 (targets ns) = [] := failed_eq_nil_iff.mpr fun _ _ => rfl
  have hok := Act.run_sync_eq_none hns ht rfl hstarted hall silent
  rw [smallSynced]
  generalize (Act.sync silent wholeRsync).run smallSite (smallStart.runs smallSite smallSession) = r at hok ⊢
  rw [← hok]

theorem smallSynced_nodes {ns : List Node} (h : smallSynced.world.nodes smallSite = .ok ns) :
    (∃ n ∈ ns, n.ssh = smallNode.ssh) ∧ ∃ n ∈ ns, n.ssh = otherNode.ssh := by
  obtain ⟨ms, hms, -, hboth⟩ := smallSession_nodes
  rw [Act.nodes_sync smallSession_synced, hms] at h
  obtain rfl := Except.ok.inj h
  exact hboth

/-- The machines of both nodes have the same files. -/
theorem synced_servers_agree_small : ∃ ns text clash, smallSynced.world.nodes smallSite = .ok ns ∧
    (b64decode text).bind decode = some (List.intercalate ['\n'] (ns.map Node.url)) ∧
    smallSynced.fleet "root@h:/etc/caddy/sub/".toList = ⟨some text, some clash⟩ ∧
    smallSynced.fleet "root@g:/etc/caddy/sub/".toList = ⟨some text, some clash⟩ := by
  obtain ⟨ns, text, clash, hns, -, htext, hfleet⟩ := synced_servers_agree (s := smallStart)
    (fresh_emptyWorld smallSite) safe_smallSession smallSession_synced
  obtain ⟨⟨n, hn, hssh⟩, n', hn', hssh'⟩ := smallSynced_nodes hns
  refine ⟨ns, text, clash, hns, htext, ?_, ?_⟩
  · rw [← hfleet n hn (by rw [hssh]; decide), Rsync.reaches, hssh]
    rfl
  · rw [← hfleet n' hn' (by rw [hssh']; decide), Rsync.reaches, hssh']
    rfl

end

/-! ### Restoring from a server -/

theorem isComponent_insert {m : Registry} {name : Str} {e : Str × Str} (h : ∀ k ∈ m, IsComponent k)
    (hname : IsComponent name) : ∀ k ∈ m.insert name e, IsComponent k := by
  intro k hk
  rcases Std.ExtTreeMap.mem_insert.mp hk with hk | hk
  · rw [← Std.compare_eq_iff_eq.mp hk]
    exact hname
  · exact h k hk

theorem bodyText_encodeUrls (urls : List Str) :
    bodyText (some (encode (encodeUrls urls))) = some (encodeUrls urls) := by
  have hstrip : strip (encodeUrls urls) = encodeUrls urls :=
    strip_of_forall fun c hc => not_isSpace_of_mem_b64encode hc
  rw [bodyText, Option.bind_some, decode_encode, Option.map_some, hstrip]

theorem decodeBody_encodeUrls (urls : List Str) :
    decodeBody (encodeUrls urls) = List.intercalate ['\n'] urls := by
  rw [decodeBody, encodeUrls, padding_b64encode, List.append_nil, b64decode_b64encode, Option.bind_some,
    decode_encode]
  rfl

section

variable [UnicodeData] {site : Site} {w : World} {m : Registry}

/-- The conf files store a registry whose names are file names. -/
def HasRegistry (site : Site) (w : World) : Prop := ∃ m, Stores site w m ∧ ∀ name ∈ m, IsComponent name

theorem isComponent_importAll {ssh : Str} {urls : List Str}
    (hurls : ∀ u ∈ urls, ∀ n, Node.init u [] = .ok n → IsComponent n.name) (h : ∀ k ∈ m, IsComponent k) :
    ∀ k ∈ (m.importAll ssh urls).2, IsComponent k := by
  induction urls generalizing m with
  | nil => exact h
  | cons url urls ih =>
      obtain ⟨hurl, hrest⟩ := List.forall_mem_cons.mp hurls
      cases hn : Node.init url [] with
      | error e =>
          simp only [Registry.importAll, hn]
          exact h
      | ok n =>
          simp only [Registry.importAll, hn]
          exact ih hrest (isComponent_insert h (hurl n hn))

theorem isComponent_spec {i : Invocation} (hi : i.Tidy) (h : ∀ k ∈ m, IsComponent k) :
    ∀ k ∈ (i.command.spec i.net m).2, IsComponent k := by
  obtain ⟨command, net⟩ := i
  cases command with
  | add url ssh =>
      simp only [Command.spec]
      cases hn : Node.init url ssh with
      | error e => exact h
      | ok n =>
          dsimp only
          split_ifs
          · exact h
          · exact isComponent_insert h (hi.2.2 n hn)
  | update url ssh =>
      simp only [Command.spec]
      cases hn : Node.init url [] with
      | error e => exact h
      | ok n =>
          dsimp only
          split
          · exact h
          · exact isComponent_insert h (hi.2.2 n hn)
  | remove name =>
      simp only [Command.spec]
      split_ifs
      · intro k hk
        exact h k (Std.ExtTreeMap.mem_of_mem_erase hk)
      · exact h
  | importSub url ssh =>
      simp only [Command.spec]
      cases hf : fetchedUrls net 0 url with
      | none => exact h
      | some urls =>
          dsimp only
          split_ifs
          · exact h
          · exact isComponent_importAll (hi.2 urls hf) h

variable {M : Type} [DecidableEq M] {s : Deployment M}

theorem Act.run_hasRegistry {a : Act M} (h : HasRegistry site s.world) (ha : ∀ i, a = .command i → i.Tidy) :
    HasRegistry site (a.run site s).2.world := by
  obtain ⟨m, hm, hnames⟩ := h
  have h0 : Stores site { s.world with requests := 0 } m := hm.frame id (fun _ => rfl)
  cases a with
  | command i =>
      rw [Act.run_command]
      exact ⟨_, (Invocation.run_spec (ha i rfl) hm).2, isComponent_spec (ha i rfl) hnames⟩
  | gen net =>
      rw [Act.run_gen]
      exact ⟨m, (h0.meets_afterChange net).stores, hnames⟩
  | sync net env =>
      refine ⟨m, ?_, hnames⟩
      rcases cmdSync_world net env { s with world := { s.world with requests := 0 } } with
        hw | ⟨ns, text, clash, -, -, hready⟩
      · have hrun : ((Act.sync net env).run site s).2.world = _ := hw
        rw [hrun]
        exact h0.frame (fun _ => rfl) (fun _ => rfl)
      · exact h0.frame (fun _ => hready.dir) (fun name => hready.confs _)

theorem Deployment.runs_hasRegistry {as : List (Act M)} (h : HasRegistry site s.world) (has : TidyActs as) :
    HasRegistry site (s.runs site as).world := by
  induction as generalizing s with
  | nil => exact h
  | cons a as ih =>
      refine ih (Act.run_hasRegistry h fun i hi => has i (by simp [hi])) fun i hi => has i ?_
      exact List.mem_cons_of_mem a hi

/-- The subscription of loaded nodes is read back as their URLs. Each URL is one stripped line with
the scheme, so the lines are cut where they were joined and none is dropped. -/
theorem subUrls_encodeUrls {ns : List Node} (hns : w.nodes site = .ok ns) :
    subUrls (some (encode (encodeUrls (ns.map Node.url)))) = some (ns.map Node.url) := by
  have hlines : ∀ u ∈ ns.map Node.url, IsNodeLine u ∧ startswith u vlessScheme = true := by
    intro u hu
    obtain ⟨n, hn, rfl⟩ := List.mem_map.mp hu
    obtain ⟨t, -, ht⟩ := (mem_confNodes hns).mp hn
    exact ⟨isNodeLine_of_confNode ht, (Node.init_url (confNode_inv ht)).2.2⟩
  rw [subUrls, bodyText_encodeUrls, Option.map_some, decodeBody_encodeUrls]
  refine congrArg some ?_
  have hsplit : splitlines (List.intercalate ['\n'] (ns.map Node.url)) = ns.map Node.url :=
    splitlines_intercalate fun u hu => ⟨(hlines u hu).1.oneLine, (hlines u hu).1.ne_nil⟩
  have hmap : (ns.map Node.url).map strip = ns.map Node.url := by
    conv_rhs => rw [← List.map_id (ns.map Node.url)]
    exact List.map_congr_left fun u hu => (hlines u hu).1.stripped
  rw [vlessLines, hsplit, hmap]
  exact List.filter_eq_self.mpr fun u hu => (hlines u hu).2

/-- Nodes of different names are all registered. By induction on the nodes: a later one does not
replace an earlier one, because its name is another. -/
theorem importAll_nodes {ns : List Node} (hnodup : (ns.map Node.name).Nodup)
    (hns : ∀ n ∈ ns, Node.init n.url [] = .ok (n.withSsh [])) :
    ∃ m', m.importAll [] (ns.map Node.url) = (true, m') ∧ ∀ name e, m'[name]? = some e ↔
      (∃ n ∈ ns, n.name = name ∧ (n.url, strip (rootAt n)) = e) ∨
        (name ∉ ns.map Node.name ∧ m[name]? = some e) := by
  induction ns generalizing m with
  | nil => exact ⟨m, rfl, by simp⟩
  | cons n ns ih =>
      obtain ⟨hn, hrest⟩ := List.forall_mem_cons.mp hns
      obtain ⟨hnot, hnodup'⟩ := List.nodup_cons.mp hnodup
      obtain ⟨m', hm', hget⟩ := ih (m := m.insert n.name (n.url, strip (rootAt n))) hnodup' hrest
      refine ⟨m', ?_, fun name e => ?_⟩
      · rw [List.map_cons, Registry.importAll, hn]
        exact hm'
      · rw [hget, Std.ExtTreeMap.getElem?_insert]
        simp only [Std.compare_eq_iff_eq]
        by_cases hname : n.name = name
        · subst hname
          simp [hnot, or_comm]
        · simp [hname, Ne.symm hname]

/-- Two nodes of one URL differ in their target alone. -/
theorem eq_withSsh_of_confNode {t t' : Str} {n n' : Node} (h : confNode t = .ok (some n))
    (h' : confNode t' = .ok (some n')) (hurl : n'.url = n.url) : n' = n.withSsh n'.ssh := by
  have h1 := Node.init_again (confNode_inv h) n'.ssh
  have h2 := Node.init_again (confNode_inv h') n'.ssh
  rw [← hurl, h2] at h1
  have hself := (Node.init_url (confNode_inv h')).2.1
  rw [hself, strip_idem, ← hself] at h1
  exact Except.ok.inj h1

/-- **Any server restores the registry.** After any session of tidy and safe commands, `gen` without
extra subscriptions and `sync` from a fresh home that ends in a successful sync, importing the
subscription of any server of the registry that has an SSH target into another fresh home succeeds,
and registers exactly the nodes of the first, each with the default target. -/
theorem restore_from_server {s' : Deployment M} {site' : Site} {v : World} {net net' : Net} {env : Rsync M}
    (hfresh : s.world.Fresh site) (hv : v.Fresh site') {as : List (Act M)} (htidy : TidyActs as)
    (hsafe : SafeActs site s as) (hsync : (Act.sync net env).run site (s.runs site as) = (none, s'))
    {ns : List Node} (hns : s'.world.nodes site = .ok ns) {n : Node} (hn : n ∈ ns) (hssh : n.ssh ≠ [])
    {url : Str} (hurl : isRequestUrl url = true)
    (hserved : net'.web 0 url subFetchUA = (s'.fleet (env.reaches site n)).base64.map encode) :
    ((⟨.importSub url [], net'⟩ : Invocation).run site' v).1 = none ∧
      ∃ ms, ((⟨.importSub url [], net'⟩ : Invocation).run site' v).2.nodes site' = .ok ms ∧
        ms.Perm (ns.map fun n => n.withSsh (strip (rootAt n))) := by
  obtain ⟨ns', text, clash, hns', -, htext, hfleet⟩ := synced hfresh hsafe hsync
  obtain rfl := Except.ok.inj (hns.symm.trans hns')
  rw [hfleet n hn hssh, htext, Option.map_some] at hserved
  have hfetched : fetchedUrls net' 0 url = some (ns.map Node.url) := by
    rw [fetchedUrls, if_pos hurl, hserved, subUrls_encodeUrls hns, Option.filter_some, if_pos]
    simpa using List.ne_nil_of_mem hn
  -- the nodes are those of a registry whose names are file names
  have hregistry : HasRegistry site s'.world := by
    have h := Act.run_hasRegistry (a := .sync net env)
      (Deployment.runs_hasRegistry ⟨∅, stores_fresh hfresh, by simp⟩ htidy) (by simp)
    rwa [hsync] at h
  obtain ⟨m, hm, hnames⟩ := hregistry
  obtain ⟨ns', hns', hlists⟩ := hm.loads
  obtain rfl := Except.ok.inj (hns.symm.trans hns')
  have hagain : ∀ k ∈ ns, Node.init k.url [] = .ok (k.withSsh []) := by
    intro k hk
    obtain ⟨t, -, ht⟩ := (mem_confNodes hns).mp hk
    exact Node.init_again (confNode_inv ht) []
  have hcomponent : ∀ k ∈ ns, IsComponent k.name := by
    intro k hk
    refine hnames k.name (Std.ExtTreeMap.mem_iff_isSome_getElem?.mpr ?_)
    rw [(hlists.mem k.name _).mpr ⟨k, hk, rfl, rfl⟩]
    rfl
  have htidy' : (⟨.importSub url [], net'⟩ : Invocation).Tidy := by
    refine ⟨by simp [OneLine], ?_⟩
    intro urls hurls u hu k hk
    obtain rfl := Option.some.inj (hfetched.symm.trans hurls)
    obtain ⟨k', hk', rfl⟩ := List.mem_map.mp hu
    obtain rfl := Except.ok.inj ((hagain k' hk').symm.trans hk)
    exact hcomponent k' hk'
  obtain ⟨hout, hstores⟩ := Invocation.run_spec htidy' (stores_fresh hv)
  obtain ⟨m', hm', hget⟩ := importAll_nodes (m := ∅) hlists.nodup hagain
  have hspec : (Command.importSub url []).spec net' ∅ = (true, m') := by
    simp only [Command.spec, hfetched]
    simpa using hm'
  rw [hspec] at hout hstores
  refine ⟨hout.mpr rfl, ?_⟩
  obtain ⟨ms, hms, hlists'⟩ := hstores.loads
  refine ⟨ms, hms, ?_⟩
  have hnodup : (ns.map fun k => k.withSsh (strip (rootAt k))).Nodup := by
    refine List.Nodup.of_map Node.name ?_
    rw [List.map_map]
    exact hlists.nodup
  rw [List.perm_ext_iff_of_nodup (hlists'.nodup.of_map _) hnodup]
  intro k'
  rw [List.mem_map]
  constructor
  · intro hk'
    obtain ⟨k, hk, hname, hentry⟩ : ∃ k ∈ ns, k.name = k'.name ∧ (k.url, strip (rootAt k)) = (k'.url, k'.ssh) := by
      simpa using (hget k'.name _).mp ((hlists'.mem k'.name _).mpr ⟨k', hk', rfl, rfl⟩)
    obtain ⟨t, -, ht⟩ := (mem_confNodes hns).mp hk
    obtain ⟨t', -, ht'⟩ := (mem_confNodes hms).mp hk'
    obtain ⟨hu, hs⟩ := Prod.mk.inj hentry
    refine ⟨k, hk, ?_⟩
    rw [hs]
    exact (eq_withSsh_of_confNode ht ht' hu.symm).symm
  · rintro ⟨k, hk, rfl⟩
    obtain ⟨k', hk', hname, hentry⟩ := (hlists'.mem k.name (k.url, strip (rootAt k))).mp
      ((hget k.name _).mpr (Or.inl ⟨k, hk, rfl, rfl⟩))
    obtain ⟨t, -, ht⟩ := (mem_confNodes hns).mp hk
    obtain ⟨t', -, ht'⟩ := (mem_confNodes hms).mp hk'
    obtain ⟨hu, hs⟩ := Prod.mk.inj hentry
    rw [← hs, ← eq_withSsh_of_confNode ht ht' hu]
    exact hk'

end

section

attribute [local instance] asciiData

/-- The base64 file of the second machine is what every request is answered with. -/
def syncedServer : Net :=
  ⟨fun _ _ _ => (smallSynced.fleet "root@g:/etc/caddy/sub/".toList).base64.map encode, []⟩

theorem restore_from_server_small : ∃ ns ms, smallSynced.world.nodes smallSite = .ok ns ∧
    ((⟨.importSub "http://g".toList [], syncedServer⟩ : Invocation).run smallSite emptyWorld).1 = none ∧
    ((⟨.importSub "http://g".toList [], syncedServer⟩ : Invocation).run smallSite emptyWorld).2.nodes smallSite =
      .ok ms ∧ ms.Perm (ns.map fun n => n.withSsh (strip (rootAt n))) := by
  obtain ⟨ns, text, clash, hns, -, -, -⟩ :=
    synced (s := smallStart) (fresh_emptyWorld smallSite) safe_smallSession smallSession_synced
  obtain ⟨-, n, hn, hssh⟩ := smallSynced_nodes hns
  have hserved : syncedServer.web 0 "http://g".toList subFetchUA =
      (smallSynced.fleet (wholeRsync.reaches smallSite n)).base64.map encode := by
    rw [Rsync.reaches, hssh]
    rfl
  obtain ⟨hok, ms, hms, hperm⟩ := restore_from_server (s := smallStart) (fresh_emptyWorld smallSite)
    (fresh_emptyWorld smallSite) tidy_smallSession safe_smallSession smallSession_synced hns hn
    (by rw [hssh]; decide) (by decide : isRequestUrl "http://g".toList = true) hserved
  exact ⟨ns, ms, hns, hok, hms, hperm⟩

end

end BlogStuff.VlessSubs
