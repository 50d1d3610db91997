import BlogStuff.VlessSubs.Stored

/-!
# BlogStuff.VlessSubs.Sync

`cmd_sync` of `vless_subs.py`: the output files are pushed to every server of the registry, one
`rsync` after the other.

The state is a `Deployment`, the files of the tool and the subscription directory of every
machine. Which machine a command line reaches, and how its `rsync` ends, is up to the
environment: two targets may be one machine, and an `rsync` that fails may have replaced either
file. What holds for every environment is that a file is replaced as a whole (`rsync` renames a
finished copy into place), and that both are when the exit status is 0.

A target whose text holds a NUL cannot be an argument of a program: `subprocess.run` raises, and the
loop ends there. The targets in front of the first such one are `started`.
-/

namespace BlogStuff.VlessSubs

open BlogStuff.Python

/-! ### The servers -/

/-- The two files of `/etc/caddy/sub` on a machine. -/
@[ext] structure SubDir where
  base64 : Option Str
  clash : Option Str
  deriving DecidableEq

/-- How one `rsync` ends: its exit status, and the files it has replaced. -/
structure Transfer where
  code : Int
  base64 : Bool
  clash : Bool
  whole : code = 0 → base64 = true ∧ clash = true

/-- A transfer that ends well. -/
def Transfer.good : Transfer := ⟨0, true, true, fun _ => ⟨rfl, rfl⟩⟩

/-- What one `sync` meets: whether there is an `rsync` to start, the machine a command line
reaches, and how the `i`-th transfer ends. -/
structure Rsync (M : Type) where
  installed : Bool
  machine : List Str → M
  transfer : Nat → Transfer

/-- The files of the tool, and those of every machine. -/
structure Deployment (M : Type) where
  world : World
  fleet : M → SubDir

/-- A computation that also changes the machines. -/
abbrev Remote (M : Type) := EStateM Exit (Deployment M)

section

variable {M : Type} [DecidableEq M]

/-- A computation of the tool alone. -/
def onManager {α : Type} (p : Prog α) : Remote M α := fun s =>
  match p.run s.world with
  | .ok a w => .ok a { s with world := w }
  | .error e w => .error e { s with world := w }

/-- The directory after a transfer of the outputs. -/
def World.pushedTo (site : Site) (w : World) (r : Transfer) (d : SubDir) : SubDir where
  base64 := if r.base64 then w.read (base64Path site) <|> d.base64 else d.base64
  clash := if r.clash then w.read (clashPath site) <|> d.clash else d.clash

/-- An argument holds a NUL. -/
def hasNul (cmd : List Str) : Bool := cmd.any fun a => a.contains '\x00'

/-- `subprocess.run(cmd).returncode`, for the `i`-th command. The arguments are checked before the
program is looked for. -/
def runRsync (site : Site) (env : Rsync M) (i : Nat) (cmd : List Str) : Remote M Int := do
  if hasNul cmd then throw .argument
  else if env.installed then
    let k := env.machine cmd
    modify fun s => { s with
      fleet := Function.update s.fleet k (s.world.pushedTo site (env.transfer i) (s.fleet k)) }
    return (env.transfer i).code
  else throw .os

/-! ### The command -/

/-- `str(path)`. -/
def pathStr (p : Path) : Str := '/' :: List.intercalate ['/'] p

/-- `REMOTE_SUB_DIR`. -/
def remoteSubDir : Str := "/etc/caddy/sub".toList

variable [UnicodeData] (site : Site) (net : Net) (env : Rsync M)

/-- The command line for a target. A port in the target becomes an option of `ssh`, and the two
outputs go to the directory of the web server. -/
def rsyncCmd (ssh : Str) : List Str :=
  let (host, port) := parseSsh ssh
  ["rsync".toList, "-az".toList] ++
    (match port with
      | some port => ["-e".toList, "ssh -p ".toList ++ port]
      | none => []) ++
    [pathStr (base64Path site), pathStr (clashPath site), host ++ ":".toList ++ remoteSubDir ++ "/".toList]

/-- The machine of a node. -/
def Rsync.reaches (n : Node) : M := env.machine (rsyncCmd site n.ssh)

/-- The loop over the targets: the names of those that failed. -/
def pushLoop : Nat → List Node → Remote M (List Str)
  | _, [] => return []
  | i, n :: ns => do
      let rc ← runRsync site env i (rsyncCmd site n.ssh)
      let failures ← pushLoop (i + 1) ns
      return (if rc ≠ 0 then [n.name] else []) ++ failures

/-- The nodes that can receive files. -/
def targets (nodes : List Node) : List Node := nodes.filter fun n => n.ssh ≠ []

/-- The command of a node can be run. -/
def Startable (n : Node) : Prop := hasNul (rsyncCmd site n.ssh) = false

instance : DecidablePred (Startable site) := fun n =>
  inferInstanceAs (Decidable (hasNul (rsyncCmd site n.ssh) = false))

/-- The targets whose transfer is started. -/
def started (nodes : List Node) : List Node := (targets nodes).takeWhile fun n => Startable site n

/-- The message when there are none. -/
def noTargetsMsg : Str := "No nodes have an SSH target; nothing to sync.".toList

/-- The message for targets that failed. -/
def syncFailedMsg (failures : List Str) : Str :=
  "Sync failed for: ".toList ++ List.intercalate ", ".toList failures

/-- The second half of `cmd_sync`. -/
def pushAll (nodes : List Node) : Remote M Unit := do
  if targets nodes = [] then throw (.die noTargetsMsg)
  else
    let failures ← pushLoop site env 0 (targets nodes)
    if failures = [] then return else throw (.die (syncFailedMsg failures))

/-- The outputs are generated if one of them is missing. -/
def ensureOutputs : Prog Unit := do
  let w ← get
  if w.exists site (base64Path site) ∧ w.exists site (clashPath site) then return
  else
    let _ ← cmdGen site net []

/-- The message of `sync` for an empty registry. -/
def noNodesSyncMsg : Str := "No nodes registered.".toList

/-- `cmd_sync(_args)`. -/
def cmdSync : Remote M Unit := do
  let nodes ← onManager (loadNodes site)
  if nodes = [] then throw (.die noNodesSyncMsg)
  else
    onManager (ensureOutputs site net)
    pushAll site env nodes

end

/-! ### The loop -/

section

variable {M : Type} {env : Rsync M} {s : Deployment M}

theorem run_onManager_ok {α : Type} {p : Prog α} {a : α} {v : World} (h : p.run s.world = .ok a v) :
    (onManager p : Remote M α).run s = .ok a { s with world := v } := by
  simp only [onManager, EStateM.run] at h ⊢
  rw [h]

theorem run_onManager_error {α : Type} {p : Prog α} {e : Exit} {v : World}
    (h : p.run s.world = .error e v) :
    (onManager p : Remote M α).run s = .error e { s with world := v } := by
  simp only [onManager, EStateM.run] at h ⊢
  rw [h]

theorem after_onManager {α : Type} (p : Prog α) :
    after ((onManager p : Remote M α).run s) = { s with world := after (p.run s.world) } := by
  cases h : p.run s.world with
  | ok a w => rw [run_onManager_ok h]; rfl
  | error e w => rw [run_onManager_error h]; rfl

/-- The targets, counted from `i`, whose transfer failed. -/
def failed (env : Rsync M) (i : Nat) (ns : List Node) : List Str :=
  ((ns.zipIdx i).filter fun p => (env.transfer p.2).code ≠ 0).map fun p => p.1.name

theorem failed_cons (i : Nat) (n : Node) (ns : List Node) : failed env i (n :: ns) =
    (if (env.transfer i).code ≠ 0 then [n.name] else []) ++ failed env (i + 1) ns := by
  rw [failed, failed, List.zipIdx_cons, List.filter_cons]
  by_cases hcode : (env.transfer i).code = 0 <;> simp [hcode]

theorem failed_eq_nil_iff {i : Nat} {ns : List Node} :
    failed env i ns = [] ↔ ∀ j < ns.length, (env.transfer (i + j)).code = 0 := by
  rw [failed, List.map_eq_nil_iff, List.filter_eq_nil_iff]
  constructor
  · intro h j hj
    have := h (ns[j], i + j) (by rw [List.mk_mem_zipIdx_iff_le_and_getElem?_sub]; simp [hj])
    simpa using this
  · rintro h ⟨n, k⟩ hmem
    obtain ⟨hle, hlt, -⟩ := List.mem_zipIdx hmem
    have := h (k - i) (by omega)
    rw [Nat.add_sub_cancel' hle] at this
    simpa using this

/-- Of the two outputs, the directory has the old one or the new one. -/
def OldOrNew (text clash : Str) (old d : SubDir) : Prop :=
  (d.base64 = old.base64 ∨ d.base64 = some text) ∧ (d.clash = old.clash ∨ d.clash = some clash)

theorem OldOrNew.of_new {text clash : Str} {old d : SubDir} (h : OldOrNew text clash old d)
    (hold : old = ⟨some text, some clash⟩) : d = ⟨some text, some clash⟩ := by
  subst hold
  ext1
  · exact h.1.elim id id
  · exact h.2.elim id id

section outputs

variable {site : Site} {w : World} {text clash : Str} (htext : w.read (base64Path site) = some text)
  (hclash : w.read (clashPath site) = some clash)

include htext hclash

theorem pushedTo_oldOrNew {old d : SubDir} (r : Transfer) (h : OldOrNew text clash old d) :
    OldOrNew text clash old (w.pushedTo site r d) := by
  rw [World.pushedTo, htext, hclash]
  obtain ⟨hb, hc⟩ := h
  refine ⟨?_, ?_⟩
  · dsimp only
    split_ifs
    · exact Or.inr rfl
    · exact hb
  · dsimp only
    split_ifs
    · exact Or.inr rfl
    · exact hc

theorem pushedTo_of_code {r : Transfer} (h : r.code = 0) (d : SubDir) :
    w.pushedTo site r d = ⟨some text, some clash⟩ := by
  obtain ⟨hb, hc⟩ := r.whole h
  rw [World.pushedTo, hb, hc, htext, hclash]
  rfl

end outputs

theorem run_runRsync [DecidableEq M] {site : Site} (h : env.installed = true) (i : Nat) {cmd : List Str}
    (hnul : hasNul cmd = false) :
    (runRsync site env i cmd).run s = .ok (env.transfer i).code { s with
      fleet := Function.update s.fleet (env.machine cmd)
        (s.world.pushedTo site (env.transfer i) (s.fleet (env.machine cmd))) } := by
  simp only [runRsync, hnul, h, if_true, Bool.false_eq_true, if_false]
  rfl

theorem run_runRsync_nul [DecidableEq M] {site : Site} {i : Nat} {cmd : List Str} (hnul : hasNul cmd = true) :
    (runRsync site env i cmd).run s = .error .argument s := by
  simp only [runRsync, hnul, if_true]
  rfl

end

section

variable {M : Type} [DecidableEq M] [UnicodeData] {site : Site} {net : Net} {env : Rsync M}
  {w : World} {s : Deployment M}

/-- What the loop makes of the machines. -/
def pushed (site : Site) (env : Rsync M) (w : World) : Nat → List Node → (M → SubDir) → M → SubDir
  | _, [], f => f
  | i, n :: ns, f => pushed site env w (i + 1) ns (Function.update f (env.reaches site n)
      (w.pushedTo site (env.transfer i) (f (env.reaches site n))))

theorem run_pushLoop (h : env.installed = true) (i : Nat) {ns : List Node}
    (hns : ∀ n ∈ ns, Startable site n) :
    (pushLoop site env i ns).run s =
      .ok (failed env i ns) { s with fleet := pushed site env s.world i ns s.fleet } := by
  induction ns generalizing i s with
  | nil => rfl
  | cons n ns ih =>
      obtain ⟨hn, hrest⟩ := List.forall_mem_cons.mp hns
      rw [pushLoop, run_bind_of_ok (run_runRsync h i hn), run_bind_of_ok (ih (i + 1) hrest), failed_cons]
      rfl

/-- The loop ends at the first target that cannot be started. Those in front of it have been pushed
to, and nothing is pushed to it or behind it. -/
theorem run_pushLoop_nul (h : env.installed = true) (i : Nat) {ns : List Node}
    (hns : ¬ ∀ n ∈ ns, Startable site n) :
    (pushLoop site env i ns).run s = .error .argument { s with
      fleet := pushed site env s.world i (ns.takeWhile fun n => Startable site n) s.fleet } := by
  induction ns generalizing i s with
  | nil => simp at hns
  | cons n ns ih =>
      by_cases hn : Startable site n
      · have hrest : ¬ ∀ m ∈ ns, Startable site m := fun hall => hns (List.forall_mem_cons.mpr ⟨hn, hall⟩)
        rw [pushLoop, run_bind_of_ok (run_runRsync h i hn), run_bind_of_error (ih (i + 1) hrest),
          List.takeWhile_cons_of_pos (by simpa using hn)]
        rfl
      · have hnul : hasNul (rsyncCmd site n.ssh) = true := by simpa [Startable] using hn
        rw [pushLoop, run_bind_of_error (run_runRsync_nul hnul),
          List.takeWhile_cons_of_neg (by simpa using hn)]
        rfl

section outputs

variable {text clash : Str} (htext : w.read (base64Path site) = some text)
  (hclash : w.read (clashPath site) = some clash)

include htext hclash

/-- The loop leaves every file as it is or replaces it by the output. -/
theorem pushed_oldOrNew {old f : M → SubDir} (hf : ∀ k, OldOrNew text clash (old k) (f k)) (i : Nat)
    (ns : List Node) (k : M) : OldOrNew text clash (old k) (pushed site env w i ns f k) := by
  induction ns generalizing i f with
  | nil => exact hf k
  | cons n ns ih =>
      rw [pushed]
      refine ih (fun j => ?_) (i + 1)
      by_cases hj : j = env.reaches site n
      · rw [hj, Function.update_self]
        exact pushedTo_oldOrNew htext hclash _ (hf _)
      · rw [Function.update_of_ne hj]
        exact hf j

theorem pushed_of_new {f : M → SubDir} {k : M} (hk : f k = ⟨some text, some clash⟩) (i : Nat)
    (ns : List Node) : pushed site env w i ns f k = ⟨some text, some clash⟩ := by
  have hrefl : ∀ j, OldOrNew text clash (f j) (f j) := fun j => ⟨Or.inl rfl, Or.inl rfl⟩
  exact (pushed_oldOrNew htext hclash hrefl i ns k).of_new hk

/-- A target whose transfer succeeds has both outputs in the end, whatever comes after: a later
transfer to the same machine sends the same two files. -/
theorem pushed_of_code {f : M → SubDir} {ns : List Node} {n : Node} {i j : Nat} (hn : ns[j]? = some n)
    (hcode : (env.transfer (i + j)).code = 0) :
    pushed site env w i ns f (env.reaches site n) = ⟨some text, some clash⟩ := by
  induction ns generalizing i j f with
  | nil => simp at hn
  | cons m ns ih =>
      rw [pushed]
      cases j with
      | zero =>
          obtain rfl : m = n := by simpa using hn
          refine pushed_of_new htext hclash ?_ (i + 1) ns
          rw [Function.update_self]
          exact pushedTo_of_code htext hclash hcode _
      | succ j =>
          refine ih (j := j) (by simpa using hn) ?_
          rw [← hcode]
          congr 2
          omega

end outputs

theorem pushed_of_not_reached {f : M → SubDir} {ns : List Node} {k : M} (i : Nat)
    (h : ∀ n ∈ ns, env.reaches site n ≠ k) : pushed site env w i ns f k = f k := by
  induction ns generalizing i f with
  | nil => rfl
  | cons n ns ih =>
      rw [pushed, ih (i + 1) fun m hm => h m (List.mem_cons_of_mem n hm),
        Function.update_of_ne (h n List.mem_cons_self).symm]

end

/-! ### One sync -/

theorem exists_out {site : Site} {w : World} {f : Str} (hf : f ≠ ['.', '.']) (hnul : '\x00' ∉ f)
    (h : w.exists site (site.outDir ++ [f]) = true) : (w.read (site.outDir ++ [f])).isSome = true := by
  have hout : site.outDir ++ [f] = site.home ++ ["out".toList, f] := by
    rw [Site.outDir, List.append_assoc]
    rfl
  cases hdir : w.outDir with
  | false =>
      have hnone : resolve (w.isDir site) (site.outDir ++ [f]) = none := by
        rw [hout]
        exact target_of_not_dir (by decide) (isDir_outDir.trans hdir)
      rw [World.exists, hnone] at h
      cases h
  | true =>
      have htarget : w.target site (site.outDir ++ [f]) = some (site.outDir ++ [f]) :=
        target_out hdir hf hnul
      obtain ⟨hres, -⟩ := Option.filter_eq_some_iff.mp htarget
      have hentry : w.isDir site (site.outDir ++ [f]) = false := by
        rw [hout]
        exact isDir_entry _ _
      rw [World.exists, hres] at h
      simpa [hentry] using h

section

variable {M : Type} [DecidableEq M] [UnicodeData] {site : Site} {net : Net} {env : Rsync M}
  {w : World} {s : Deployment M} {ns : List Node}

/-- What `ensure_outputs` leaves: both outputs, and the registry as it was. -/
structure World.Ready (site : Site) (w w' : World) (text clash : Str) : Prop where
  base64 : w'.read (base64Path site) = some text
  clash : w'.read (clashPath site) = some clash
  confs : ∀ f, w'.read (site.nodesDir ++ [f]) = w.read (site.nodesDir ++ [f])
  dir : w'.nodesDir = true
  /-- Nothing is generated over an output that is there. -/
  kept : w'.read (base64Path site) = w.read (base64Path site) ∨
    ∀ ns, w.nodes site = .ok ns → text = encodeUrls (ns.map Node.url)

theorem World.Ready.nodes {w' : World} {text clash : Str} (h : w.Ready site w' text clash) :
    w'.nodes site = w.nodes site := by
  rw [World.nodes, confs_congr h.confs]
  rfl

theorem run_ensureOutputs (net : Net) (hdir : w.nodesDir = true) (hns : w.nodes site = .ok ns) (hne : ns ≠ []) :
    ∃ w' text clash, (ensureOutputs site net).run w = .ok () w' ∧ w.Ready site w' text clash := by
  rw [ensureOutputs, run_bind_of_ok (EStateM.run_get w)]
  by_cases hboth : w.exists site (base64Path site) ∧ w.exists site (clashPath site)
  · obtain ⟨text, htext⟩ := Option.isSome_iff_exists.mp (exists_out (by decide) (by decide) hboth.1)
    obtain ⟨clash, hclash⟩ := Option.isSome_iff_exists.mp (exists_out (by decide) (by decide) hboth.2)
    refine ⟨w, text, clash, ?_, htext, hclash, fun _ => rfl, hdir, Or.inl rfl⟩
    rw [if_pos hboth]
    rfl
  · refine ⟨w.generated site (encodeUrls (ns.map Node.url)) (ownClash net ns), encodeUrls (ns.map Node.url),
      ownClash net ns, ?_, ?_, ?_, read_generated _ _, rfl, Or.inr ?_⟩
    · rw [if_neg hboth, run_bind_of_ok (run_cmdGen_nodes hns hne)]
      rfl
    · rw [World.generated, World.read_write, if_neg (clashPath_ne_base64Path site), World.read_write,
        if_pos rfl]
    · rw [World.generated, World.read_write, if_pos rfl]
    · intro ms hms
      obtain rfl := Except.ok.inj (hns.symm.trans hms)
      rfl

/-- **All a sync can do before it pushes**: stop without a node to push to, or come to the loop
with both outputs in place. -/
theorem cmdSync_cases (net : Net) (env : Rsync M) (s : Deployment M) :
    (∃ e, (∀ ns, s.world.nodes site = .ok ns → ns = []) ∧
        (cmdSync site net env).run s = .error e ⟨{ s.world with nodesDir := true }, s.fleet⟩) ∨
      ∃ ns w' text clash, s.world.nodes site = .ok ns ∧ ns ≠ [] ∧ s.world.Ready site w' text clash ∧
        (cmdSync site net env).run s = (pushAll site env ns).run ⟨w', s.fleet⟩ := by
  cases hns : s.world.nodes site with
  | error e =>
      have hload : (loadNodes site).run s.world = .error e { s.world with nodesDir := true } := by
        rw [run_loadNodes, hns]
      refine Or.inl ⟨e, by simp, ?_⟩
      rw [cmdSync, run_bind_of_error (run_onManager_error hload)]
  | ok ns =>
      have hload : (loadNodes site).run s.world = .ok ns { s.world with nodesDir := true } := by
        rw [run_loadNodes, hns]
      rw [cmdSync, run_bind_of_ok (run_onManager_ok hload)]
      by_cases hne : ns = []
      · refine Or.inl ⟨.die noNodesSyncMsg, fun ms h => (Except.ok.inj h).symm.trans hne, ?_⟩
        rw [if_pos hne]
        rfl
      · obtain ⟨w', text, clash, hrun, hready⟩ :=
          run_ensureOutputs net (w := { s.world with nodesDir := true }) rfl hns hne
        refine Or.inr ⟨ns, w', text, clash, rfl, hne,
          ⟨hready.base64, hready.clash, hready.confs, hready.dir, hready.kept⟩, ?_⟩
        rw [if_neg hne,
          run_bind_of_ok (run_onManager_ok (s := ⟨{ s.world with nodesDir := true }, s.fleet⟩) hrun)]

theorem started_eq_iff : started site ns = targets ns ↔ ∀ n ∈ targets ns, Startable site n := by
  rw [started, List.takeWhile_eq_self_iff]
  simp

/-- How a sync ends that comes to the loop. -/
def syncExit (site : Site) (env : Rsync M) (ns : List Node) : Option Exit :=
  if started site ns ≠ targets ns then some .argument
  else if failed env 0 (targets ns) = [] then none
  else some (.die (syncFailedMsg (failed env 0 (targets ns))))

theorem run_pushAll (s : Deployment M) (h : env.installed = true) (ht : targets ns ≠ []) :
    exitOf ((pushAll site env ns).run s) = syncExit site env ns ∧
      after ((pushAll site env ns).run s) =
        { s with fleet := pushed site env s.world 0 (started site ns) s.fleet } := by
  rw [pushAll, if_neg ht, syncExit]
  by_cases hall : started site ns = targets ns
  · rw [run_bind_of_ok (run_pushLoop h 0 (started_eq_iff.mp hall)), if_neg (not_not.mpr hall), hall]
    split_ifs <;> exact ⟨rfl, rfl⟩
  · rw [run_bind_of_error (run_pushLoop_nul h 0 (mt started_eq_iff.mpr hall)), if_pos hall]
    exact ⟨rfl, rfl⟩

theorem run_pushLoop_missing (site : Site) (s : Deployment M) (h : env.installed = false) {ms : List Node} (hne : ms ≠ []) :
    ∃ e, (pushLoop site env 0 ms).run s = .error e s := by
  obtain ⟨n, rest, rfl⟩ := List.exists_cons_of_ne_nil hne
  cases hnul : hasNul (rsyncCmd site n.ssh) with
  | true => exact ⟨.argument, by rw [pushLoop, run_bind_of_error (run_runRsync_nul hnul)]⟩
  | false =>
      have hstop : (runRsync site env 0 (rsyncCmd site n.ssh)).run s = .error .os s := by
        simp only [runRsync, h, hnul]
        rfl
      exact ⟨.os, by rw [pushLoop, run_bind_of_error hstop]⟩

/-- The second half never changes the files of the tool. -/
theorem pushAll_world (s : Deployment M) (ns : List Node) :
    (after ((pushAll site env ns).run s)).world = s.world := by
  by_cases ht : targets ns = []
  · rw [pushAll, if_pos ht]
    rfl
  cases hi : env.installed with
  | true => rw [(run_pushAll s hi ht).2]
  | false =>
      obtain ⟨e, hstop⟩ := run_pushLoop_missing site s hi ht
      rw [pushAll, if_neg ht, run_bind_of_error hstop]
      rfl

theorem cmdSync_world (net : Net) (env : Rsync M) (s : Deployment M) :
    (after ((cmdSync site net env).run s)).world = { s.world with nodesDir := true } ∨
      ∃ ns text clash, s.world.nodes site = .ok ns ∧ ns ≠ [] ∧
        s.world.Ready site (after ((cmdSync site net env).run s)).world text clash := by
  rcases cmdSync_cases net env s with ⟨e, -, hrun⟩ | ⟨ns, w', text, clash, hns, hne, hready, hrun⟩
  · rw [hrun]
    exact Or.inl rfl
  · rw [hrun, pushAll_world]
    exact Or.inr ⟨ns, text, clash, hns, hne, hready⟩

theorem pushAll_ok (h : exitOf ((pushAll site env ns).run s) = none) :
    env.installed = true ∧ targets ns ≠ [] ∧ started site ns = targets ns ∧
      failed env 0 (targets ns) = [] := by
  by_cases ht : targets ns = []
  · rw [pushAll, if_pos ht] at h
    cases h
  cases hi : env.installed with
  | false =>
      obtain ⟨e, hstop⟩ := run_pushLoop_missing site s hi ht
      rw [pushAll, if_neg ht, run_bind_of_error hstop] at h
      cases h
  | true =>
      rw [(run_pushAll s hi ht).1, syncExit] at h
      split_ifs at h with hall hf
      exact ⟨rfl, ht, not_not.mp hall, hf⟩

/-- What a sync that succeeds has done: both outputs are there, and every machine a node names has
them. A sync that stops early, or with one failed transfer, does not succeed. -/
theorem cmdSync_ok (h : exitOf ((cmdSync site net env).run s) = none) :
    ∃ ns w' text clash, s.world.nodes site = .ok ns ∧ targets ns ≠ [] ∧ s.world.Ready site w' text clash ∧
      (after ((cmdSync site net env).run s)).world = w' ∧
      ∀ n ∈ ns, n.ssh ≠ [] →
        (after ((cmdSync site net env).run s)).fleet (env.reaches site n) = ⟨some text, some clash⟩ := by
  rcases cmdSync_cases net env s with ⟨e, -, hrun⟩ | ⟨ns, w', text, clash, hns, -, hready, hrun⟩
  · rw [hrun] at h
    cases h
  rw [hrun] at h ⊢
  obtain ⟨hi, ht, hstarted, hall⟩ := pushAll_ok h
  refine ⟨ns, w', text, clash, hns, ht, hready, pushAll_world _ ns, fun n hn hssh => ?_⟩
  have hmem : n ∈ targets ns := List.mem_filter.mpr ⟨hn, by simpa using hssh⟩
  obtain ⟨i, hlt, rfl⟩ := List.getElem_of_mem hmem
  rw [(run_pushAll ⟨w', s.fleet⟩ hi ht).2, hstarted]
  exact pushed_of_code hready.base64 hready.clash (List.getElem?_eq_getElem hlt)
    (failed_eq_nil_iff.mp hall i hlt)

/-- A sync with something to push: the outputs are made ready, and the exit and the machines are
those of the pushes to the targets that can be started. -/
theorem run_cmdSync (net : Net) (env : Rsync M) (hns : s.world.nodes site = .ok ns) (ht : targets ns ≠ [])
    (hrsync : env.installed = true) :
    ∃ w' text clash, s.world.Ready site w' text clash ∧
      exitOf ((cmdSync site net env).run s) = syncExit site env ns ∧
      after ((cmdSync site net env).run s) = ⟨w', pushed site env w' 0 (started site ns) s.fleet⟩ := by
  have hne : ns ≠ [] := by
    rintro rfl
    exact ht rfl
  obtain ⟨e, hnil, -⟩ | ⟨ms, w', text, clash, hms, -, hready, hrun⟩ := cmdSync_cases net env s
  · exact absurd (hnil ns hns) hne
  obtain rfl := Except.ok.inj (hns.symm.trans hms)
  obtain ⟨hexit, hafter⟩ := run_pushAll ⟨w', s.fleet⟩ hrsync ht
  rw [hrun]
  exact ⟨w', text, clash, hready, hexit, hafter⟩

/-- **What a sync does**, for a registry that loads and has a target, with `rsync` installed. If
the command of a target cannot be run it raises there; otherwise it succeeds exactly if every
transfer does, and else names the targets whose transfer failed. The registry stays as it is. A
target whose transfer was started and succeeded has the two outputs, a machine that no started
target reaches is not touched, and in between every file of every machine is the old one or the
output. The loop never takes an output back, so what a transfer has brought stays. -/
theorem sync_spec (net : Net) (env : Rsync M) (hns : s.world.nodes site = .ok ns) (ht : targets ns ≠ [])
    (hrsync : env.installed = true) :
    ∃ s' text clash, after ((cmdSync site net env).run s) = s' ∧
      s'.world.read (base64Path site) = some text ∧ s'.world.read (clashPath site) = some clash ∧
      (∀ f, s'.world.read (site.nodesDir ++ [f]) = s.world.read (site.nodesDir ++ [f])) ∧
      exitOf ((cmdSync site net env).run s) =
        (if started site ns ≠ targets ns then some .argument
          else if failed env 0 (targets ns) = [] then none
          else some (.die (syncFailedMsg (failed env 0 (targets ns))))) ∧
      (∀ i n, (started site ns)[i]? = some n → (env.transfer i).code = 0 →
        s'.fleet (env.reaches site n) = ⟨some text, some clash⟩) ∧
      (∀ k, (∀ n ∈ started site ns, env.reaches site n ≠ k) → s'.fleet k = s.fleet k) ∧
      ∀ k, OldOrNew text clash (s.fleet k) (s'.fleet k) := by
  obtain ⟨w', text, clash, hready, hexit, hafter⟩ := run_cmdSync net env hns ht hrsync
  refine ⟨_, text, clash, hafter, hready.base64, hready.clash, hready.confs, hexit, ?_, ?_, ?_⟩
  · intro i n hi hcode
    exact pushed_of_code hready.base64 hready.clash hi (by rwa [Nat.zero_add])
  · intro k hk
    exact pushed_of_not_reached 0 hk
  · intro k
    exact pushed_oldOrNew hready.base64 hready.clash (fun j => ⟨Or.inl rfl, Or.inl rfl⟩) 0 _ k

end

section

attribute [local instance] asciiData

/-- Every target is a machine of its own, and the connection to the second one breaks after the
first of the two files. -/
def brokenRsync : Rsync Str where
  installed := true
  machine cmd := cmd.getLastD []
  transfer i := if i = 1 then ⟨12, true, false, by decide⟩ else .good

/-- Two nodes are registered, and no machine has a file. -/
def pairStart : Deployment Str := ⟨smallWorld.saved smallSite otherNode, fun _ => ⟨none, none⟩⟩

/-- The first of the two, by its file name, has both outputs; the other is named. -/
theorem sync_spec_broken : ∃ text clash,
    exitOf ((cmdSync smallSite silent brokenRsync).run pairStart) =
      some (.die (syncFailedMsg ["n".toList])) ∧
    (after ((cmdSync smallSite silent brokenRsync).run pairStart)).fleet
      "root@g:/etc/caddy/sub/".toList = ⟨some text, some clash⟩ := by
  have hnodes : pairStart.world.nodes smallSite = .ok [otherNode, smallNode] := by decide
  obtain ⟨s', text, clash, rfl, -, -, -, hexit, hfirst, -⟩ :=
    sync_spec silent brokenRsync hnodes (by decide) rfl
  refine ⟨text, clash, ?_, hfirst 0 otherNode (by decide) (by decide)⟩
  rw [hexit]
  decide

end

end BlogStuff.VlessSubs
