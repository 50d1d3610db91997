import BlogStuff.VlessSubs.Generate

/-!
# BlogStuff.VlessSubs.Commands

The commands of `vless_subs.py` that change the registry, and sequences of them.

An `Invocation` is one process: a command with its arguments, and the network it
meets. Its effects are the world it leaves behind, whether it ends or stops early;
`runs` is a session, one process after another.
-/

namespace BlogStuff.VlessSubs

open BlogStuff.Python

section

variable [UnicodeData] (site : Site) (net : Net)

/-- `_after_change()`. -/
def afterChange : Prog Unit := do
  let _ ← cmdGen site net []

/-- `f"root@{server}"`. -/
def rootAt (n : Node) : Str := "root@".toList ++ n.server

/-- The node `import` registers. -/
def importNode (n : Node) (ssh : Str) : Node := n.withSsh (pyOr ssh (rootAt n))

/-- The loop of `cmd_import` over the fetched URLs. -/
def importLoop (ssh : Str) : List Str → Prog Unit
  | [] => return
  | url :: urls => do
      let node ← check (Node.init url [])
      saveNode site (importNode node ssh)
      importLoop ssh urls

/-- The message for `--ssh` with more than one node. -/
def sshSingleMsg (count : Nat) : Str :=
  "--ssh applies to a single node, but ".toList ++ Nat.toDigits 10 count ++ " were found. ".toList ++
    "Import without --ssh (defaults to root@<ip>) and edit confs as needed.".toList

/-- `cmd_import(args)`. Every use of `args.ssh` in the commands takes a missing
option for an empty one. -/
def cmdImport (url ssh : Str) : Prog Unit := do
  let urls ← fetchSubUrls net url
  if ssh ≠ [] ∧ urls.length > 1 then throw (.die (sshSingleMsg urls.length))
  else
    importLoop site ssh urls
    afterChange site net

/-- The message of `add` for a name that is taken. -/
def existsMsg (name : Str) : Str :=
  "Node '".toList ++ name ++ "' already exists. Use 'update' to refresh it.".toList

/-- The node `add` registers. -/
def addNode (n : Node) : Node := n.withSsh (pyOr n.ssh (rootAt n))

/-- `cmd_add(args)`. -/
def cmdAdd (url ssh : Str) : Prog Unit := do
  let node ← check (Node.init url ssh)
  if (← get).exists site (confPath site node.name) then throw (.die (existsMsg node.name))
  else
    saveNode site (addNode node)
    afterChange site net

/-- `existing[name]` of the dictionary `{n.name: n for n in nodes}`. -/
def findNode (nodes : List Node) (name : Str) : Option Node :=
  nodes.reverse.find? fun n => n.name = name

/-- The message of `update` for a name that is not there. -/
def noNodeMsg (name : Str) : Str :=
  "No node named '".toList ++ name ++ "'. Use 'add' to register it first.".toList

/-- The node `update` registers in place of `old`. -/
def updateNode (n old : Node) (ssh : Str) : Node :=
  n.withSsh (pyOr ssh (pyOr old.ssh (rootAt n)))

/-- `cmd_update(args)`. The node is found by the name in the new URL, and keeps its target if no
other is given. -/
def cmdUpdate (url ssh : Str) : Prog Unit := do
  let node ← check (Node.init url [])
  let nodes ← loadNodes site
  match findNode nodes node.name with
  | none => throw (.die (noNodeMsg node.name))
  | some old =>
      saveNode site (updateNode node old ssh)
      afterChange site net

/-- The message of `remove` for a name that is not there. -/
def noSuchMsg (name : Str) : Str := "No such node: ".toList ++ name

/-- `cmd_remove(args)`. -/
def cmdRemove (name : Str) : Prog Unit := do
  if (← get).exists site (confPath site name) then
    unlink site (confPath site name)
    afterChange site net
  else throw (.die (noSuchMsg name))

end

/-! ### Regeneration -/

section

variable [UnicodeData] {site : Site} {net : Net} {w w' : World}

/-- **All a regeneration can do**: write the outputs of the loaded nodes, or stop and
change no file. -/
theorem afterChange_cases (site : Site) (net : Net) (w : World) :
    (∃ ns, w.nodes site = .ok ns ∧ ns ≠ [] ∧ (afterChange site net).run w =
        .ok () (w.generated site (encodeUrls (ns.map Node.url)) (ownClash net ns))) ∨
      ∃ e, (∀ ns, w.nodes site = .ok ns → ns = []) ∧
        (afterChange site net).run w = .error e { w with nodesDir := true } := by
  cases hns : w.nodes site with
  | error e =>
      refine Or.inr ⟨e, ?_, ?_⟩
      · intro ns h
        cases h
      · rw [afterChange, run_bind_of_error (run_cmdGen_error hns)]
  | ok ns =>
      by_cases hnil : ns = []
      · refine Or.inr ⟨.die noNodesMsg, fun ms h => (Except.ok.inj h).symm.trans hnil, ?_⟩
        rw [afterChange, run_bind_of_error (run_cmdGen_empty (hnil ▸ hns))]
      · refine Or.inl ⟨ns, rfl, hnil, ?_⟩
        rw [afterChange, run_bind_of_ok (run_cmdGen_nodes hns hnil)]
        rfl

theorem afterChange_ok (h : (afterChange site net).run w = .ok () w') :
    ∃ ns, w.nodes site = .ok ns ∧ ns ≠ [] ∧
      w' = w.generated site (encodeUrls (ns.map Node.url)) (ownClash net ns) := by
  rcases afterChange_cases site net w with ⟨ns, hns, hne, hrun⟩ | ⟨e, -, hrun⟩
  · rw [hrun] at h
    exact ⟨ns, hns, hne, (EStateM.Result.ok.inj h).2.symm⟩
  · rw [hrun] at h
    cases h

end

/-! ### Sessions -/

/-- A command line that changes the registry. -/
inductive Command
  | importSub (url ssh : Str)
  | add (url ssh : Str)
  | update (url ssh : Str)
  | remove (name : Str)
  deriving DecidableEq

/-- One process of the tool. -/
structure Invocation where
  command : Command
  net : Net

section

variable [UnicodeData] (site : Site)

/-- The program a command line starts. -/
def Command.prog (net : Net) : Command → Prog Unit
  | .importSub url ssh => cmdImport site net url ssh
  | .add url ssh => cmdAdd site net url ssh
  | .update url ssh => cmdUpdate site net url ssh
  | .remove name => cmdRemove site net name

/-- The outcome of one process: why it stopped early, if it did, and the world it
leaves. A process starts without having sent any request. -/
def Invocation.run (i : Invocation) (w : World) : Option Exit × World :=
  let result := (i.command.prog site i.net).run { w with requests := 0 }
  (exitOf result, after result)

/-- The world after a session. -/
def runs (w : World) : List Invocation → World
  | [] => w
  | i :: is => runs (i.run site w).2 is

end

/-- A world in which the tool has not run: neither directory is there, and no file
lies under the registry home. -/
structure World.Fresh (site : Site) (w : World) : Prop where
  nodesDir : w.nodesDir = false
  outDir : w.outDir = false
  files : ∀ p, site.home <+: p → w.read p = none

/-! ### A small setting for concrete runs -/

/-- A registry home, with nothing else around. -/
def smallSite : Site := ⟨["r".toList], by decide, fun _ => false⟩

/-- Nothing written yet. -/
def emptyWorld : World := ⟨false, false, ∅, 0⟩

theorem fresh_emptyWorld (site : Site) : emptyWorld.Fresh site :=
  ⟨rfl, rfl, fun _ _ => Std.ExtTreeMap.getElem?_empty⟩

/-- No request is answered. -/
def silent : Net := ⟨fun _ _ _ => none, []⟩

/-- Every request is answered with one text. -/
def serving (body : Str) : Net := ⟨fun _ _ _ => some (encode body), []⟩

/-- A node URL. -/
def smallUrl : Str := "vless://u@h?pbk=k#n".toList

/-- The node `add` makes of it. -/
def smallNode : Node where
  url := smallUrl
  ssh := "root@h".toList
  uuid := "u".toList
  server := "h".toList
  port := 443
  name := "n".toList
  flow := []
  sni := []
  pbk := "k".toList
  sid := []
  fp := "chrome".toList
  network := "tcp".toList
  security := "reality".toList

/-- Another node URL, with a server of its own. -/
def otherUrl : Str := "vless://u@g?pbk=k#m".toList

/-- The node `add` makes of it. -/
def otherNode : Node :=
  { smallNode with url := otherUrl, ssh := "root@g".toList, server := "g".toList, name := "m".toList }

end BlogStuff.VlessSubs
