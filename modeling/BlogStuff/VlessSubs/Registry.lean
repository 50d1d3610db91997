import BlogStuff.VlessSubs.Node

/-!
# BlogStuff.VlessSubs.Registry

The registry on disk (`conf_path`, `load_nodes` and `save_node` of
`vless_subs.py`): one text file `nodes/<name>.conf` per node under the registry
home.

A command is a program over the `World`, the part of the file system the tool
changes; a program that stops early keeps the writes it has made. The conf text
format is the pure `confText` / `confNode` pair, and everything `load_nodes`
returns is `World.nodes` of the world it runs in.
-/

namespace BlogStuff.VlessSubs

open BlogStuff.Python

/-! ### The file system -/

/-- What the tool finds and does not change: where the registry home is, and
which directories exist outside of it. The home itself exists. -/
structure Site where
  home : Path
  /-- The home is a resolved path. -/
  home_plain : ∀ c ∈ home, IsPlain c
  dirOutside : Path → Bool

/-- `NODES_DIR`. -/
def Site.nodesDir (site : Site) : Path := site.home ++ ["nodes".toList]

/-- `OUT_DIR`. -/
def Site.outDir (site : Site) : Path := site.home ++ ["out".toList]

/-- What the tool changes: the two directories it makes, the text files by
resolved path, and the number of HTTP requests the process has sent. -/
structure World where
  nodesDir : Bool
  outDir : Bool
  files : Std.ExtTreeMap Path Str
  requests : Nat

namespace World

/-- The text of the file at a resolved path. -/
def read (w : World) (p : Path) : Option Str := w.files[p]?

/-- The world with a file written. -/
def write (w : World) (p : Path) (text : Str) : World := { w with files := w.files.insert p text }

/-- The world with a file deleted. -/
def delete (w : World) (p : Path) : World := { w with files := w.files.erase p }

theorem read_write (w : World) (p q : Path) (text : Str) :
    (w.write p text).read q = if p = q then some text else w.read q := by
  simp only [read, write, Std.ExtTreeMap.getElem?_insert, Std.compare_eq_iff_eq]

theorem read_delete (w : World) (p q : Path) :
    (w.delete p).read q = if p = q then none else w.read q := by
  simp only [read, delete, Std.ExtTreeMap.getElem?_erase, Std.compare_eq_iff_eq]

end World

/-- A computation of the tool: it may stop early, and keeps its effects if so. -/
abbrev Prog := EStateM Exit World

section fileSystem

variable (site : Site)

/-- The directories at hand. -/
def World.isDir (w : World) (p : Path) : Bool :=
  p.isPrefixOf site.home || (p == site.nodesDir && w.nodesDir) || (p == site.outDir && w.outDir) ||
    (!site.home.isPrefixOf p && site.dirOutside p)

/-- The file a path denotes: it resolves, and not to a directory. -/
def World.target (w : World) (p : Path) : Option Path :=
  (resolve (w.isDir site) p).filter fun q => !w.isDir site q

/-- `p.exists()`. -/
def World.exists (w : World) (p : Path) : Bool :=
  match resolve (w.isDir site) p with
  | some q => w.isDir site q || (w.read q).isSome
  | none => false

/-- `p.write_text(text)`. -/
def writeText (p : Path) (text : Str) : Prog Unit := do
  let w ← get
  match w.target site p with
  | some q => set (w.write q text)
  | none => throw .os

/-- `p.unlink()`. -/
def unlink (p : Path) : Prog Unit := do
  let w ← get
  match w.target site p with
  | some q => if (w.read q).isSome then set (w.delete q) else throw .os
  | none => throw .os

/-- `NODES_DIR.mkdir(parents=True, exist_ok=True)`. -/
def mkNodesDir : Prog Unit := modify fun w => { w with nodesDir := true }

/-- `OUT_DIR.mkdir(parents=True, exist_ok=True)`. -/
def mkOutDir : Prog Unit := modify fun w => { w with outDir := true }

end fileSystem

/-! ### Conf files -/

/-- The suffix of conf files. -/
def confSuffix : Str := ".conf".toList

/-- `conf_path(name)`. -/
def confPath (site : Site) (name : Str) : Path := joinPath site.nodesDir (name ++ confSuffix)

/-- The first line of a conf file. -/
def confHeader : Str := "# Managed by vless_subs.py".toList

/-- The text `save_node` writes. -/
def confText (n : Node) : Str :=
  confHeader ++ '\n' :: ("SSH=".toList ++ n.ssh) ++ '\n' :: ("URL=".toList ++ n.url) ++ ['\n']

/-- The assignment on one line of a conf file, if there is one. -/
def confLine (line : Str) : Option (Str × Str) :=
  let line := strip line
  if line = [] ∨ startswith line ['#'] ∨ '=' ∉ line then none
  else
    let (k, _, v) := partition '=' line
    some (strip k, strip v)

/-- The `data` dictionary of a conf file as the assignments made to it. (Reading
translates `\r` and `\r\n` to `\n`, which `splitlines` cannot tell apart.) -/
def confData (text : Str) : List (Str × Str) := (splitlines text).filterMap confLine

/-- `data.get(key, "")`: the last assignment counts. -/
def dataGet (data : List (Str × Str)) (key : Str) : Str := (data.reverse.lookup key).getD []

section

variable [UnicodeData]

/-- What `load_nodes` makes of one conf file: nothing when it has no URL. -/
def confNode (text : Str) : Except Exit (Option Node) :=
  let url := dataGet (confData text) "URL".toList
  if url = [] then .ok none
  else (Node.init url (dataGet (confData text) "SSH".toList)).map some

/-- The loop of `load_nodes` over the texts of the conf files. -/
def confNodes : List Str → Except Exit (List Node)
  | [] => .ok []
  | text :: texts => do
      let n ← confNode text
      let ns ← confNodes texts
      return n.toList ++ ns

/-- `sorted(NODES_DIR.glob("*.conf"))`: file names with their texts. -/
def World.confs (site : Site) (w : World) : List (Str × Str) :=
  w.files.toList.filterMap fun (p, text) =>
    if p.dropLast = site.nodesDir ∧ endswith (p.getLastD []) confSuffix then
      some (p.getLastD [], text)
    else none

/-- The nodes the conf files hold. -/
def World.nodes (site : Site) (w : World) : Except Exit (List Node) :=
  confNodes ((w.confs site).map Prod.snd)

/-- `load_nodes()`. -/
def loadNodes (site : Site) : Prog (List Node) := do
  mkNodesDir
  let w ← get
  check (w.nodes site)

/-- `save_node(node)`. -/
def saveNode (site : Site) (n : Node) : Prog Unit := do
  mkNodesDir
  writeText site (confPath site n.name) (confText n)

end

/-! ### Where the tool writes -/

section places

variable {site : Site} {w : World}

/-- Below the home, only the two directories of the tool are directories. What is above the home
always is one, but nothing below it is a prefix of it. -/
theorem isDir_home_append {p : Path} (hp : p ≠ []) :
    w.isDir site (site.home ++ p) =
      ((p == ["nodes".toList] && w.nodesDir) || (p == ["out".toList] && w.outDir)) := by
  have hlong : (site.home ++ p).isPrefixOf site.home = false := by
    rw [← Bool.not_eq_true, List.isPrefixOf_iff_prefix]
    intro h
    have hle := h.length_le
    have hpos := List.length_pos_iff.mpr hp
    rw [List.length_append] at hle
    omega
  have hin : site.home.isPrefixOf (site.home ++ p) = true := by simp
  have hcancel : ∀ q, (site.home ++ p == site.home ++ q) = (p == q) := by
    intro q
    rw [Bool.eq_iff_iff, beq_iff_eq, beq_iff_eq, List.append_cancel_left_eq]
  have e1 : (site.home ++ p == site.nodesDir) = (p == ["nodes".toList]) := hcancel _
  have e2 : (site.home ++ p == site.outDir) = (p == ["out".toList]) := hcancel _
  simp only [World.isDir, hlong, hin, e1, e2, Bool.false_or, Bool.not_true, Bool.false_and,
    Bool.or_false]

theorem isDir_nodesDir : w.isDir site site.nodesDir = w.nodesDir := by
  rw [Site.nodesDir, isDir_home_append (by simp)]
  have : (["nodes".toList] == ["out".toList]) = false := by decide
  simp only [beq_self_eq_true, Bool.true_and, this, Bool.false_and, Bool.or_false]

theorem isDir_outDir : w.isDir site site.outDir = w.outDir := by
  rw [Site.outDir, isDir_home_append (by simp)]
  have : (["out".toList] == ["nodes".toList]) = false := by decide
  simp only [beq_self_eq_true, Bool.true_and, this, Bool.false_and, Bool.false_or]

theorem isDir_entry (d f : Str) : w.isDir site (site.home ++ [d, f]) = false := by
  rw [isDir_home_append (by simp)]
  simp

theorem walk_home : walk (w.isDir site) [] site.home = some site.home := by
  have hplain : ∀ c ∈ site.home, c ≠ ['.', '.'] ∧ '\x00' ∉ c := by
    intro c hc
    exact ⟨(site.home_plain c hc).2.2.1, (site.home_plain c hc).2.2.2.2⟩
  have hdir : ∀ q, q <+: site.home → q ≠ site.home → w.isDir site ([] ++ q) = true := by
    intro q hq _
    simp [World.isDir, hq]
  exact walk_plain hplain hdir

theorem resolve_home_append (p : Path) :
    resolve (w.isDir site) (site.home ++ p) = walk (w.isDir site) site.home p := by
  rw [resolve, walk_append, walk_home]
  rfl

theorem isDir_home : w.isDir site site.home = true := by
  simp [World.isDir]

/-- A proper file name inside an existing directory of the tool is a place to write. -/
theorem target_entry {d f : Str} (hd : IsPlain d) (hdir : w.isDir site (site.home ++ [d]) = true)
    (hf : f ≠ ['.', '.']) (hnul : '\x00' ∉ f) :
    w.target site (site.home ++ [d, f]) = some (site.home ++ [d, f]) := by
  have hres : resolve (w.isDir site) (site.home ++ [d, f]) = some (site.home ++ [d, f]) := by
    rw [resolve_home_append]
    simp [walk, isDir_home, hdir, hd.2.2.1, hd.2.2.2.2, hf, hnul]
  simp [World.target, hres, isDir_entry]

theorem target_of_not_dir {d f : Str} (hd : d ≠ ['.', '.'])
    (hdir : w.isDir site (site.home ++ [d]) = false) :
    resolve (w.isDir site) (site.home ++ [d, f]) = none := by
  rw [resolve_home_append]
  by_cases hnul : '\x00' ∈ d
  · simp [walk, isDir_home, hnul]
  · simp [walk, isDir_home, hdir, hd, hnul]

/-! ### Runs of the file operations -/

theorem run_writeText (p : Path) (text : Str) :
    (writeText site p text).run w = match w.target site p with
      | some q => .ok () (w.write q text)
      | none => .error .os w := by
  simp only [writeText, EStateM.run_bind, EStateM.run_get]
  cases w.target site p <;> rfl

theorem run_unlink (p : Path) :
    (unlink site p).run w = match w.target site p with
      | some q => if (w.read q).isSome then .ok () (w.delete q) else .error .os w
      | none => .error .os w := by
  simp only [unlink, EStateM.run_bind, EStateM.run_get]
  cases w.target site p with
  | none => rfl
  | some q => cases h : (w.read q).isSome <;> simp [h]

theorem run_saveNode (n : Node) :
    (saveNode site n).run w =
      (writeText site (confPath site n.name) (confText n)).run { w with nodesDir := true } := by
  simp only [saveNode, mkNodesDir, EStateM.run_bind, EStateM.run_modify]

variable [UnicodeData]

theorem run_loadNodes :
    (loadNodes site).run w = match w.nodes site with
      | .ok ns => .ok ns { w with nodesDir := true }
      | .error e => .error e { w with nodesDir := true } := by
  simp only [loadNodes, mkNodesDir, EStateM.run_bind, EStateM.run_modify, EStateM.run_get]
  have h : World.nodes site { w with nodesDir := true } = w.nodes site := rfl
  rw [h]
  cases w.nodes site <;> rfl

end places

end BlogStuff.VlessSubs
