import BlogStuff.Adepends.Closure
import BlogStuff.Seq.Loop

/-!
# BlogStuff.Adepends.Dot

`generate_dependency_graph` of `adepends.py`: the dependency diagram as a DOT file.

The file has a node statement for every module of the table and an edge statement for every
dependency. In both, a name stands as the identifier `transfer_to_dot_valid` makes of it, which
turns `-` and `.` into `_` and deletes `+`. Names that agree up to these characters become one
identifier (`transferToDotValid_eq_iff`), and the diagram then draws the dependencies of one at
the other.
-/

namespace BlogStuff.Adepends

open BlogStuff.Python BlogStuff.Seq

/-! ### The program -/

/-- `transfer_to_dot_valid(name)`. -/
def transferToDotValid (name : Str) : Str :=
  replaceChar '+' [] (replaceChar '.' ['_'] (replaceChar '-' ['_'] name))

/-- A line between the braces of the file. -/
inductive DotStatement
  | node (id : Str) (highlighted : Bool) (name directory : Str)
  | edge (source target : Str)
  deriving DecidableEq

/-- The line as it is written; `\l` stands in the file as it is. -/
def DotStatement.text : DotStatement → Str
  | node id true name directory =>
      id ++ "[style=bold,color=\"tomato\",label=\"".toList ++ name ++ "\\l".toList ++ directory ++
        "\"]\n".toList
  | node id false name directory =>
      id ++ "[label=\"".toList ++ name ++ "\\l".toList ++ directory ++ "\"]\n".toList
  | edge source target => source ++ "->".toList ++ target ++ "\n".toList

/-- `cmd_options.module and mod.name == cmd_options.module`; an empty name counts as none. -/
def highlighted (target : Option Str) (name : Str) : Bool :=
  target ≠ some [] ∧ target = some name

/-- The node statement of a module. A module without a name is an error. -/
def nodeStatement (s : Store) (target : Option Str) (entry : Str × Nat) : Option DotStatement :=
  (s.module entry.2).name.map fun name =>
    .node (transferToDotValid name) (highlighted target name) name (s.module entry.2).directory

/-- The edge statements of a module. -/
def edgeStatements (s : Store) (entry : Str × Nat) : Option (List DotStatement) :=
  (s.module entry.2).name.map fun name =>
    (s.dependsOf entry.2).map fun dep => .edge (transferToDotValid name) (transferToDotValid dep)

/-- The statements for the table `modules`, given by its items. -/
def dotStatements (s : Store) (target : Option Str) (modules : List (Str × Nat)) :
    Option (List DotStatement) := do
  let nodes ← modules.mapM (nodeStatement s target)
  let edges ← modules.mapM (edgeStatements s)
  return nodes ++ edges.flatten

/-- `generate_dependency_graph(cmd_options)`: what is written to the file. -/
def generateDependencyGraph (s : Store) (target : Option Str) (modules : List (Str × Nat)) :
    Option Str :=
  (dotStatements s target modules).map fun statements =>
    "digraph \x7b\n".toList ++ statements.flatMap DotStatement.text ++ "\x7d\n".toList

/-! ### Identifiers -/

/-- The characters that are written as `_`. -/
def separators : List Char := ['-', '.', '_']

/-- Without their `+`, the names have the same characters up to the separators. -/
def Alike (m n : Str) : Prop :=
  List.Forall₂ (fun a b => a = b ∨ a ∈ separators ∧ b ∈ separators)
    (m.filter fun c => c ≠ '+') (n.filter fun c => c ≠ '+')

/-- A character of an identifier. -/
def dotChar (c : Char) : Char := if c = '-' ∨ c = '.' then '_' else c

theorem dotChar_eq_iff {a b : Char} :
    dotChar a = dotChar b ↔ a = b ∨ a ∈ separators ∧ b ∈ separators := by
  simp only [dotChar, separators, List.mem_cons, List.not_mem_nil, or_false]
  split_ifs <;> grind

theorem transferToDotValid_eq_map (name : Str) :
    transferToDotValid name = (name.filter fun c => c ≠ '+').map dotChar := by
  induction name with
  | nil => rfl
  | cons c name ih =>
      rw [transferToDotValid] at ih ⊢
      rw [replaceChar_cons, replaceChar_append, replaceChar_append, ih]
      by_cases hplus : c = '+'
      · rw [hplus]
        rfl
      · rw [List.filter_cons_of_pos (by simpa using hplus), List.map_cons]
        by_cases hsep : c = '-' ∨ c = '.'
        · rcases hsep with rfl | rfl <;> rfl
        · rw [dotChar, if_neg hsep]
          obtain ⟨hdash, hdot⟩ := not_or.mp hsep
          simp [replaceChar, hdash, hdot, hplus]

/-- **When two names become one identifier.** Every character is replaced by itself or by an
underscore, so the identifiers are compared place by place. -/
theorem transferToDotValid_eq_iff {m n : Str} :
    transferToDotValid m = transferToDotValid n ↔ Alike m n := by
  rw [transferToDotValid_eq_map, transferToDotValid_eq_map, ← List.forall₂_eq_eq_eq,
    List.forall₂_map_left_iff, List.forall₂_map_right_iff, Alike]
  simp only [dotChar_eq_iff]

instance (m n : Str) : Decidable (Alike m n) := decidable_of_iff _ transferToDotValid_eq_iff

/-! ### The diagram -/

/-- The names in the table: of the modules, and of what they depend on. -/
def tableNames (s : Store) (modules : List (Str × Nat)) : List Str :=
  modules.flatMap fun entry => (s.module entry.2).name.toList ++ s.dependsOf entry.2

/-- A module of the table with the name `m` depends on `n`. -/
def DependsIn (s : Store) (modules : List (Str × Nat)) (m n : Str) : Prop :=
  ∃ entry ∈ modules, (s.module entry.2).name = some m ∧ n ∈ s.dependsOf entry.2

section

variable {s : Store} {modules : List (Str × Nat)} {m n : Str}

theorem DependsIn.mem_names (h : DependsIn s modules m n) :
    m ∈ tableNames s modules ∧ n ∈ tableNames s modules := by
  obtain ⟨entry, hentry, hname, hdep⟩ := h
  refine ⟨List.mem_flatMap.mpr ⟨entry, hentry, List.mem_append_left _ ?_⟩,
    List.mem_flatMap.mpr ⟨entry, hentry, List.mem_append_right _ hdep⟩⟩
  rw [hname]
  exact List.mem_singleton_self m

/-- The statements of a table of named modules; the edges are the dependencies. Without a name
`transfer_to_dot_valid` would be called with `None`, so the names are assumed. -/
theorem dotStatements_edges (target : Option Str)
    (hnamed : ∀ entry ∈ modules, (s.module entry.2).name.isSome) :
    ∃ statements, dotStatements s target modules = some statements ∧
      ∀ a b, .edge a b ∈ statements ↔
        ∃ m n, DependsIn s modules m n ∧ transferToDotValid m = a ∧ transferToDotValid n = b := by
  have hname : ∀ entry ∈ modules, (s.module entry.2).name =
      some ((s.module entry.2).name.getD []) := fun entry hentry => by
    obtain ⟨name, hname⟩ := Option.isSome_iff_exists.mp (hnamed entry hentry)
    rw [hname]
    rfl
  have hnodes := mapM_eq_some (f := nodeStatement s target)
    (g := fun entry => .node (transferToDotValid ((s.module entry.2).name.getD []))
      (highlighted target ((s.module entry.2).name.getD [])) ((s.module entry.2).name.getD [])
      (s.module entry.2).directory) fun entry hentry => by
      rw [nodeStatement, hname entry hentry]
      rfl
  have hedges := mapM_eq_some (f := edgeStatements s)
    (g := fun entry => (s.dependsOf entry.2).map fun dep =>
      .edge (transferToDotValid ((s.module entry.2).name.getD [])) (transferToDotValid dep))
    fun entry hentry => by
      rw [edgeStatements, hname entry hentry]
      rfl
  refine ⟨_, by rw [dotStatements, hnodes, hedges]; rfl, fun a b => ?_⟩
  constructor
  · intro hmem
    rcases List.mem_append.mp hmem with hmem | hmem
    · obtain ⟨entry, -, heq⟩ := List.mem_map.mp hmem
      cases heq
    · obtain ⟨l, hl, hmem⟩ := List.mem_flatten.mp hmem
      obtain ⟨entry, hentry, rfl⟩ := List.mem_map.mp hl
      obtain ⟨dep, hdep, heq⟩ := List.mem_map.mp hmem
      cases heq
      exact ⟨_, dep, ⟨entry, hentry, hname entry hentry, hdep⟩, rfl, rfl⟩
  · intro hdep
    obtain ⟨m, n, ⟨entry, hentry, hm, hn⟩, rfl, rfl⟩ := hdep
    refine List.mem_append_right _ (List.mem_flatten.mpr
      ⟨_, List.mem_map_of_mem hentry, List.mem_map.mpr ⟨n, hn, ?_⟩⟩)
    rw [hm]
    rfl

end

/-- **The file draws the dependencies exactly if no two names of the table are alike.** An
edge is written for every dependency, under the identifiers of the names; what can go wrong is
only that one identifier stands for two names. -/
theorem dot_faithful_iff (s : Store) (target : Option Str) (modules : List (Str × Nat))
    (hnamed : ∀ entry ∈ modules, (s.module entry.2).name.isSome) :
    (∃ statements, dotStatements s target modules = some statements ∧
      generateDependencyGraph s target modules =
        some ("digraph \x7b\n".toList ++ statements.flatMap DotStatement.text ++
          "\x7d\n".toList) ∧
      (∀ m ∈ tableNames s modules, ∀ n ∈ tableNames s modules, m ≠ n →
        transferToDotValid m ≠ transferToDotValid n) ∧
      ∀ m ∈ tableNames s modules, ∀ n ∈ tableNames s modules,
        (.edge (transferToDotValid m) (transferToDotValid n) ∈ statements ↔
          DependsIn s modules m n)) ↔
      ∀ m ∈ tableNames s modules, ∀ n ∈ tableNames s modules, m ≠ n → ¬ Alike m n := by
  constructor
  · intro h m hm n hn hne hlike
    obtain ⟨-, -, -, hdistinct, -⟩ := h
    exact hdistinct m hm n hn hne (transferToDotValid_eq_iff.mpr hlike)
  · intro h
    have hdistinct : ∀ m ∈ tableNames s modules, ∀ n ∈ tableNames s modules, m ≠ n →
        transferToDotValid m ≠ transferToDotValid n := fun m hm n hn hne heq =>
      h m hm n hn hne (transferToDotValid_eq_iff.mp heq)
    obtain ⟨statements, hrun, hedges⟩ := dotStatements_edges target hnamed
    refine ⟨statements, hrun, by rw [generateDependencyGraph, hrun]; rfl, hdistinct,
      fun m hm n hn => ?_⟩
    rw [hedges]
    constructor
    · intro hdep
      obtain ⟨m', n', hdep, hm', hn'⟩ := hdep
      -- the identifiers are those of the names themselves
      have hsame : ∀ a ∈ tableNames s modules, ∀ b ∈ tableNames s modules,
          transferToDotValid a = transferToDotValid b → a = b := fun a ha b hb heq =>
        not_ne_iff.mp fun hne => hdistinct a ha b hb hne heq
      rw [← hsame m' hdep.mem_names.1 m hm hm', ← hsame n' hdep.mem_names.2 n hn hn']
      exact hdep
    · intro hdep
      exact ⟨m, n, hdep, rfl, rfl⟩

/-- An application with two libraries whose names are told apart. -/
def plainStore : Store where
  module i := ⟨some (if i = 0 then "app".toList else "lib-a".toList), i, none, [], []⟩
  list i := if i = 0 then ["lib-a".toList, "lib-b".toList] else []
  next := 2
  pool := [("app".toList, 0), ("lib-a".toList, 1)]

theorem dot_faithful_iff_plain :
    ∃ statements, dotStatements plainStore none plainStore.pool = some statements ∧
      generateDependencyGraph plainStore none plainStore.pool =
        some ("digraph \x7b\n".toList ++ statements.flatMap DotStatement.text ++
          "\x7d\n".toList) ∧
      (∀ m ∈ tableNames plainStore plainStore.pool, ∀ n ∈ tableNames plainStore plainStore.pool,
        m ≠ n → transferToDotValid m ≠ transferToDotValid n) ∧
      ∀ m ∈ tableNames plainStore plainStore.pool, ∀ n ∈ tableNames plainStore plainStore.pool,
        (.edge (transferToDotValid m) (transferToDotValid n) ∈ statements ↔
          DependsIn plainStore plainStore.pool m n) :=
  (dot_faithful_iff plainStore none plainStore.pool (by decide)).mpr (by decide)

/-- Two libraries whose names differ in a separator: `app` depends on one of them only. -/
def alikeStore : Store where
  module i := ⟨some (if i = 0 then "app".toList else if i = 1 then "a-b".toList else "a.b".toList),
    i, none, [], []⟩
  list i := if i = 0 then ["a-b".toList] else []
  next := 3
  pool := [("app".toList, 0), ("a-b".toList, 1), ("a.b".toList, 2)]

/-- **One identifier for both**: the diagram has the edge from `app` to `a.b`. -/
theorem alike_names_drawn_as_one :
    transferToDotValid "a-b".toList = transferToDotValid "a.b".toList ∧
      (dotStatements alikeStore none alikeStore.pool).map (fun statements =>
        decide (.edge (transferToDotValid "app".toList) (transferToDotValid "a.b".toList) ∈
          statements)) = some true ∧
      "a.b".toList ∉ alikeStore.dependsOf 0 := by
  decide

end BlogStuff.Adepends
