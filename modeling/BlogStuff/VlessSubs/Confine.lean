import BlogStuff.VlessSubs.Conf

/-!
# BlogStuff.VlessSubs.Confine

Where `save_node` writes. The name of a node is the percent-decoded fragment of its
URL, so it is any non-empty text, and `conf_path` joins it to `NODES_DIR` as a path.

* A name with a `/` makes several components of it, or an absolute path that leaves
  `NODES_DIR` altogether; a name with a null byte denotes no file at all. Every other
  name stays one component, `.` and `..` included, because of the suffix.
* The URL stands on one line of the conf file, so it is read back only if it is one
  line.

`save_confined_iff` says that nothing else can go wrong.
-/

namespace BlogStuff.VlessSubs

open BlogStuff.Python

/-! ### Registered URLs -/

section

variable [UnicodeData]

/-- The URL of the node `load_nodes` reads from a conf text, if it reads one. -/
def confUrl (text : Str) : Option Str := (confNode text).toOption.join.map Node.url

/-- A conf file of the registry holds a node with that URL. -/
def Registered (site : Site) (w : World) (url : Str) : Prop :=
  ∃ c ∈ w.confs site, confUrl c.2 = some url

instance (site : Site) (w : World) (url : Str) : Decidable (Registered site w url) :=
  inferInstanceAs (Decidable (∃ c ∈ w.confs site, confUrl c.2 = some url))

theorem confUrl_eq_some {text url : Str} :
    confUrl text = some url ↔ ∃ n, confNode text = .ok (some n) ∧ n.url = url := by
  unfold confUrl
  cases confNode text with
  | error e => simp [Except.toOption]
  | ok r => cases r <;> simp [Except.toOption]

/-- The conf text of a node gives its URL back exactly when that is one line. -/
theorem confUrl_confText {u s : Str} {n : Node} (h : Node.init u s = .ok n) (ssh : Str) :
    confUrl (confText (n.withSsh ssh)) = some n.url ↔ OneLine n.url := by
  constructor
  · intro hurl
    obtain ⟨m, hm, heq⟩ := confUrl_eq_some.mp hurl
    rw [← heq]
    exact (oneLine_of_confNode hm).1
  · intro hu
    exact confUrl_eq_some.mpr ⟨_, confNode_saved_url h hu ssh, Node.withSsh_url _ _⟩

/-- An accepted node has a name: the server stands in for an empty fragment. -/
theorem Node.name_ne_nil {u s : Str} {n : Node} (h : Node.init u s = .ok n) : n.name ≠ [] := by
  obtain ⟨-, parts, port, -, -, rfl, hc⟩ := Node.parse_inv h
  have hserver : parts.hostname.getD [] ≠ [] := by
    simp only [Node.isComplete, Bool.decide_and, Bool.and_eq_true, decide_eq_true_eq] at hc
    exact hc.2.1
  show pyOr (unquote parts.fragment) (parts.hostname.getD []) ≠ []
  by_cases hfrag : unquote parts.fragment = []
  · rwa [hfrag, pyOr_nil]
  · rwa [pyOr_of_ne hfrag]

end

/-! ### File names -/

section

variable {site : Site} {w : World}

theorem stem_confFile {name : Str} (h : name ≠ []) : stem (name ++ confSuffix) = name := by
  have hpart : rpartition '.' (name ++ confSuffix) = (name, true, "conf".toList) :=
    rpartition_append (by decide) name
  simp only [stem, hpart]
  simp [h]

theorem mem_of_mem_stem {f : Str} {c : Char} (h : c ∈ stem f) : c ∈ f := by
  rcases last_char '.' f with hdot | ⟨a, b, rfl, hb⟩
  · simp only [stem, rpartition_of_not_mem hdot] at h
    simpa using h
  · simp only [stem, rpartition_append hb] at h
    split_ifs at h
    · exact List.mem_append_left _ h
    · exact h

theorem target_last {name : Str} {d : Path} {f : Str}
    (h : w.target site (confPath site name) = some (d ++ [f])) : f ∈ confPath site name := by
  obtain ⟨e, b, he⟩ := confPath_concat site name
  rw [World.target, Option.filter_eq_some_iff, he] at h
  obtain ⟨e', heq⟩ := walk_concat (confSuffix_ne (by decide)) h.1
  obtain ⟨-, hf⟩ := List.append_inj' heq rfl
  rw [he, List.cons.inj hf |>.1]
  simp

theorem not_mem_of_mem_confPath {name c : Str} (h : c ∈ confPath site name) : '/' ∉ c := by
  have hdir : ∀ c ∈ site.nodesDir, '/' ∉ c := by
    intro c hc
    rcases List.mem_append.mp hc with hc | hc
    · exact (site.home_plain c hc).2.2.2.1
    · rw [List.mem_singleton.mp hc]
      decide
  rw [confPath, joinPath] at h
  split_ifs at h
  · exact not_mem_of_mem_pathParts h
  · rcases List.mem_append.mp h with h | h
    · exact hdir c h
    · exact not_mem_of_mem_pathParts h

theorem null_not_mem_of_target {name c : Str} {q : Path}
    (h : w.target site (confPath site name) = some q) (hc : c ∈ confPath site name) :
    '\x00' ∉ c := by
  intro hnul
  rw [World.target, Option.filter_eq_some_iff, resolve, walk_null hc hnul] at h
  exact absurd h.1 (by simp)

/-- A file whose stem is the name can only be denoted if the name is one component. -/
theorem isComponent_of_target {name f : Str} {d : Path}
    (h : w.target site (confPath site name) = some (d ++ [f])) (hstem : stem f = name) :
    IsComponent name := by
  have hf := target_last h
  constructor
  · intro hslash
    exact not_mem_of_mem_confPath hf (mem_of_mem_stem (hstem ▸ hslash))
  · intro hnul
    exact null_not_mem_of_target h hf (mem_of_mem_stem (hstem ▸ hnul))

variable [UnicodeData]

/-- **Confined writes.** `save_node` writes an accepted node to a file directly inside
`NODES_DIR` whose stem is its name, where `load_nodes` finds it again, exactly when the
name has neither separator nor null byte and the URL is one line. -/
theorem save_confined_iff {url ssh : Str} {n : Node} (h : Node.init url ssh = .ok n) (w : World)
    (target : Str) :
    (∃ f, { w with nodesDir := true }.target site (confPath site n.name) =
          some (site.nodesDir ++ [f]) ∧ stem f = n.name ∧
        ∃ w', (saveNode site (n.withSsh target)).run w = .ok () w' ∧
          ∃ text, (f, text) ∈ w'.confs site ∧ confUrl text = some n.url) ↔
      ('/' ∉ n.name ∧ '\x00' ∉ n.name) ∧ OneLine n.url := by
  constructor
  · intro ⟨f, hplace, hstem, w', hrun, text, hmem, htext⟩
    refine ⟨isComponent_of_target hplace hstem, ?_⟩
    obtain ⟨m, hm, heq⟩ := confUrl_eq_some.mp htext
    rw [← heq]
    exact (oneLine_of_confNode hm).1
  · intro ⟨hname, hurl⟩
    refine ⟨n.name ++ confSuffix, target_conf hname rfl, stem_confFile (Node.name_ne_nil h),
      w.saved site (n.withSsh target), run_saveNode_component hname,
      confText (n.withSsh target), ?_, (confUrl_confText h target).mpr hurl⟩
    refine mem_confs.mpr ⟨?_, endswith_confSuffix n.name⟩
    rw [World.saved, World.read_write]
    exact if_pos rfl

end

section

attribute [local instance] asciiData

/-- The node of the small setting. -/
theorem save_confined_small :
    (∃ f, { emptyWorld with nodesDir := true }.target smallSite (confPath smallSite smallNode.name) =
          some (smallSite.nodesDir ++ [f]) ∧ stem f = smallNode.name ∧
        ∃ w', (saveNode smallSite (smallNode.withSsh [])).run emptyWorld = .ok () w' ∧
          ∃ text, (f, text) ∈ w'.confs smallSite ∧ confUrl text = some smallNode.url) :=
  have hn : Node.init smallUrl "root@h".toList = .ok smallNode := by decide +kernel
  (save_confined_iff hn emptyWorld []).mpr (by decide)

/-- A subscription line whose fragment climbs out of `NODES_DIR`: the conf file lands in
the registry home, and `load_nodes` does not see it. -/
theorem import_escapes_nodesDir :
    ∃ n, Node.init "vless://u@h?pbk=k#../x".toList [] = .ok n ∧
      { emptyWorld with nodesDir := true }.target smallSite (confPath smallSite n.name) =
        some (smallSite.home ++ ["x.conf".toList]) ∧
      (after ((importLoop smallSite [] ["vless://u@h?pbk=k#../x".toList]).run
        emptyWorld)).confs smallSite = [] := by
  refine ⟨{ smallNode with
    url := "vless://u@h?pbk=k#../x".toList, ssh := [], name := "../x".toList }, ?_⟩
  decide +kernel

end

end BlogStuff.VlessSubs
