import BlogStuff.VlessSubs.Conf

/-!
# BlogStuff.VlessSubs.Refinement

The registry as a finite map from names to URL and SSH target, and the proof that
the directory of conf files implements it.

`Command.spec` is what each command does to the map. The code decides presence in
three ways: `add` and `remove` look for the file, `update` re-parses the URL inside
every file, and the key of an entry is recomputed from the URL at every load. They
agree because of the invariant `Stores`: the file `name.conf` holds a URL whose
name is `name`. Every command keeps it (`Invocation.run_spec`), so it holds after
any session.
-/

namespace BlogStuff.VlessSubs

open BlogStuff.Python

/-! ### The abstract registry -/

/-- Name to URL and trimmed SSH target. -/
abbrev Registry := Std.ExtTreeMap Str (Str × Str)

section spec

variable [UnicodeData]

/-- The lines of a subscription, registered one after the other up to the first that
is no node. -/
def Registry.importAll (ssh : Str) : List Str → Registry → Bool × Registry
  | [], m => (true, m)
  | url :: urls, m =>
      match Node.init url [] with
      | .error _ => (false, m)
      | .ok n => importAll ssh urls (m.insert n.name (n.url, strip (pyOr ssh (rootAt n))))

/-- Whether a command succeeds, and the registry after it. A registry maps the name of a node to its
URL and target; how it is kept in files is not seen here. -/
def Command.spec (net : Net) (m : Registry) : Command → Bool × Registry
  | .add url ssh =>
      match Node.init url ssh with
      | .error _ => (false, m)
      | .ok n =>
          if n.name ∈ m then (false, m)
          else (true, m.insert n.name (n.url, strip (pyOr n.ssh (rootAt n))))
  | .update url ssh =>
      match Node.init url [] with
      | .error _ => (false, m)
      | .ok n =>
          match m[n.name]? with
          | none => (false, m)
          -- an entry without a target gets the default one
          | some (_, old) => (true, m.insert n.name (n.url, strip (pyOr ssh (pyOr old (rootAt n)))))
  | .remove name =>
      if name ∈ m then (!(m.erase name).isEmpty, m.erase name) else (false, m)
  | .importSub url ssh =>
      match fetchedUrls net 0 url with
      | none => (false, m)
      | some urls => if ssh ≠ [] ∧ urls.length > 1 then (false, m) else m.importAll ssh urls

/-- The registry after a session. -/
def Registry.runs (m : Registry) : List Invocation → Registry
  | [] => m
  | i :: is => Registry.runs (i.command.spec i.net m).2 is

/-- The arguments of a command are tidy: URLs and SSH targets of one line, and names
of one path component. -/
def Invocation.Tidy (i : Invocation) : Prop :=
  match i.command with
  | .add url ssh => OneLine url ∧ OneLine ssh ∧
      ∀ n, Node.init url ssh = .ok n → IsComponent n.name
  | .update url ssh => OneLine url ∧ OneLine ssh ∧
      ∀ n, Node.init url [] = .ok n → IsComponent n.name
  | .remove name => IsComponent name
  | .importSub url ssh => OneLine ssh ∧
      ∀ urls, fetchedUrls i.net 0 url = some urls → ∀ u ∈ urls, ∀ n, Node.init u [] = .ok n →
        IsComponent n.name

instance (i : Invocation) : Decidable i.Tidy := by
  obtain ⟨command, net⟩ := i
  cases command <;> simp only [Invocation.Tidy] <;> infer_instance

end spec

/-! ### Loaded nodes as a registry -/

section lists

variable {ns : List Node} {m : Registry}

/-- A list of loaded nodes is the registry: each entry once, under its name. -/
structure Lists (ns : List Node) (m : Registry) : Prop where
  nodup : (ns.map Node.name).Nodup
  mem : ∀ name e, m[name]? = some e ↔ ∃ n ∈ ns, n.name = name ∧ (n.url, n.ssh) = e

/-- Where `update` looks for the loaded node, it finds the entry. Names are unique in the list, so
it does not matter from which end it is searched. -/
theorem Lists.findNode (h : Lists ns m) (name : Str) :
    (findNode ns name).map (fun n => (n.url, n.ssh)) = m[name]? := by
  cases hf : VlessSubs.findNode ns name with
  | none =>
      rw [VlessSubs.findNode, List.find?_eq_none] at hf
      cases hm : m[name]? with
      | none => rfl
      | some e =>
          obtain ⟨n, hn, hname, -⟩ := (h.mem name e).mp hm
          exact absurd hname (by simpa using hf n (by simpa using hn))
  | some n =>
      have hname : n.name = name := by simpa using List.find?_some hf
      have hmem : n ∈ ns := by simpa using List.mem_of_find?_eq_some hf
      exact ((h.mem name _).mpr ⟨n, hmem, hname, rfl⟩).symm

theorem Lists.isEmpty_iff (h : Lists ns m) : m.isEmpty = true ↔ ns = [] := by
  rw [Std.ExtTreeMap.isEmpty_iff, Std.ExtTreeMap.eq_empty_iff_forall_not_mem,
    List.eq_nil_iff_forall_not_mem]
  constructor
  · intro hm n hn
    exact hm n.name (Std.ExtTreeMap.mem_iff_isSome_getElem?.mpr
      (by simp [(h.mem n.name _).mpr ⟨n, hn, rfl, rfl⟩]))
  · intro hns name hm
    obtain ⟨e, he⟩ := Option.isSome_iff_exists.mp (Std.ExtTreeMap.mem_iff_isSome_getElem?.mp hm)
    obtain ⟨n, hn, -⟩ := (h.mem name e).mp he
    exact hns n hn

end lists

/-! ### The invariant -/

section

variable [UnicodeData] {site : Site} {w w' : World} {m : Registry}

/-- The conf text holds the entry of that name. -/
def HoldsEntry (name text : Str) (e : Str × Str) : Prop :=
  ∃ n, confNode text = .ok (some n) ∧ n.name = name ∧ (n.url, n.ssh) = e

/-- The conf files store the registry: `name.conf` holds a URL whose name is `name`. -/
structure Stores (site : Site) (w : World) (m : Registry) : Prop where
  /-- Entries need the directory. -/
  dir : ∀ name, name ∈ m → w.nodesDir = true
  /-- File by file. -/
  entry : ∀ name, Option.Rel (HoldsEntry name) (w.conf site name) m[name]?

theorem Stores.holds (h : Stores site w m) {name text : Str} (ht : w.conf site name = some text) :
    ∃ e, m[name]? = some e ∧ HoldsEntry name text e := by
  have hrel := h.entry name
  rw [ht] at hrel
  cases he : m[name]? with
  | none => rw [he] at hrel; cases hrel
  | some e =>
      rw [he] at hrel
      cases hrel with
      | some hh => exact ⟨e, rfl, hh⟩

theorem Stores.file (h : Stores site w m) {name : Str} {e : Str × Str} (he : m[name]? = some e) :
    ∃ text, w.conf site name = some text ∧ HoldsEntry name text e := by
  have hrel := h.entry name
  rw [he] at hrel
  cases ht : w.conf site name with
  | none => rw [ht] at hrel; cases hrel
  | some text =>
      rw [ht] at hrel
      cases hrel with
      | some hh => exact ⟨text, rfl, hh⟩

theorem Stores.conf (h : Stores site w m) {c : Str × Str} (hc : c ∈ w.confs site) :
    ∃ n, confNode c.2 = .ok (some n) ∧ c.1 = n.name ++ confSuffix ∧
      m[n.name]? = some (n.url, n.ssh) := by
  obtain ⟨hget, hsuf⟩ := mem_confs.mp hc
  obtain ⟨name, hname⟩ := confSuffix_cases hsuf
  rw [hname] at hget
  obtain ⟨e, he, n, hn, rfl, rfl⟩ := h.holds hget
  exact ⟨n, hn, hname, he⟩

/-- When each file holds a node of its own name, loading goes file by file. -/
theorem confNodes_names {cs : List (Str × Str)} {ns : List Node}
    (hcs : ∀ c ∈ cs, ∃ n, confNode c.2 = .ok (some n) ∧ c.1 = n.name ++ confSuffix)
    (h : confNodes (cs.map Prod.snd) = .ok ns) :
    (ns.map Node.name).map (· ++ confSuffix) = cs.map Prod.fst := by
  induction cs generalizing ns with
  | nil =>
      obtain rfl := Except.ok.inj h
      rfl
  | cons c cs ih =>
      obtain ⟨r, ms, hr, hms, rfl⟩ := confNodes_cons_ok.mp h
      obtain ⟨n, hn, hname⟩ := hcs c (by simp)
      obtain rfl : some n = r := Except.ok.inj (hn.symm.trans hr)
      simp [hname, ih (fun d hd => hcs d (by simp [hd])) hms]

/-- **Loading a stored registry** yields exactly its entries. Each file holds the entry it is named
after, so the names of the nodes are apart because those of the files are. -/
theorem Stores.loads (h : Stores site w m) : ∃ ns, w.nodes site = .ok ns ∧ Lists ns m := by
  have hok : ∀ t ∈ (w.confs site).map Prod.snd, ∃ r, confNode t = .ok r := by
    intro t ht
    obtain ⟨c, hc, rfl⟩ := List.mem_map.mp ht
    obtain ⟨n, hn, -⟩ := h.conf hc
    exact ⟨some n, hn⟩
  obtain ⟨ns, hns⟩ := confNodes_isOk.mpr hok
  refine ⟨ns, hns, ?_, ?_⟩
  · have hnames := confNodes_names (fun c hc => by
      obtain ⟨n, hn, hname, -⟩ := h.conf hc
      exact ⟨n, hn, hname⟩) hns
    have hnodup : ((ns.map Node.name).map (· ++ confSuffix)).Nodup := hnames ▸ nodup_confs
    exact hnodup.of_map _
  · intro name e
    constructor
    · intro he
      obtain ⟨text, ht, n, hn, hname, hne⟩ := h.file he
      have hc : (name ++ confSuffix, text) ∈ w.confs site :=
        mem_confs.mpr ⟨ht, endswith_confSuffix name⟩
      exact ⟨n, (mem_confNodes hns).mpr ⟨text, List.mem_map_of_mem hc, hn⟩, hname, hne⟩
    · rintro ⟨n, hmem, rfl, rfl⟩
      obtain ⟨t, ht, hn⟩ := (mem_confNodes hns).mp hmem
      obtain ⟨c, hc, rfl⟩ := List.mem_map.mp ht
      obtain ⟨n', hn', -, hm⟩ := h.conf hc
      obtain rfl : n' = n := Option.some.inj (Except.ok.inj (hn'.symm.trans hn))
      exact hm

/-! ### Steps -/

theorem Stores.frame (h : Stores site w m) (hdir : w.nodesDir = true → w'.nodesDir = true)
    (hconf : ∀ name, w'.conf site name = w.conf site name) : Stores site w' m where
  dir name hn := hdir (h.dir name hn)
  entry name := by rw [hconf]; exact h.entry name

theorem Stores.insert (h : Stores site w m) {k text : Str} {e : Str × Str}
    (he : HoldsEntry k text e) :
    Stores site ({ w with nodesDir := true }.write (site.nodesDir ++ [k ++ confSuffix]) text)
      (m.insert k e) where
  dir _ _ := rfl
  entry name := by
    rw [World.conf, World.read_write, Std.ExtTreeMap.getElem?_insert]
    simp only [confFile_inj, Std.compare_eq_iff_eq]
    split_ifs with hk
    · exact .some (hk ▸ he)
    · exact h.entry name

theorem Stores.erase (h : Stores site w m) (hdir : w.nodesDir = true) (k : Str) :
    Stores site (w.delete (site.nodesDir ++ [k ++ confSuffix])) (m.erase k) where
  dir _ _ := hdir
  entry name := by
    rw [World.conf, World.read_delete, Std.ExtTreeMap.getElem?_erase]
    simp only [confFile_inj, Std.compare_eq_iff_eq]
    split_ifs
    · exact .none
    · exact h.entry name

/-- Where the code looks for the file, the name is in the registry. -/
theorem Stores.exists_iff (h : Stores site w m) {name : Str} (hc : IsComponent name) :
    w.exists site (confPath site name) = true ↔ name ∈ m := by
  rw [exists_conf hc, Bool.and_eq_true, Std.ExtTreeMap.mem_iff_isSome_getElem?]
  constructor
  · rintro ⟨-, hf⟩
    obtain ⟨text, ht⟩ := Option.isSome_iff_exists.mp hf
    obtain ⟨e, he, -⟩ := h.holds ht
    simp [he]
  · intro hm
    obtain ⟨e, he⟩ := Option.isSome_iff_exists.mp hm
    obtain ⟨text, ht, -⟩ := h.file he
    exact ⟨h.dir name (Std.ExtTreeMap.mem_iff_isSome_getElem?.mpr hm),
      Option.isSome_iff_exists.mpr ⟨text, ht⟩⟩

/-! ### Commands -/

/-- A program, started where the registry is `m`, ends as the specification says: it
succeeds or not, and leaves the registry `r.2`. -/
structure Meets (site : Site) (res : EStateM.Result Exit World Unit) (r : Bool × Registry) : Prop where
  outcome : r.1 = (exitOf res).isNone
  stores : Stores site (after res) r.2

theorem Meets.error {e : Exit} (h : Stores site w m) : Meets site (.error e w) (false, m) := ⟨rfl, h⟩

/-- A regeneration keeps the registry; it fails when that is empty. -/
theorem Stores.meets_afterChange (h : Stores site w m) (net : Net) :
    Meets site ((afterChange site net).run w) (!m.isEmpty, m) := by
  obtain ⟨ns, hns, hlists⟩ := h.loads
  rcases afterChange_cases site net w with ⟨ms, hms, hne, hrun⟩ | ⟨e, hnil, hrun⟩
  · obtain rfl := Except.ok.inj (hns.symm.trans hms)
    have hm : m.isEmpty = false := by rwa [← Bool.not_eq_true, hlists.isEmpty_iff]
    rw [hrun, hm]
    exact ⟨rfl, h.frame (fun _ => rfl) (fun name => read_generated _ _ _)⟩
  · rw [hrun, hlists.isEmpty_iff.mpr (hnil ns hns)]
    exact Meets.error (h.frame (fun _ => rfl) (fun _ => rfl))

theorem holdsEntry_saved {u s ssh : Str} {n : Node} (h : Node.init u s = .ok n) (hu : OneLine u)
    (hs : OneLine ssh) : HoldsEntry n.name (confText (n.withSsh ssh)) (n.url, strip ssh) :=
  ⟨n.withSsh (strip ssh),
    confNode_saved h (by rw [(Node.init_url h).1]; exact oneLine_strip hu) hs, rfl, rfl⟩

/-- Saving a node and regenerating inserts its entry. -/
theorem Stores.meets_save (h : Stores site w m) {u s ssh : Str} {n : Node}
    (hn : Node.init u s = .ok n) (hu : OneLine u) (hs : OneLine ssh) (hc : IsComponent n.name)
    (net : Net) :
    Meets site ((do saveNode site (n.withSsh ssh); afterChange site net : Prog Unit).run w)
      (true, m.insert n.name (n.url, strip ssh)) := by
  have hsave : (saveNode site (n.withSsh ssh)).run w = .ok () (w.saved site (n.withSsh ssh)) :=
    run_saveNode_component hc
  have hst : Stores site (w.saved site (n.withSsh ssh)) (m.insert n.name (n.url, strip ssh)) :=
    h.insert (k := n.name) (holdsEntry_saved hn hu hs)
  rw [run_bind_of_ok hsave]
  have hmeets := hst.meets_afterChange net
  rwa [show (m.insert n.name (n.url, strip ssh)).isEmpty = false by simp] at hmeets

theorem meets_cmdAdd (h : Stores site w m) (net : Net) {url ssh : Str} (hu : OneLine url)
    (hs : OneLine ssh) (hc : ∀ n, Node.init url ssh = .ok n → IsComponent n.name) :
    Meets site ((cmdAdd site net url ssh).run w) ((Command.add url ssh).spec net m) := by
  cases hn : Node.init url ssh with
  | error e =>
      simp only [cmdAdd, Command.spec, hn, run_bind_of_error (run_check_error e w)]
      exact Meets.error h
  | ok n =>
      have hex := h.exists_iff (hc n hn)
      simp only [cmdAdd, Command.spec, hn, run_bind_of_ok (run_check_ok n w),
        run_bind_of_ok (EStateM.run_get w), hex]
      split_ifs
      · exact Meets.error h
      · have hssh : OneLine n.ssh := by rw [(Node.init_url hn).2.1]; exact oneLine_strip hs
        exact h.meets_save hn hu (oneLine_pyOr hssh (oneLine_rootAt hn hu)) (hc n hn) net

theorem meets_cmdUpdate (h : Stores site w m) (net : Net) {url ssh : Str} (hu : OneLine url)
    (hs : OneLine ssh) (hc : ∀ n, Node.init url [] = .ok n → IsComponent n.name) :
    Meets site ((cmdUpdate site net url ssh).run w) ((Command.update url ssh).spec net m) := by
  cases hn : Node.init url [] with
  | error e =>
      simp only [cmdUpdate, Command.spec, hn, run_bind_of_error (run_check_error e w)]
      exact Meets.error h
  | ok n =>
      obtain ⟨ns, hns, hlists⟩ := h.loads
      have hload : (loadNodes site).run w = .ok ns { w with nodesDir := true } := by
        rw [run_loadNodes, hns]
      have hst : Stores site { w with nodesDir := true } m := h.frame (fun _ => rfl) (fun _ => rfl)
      simp only [cmdUpdate, Command.spec, hn, run_bind_of_ok (run_check_ok n w),
        run_bind_of_ok hload, ← hlists.findNode]
      cases hf : findNode ns n.name with
      | none => exact Meets.error hst
      | some old =>
          have hmem : old ∈ ns := by simpa using List.mem_of_find?_eq_some hf
          obtain ⟨t, -, ht⟩ := (mem_confNodes hns).mp hmem
          have hold := (oneLine_of_confNode ht).2
          exact hst.meets_save hn hu
            (oneLine_pyOr hs (oneLine_pyOr hold (oneLine_rootAt hn hu))) (hc n hn) net

theorem meets_cmdRemove (h : Stores site w m) (net : Net) {name : Str} (hc : IsComponent name) :
    Meets site ((cmdRemove site net name).run w) ((Command.remove name).spec net m) := by
  have hex := h.exists_iff hc
  simp only [cmdRemove, Command.spec, run_bind_of_ok (EStateM.run_get w), hex]
  split_ifs with hm
  · have hdir := h.dir name hm
    have hfile : (w.read (site.nodesDir ++ [name ++ confSuffix])).isSome = true := by
      have := hex.mpr hm
      rwa [exists_conf hc, hdir, Bool.true_and] at this
    have hrun : (unlink site (confPath site name)).run w =
        .ok () (w.delete (site.nodesDir ++ [name ++ confSuffix])) := by
      rw [run_unlink, target_conf hc hdir]
      simp [hfile]
    rw [run_bind_of_ok hrun]
    exact (h.erase hdir name).meets_afterChange net
  · exact Meets.error h

/-- The import loop registers line after line. By induction on the lines: each one is an insertion
into the registry, and the first that is refused ends both. -/
theorem meets_importLoop {ssh : Str} (hs : OneLine ssh) {urls : List Str}
    (hurls : ∀ u ∈ urls, OneLine u ∧ ∀ n, Node.init u [] = .ok n → IsComponent n.name)
    (h : Stores site w m) :
    Meets site ((importLoop site ssh urls).run w) (m.importAll ssh urls) := by
  induction urls generalizing w m with
  | nil => exact ⟨rfl, h⟩
  | cons url urls ih =>
      obtain ⟨hu, hc⟩ := hurls url (by simp)
      cases hn : Node.init url [] with
      | error e =>
          simp only [importLoop, Registry.importAll, hn, run_bind_of_error (run_check_error e w)]
          exact Meets.error h
      | ok n =>
          have hsave : (saveNode site (importNode n ssh)).run w =
              .ok () (w.saved site (importNode n ssh)) := run_saveNode_component (hc n hn)
          have hst : Stores site (w.saved site (importNode n ssh))
              (m.insert n.name (n.url, strip (pyOr ssh (rootAt n)))) :=
            h.insert (k := n.name) (holdsEntry_saved hn hu (oneLine_pyOr hs (oneLine_rootAt hn hu)))
          simp only [importLoop, Registry.importAll, hn, run_bind_of_ok (run_check_ok n w),
            run_bind_of_ok hsave]
          exact ih (fun v hv => hurls v (by simp [hv])) hst

theorem importAll_ne_nil {ssh : Str} {urls : List Str} (hne : m.isEmpty = false ∨ urls ≠ [])
    (h : (m.importAll ssh urls).1 = true) : (m.importAll ssh urls).2.isEmpty = false := by
  induction urls generalizing m with
  | nil => simpa [Registry.importAll] using hne
  | cons url urls ih =>
      cases hn : Node.init url [] with
      | error e => simp [Registry.importAll, hn] at h
      | ok n =>
          simp only [Registry.importAll, hn] at h ⊢
          exact ih (Or.inl (by simp)) h

theorem meets_cmdImport (h : Stores site w m) (net : Net) (hreq : w.requests = 0) {url ssh : Str}
    (hs : OneLine ssh) (hc : ∀ urls, fetchedUrls net 0 url = some urls → ∀ u ∈ urls, ∀ n,
      Node.init u [] = .ok n → IsComponent n.name) :
    Meets site ((cmdImport site net url ssh).run w) ((Command.importSub url ssh).spec net m) := by
  rw [Command.spec, ← hreq]
  cases hf : fetchedUrls net w.requests url with
  | none =>
      obtain ⟨e, c, hrun⟩ := run_fetchSubUrls_error hf
      rw [cmdImport, run_bind_of_error hrun]
      exact Meets.error (h.frame id (fun _ => rfl))
  | some urls =>
      have hst : Stores site { w with requests := w.requests + 1 } m := h.frame id (fun _ => rfl)
      rw [cmdImport, run_bind_of_ok (run_fetchSubUrls hf)]
      dsimp only
      split_ifs with hmany
      · exact Meets.error hst
      · have hloop := meets_importLoop hs (fun u hu => ⟨(oneLine_fetchedUrls hf hu).1,
          hc urls (hreq ▸ hf) u hu⟩) hst
        cases hrun : (importLoop site ssh urls).run { w with requests := w.requests + 1 } with
        | error e v =>
            rw [run_bind_of_error hrun]
            rwa [hrun] at hloop
        | ok _ v =>
            rw [hrun] at hloop
            have hne : urls ≠ [] := by
              rintro rfl
              exact fetchedUrls_ne_nil hf
            rw [run_bind_of_ok hrun]
            have hmeets := hloop.stores.meets_afterChange net
            rw [importAll_ne_nil (Or.inr hne) hloop.outcome] at hmeets
            exact ⟨hloop.outcome.trans hmeets.outcome, hmeets.stores⟩

/-! ### Sessions -/

/-- One process does to the files what its command does to the registry, and succeeds exactly when
the command does; one case for each command. -/
theorem Invocation.run_spec {i : Invocation} (hi : i.Tidy) (h : Stores site w m) :
    ((i.run site w).1 = none ↔ (i.command.spec i.net m).1 = true) ∧
      Stores site (i.run site w).2 (i.command.spec i.net m).2 := by
  have h0 : Stores site { w with requests := 0 } m := h.frame id (fun _ => rfl)
  have hmeets : Meets site ((i.command.prog site i.net).run { w with requests := 0 })
      (i.command.spec i.net m) := by
    obtain ⟨command, net⟩ := i
    cases command with
    | importSub url ssh => exact meets_cmdImport h0 net rfl hi.1 hi.2
    | add url ssh => exact meets_cmdAdd h0 net hi.1 hi.2.1 hi.2.2
    | update url ssh => exact meets_cmdUpdate h0 net hi.1 hi.2.1 hi.2.2
    | remove name => exact meets_cmdRemove h0 net hi
  refine ⟨?_, hmeets.stores⟩
  rw [hmeets.outcome, Option.isNone_iff_eq_none]
  rfl

theorem stores_fresh (h : w.Fresh site) : Stores site w ∅ where
  dir name hn := absurd hn Std.ExtTreeMap.not_mem_empty
  entry name := by
    have hnone : w.conf site name = none := by
      refine h.files _ ?_
      rw [nodesDir_append]
      exact List.prefix_append _ _
    rw [hnone, Std.ExtTreeMap.getElem?_empty]
    exact .none

theorem Stores.runs {is : List Invocation} (his : ∀ i ∈ is, i.Tidy) (h : Stores site w m) :
    Stores site (runs site w is) (m.runs is) := by
  induction is generalizing w m with
  | nil => exact h
  | cons i is ih =>
      exact ih (fun j hj => his j (by simp [hj])) (Invocation.run_spec (his i (by simp)) h).2

theorem Stores.run_loadNodes (h : Stores site w m) :
    ∃ ns, (loadNodes site).run w = .ok ns { w with nodesDir := true } ∧ Lists ns m := by
  obtain ⟨ns, hns, hlists⟩ := h.loads
  exact ⟨ns, by rw [VlessSubs.run_loadNodes, hns], hlists⟩

/-- **The conf files implement the registry.** After any session of tidy commands from
a fresh home, `load_nodes` lists the abstract registry, and the next command
succeeds, and changes what is loaded, as its specification says. -/
theorem session_refines_registry (hfresh : w.Fresh site) {is : List Invocation}
    (his : ∀ i ∈ is, i.Tidy) {i : Invocation} (hi : i.Tidy) :
    (∃ ns, (loadNodes site).run (runs site w is) =
        .ok ns { runs site w is with nodesDir := true } ∧ Lists ns (Registry.runs ∅ is)) ∧
      ((i.run site (runs site w is)).1 = none ↔
        (i.command.spec i.net (Registry.runs ∅ is)).1 = true) ∧
      (∃ ns, (loadNodes site).run (i.run site (runs site w is)).2 =
        .ok ns { (i.run site (runs site w is)).2 with nodesDir := true } ∧
        Lists ns (i.command.spec i.net (Registry.runs ∅ is)).2) := by
  have hst : Stores site (VlessSubs.runs site w is) (Registry.runs ∅ is) :=
    (stores_fresh hfresh).runs his
  obtain ⟨hout, hst'⟩ := Invocation.run_spec hi hst
  exact ⟨hst.run_loadNodes, hout, hst'.run_loadNodes⟩

end

section

attribute [local instance] asciiData

/-- An entry is added and then updated. -/
theorem session_refines_registry_small :
    ((⟨.update smallUrl [], silent⟩ : Invocation).run smallSite
        (runs smallSite emptyWorld [⟨.add smallUrl [], silent⟩])).1 = none ↔
      ((Command.update smallUrl []).spec silent
        (Registry.runs ∅ [⟨.add smallUrl [], silent⟩])).1 = true :=
  (session_refines_registry (fresh_emptyWorld smallSite) (by decide)
    (by decide)).2.1

/-- An `update` without `--ssh` does not keep a target that is stored empty: `import
--ssh " "` stores one, and the update puts the default in its place. -/
theorem update_replaces_empty_ssh :
    ((runs smallSite emptyWorld [⟨.importSub "http://e".toList " ".toList, serving smallUrl⟩]).nodes
        smallSite).toOption.map (·.map Node.ssh) = some [[]] ∧
      ((runs smallSite emptyWorld [⟨.importSub "http://e".toList " ".toList, serving smallUrl⟩,
        ⟨.update smallUrl [], silent⟩]).nodes smallSite).toOption.map (·.map Node.ssh) =
          some ["root@h".toList] := by
  decide +kernel

end

end BlogStuff.VlessSubs
