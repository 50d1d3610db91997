import BlogStuff.VlessSubs.Commands
import BlogStuff.VlessSubs.ProxyYaml

/-!
# BlogStuff.VlessSubs.ClashNames

The names in a generated `clash.yaml`. A client rejects the whole file when two proxies
have one name, or when a group lists a name that is neither a proxy nor a group.

The set of names seen is shared by all sources, so the source loop keeps of all the
proxies on offer, taken in order, those whose name is new: running `dedup` source by
source is running it once over everything (`addAll_extraProxies`). The lists of the
groups are built beside it from the same kept proxies. What follows for the document is
`NamesIntact`.

The document is a record; `Shows` says where its names stand in the text, and
`buildClash_render` that every text of `build_clash` is that of such a document. Names are
compared as the texts between the quotes; what a YAML reader makes of a name in both places
is the subject of `GroupNames`.
-/

namespace BlogStuff.VlessSubs

open BlogStuff.Python

/-! ### Keeping first uses -/

section

variable {seen : List Str} {ps : List (Str × Str)}

theorem dedup_append (seen : List Str) (a b : List (Str × Str)) :
    dedup seen (a ++ b) =
      ((dedup seen a).1 ++ (dedup (dedup seen a).2 b).1, (dedup (dedup seen a).2 b).2) := by
  induction a generalizing seen with
  | nil => rfl
  | cons p a ih =>
      obtain ⟨line, name⟩ := p
      rw [List.cons_append, dedup, dedup]
      split_ifs
      · exact ih seen
      · rw [ih]
        rfl

/-- Afterwards every name on offer has been seen, those that were dropped included: they had been
seen before. -/
theorem mem_dedup_seen {x : Str} : x ∈ (dedup seen ps).2 ↔ x ∈ seen ∨ x ∈ ps.map Prod.snd := by
  induction ps generalizing seen with
  | nil => simp [dedup]
  | cons p ps ih =>
      obtain ⟨line, name⟩ := p
      rw [dedup]
      split_ifs with h
      · rw [ih, List.map_cons, List.mem_cons]
        constructor
        · exact Or.imp_right Or.inr
        · intro hx
          rcases hx with hx | rfl | hx
          · exact Or.inl hx
          · exact Or.inl h
          · exact Or.inr hx
      · rw [ih, List.mem_cons, List.map_cons, List.mem_cons, or_assoc, or_left_comm]

theorem sublist_dedup : (dedup seen ps).1.Sublist ps := by
  induction ps generalizing seen with
  | nil => exact List.Sublist.refl _
  | cons p ps ih =>
      obtain ⟨line, name⟩ := p
      rw [dedup]
      split_ifs
      · exact ih.cons _
      · exact ih.cons_cons _

/-- The names kept are new, and no two are the same. -/
theorem nodup_dedup (seen : List Str) (ps : List (Str × Str)) :
    (∀ x ∈ (dedup seen ps).1.map Prod.snd, x ∉ seen) ∧ ((dedup seen ps).1.map Prod.snd).Nodup := by
  induction ps generalizing seen with
  | nil => simp [dedup]
  | cons p ps ih =>
      obtain ⟨line, name⟩ := p
      rw [dedup]
      split_ifs with h
      · exact ih seen
      · obtain ⟨hnew, hnodup⟩ := ih (name :: seen)
        rw [List.map_cons]
        refine ⟨List.forall_mem_cons.mpr ⟨h, fun x hx hs => hnew x hx (by simp [hs])⟩, ?_⟩
        exact List.nodup_cons.mpr ⟨fun hmem => hnew name hmem (by simp), hnodup⟩

theorem mem_dedup_of_first {pre post : List (Str × Str)} {line name : Str} (hseen : name ∉ seen)
    (hpre : name ∉ pre.map Prod.snd) :
    (line, name) ∈ (dedup seen (pre ++ (line, name) :: post)).1 := by
  have hnew : name ∉ (dedup seen pre).2 := by
    rw [mem_dedup_seen, not_or]
    exact ⟨hseen, hpre⟩
  rw [dedup_append, dedup, if_neg hnew]
  simp

end

/-! ### The source loop -/

/-- What one extra source contributes: the proxies its fetchers return, as lines with
names. -/
structure Offer where
  label : Str
  url : Str
  proxies : List (Str × Str)

/-- The source loop over what the sources offer. -/
def Gathered.addAll (g : Gathered) (offers : List Offer) : Gathered :=
  offers.foldl (fun g o => g.add o.label o.url o.proxies) g

section

variable {g : Gathered}

/-- One round keeps the new proxies; a source without any has none to keep. -/
theorem add_extraProxies (g : Gathered) (label url : Str) (ps : List (Str × Str)) :
    (g.add label url ps).extraProxies = g.extraProxies ++ (dedup g.seenNames ps).1 := by
  unfold Gathered.add
  split_ifs with h
  · simp [h, dedup]
  · rfl

theorem add_seenNames (g : Gathered) (label url : Str) (ps : List (Str × Str)) :
    (g.add label url ps).seenNames = (dedup g.seenNames ps).2 := by
  unfold Gathered.add
  split_ifs with h
  · simp [h, dedup]
  · rfl

/-- One round adds one source, which lists the names of the proxies kept. -/
theorem add_sources (g : Gathered) (label url : Str) (ps : List (Str × Str)) :
    ∃ slug, (g.add label url ps).sources =
      g.sources ++ [⟨label, (dedup g.seenNames ps).1.map Prod.snd, slug, url⟩] := by
  unfold Gathered.add
  split_ifs with h
  · subst h
    exact ⟨_, rfl⟩
  · exact ⟨none, rfl⟩

theorem addAll_append (g : Gathered) (a b : List Offer) :
    g.addAll (a ++ b) = (g.addAll a).addAll b := by
  rw [Gathered.addAll, List.foldl_append]
  rfl

theorem addAll_cons (g : Gathered) (o : Offer) (os : List Offer) :
    g.addAll (o :: os) = (g.add o.label o.url o.proxies).addAll os := rfl

/-- Keeping source by source is keeping from everything on offer. -/
theorem addAll_dedup (g : Gathered) (offers : List Offer) :
    (g.addAll offers).extraProxies =
        g.extraProxies ++ (dedup g.seenNames (offers.flatMap Offer.proxies)).1 ∧
      (g.addAll offers).seenNames = (dedup g.seenNames (offers.flatMap Offer.proxies)).2 := by
  induction offers generalizing g with
  | nil => exact ⟨(List.append_nil _).symm, rfl⟩
  | cons o os ih =>
      obtain ⟨hproxies, hseen⟩ := ih (g.add o.label o.url o.proxies)
      rw [addAll_cons, hproxies, hseen, add_extraProxies, add_seenNames, List.flatMap_cons,
        dedup_append, List.append_assoc]
      exact ⟨rfl, rfl⟩

/-- The sources list what is kept, each once and in order. -/
theorem addAll_names (g : Gathered) (offers : List Offer) :
    (g.addAll offers).sources.flatMap Source.names =
      g.sources.flatMap Source.names ++
        (dedup g.seenNames (offers.flatMap Offer.proxies)).1.map Prod.snd := by
  induction offers generalizing g with
  | nil => exact (List.append_nil _).symm
  | cons o os ih =>
      obtain ⟨slug, hsources⟩ := add_sources g o.label o.url o.proxies
      rw [addAll_cons, ih, hsources, add_seenNames, List.flatMap_cons, dedup_append,
        List.flatMap_append, List.map_append, List.append_assoc]
      simp

/-- There is one source per offer, under its label. -/
theorem addAll_labels (g : Gathered) (offers : List Offer) :
    (g.addAll offers).sources.map Source.label =
      g.sources.map Source.label ++ offers.map Offer.label := by
  induction offers generalizing g with
  | nil => exact (List.append_nil _).symm
  | cons o os ih =>
      obtain ⟨slug, hsources⟩ := add_sources g o.label o.url o.proxies
      rw [addAll_cons, ih, hsources]
      simp

theorem addAll_sources_append (g : Gathered) (offers : List Offer) :
    ∃ more, (g.addAll offers).sources = g.sources ++ more := by
  induction offers generalizing g with
  | nil => exact ⟨[], (List.append_nil _).symm⟩
  | cons o os ih =>
      obtain ⟨slug, hsources⟩ := add_sources g o.label o.url o.proxies
      obtain ⟨more, hmore⟩ := ih (g.add o.label o.url o.proxies)
      rw [addAll_cons, hmore, hsources, List.append_assoc]
      exact ⟨_, rfl⟩

end

/-! ### The document -/

/-- The names of a clash document are in order, for own nodes and the proxies the extra
sources offer. A proxy is a name and the text that stands for it: the block of an own node,
which opens with its name, or the line a source offers together with the name. -/
structure NamesIntact (nodes : List Node) (offers : List Offer) (d : ClashDoc) : Prop where
  /-- The block of an own node opens with its name. -/
  named : ∀ n ∈ nodes, "  - name: \"".toList ++ n.name ++ "\"\n".toList <+: n.clashProxy
  /-- No two proxies have one name. -/
  nodup : (d.proxies.map Prod.fst).Nodup
  /-- The extra proxies stand behind the own ones, in the order of the offers. -/
  ordered : ∃ extras : List (Str × Str), d.proxies = nodes.map (fun n => (n.name, n.clashProxy)) ++
    extras.map Prod.swap ∧ extras.Sublist (offers.flatMap Offer.proxies)
  /-- The second group is Auto, and lists every proxy. -/
  auto : ∃ use, d.groups[1]? = some ⟨"Auto".toList, urlTestKind, use, d.proxies.map Prod.fst⟩
  /-- A proxy on offer whose name is new where it stands is emitted, and of the groups of
  the sources, which follow Auto in the order of the offers, exactly its own lists it. -/
  first : ∀ before o behind pre line name post, offers = before ++ o :: behind →
    o.proxies = pre ++ (line, name) :: post → name ∉ nodes.map Node.name →
    name ∉ (before.flatMap Offer.proxies ++ pre).map Prod.snd →
    (name, line) ∈ d.proxies ∧ ∃ left group right, (d.groups.drop 2).dropLast = left ++ group :: right ∧
      left.length = before.length ∧ right.length = behind.length ∧ group.name = o.label ∧
      name ∈ group.members ∧ ∀ other ∈ left ++ right, name ∉ other.members
  /-- Every name a group lists is a proxy, a group or DIRECT. -/
  closed : ∀ group ∈ d.groups, ∀ name ∈ group.members, name ∈ d.proxies.map Prod.fst ∨
    name ∈ d.groups.map Group.name ∨ name = "DIRECT".toList

section

theorem proxies_names (nodes : List Node) (g : Gathered) :
    (clashDoc nodes g).proxies.map Prod.fst =
      nodes.map Node.name ++ g.extraProxies.map Prod.snd := by
  simp [clashDoc, Function.comp_def]

theorem sourceGroups_eq (nodes : List Node) (g : Gathered) :
    ((clashDoc nodes g).groups.drop 2).dropLast = g.sources.map Source.group := by
  simp [clashDoc]

/-- The groups list nothing but proxies, groups and DIRECT, if the sources list kept
proxies. -/
theorem clashDoc_closed {nodes : List Node} {g : Gathered}
    (h : g.sources.flatMap Source.names = g.extraProxies.map Prod.snd) :
    ∀ group ∈ (clashDoc nodes g).groups, ∀ name ∈ group.members,
      name ∈ (clashDoc nodes g).proxies.map Prod.fst ∨
        name ∈ (clashDoc nodes g).groups.map Group.name ∨ name = "DIRECT".toList := by
  have hlabel : ∀ s ∈ g.sources, s.label ∈ (clashDoc nodes g).groups.map Group.name := by
    intro s hs
    have hmem : s.group ∈ (clashDoc nodes g).groups := by
      simp only [clashDoc, List.mem_append]
      exact Or.inl (Or.inr (List.mem_map_of_mem hs))
    exact List.mem_map_of_mem (f := Group.name) hmem
  intro group hgroup name hname
  rw [proxies_names, List.mem_append, ← h]
  simp only [clashDoc, List.mem_append, List.mem_cons, List.not_mem_nil, or_false,
    List.mem_map] at hgroup
  rcases hgroup with ((rfl | rfl) | ⟨s, hs, rfl⟩) | rfl
  · -- Proxy
    simp only [List.mem_append, List.mem_singleton] at hname
    rcases hname with ((rfl | hname) | hname) | rfl
    · exact Or.inr (Or.inl (by simp [clashDoc]))
    · exact Or.inl (Or.inl hname)
    · obtain ⟨s, hs, rfl⟩ := List.mem_map.mp hname
      exact Or.inr (Or.inl (hlabel s hs))
    · exact Or.inr (Or.inr rfl)
  · -- Auto
    exact Or.inl (List.mem_append.mp hname)
  · -- a source
    exact Or.inl (Or.inr (List.mem_flatMap.mpr ⟨s, hs, hname⟩))
  · -- Direct
    simp only [List.mem_cons, List.not_mem_nil, or_false] at hname
    rcases hname with rfl | rfl
    · exact Or.inr (Or.inr rfl)
    · exact Or.inr (Or.inl (by simp [clashDoc]))

/-- Of the sources, exactly the one that offers a name first lists it. When its turn comes the name
has not been seen, and from then on it has. -/
theorem addAll_first {own : List Str} {g : Gathered} (hseen : g.seenNames = own)
    (hsources : g.sources = []) {before : List Offer} {o : Offer} (behind : List Offer)
    {pre post : List (Str × Str)} {line name : Str} (ho : o.proxies = pre ++ (line, name) :: post)
    (hown : name ∉ own) (hnew : name ∉ (before.flatMap Offer.proxies ++ pre).map Prod.snd) :
    ∃ left s right, (g.addAll (before ++ o :: behind)).sources = left ++ s :: right ∧
      left.length = before.length ∧ right.length = behind.length ∧ s.label = o.label ∧
      name ∈ s.names ∧ ∀ other ∈ left ++ right, name ∉ other.names := by
  rw [List.map_append, List.mem_append, not_or] at hnew
  obtain ⟨slug, hadd⟩ := add_sources (g.addAll before) o.label o.url o.proxies
  obtain ⟨right, hright⟩ := addAll_sources_append
    ((g.addAll before).add o.label o.url o.proxies) behind
  have hsplit : (g.addAll (before ++ o :: behind)).sources = (g.addAll before).sources ++
      ⟨o.label, (dedup (g.addAll before).seenNames o.proxies).1.map Prod.snd, slug, o.url⟩ ::
        right := by
    rw [addAll_append, addAll_cons, hright, hadd, List.append_assoc]
    rfl
  have hmem : name ∈ (dedup (g.addAll before).seenNames o.proxies).1.map Prod.snd := by
    have hfresh : name ∉ (g.addAll before).seenNames := by
      rw [(addAll_dedup g before).2, mem_dedup_seen, hseen, not_or]
      exact ⟨hown, hnew.1⟩
    rw [ho]
    exact List.mem_map_of_mem (f := Prod.snd) (mem_dedup_of_first hfresh hnew.2)
  have hlength : ∀ offers, (g.addAll offers).sources.length = offers.length := by
    intro offers
    have hlabels := congrArg List.length (addAll_labels g offers)
    simpa [hsources] using hlabels
  refine ⟨_, _, right, hsplit, hlength before, ?_, rfl, hmem, ?_⟩
  · have htotal := hlength (before ++ o :: behind)
    rw [hsplit] at htotal
    simp only [List.length_append, List.length_cons, hlength before] at htotal
    omega
  · -- a name listed twice would be kept twice
    have hnodup : ((g.addAll (before ++ o :: behind)).sources.flatMap Source.names).Nodup := by
      rw [addAll_names, hsources]
      exact (nodup_dedup _ _).2
    rw [hsplit, List.flatMap_append, List.flatMap_cons, List.nodup_append'] at hnodup
    obtain ⟨-, hrest, hleft⟩ := hnodup
    rw [List.nodup_append'] at hrest
    intro other hother hname
    rcases List.mem_append.mp hother with hother | hother
    · exact hleft (List.mem_flatMap.mpr ⟨other, hother, hname⟩) (List.mem_append_left _ hmem)
    · exact hrest.2.2 hmem (List.mem_flatMap.mpr ⟨other, hother, hname⟩)

/-- For own nodes of distinct names, the document made of them and of whatever the extra
sources offer has its names in order. -/
theorem clashDoc_intact {nodes : List Node} (hown : (nodes.map Node.name).Nodup)
    (offers : List Offer) :
    NamesIntact nodes offers (clashDoc nodes ((Gathered.start nodes).addAll offers)) := by
  have hextra : ((Gathered.start nodes).addAll offers).extraProxies =
      (dedup (nodes.map Node.name) (offers.flatMap Offer.proxies)).1 :=
    (addAll_dedup (Gathered.start nodes) offers).1
  have hnames : ((Gathered.start nodes).addAll offers).sources.flatMap Source.names =
      ((Gathered.start nodes).addAll offers).extraProxies.map Prod.snd := by
    rw [hextra]
    exact addAll_names (Gathered.start nodes) offers
  constructor
  · exact fun n _ => clashProxy_named n
  · obtain ⟨hnew, hnodup⟩ := nodup_dedup (nodes.map Node.name) (offers.flatMap Offer.proxies)
    rw [proxies_names, hextra, List.nodup_append']
    exact ⟨hown, hnodup, fun x hx hx' => hnew x hx' hx⟩
  · refine ⟨((Gathered.start nodes).addAll offers).extraProxies, rfl, ?_⟩
    rw [hextra]
    exact sublist_dedup
  · rw [proxies_names, ← hnames]
    exact ⟨_, rfl⟩
  · intro before o behind pre line name post hoffers ho hname hnew
    refine ⟨?_, ?_⟩
    · have hall : offers.flatMap Offer.proxies = (before.flatMap Offer.proxies ++ pre) ++
          (line, name) :: (post ++ behind.flatMap Offer.proxies) := by
        rw [hoffers, List.flatMap_append, List.flatMap_cons, ho]
        simp
      have hmem : (line, name) ∈ ((Gathered.start nodes).addAll offers).extraProxies := by
        rw [hextra, hall]
        exact mem_dedup_of_first hname hnew
      exact List.mem_append_right _ (List.mem_map_of_mem (f := Prod.swap) hmem)
    · obtain ⟨left, s, right, hsources, hleft, hright, hlabel, hmem, hother⟩ :=
        addAll_first (g := Gathered.start nodes) rfl rfl behind ho hname hnew
      rw [sourceGroups_eq, hoffers, hsources]
      refine ⟨left.map Source.group, s.group, right.map Source.group, by simp, by simpa using hleft,
        by simpa using hright, hlabel, hmem, ?_⟩
      intro other hmem'
      rw [← List.map_append] at hmem'
      obtain ⟨t, ht, rfl⟩ := List.mem_map.mp hmem'
      exact hother t ht
  · exact clashDoc_closed hnames

/-- The text of one group: its name in quotes, what kind of group it is and which providers
it uses, and its members as a list of quoted names, if it has any. -/
def Group.Shows (group : Group) (block : Str) : Prop :=
  ∃ kind, block = "  - name: \"".toList ++ group.name ++ "\"\n".toList ++ kind ++
    (if group.members = [] then []
      else "    proxies:\n".toList ++
        group.members.flatMap fun m => "      - \"".toList ++ m ++ "\"\n".toList) ++ ['\n']

/-- What the text of a document lists: behind a header, the keys of the providers, then under
`proxies:` the texts of the proxies line by line, and under `proxy-groups:` the groups, each
with its name and its members; all in the order of the document and with nothing between. -/
def ClashDoc.Shows (d : ClashDoc) (text : Str) : Prop :=
  ∃ header entries blocks,
    List.Forall₂ (fun p entry => "  ".toList ++ p.1 ++ ":\n".toList <+: entry)
      d.providers entries ∧
    List.Forall₂ Group.Shows d.groups blocks ∧
    text = header ++
      (if entries = [] then []
        else "proxy-providers:\n".toList ++ List.intercalate ['\n'] entries ++ "\n\n".toList) ++
      (if List.intercalate ['\n'] (d.proxies.map Prod.snd) = [] then "proxies: []\n\n".toList
        else "proxies:\n".toList ++ List.intercalate ['\n'] (d.proxies.map Prod.snd) ++
          "\n\n".toList) ++
      "proxy-groups:\n".toList ++ blocks.flatten ++ clashRules

theorem Group.shows_render (group : Group) : group.Shows group.render := by
  refine ⟨group.kind ++ (if group.use = [] then []
    else "    use:\n".toList ++ group.use.flatMap fun s => "      - ".toList ++ s ++ ['\n']), ?_⟩
  unfold Group.render
  simp only [List.append_assoc]

theorem prefix_renderProvider (slug url : Str) :
    "  ".toList ++ slug ++ ":\n".toList <+: renderProvider slug url := by
  have hkey : "  ".toList ++ slug ++ ":\n".toList <+:
      "  ".toList ++ slug ++ ":\n    type: http\n    url: \"".toList :=
    (List.prefix_append_right_inj _).mpr (by decide)
  have happ : ∀ {a b : Str} (c : Str), a <+: b → a <+: b ++ c := fun c h =>
    h.trans (List.prefix_append _ c)
  exact happ _ (happ _ (happ _ (happ _ (happ _ (happ _ (happ _ hkey))))))

theorem ClashDoc.shows_render (d : ClashDoc) (now : Str) : d.Shows (d.render now) := by
  refine ⟨clashHeader now ++ ['\n'], d.providers.map fun p => renderProvider p.1 p.2,
    d.groups.map Group.render, ?_, ?_, ?_⟩
  · rw [List.forall₂_map_right_iff]
    exact List.forall₂_same.mpr fun p _ => prefix_renderProvider p.1 p.2
  · rw [List.forall₂_map_right_iff]
    exact List.forall₂_same.mpr fun group _ => group.shows_render
  · simp only [ClashDoc.render, proxiesSection, List.map_eq_nil_iff, List.flatMap_def]

end

/-! ### The builder -/

section

variable [UnicodeData] {net : Net}

/-- The source loop gathers what the fetchers return for each source, in the order of the sources.
The worlds the fetchers ran in are left open, since only what they return counts here. -/
theorem gather_addAll {extras : List (Str × Str)} {g g' : Gathered} {w w' : World}
    (h : (gather net extras g).run w = .ok g' w') :
    ∃ offers : List Offer, offers.map (fun o => (o.label, o.url)) = extras ∧
      (∀ o ∈ offers, ∃ v v', (sourceProxies net o.label o.url).run v = .ok o.proxies v') ∧
      g' = g.addAll offers := by
  induction extras generalizing g w with
  | nil =>
      obtain ⟨rfl, -⟩ := EStateM.Result.ok.inj h
      exact ⟨[], rfl, by simp, rfl⟩
  | cons e rest ih =>
      obtain ⟨label, url⟩ := e
      obtain ⟨ps, v, hps, hrest⟩ := run_bind_eq_ok.mp h
      obtain ⟨offers, hoffers, hruns, rfl⟩ := ih hrest
      exact ⟨⟨label, url, ps⟩ :: offers, by rw [List.map_cons, hoffers],
        List.forall_mem_cons.mpr ⟨⟨w, v, hps⟩, hruns⟩, rfl⟩

/-- A text `build_clash` returns for what the sources have offered: one offer per source,
each what the fetchers returned for it, and the text that of the document made of them. -/
structure BuiltFrom (net : Net) (nodes : List Node) (extras : List (Str × Str)) (text : Str)
    (offers : List Offer) : Prop where
  sources : offers.map (fun o => (o.label, o.url)) = extras
  fetched : ∀ o ∈ offers, ∃ v v', (sourceProxies net o.label o.url).run v = .ok o.proxies v'
  render : text = (clashDoc nodes ((Gathered.start nodes).addAll offers)).render net.now
  shows : (clashDoc nodes ((Gathered.start nodes).addAll offers)).Shows text

/-- What `build_clash` returns is the text of such a document. -/
theorem buildClash_render {nodes : List Node} {extras : List (Str × Str)} {text : Str}
    {w w' : World} (h : (buildClash net nodes extras).run w = .ok text w') :
    ∃ offers : List Offer, BuiltFrom net nodes extras text offers := by
  obtain ⟨g, v, hgather, hrest⟩ := run_bind_eq_ok.mp h
  obtain ⟨offers, hoffers, hruns, rfl⟩ := gather_addAll hgather
  obtain rfl := (EStateM.Result.ok.inj hrest).1
  exact ⟨offers, hoffers, hruns, rfl, ClashDoc.shows_render _ _⟩

/-- **Names in `clash.yaml`.** For own nodes of distinct names and whatever the extra sources
offer, the document has its names in order, and its text lists what the document does: the
source loop compares every name with one set, which the own names start and every round
extends, and it fills the lists of the groups from the proxies it keeps. Whatever text
`build_clash` returns is the text of such a document. -/
theorem clash_names_intact {nodes : List Node} (hown : (nodes.map Node.name).Nodup) :
    (∀ offers now, NamesIntact nodes offers (clashDoc nodes ((Gathered.start nodes).addAll offers)) ∧
      (clashDoc nodes ((Gathered.start nodes).addAll offers)).Shows
        ((clashDoc nodes ((Gathered.start nodes).addAll offers)).render now)) ∧
    ∀ net extras text w w', (buildClash net nodes extras).run w = .ok text w' →
      ∃ offers, BuiltFrom net nodes extras text offers :=
  ⟨fun offers _ => ⟨clashDoc_intact hown offers, ClashDoc.shows_render _ _⟩,
    fun _ _ _ _ _ h => buildClash_render h⟩

end

section

attribute [local instance] asciiData

/-- Two sources offer one name; and a run with a source that does not answer. -/
theorem clash_names_intact_small :
    NamesIntact [smallNode] [⟨"L".toList, [], [("x".toList, "a".toList)]⟩,
        ⟨"M".toList, [], [("y".toList, "a".toList), ("z".toList, "b".toList)]⟩]
      (clashDoc [smallNode] ((Gathered.start [smallNode]).addAll
        [⟨"L".toList, [], [("x".toList, "a".toList)]⟩,
          ⟨"M".toList, [], [("y".toList, "a".toList), ("z".toList, "b".toList)]⟩])) ∧
    ∃ text offers,
      BuiltFrom silent [smallNode] [("L".toList, "http://e".toList)] text offers := by
  obtain ⟨text, w', hrun⟩ : ∃ text w', (buildClash silent [smallNode]
      [("L".toList, "http://e".toList)]).run emptyWorld = .ok text w' := ⟨_, _, rfl⟩
  have hnames : ([smallNode].map Node.name).Nodup := by simp
  exact ⟨((clash_names_intact hnames).1 _ []).1, text,
    (clash_names_intact hnames).2 _ _ _ _ _ hrun⟩

end

end BlogStuff.VlessSubs
