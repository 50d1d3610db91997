import BlogStuff.VlessSubs.ClashNames
import BlogStuff.VlessSubs.DisplayNames
import BlogStuff.VlessSubs.ExtraSubs

/-!
# BlogStuff.VlessSubs.Groups

The groups and providers of a generated `clash.yaml`: what they are called and whether
they have members.

A provider is called by the slug of its label, with a number from the second use of a
slug on. The numbered slug is not looked up among the others, so a label that looks like
one collides with it (`provider_keys_nodup_iff`). The groups share one name space with
the proxies, and only the proxies of the extra sources are compared with what is there
(`group_names_apart_iff`). A source whose proxies have all been seen keeps none, and its
group is written without members (`groups_nonempty_iff`).
-/

namespace BlogStuff.VlessSubs

open BlogStuff.Python

/-! ### Numbered slugs -/

/-- The slug of the `k`-th source with the base `base`. -/
def slugOf (base : Str) (k : Nat) : Str :=
  if k = 1 then base else base ++ "-".toList ++ Nat.toDigits 10 k

/-- Each base with its number, from counts to begin with. -/
def numbered (seen : Str → Nat) : List Str → List (Str × Nat)
  | [] => []
  | b :: bs => (b, seen b + 1) :: numbered (Function.update seen b (seen b + 1)) bs

theorem mem_numbered {seen : Str → Nat} {bs : List Str} {b : Str} {k : Nat} :
    (b, k) ∈ numbered seen bs ↔ seen b < k ∧ k ≤ seen b + bs.count b := by
  induction bs generalizing seen with
  | nil =>
      simp only [numbered, List.not_mem_nil, List.count_nil, false_iff]
      omega
  | cons a bs ih =>
      rw [numbered, List.mem_cons, ih, Prod.mk.injEq, List.count_cons]
      by_cases hab : b = a
      · subst hab
        simp only [Function.update_self, BEq.rfl, if_true, true_and]
        omega
      · simp [hab, beq_false_of_ne (Ne.symm hab)]

theorem nodup_numbered (seen : Str → Nat) (bs : List Str) : (numbered seen bs).Nodup := by
  induction bs generalizing seen with
  | nil => exact List.nodup_nil
  | cons b bs ih =>
      rw [numbered, List.nodup_cons]
      refine ⟨fun hmem => ?_, ih _⟩
      have hlt := (mem_numbered.mp hmem).1
      rw [Function.update_self] at hlt
      omega

theorem toDigits_inj {m n : Nat} (h : Nat.toDigits 10 m = Nat.toDigits 10 n) : m = n := by
  rw [← Nat.ofDigitChars_ten_toDigits (n := m), h, Nat.ofDigitChars_ten_toDigits]

/-- Two numbered slugs are the same only for the same base and number: a number has no dash, so the
last dash is the one in front of it. -/
theorem numbered_slug_inj {b b' : Str} {k k' : Nat}
    (h : b ++ "-".toList ++ Nat.toDigits 10 k = b' ++ "-".toList ++ Nat.toDigits 10 k') :
    b = b' ∧ k = k' := by
  have hno : ∀ n, '-' ∉ Nat.toDigits 10 n := by
    intro n hmem
    have hdigit := Nat.isDigit_of_mem_toDigits (by decide) (by decide) hmem
    exact absurd hdigit (by decide)
  have hpart : ∀ b k, rpartition '-' (b ++ "-".toList ++ Nat.toDigits 10 k) =
      (b, true, Nat.toDigits 10 k) := by
    intro b k
    have happ : b ++ "-".toList ++ Nat.toDigits 10 k = b ++ '-' :: Nat.toDigits 10 k := by simp
    rw [happ, rpartition_append (hno k)]
  have heq := congrArg (rpartition '-') h
  rw [hpart, hpart] at heq
  obtain ⟨hb, htail⟩ := Prod.mk.inj heq
  exact ⟨hb, toDigits_inj (Prod.mk.inj htail).2⟩

/-- **Numbering keeps slugs apart exactly if no base looks like a numbered slug in use.** The pairs
of base and number are apart; two of them are written alike only if one is a base and the other a
numbered one. -/
theorem nodup_slugs_iff (bs : List Str) :
    ((numbered (fun _ => 0) bs).map fun p => slugOf p.1 p.2).Nodup ↔
      ∀ b k, 2 ≤ k → k ≤ bs.count b → b ++ "-".toList ++ Nat.toDigits 10 k ∉ bs := by
  rw [List.nodup_map_iff_inj_on (nodup_numbered _ _)]
  constructor
  · intro hinj b k hk hcount hmem
    have hpair : (b, k) ∈ numbered (fun _ => 0) bs := mem_numbered.mpr (by omega)
    have hfirst : (b ++ "-".toList ++ Nat.toDigits 10 k, 1) ∈ numbered (fun _ => 0) bs := by
      refine mem_numbered.mpr ⟨by omega, ?_⟩
      have hpos := List.count_pos_iff.mpr hmem
      omega
    have heq := hinj _ hfirst _ hpair (by simp [slugOf, show k ≠ 1 by omega])
    have hone := (Prod.mk.inj heq).2
    omega
  · intro hcond p hp q hq heq
    obtain ⟨b, k⟩ := p
    obtain ⟨b', k'⟩ := q
    obtain ⟨hk, hcount⟩ := mem_numbered.mp hp
    obtain ⟨hk', hcount'⟩ := mem_numbered.mp hq
    rw [Nat.zero_add] at hcount hcount'
    have hmem : b ∈ bs := List.count_pos_iff.mp (by omega)
    have hmem' : b' ∈ bs := List.count_pos_iff.mp (by omega)
    simp only [slugOf] at heq
    split_ifs at heq with h1 h2 h2
    · rw [heq, h1, h2]
    · exact absurd (heq ▸ hmem) (hcond b' k' (by omega) hcount')
    · exact absurd (heq ▸ hmem') (hcond b k (by omega) hcount)
    · obtain ⟨rfl, rfl⟩ := numbered_slug_inj heq
      rfl

/-- The bases of the slugs, for the sources that offer no proxies. -/
def slugBases (offers : List Offer) : List Str :=
  (offers.filter fun o => o.proxies = []).map fun o => slugify o.label

theorem addAll_slugs (g : Gathered) (offers : List Offer) :
    (g.addAll offers).sources.filterMap Source.slug = g.sources.filterMap Source.slug ++
      (numbered g.seenSlugs (slugBases offers)).map fun p => slugOf p.1 p.2 := by
  induction offers generalizing g with
  | nil => exact (List.append_nil _).symm
  | cons o os ih =>
      rw [addAll_cons, ih]
      by_cases ho : o.proxies = []
      · have hbases : slugBases (o :: os) = slugify o.label :: slugBases os := by
          simp [slugBases, ho]
        rw [hbases, numbered, Gathered.add, if_pos ho]
        simp [slugOf]
      · have hbases : slugBases (o :: os) = slugBases os := by
          simp [slugBases, ho]
        rw [hbases, Gathered.add, if_neg ho]
        simp

theorem providers_keys (nodes : List Node) (g : Gathered) :
    (clashDoc nodes g).providers.map Prod.fst = g.sources.filterMap Source.slug := by
  rw [clashDoc, List.map_filterMap]
  refine List.filterMap_congr fun s _ => ?_
  cases s.slug <;> rfl

/-- **The keys of the fallback providers are distinct** exactly if no label slugs to what a
repeated slug is numbered as: the counter of a slug keeps its own numbered forms apart, and a
numbered form can only meet a slug that is spelt like it. The text of `build_clash` lists
these keys, for what the sources return. -/
theorem provider_keys_nodup_iff [UnicodeData] (nodes : List Node) :
    (∀ offers, ((clashDoc nodes
        ((Gathered.start nodes).addAll offers)).providers.map Prod.fst).Nodup ↔
      ∀ b k, 2 ≤ k → k ≤ (slugBases offers).count b →
        b ++ "-".toList ++ Nat.toDigits 10 k ∉ slugBases offers) ∧
    ∀ net extras text w w', (buildClash net nodes extras).run w = .ok text w' →
      ∃ offers, BuiltFrom net nodes extras text offers := by
  refine ⟨fun offers => ?_, fun _ _ _ _ _ h => buildClash_render h⟩
  rw [providers_keys, addAll_slugs]
  exact nodup_slugs_iff (slugBases offers)

/-- The label `a-2` gets the slug of the second `a`. -/
theorem numbered_slug_taken :
    (clashDoc [] ((Gathered.start []).addAll [⟨"a".toList, [], []⟩, ⟨"a".toList, [], []⟩,
        ⟨"a-2".toList, [], []⟩])).providers.map Prod.fst =
      ["a".toList, "a-2".toList, "a-2".toList] ∧
    ¬ ["a".toList, "a-2".toList, "a-2".toList].Nodup := by
  refine ⟨?_, ?_⟩
  · decide
  · decide

/-! ### Members -/

/-- Nothing is kept exactly if every name has been seen. -/
theorem dedup_eq_nil_iff {seen : List Str} {ps : List (Str × Str)} :
    (dedup seen ps).1 = [] ↔ ∀ p ∈ ps, p.2 ∈ seen := by
  induction ps with
  | nil => simp [dedup]
  | cons p ps ih =>
      obtain ⟨line, name⟩ := p
      rw [dedup, List.forall_mem_cons]
      split_ifs with h
      · rw [ih]
        exact (and_iff_right h).symm
      · simp [h]

/-- Every source that offers proxies offers one with a name that is new: not in `seen`,
and not on offer by an earlier source. -/
def OffersNew (seen : List Str) : List Offer → Prop
  | [] => True
  | o :: os => (o.proxies = [] ∨ ∃ p ∈ o.proxies, p.2 ∉ seen) ∧
      OffersNew (seen ++ o.proxies.map Prod.snd) os

theorem offersNew_congr {seen seen' : List Str} (h : ∀ x, x ∈ seen ↔ x ∈ seen')
    (offers : List Offer) : OffersNew seen offers ↔ OffersNew seen' offers := by
  induction offers generalizing seen seen' with
  | nil => exact Iff.rfl
  | cons o os ih =>
      have hrest : ∀ x, x ∈ seen ++ o.proxies.map Prod.snd ↔ x ∈ seen' ++ o.proxies.map Prod.snd := by
        intro x
        rw [List.mem_append, List.mem_append, h]
      rw [OffersNew, OffersNew, ih hrest]
      simp only [h]

/-- The group has a member: a proxy or a provider. -/
def Group.HasMember (g : Group) : Prop := g.use ≠ [] ∨ g.members ≠ []

/-- One round adds one source; it has a member if it offers nothing, or something new. -/
theorem add_group (g : Gathered) (o : Offer) :
    ∃ s, (g.add o.label o.url o.proxies).sources = g.sources ++ [s] ∧ (s.group.HasMember ↔
      o.proxies = [] ∨ ∃ p ∈ o.proxies, p.2 ∉ g.seenNames) := by
  unfold Gathered.add
  split_ifs with h
  · refine ⟨_, rfl, iff_of_true ?_ (Or.inl h)⟩
    simp [Source.group, Group.HasMember]
  · refine ⟨_, rfl, ?_⟩
    have hkept : (dedup g.seenNames o.proxies).1 = [] ↔ ∀ p ∈ o.proxies, p.2 ∈ g.seenNames :=
      dedup_eq_nil_iff
    simp only [Group.HasMember, Source.group, Option.toList_none, ne_eq, not_true_eq_false, false_or,
      List.map_eq_nil_iff, h, hkept, not_forall, exists_prop]

/-- The sources the loop adds have members exactly if each offers something new. By induction on the
offers, with the names seen so far growing by those of every offer. -/
theorem addAll_groups (g : Gathered) (offers : List Offer) :
    ∃ more, (g.addAll offers).sources = g.sources ++ more ∧ more.length = offers.length ∧
      ((∀ s ∈ more, s.group.HasMember) ↔ OffersNew g.seenNames offers) := by
  induction offers generalizing g with
  | nil => exact ⟨[], (List.append_nil _).symm, rfl, by simp [OffersNew]⟩
  | cons o os ih =>
      obtain ⟨s, hs, hmember⟩ := add_group g o
      obtain ⟨more, hmore, hlength, hrest⟩ := ih (g.add o.label o.url o.proxies)
      have hseen : ∀ x, x ∈ (g.add o.label o.url o.proxies).seenNames ↔
          x ∈ g.seenNames ++ o.proxies.map Prod.snd := by
        intro x
        rw [add_seenNames, mem_dedup_seen, List.mem_append]
      refine ⟨s :: more, ?_, by rw [List.length_cons, hlength, List.length_cons], ?_⟩
      · rw [addAll_cons, hmore, hs, List.append_assoc]
        rfl
      · rw [List.forall_mem_cons, hmember, hrest, OffersNew, offersNew_congr hseen]

/-- The group Auto, and then those of the sources. -/
theorem drop_groups (nodes : List Node) (g : Gathered) :
    ((clashDoc nodes g).groups.drop 1).dropLast =
      ⟨"Auto".toList, urlTestKind, g.sources.filterMap Source.slug,
        nodes.map Node.name ++ g.sources.flatMap Source.names⟩ :: g.sources.map Source.group :=
  List.dropLast_concat

/-- Auto and the groups of the sources have members exactly if there is a node or a source
and every source that offers proxies offers one with a new name. -/
theorem hasMember_iff (nodes : List Node) (offers : List Offer) :
    (∀ group ∈ ((clashDoc nodes ((Gathered.start nodes).addAll offers)).groups.drop 1).dropLast,
        group.HasMember) ↔
      (nodes ≠ [] ∨ offers ≠ []) ∧ OffersNew (nodes.map Node.name) offers := by
  obtain ⟨more, hmore, hlength, hmembers⟩ := addAll_groups (Gathered.start nodes) offers
  have hsources : ((Gathered.start nodes).addAll offers).sources = more := hmore
  rw [drop_groups, hsources, List.forall_mem_cons, List.forall_mem_map, hmembers]
  refine and_congr_left fun hnew => ?_
  constructor
  · intro hauto
    by_contra hno
    push Not at hno
    obtain ⟨rfl, rfl⟩ := hno
    obtain rfl := List.eq_nil_of_length_eq_zero hlength
    simp [Group.HasMember] at hauto
  · intro hsome
    rcases hsome with hnodes | hoffers
    · exact Or.inr (by simp [hnodes])
    · -- the first source has a provider or a proxy
      cases more with
      | nil => exact absurd (List.eq_nil_of_length_eq_zero hlength.symm) hoffers
      | cons s more =>
          rcases hmembers.mpr hnew s (by simp) with huse | hnames
          · obtain ⟨slug, hslug⟩ := Option.ne_none_iff_exists'.mp
              (show s.slug ≠ none by simpa [Source.group] using huse)
            exact Or.inl (by simp [hslug])
          · have hne : s.names ≠ [] := hnames
            exact Or.inr (by simp [hne])

/-- **No group is emitted empty**, Auto and those of the sources, exactly if there is a node
or a source and every source that offers proxies offers one with a new name: a source that
offers none gets a provider, and one that offers some keeps those that are new. The text of
`build_clash` lists these groups, for what the sources return. -/
theorem groups_nonempty_iff [UnicodeData] (nodes : List Node) :
    (∀ offers, (∀ group ∈ ((clashDoc nodes
        ((Gathered.start nodes).addAll offers)).groups.drop 1).dropLast, group.HasMember) ↔
      (nodes ≠ [] ∨ offers ≠ []) ∧ OffersNew (nodes.map Node.name) offers) ∧
    ∀ net extras text w w', (buildClash net nodes extras).run w = .ok text w' →
      ∃ offers, BuiltFrom net nodes extras text offers :=
  ⟨hasMember_iff nodes, fun _ _ _ _ _ h => buildClash_render h⟩

/-- The same source twice: the second finds all its names taken. -/
theorem second_source_empty :
    ∃ group ∈ ((clashDoc [] ((Gathered.start []).addAll
        [⟨"a".toList, [], [("x".toList, "a | n".toList)]⟩,
          ⟨"a".toList, [], [("x".toList, "a | n".toList)]⟩])).groups.drop 1).dropLast,
      ¬ group.HasMember := by
  refine ⟨⟨"a".toList, selectKind, [], []⟩, ?_, ?_⟩
  · rw [drop_groups]
    simp [Gathered.addAll, Gathered.add, Gathered.start, dedup, Source.group]
  · simp [Group.HasMember]

/-! ### Names -/

/-- The names of the groups are distinct, and none is the name of a proxy or DIRECT. Names
are compared as they stand between the quotes of the text, before any YAML reader has
unescaped them; what a reader makes of a name is the subject of `GroupNames`. -/
def ClashDoc.NamesApart (d : ClashDoc) : Prop :=
  (d.groups.map Group.name).Nodup ∧
    ∀ name ∈ d.groups.map Group.name, name ∉ d.proxies.map Prod.fst ∧ name ≠ "DIRECT".toList

/-- The names of the groups that are always there. -/
def fixedGroups : List Str := ["Proxy".toList, "Auto".toList, "Direct".toList]

/-- What keeps the names apart: the labels are distinct, none is the name of another
group, of DIRECT or of a proxy, and no own node has the name of another group. -/
structure LabelsApart (nodes : List Node) (offers : List Offer) : Prop where
  distinct : (offers.map Offer.label).Nodup
  fixed : ∀ o ∈ offers, o.label ∉ "DIRECT".toList :: fixedGroups
  own : ∀ o ∈ offers, o.label ∉ nodes.map Node.name
  offered : ∀ o ∈ offers, ∀ o' ∈ offers, o.label ∉ o'.proxies.map Prod.snd
  nodes : ∀ n ∈ nodes, n.name ∉ fixedGroups

/-- The proxies on offer are called by the label and a name of their own. -/
def Offer.Labelled (o : Offer) : Prop :=
  o.label ≠ [] ∧ ∀ p ∈ o.proxies, ∃ raw, p.2 = labelled o.label raw

/-- A labelled name is not that of a fixed group: it has a bar. -/
theorem Offer.Labelled.not_fixed {o : Offer} (h : o.Labelled) {name : Str}
    (hname : name ∈ o.proxies.map Prod.snd) : name ∉ fixedGroups := by
  obtain ⟨p, hp, rfl⟩ := List.mem_map.mp hname
  obtain ⟨raw, hraw⟩ := h.2 p hp
  have hbar : '|' ∈ p.2 := by
    rw [hraw, labelled, if_neg h.1]
    simp
  intro hmem
  have hno : ∀ x ∈ fixedGroups, '|' ∉ x := by decide
  exact hno _ hmem hbar

theorem groups_names (nodes : List Node) (offers : List Offer) :
    ((clashDoc nodes ((Gathered.start nodes).addAll offers)).groups.map Group.name).Perm
      (offers.map Offer.label ++ fixedGroups) := by
  have hnames : (clashDoc nodes ((Gathered.start nodes).addAll offers)).groups.map Group.name =
      ["Proxy".toList, "Auto".toList] ++
        ((Gathered.start nodes).addAll offers).sources.map Source.label ++ ["Direct".toList] := by
    simp [clashDoc, Source.group, Function.comp_def]
  rw [hnames, addAll_labels, List.append_assoc]
  refine List.perm_append_comm.trans ?_
  rw [List.append_assoc]
  have hdirect : (["Direct".toList] ++ ["Proxy".toList, "Auto".toList]).Perm fixedGroups :=
    List.perm_append_comm
  exact hdirect.append_left _

/-- The names kept are those on offer that have not been seen. A name that is offered twice is kept,
once. -/
theorem mem_dedup_names {seen : List Str} {ps : List (Str × Str)} {x : Str} :
    x ∈ (dedup seen ps).1.map Prod.snd ↔ x ∉ seen ∧ x ∈ ps.map Prod.snd := by
  induction ps generalizing seen with
  | nil => simp [dedup]
  | cons p ps ih =>
      obtain ⟨line, name⟩ := p
      rw [dedup]
      by_cases hx : x = name
      · subst hx
        split_ifs with h
        · simp [ih, h]
        · simp [h]
      · split_ifs with h
        · simp [ih, hx]
        · simp [ih, hx]

theorem mem_proxies_names {nodes : List Node} {offers : List Offer} {name : Str} :
    name ∈ (clashDoc nodes ((Gathered.start nodes).addAll offers)).proxies.map Prod.fst ↔
      name ∈ nodes.map Node.name ∨ ∃ o ∈ offers, name ∈ o.proxies.map Prod.snd := by
  have hextra : ((Gathered.start nodes).addAll offers).extraProxies =
      (dedup (nodes.map Node.name) (offers.flatMap Offer.proxies)).1 :=
    (addAll_dedup (Gathered.start nodes) offers).1
  have hoffered : name ∈ (offers.flatMap Offer.proxies).map Prod.snd ↔
      ∃ o ∈ offers, name ∈ o.proxies.map Prod.snd := by
    rw [List.map_flatMap, List.mem_flatMap]
  rw [proxies_names, hextra, List.mem_append, mem_dedup_names, hoffered]
  tauto

/-- The names of a document are apart exactly if the labels are. Its groups are the labels and three
fixed names, and its proxies are the nodes and what the sources offer under their labels. -/
theorem namesApart_iff {nodes : List Node} {offers : List Offer} (h : ∀ o ∈ offers, o.Labelled) :
    (clashDoc nodes ((Gathered.start nodes).addAll offers)).NamesApart ↔
      LabelsApart nodes offers := by
  have hperm := groups_names nodes offers
  have hmem : ∀ name, name ∈ (clashDoc nodes
      ((Gathered.start nodes).addAll offers)).groups.map Group.name ↔
        name ∈ offers.map Offer.label ∨ name ∈ fixedGroups := by
    intro name
    rw [hperm.mem_iff, List.mem_append]
  have hfixed : fixedGroups.Nodup := by decide
  constructor
  · intro hapart
    obtain ⟨hnodup, hnames⟩ := hapart
    rw [hperm.nodup_iff, List.nodup_append'] at hnodup
    obtain ⟨hlabels, -, hdisj⟩ := hnodup
    have hlabel : ∀ o ∈ offers, o.label ∈ offers.map Offer.label := fun o ho =>
      List.mem_map_of_mem ho
    refine ⟨hlabels, ?_, ?_, ?_, ?_⟩
    · intro o ho hmem'
      rcases List.mem_cons.mp hmem' with heq | hmem'
      · exact (hnames o.label ((hmem _).mpr (Or.inl (hlabel o ho)))).2 heq
      · exact hdisj (hlabel o ho) hmem'
    · intro o ho hown
      exact (hnames o.label ((hmem _).mpr (Or.inl (hlabel o ho)))).1
        (mem_proxies_names.mpr (Or.inl hown))
    · intro o ho o' ho' hoff
      exact (hnames o.label ((hmem _).mpr (Or.inl (hlabel o ho)))).1
        (mem_proxies_names.mpr (Or.inr ⟨o', ho', hoff⟩))
    · intro n hn hfix
      exact (hnames n.name ((hmem _).mpr (Or.inr hfix))).1
        (mem_proxies_names.mpr (Or.inl (List.mem_map_of_mem hn)))
  · intro hlabels
    refine ⟨?_, ?_⟩
    · rw [hperm.nodup_iff, List.nodup_append']
      refine ⟨hlabels.distinct, hfixed, fun name hlabel hfix => ?_⟩
      obtain ⟨o, ho, rfl⟩ := List.mem_map.mp hlabel
      exact hlabels.fixed o ho (List.mem_cons_of_mem _ hfix)
    · intro name hname
      rcases (hmem name).mp hname with hlabel | hfix
      · -- the label of a source
        obtain ⟨o, ho, rfl⟩ := List.mem_map.mp hlabel
        refine ⟨fun hproxy => ?_, fun heq => hlabels.fixed o ho (by simp [heq])⟩
        rcases mem_proxies_names.mp hproxy with hown | ⟨o', ho', hoff⟩
        · exact hlabels.own o ho hown
        · exact hlabels.offered o ho o' ho' hoff
      · -- Proxy, Auto or Direct
        refine ⟨fun hproxy => ?_, fun heq => absurd (heq ▸ hfix) (by decide)⟩
        rcases mem_proxies_names.mp hproxy with hown | ⟨o', ho', hoff⟩
        · obtain ⟨n, hn, rfl⟩ := List.mem_map.mp hown
          exact hlabels.nodes n hn hfix
        · exact (h o' ho').not_fixed hoff hfix

theorem labelled_of_clashProxies {label : Str} {answer : Option Bytes} {p : Str × Str}
    (h : p ∈ clashProxies label answer) : ∃ raw, p.2 = labelled label raw := by
  obtain ⟨ln, hln⟩ := exists_flowProxy_of_mem h
  unfold flowProxy at hln
  split_ifs at hln
  exact ⟨flowName ln, (congrArg Prod.snd (Option.some.inj hln)).symm⟩

section

variable [UnicodeData] {net : Net}

theorem labelled_of_uriProxies {label : Str} {i : Nat} {urls : List Str} {ps : List (Str × Str)}
    (h : uriProxies label i urls = .ok ps) : ∀ p ∈ ps, ∃ raw, p.2 = labelled label raw := by
  induction urls generalizing i ps with
  | nil =>
      obtain rfl : [] = ps := Except.ok.inj h
      simp
  | cons url urls ih =>
      obtain ⟨line, rest, -, hrest, rfl⟩ := uriProxies_cons_eq_ok h
      intro p hp
      rcases List.mem_append.mp hp with hp | hp
      · obtain ⟨l, -, rfl⟩ := Option.map_eq_some_iff.mp (Option.mem_toList.mp hp)
        exact ⟨rawName i url, rfl⟩
      · exact ih hrest p hp

/-- What a source returns is labelled, whether its list is read from a clash document or made from
URL lines. A source that cannot be asked returns nothing. -/
theorem labelled_of_sourceProxies {label url : Str} {ps : List (Str × Str)} {w w' : World}
    (h : (sourceProxies net label url).run w = .ok ps w') :
    ∀ p ∈ ps, ∃ raw, p.2 = labelled label raw := by
  have hreq : isRequestUrl url = true := by
    by_contra hno
    rw [Bool.not_eq_true] at hno
    have hfetch : (fetchClashProxies net url label).run w = .error .request w := by
      rw [fetchClashProxies, run_bind_of_error (run_request_error hno _)]
    rw [sourceProxies, run_bind_of_error hfetch] at h
    cases h
  rw [run_sourceProxies hreq] at h
  cases hres : (sourceResult net w.requests label url).1 with
  | error e =>
      rw [hres] at h
      cases h
  | ok qs =>
      rw [hres] at h
      obtain rfl : qs = ps := (EStateM.Result.ok.inj h).1
      rw [sourceResult] at hres
      split_ifs at hres
      · exact labelled_of_uriProxies hres
      · obtain rfl := Except.ok.inj hres
        exact fun p hp => labelled_of_clashProxies hp

/-- **The names of the groups are apart**, from each other, from the proxies and from DIRECT,
exactly if the labels are. The document is the one `build_clash` writes for what the
sources return. -/
theorem group_names_apart_iff {specs : List Str} {extras : List (Str × Str)} {nodes : List Node}
    {text : Str} {w w' : World} (hspecs : parseExtraSubs specs = .ok extras)
    (h : (buildClash net nodes extras).run w = .ok text w') :
    ∃ offers : List Offer, offers.map (fun o => (o.label, o.url)) = extras ∧
      (∀ o ∈ offers, ∃ v v', (sourceProxies net o.label o.url).run v = .ok o.proxies v') ∧
      text = (clashDoc nodes ((Gathered.start nodes).addAll offers)).render net.now ∧
      ((clashDoc nodes ((Gathered.start nodes).addAll offers)).NamesApart ↔
        LabelsApart nodes offers) := by
  obtain ⟨offers, hoffers, hruns, htext, -⟩ := buildClash_render h
  refine ⟨offers, hoffers, hruns, htext, namesApart_iff fun o ho => ?_⟩
  obtain ⟨v, v', hrun⟩ := hruns o ho
  refine ⟨?_, labelled_of_sourceProxies hrun⟩
  have hmem : (o.label, o.url) ∈ extras := by
    rw [← hoffers]
    exact List.mem_map_of_mem (f := fun o : Offer => (o.label, o.url)) ho
  obtain ⟨spec, hspec⟩ := mem_parseExtraSubs hspecs _ hmem
  exact (parseExtraSub_inv hspec).2.2

end

section

attribute [local instance] asciiData

/-- A label of its own beside one node. -/
theorem group_names_apart_iff_small :
    (clashDoc [smallNode] ((Gathered.start [smallNode]).addAll
      [⟨"L".toList, "http://e".toList, []⟩])).NamesApart := by
  have hspecs : parseExtraSubs ["L=http://e".toList] = .ok [("L".toList, "http://e".toList)] := by
    decide
  obtain ⟨text, w', hrun⟩ : ∃ text w', (buildClash silent [smallNode]
      [("L".toList, "http://e".toList)]).run emptyWorld = .ok text w' := ⟨_, _, rfl⟩
  obtain ⟨offers, hoffers, hruns, -, hiff⟩ := group_names_apart_iff hspecs hrun
  -- the source is not answered, so it offers nothing
  have hall : ∀ o ∈ offers, o.proxies = [] := by
    intro o ho
    obtain ⟨v, v', hsource⟩ := hruns o ho
    have hmem : (o.label, o.url) ∈ [("L".toList, "http://e".toList)] := by
      rw [← hoffers]
      exact List.mem_map_of_mem (f := fun o : Offer => (o.label, o.url)) ho
    obtain ⟨hlabel, hurl⟩ := Prod.mk.inj (List.mem_singleton.mp hmem)
    rw [hlabel, hurl, run_sourceProxies (by decide)] at hsource
    exact (EStateM.Result.ok.inj hsource).1.symm
  obtain ⟨o, rfl, ho⟩ := List.map_eq_singleton_iff.mp hoffers
  obtain ⟨hlabel, hurl⟩ := Prod.mk.inj ho
  obtain ⟨label, url, ps⟩ := o
  obtain rfl : label = "L".toList := hlabel
  obtain rfl : url = "http://e".toList := hurl
  obtain rfl : ps = [] := hall _ (List.mem_singleton.mpr rfl)
  exact hiff.mpr ⟨by simp, by decide, by decide, by simp, by decide⟩

/-- A source under the label Proxy: two groups have that name. -/
theorem label_is_fixed_group :
    parseExtraSubs ["Proxy=http://e".toList] = .ok [("Proxy".toList, "http://e".toList)] ∧
      (∃ w', (buildClash silent [smallNode] [("Proxy".toList, "http://e".toList)]).run emptyWorld =
        .ok ((clashDoc [smallNode] ((Gathered.start [smallNode]).addAll
          [⟨"Proxy".toList, "http://e".toList, []⟩])).render silent.now) w') ∧
      ¬ (clashDoc [smallNode] ((Gathered.start [smallNode]).addAll
        [⟨"Proxy".toList, "http://e".toList, []⟩])).NamesApart := by
  refine ⟨?_, ⟨_, rfl⟩, ?_⟩
  · decide
  · intro h
    exact absurd h.1 (by decide)

end

end BlogStuff.VlessSubs
