import BlogStuff.VlessSubs.DisplayNames
import BlogStuff.VlessSubs.ProxyYaml
import BlogStuff.VlessSubs.Rename

/-!
# BlogStuff.VlessSubs.GroupNames

The name of an inlined proxy is written twice: in the proxy itself and in the groups that
list it. The groups put it between double quotes as it is. The proxies of a clash
configuration and of `ss://` URLs have it between single quotes with its own quotes
doubled, those of `vless://` URLs between double quotes again.

Both places are read as a YAML reader reads them: the entry of the group as an item of a
block sequence (`groupString`), the proxy as a mapping whose key `name` is looked up
(`ownName`). Between double quotes a backslash is an escape, and a text with an escape is
read as a shorter one, while single quotes give back the text itself. So where the
rewritten value is the one under the key `name`, the two agree exactly if the name needs no
escapes and ends where the rewriting left it. It need not be that value: the rewriting takes
the first `name:` of the line, which may be the end of another key.
-/

namespace BlogStuff.VlessSubs

open BlogStuff.Python BlogStuff.Yaml

/-! ### The two places -/

/-- The string on a line, if the value there is one. -/
def stringOf : Option (Option Scalar) → Option Str
  | some (some (.str s)) => some s
  | _ => none

/-- What a reader gets from the entry `yaml_list` writes for a name. -/
def groupString (name : Str) : Option Str :=
  match lines ("      - \"".toList ++ name ++ "\"".toList) with
  | [l] => (itemLine l).bind fun item => stringOf (readValue item.2)
  | _ => none

/-- The string a scalar of a flow mapping is read as, if it is one. -/
def flowString : FlowScalar → Option Str
  | .plain t =>
      match resolve t with
      | .str s => some s
      | _ => none
  | .quoted t => some t

/-- The string a mapping has under the key `name`. No key may stand twice. -/
def nameOf (ps : List (Str × FlowScalar)) : Option Str :=
  if (ps.map Prod.fst).Nodup then (ps.lookup "name".toList).bind flowString else none

/-- What a reader gets as the name of a proxy, an item of a sequence that is a flow mapping or a
block mapping. -/
def ownName (item : Str) : Option Str :=
  if (flowBody item).isSome then
    (readFlowItem item).bind fun es => nameOf (es.map FlowEntry.pair)
  else (readItem item).bind fun doc => stringOf (doc.lookup ["name".toList])

/-- The group's entry and the proxy give one string. -/
def Resolves (item name : Str) : Prop := ∃ s, groupString name = some s ∧ ownName item = some s

/-- What a proxy is made from. -/
inductive Origin
  /-- A line of a clash configuration, a flow mapping. -/
  | item (ln : Str)
  /-- An `ss://` URL, with the text of the entries behind the name. -/
  | ss (rest : Str)
  /-- A `vless://` URL, as a node with the new name. -/
  | vless (node : Node)

/-- The line and the name of the proxy that is made. -/
def Origin.Writes (label : Str) : Origin → Str → Str → Prop
  | .item ln, line, name => flowProxy label ln = some (line, name)
  | .ss rest, line, name =>
      line = "  - \x7bname: ".toList ++ (yamlSq name ++ (", ".toList ++ rest))
  | .vless node, line, name => line = node.clashProxy ∧ name = node.name

/-- A line that is a flow mapping with a name. -/
structure NamedItem (ln : Str) (es : List FlowEntry) (e : FlowEntry) : Prop where
  read : readFlowItem ln = some es
  keys : (es.map FlowEntry.key).Nodup
  mem : e ∈ es
  key : e.key = "name".toList

/-- The scalar in a flow mapping ends here. -/
def isFlowEnd (s : Str) : Bool :=
  match s.dropWhile isWhite with
  | c :: _ => c == ',' || c == '\x7d'
  | [] => false

/-- There are only blanks between a key and its value. -/
def BlanksOnly (behind : Str) : Prop := behind.takeWhile isSpace = behind.takeWhile isWhite

instance : DecidablePred BlanksOnly := fun behind =>
  inferInstanceAs (Decidable (behind.takeWhile isSpace = behind.takeWhile isWhite))

/-- The name is read alike in both places. In a flow mapping it is under the key `name`, needs no
escapes, and the other entries leave the mapping in order: those of a configuration do if the
first `name:` is the key of the name and what follows the rewritten value ends it. In a block
mapping the name is written as in the group. -/
def Origin.Keeps (name : Str) : Origin → Prop
  | .item ln => DoubleSafe name ∧ ∃ es e a, NamedItem ln es e ∧ firstName ln = some (a, e.behind) ∧
      BlanksOnly e.behind ∧ isFlowEnd (cutValue (lstrip e.behind)).2 = true
  | .ss rest => DoubleSafe name ∧ ∃ es, readFlowItem ("  - \x7b".toList ++ rest) = some es ∧
      ("name".toList :: es.map FlowEntry.key).Nodup
  | .vless node => (readItem node.clashProxy).isSome ∧ (∀ c ∈ name, isBreak c = false) ∧
      ∃ s rest, readDouble .none (name ++ ['"']) = some (s, rest) ∧ isTrailing rest = true

/-- The line of a configuration is a flow mapping with a name, and the search stops at the key of
that name, or at another key whose value is written as it is; the name, which then stays, is not
by chance what the group's entry is read as. -/
def Origin.Clear (name : Str) : Origin → Prop
  | .item ln => ∃ es e, NamedItem ln es e ∧ ∀ a r, firstName ln = some (a, r) →
      (r = e.behind ∧ BlanksOnly r) ∨
        (groupString name ≠ flowString e.value ∧
          ∃ e' ∈ es, e'.key ≠ "name".toList ∧ r = e'.behind ∧ Verbatim e' ∧ e'.value.text ≠ [])
  | _ => True

/-! ### Reading them -/

theorem stringOf_readValue_double {t s : Str} : stringOf (readValue ('"' :: t)) = some s ↔
    ∃ rest, readDouble .none t = some (s, rest) ∧ isTrailing rest = true := by
  rw [readValue_double]
  cases readDouble .none t with
  | none => simp [stringOf]
  | some p =>
      obtain ⟨v, rest⟩ := p
      rw [Option.bind_some]
      by_cases hrest : isTrailing rest = true
      · simp only [hrest, if_true, stringOf, Option.some.injEq, Prod.mk.injEq]
        constructor
        · rintro rfl
          exact ⟨rest, ⟨rfl, rfl⟩, hrest⟩
        · intro h
          obtain ⟨_, ⟨rfl, -⟩, -⟩ := h
          rfl
      · simp only [hrest, if_false, stringOf, Option.some.injEq, Prod.mk.injEq, reduceCtorEq,
          false_iff, not_exists, not_and]
        intro r hr hr'
        rw [← hr.2] at hr'
        exact hrest hr'

/-- A name with line breaks is not on one line in either place. -/
theorem lines_quoted {a : Str} (ha : ∀ c ∈ a, isBreak c = false) (name : Str) :
    ((∀ c ∈ name, isBreak c = false) ∧ lines (a ++ (name ++ ['"'])) = [a ++ (name ++ ['"'])]) ∨
      ((¬ ∀ c ∈ name, isBreak c = false) ∧ ∀ l, lines (a ++ (name ++ ['"'])) ≠ [l]) := by
  by_cases hname : ∀ c ∈ name, isBreak c = false
  · refine Or.inl ⟨hname, lines_of_no_break (fun c hc => ?_)⟩
    rcases List.mem_append.mp hc with hc | hc
    · exact ha c hc
    · rcases List.mem_append.mp hc with hc | hc
      · exact hname c hc
      · rw [List.mem_singleton.mp hc]
        decide
  · refine Or.inr ⟨hname, fun l hl => hname (fun c hc => ?_)⟩
    exact (lines_eq_singleton hl).2 c (by simp [hc])

/-- **What a reader gets from a group's entry.** The name stands between double quotes as it is: a
break ends the line inside the quotes, and an escape is undone. -/
theorem groupString_eq_some {name s : Str} : groupString name = some s ↔
    (∀ c ∈ name, isBreak c = false) ∧
      ∃ rest, readDouble .none (name ++ ['"']) = some (s, rest) ∧ isTrailing rest = true := by
  have htext : "      - \"".toList ++ name ++ "\"".toList =
      "      - \"".toList ++ (name ++ ['"']) := List.append_assoc _ _ _
  have hlit : "      - \"".toList = List.replicate 6 ' ' ++ '-' :: ' ' :: '"' :: [] := by decide
  unfold groupString
  rw [htext]
  rcases lines_quoted (no_break_of_all (s := "      - \"".toList) (by decide)) name with
    ⟨hname, hlines⟩ | ⟨hname, hlines⟩
  · have hitem : itemLine ("      - \"".toList ++ (name ++ ['"'])) =
        some (6 + 2, List.replicate (6 + 2) ' ' ++ '"' :: (name ++ ['"'])) := by
      have h := itemLine_dash (c := '"') (by decide) 6 (name ++ ['"'])
      rw [hlit, List.append_assoc]
      exact h
    rw [hlines]
    simp only [hitem, Option.bind_some]
    rw [readValue_replicate, stringOf_readValue_double]
    exact (and_iff_right hname).symm
  · refine iff_of_false ?_ (fun h => hname h.1)
    split
    · next l hl => exact absurd hl (hlines l)
    · simp

theorem groupString_of_safe {name : Str} (h : DoubleSafe name) : groupString name = some name :=
  groupString_eq_some.mpr ⟨fun c hc => isBreak_of_isNbJson (h c hc).2.2, [],
    readDouble_of_safe h [], rfl⟩

/-- The group's string is no longer than the name, and is the name only if that needs no
escapes. -/
theorem groupString_length {name u : Str} (h : groupString name = some (name ++ u)) :
    u = [] ∧ DoubleSafe name := by
  obtain ⟨-, rest, hread, -⟩ := groupString_eq_some.mp h
  have hlen := length_readDouble hread
  simp only [List.length_append, List.length_singleton] at hlen
  obtain rfl : u = [] := List.length_eq_zero_iff.mp (by omega)
  rw [List.append_nil] at hread
  exact ⟨rfl, (readDouble_eq_self_iff.mp hread).1⟩

theorem ownName_of_flow {item : Str} (h : (flowBody item).isSome) :
    ownName item = (readFlowItem item).bind fun es => nameOf (es.map FlowEntry.pair) := if_pos h

theorem isSome_flowBody {item : Str} {es : List FlowEntry} (h : readFlowItem item = some es) :
    (flowBody item).isSome := by
  unfold readFlowItem at h
  split_ifs at h
  obtain ⟨t, ht, -⟩ := Option.bind_eq_some_iff.mp h
  rw [ht]
  rfl

/-- Where each key stands once, looking one up gives what is there. -/
theorem lookup_of_mem {α β : Type} [BEq α] [LawfulBEq α] {l : List (α × β)}
    (h : (l.map Prod.fst).Nodup) {k : α} {v : β} (hmem : (k, v) ∈ l) : l.lookup k = some v := by
  obtain ⟨ps, qs, rfl⟩ := List.append_of_mem hmem
  refine List.lookup_eq_some_iff.mpr ⟨ps, qs, rfl, fun p hp => ?_⟩
  rw [List.map_append, List.map_cons, List.nodup_middle, List.nodup_cons] at h
  rw [bne_iff_ne]
  intro hk
  exact h.1 (List.mem_append_left _ (List.mem_map.mpr ⟨p, hp, hk.symm⟩))

theorem nameOf_of_mem {ps : List (Str × FlowScalar)} {v : FlowScalar}
    (h : (ps.map Prod.fst).Nodup) (hmem : ("name".toList, v) ∈ ps) : nameOf ps = flowString v := by
  rw [nameOf, if_pos h, lookup_of_mem h hmem, Option.bind_some]

theorem nameOf_eq_some {ps : List (Str × FlowScalar)} {v : FlowScalar} {s : Str}
    (h : nameOf ps = some s) (hmem : ("name".toList, v) ∈ ps) :
    (ps.map Prod.fst).Nodup ∧ flowString v = some s := by
  by_cases hkeys : (ps.map Prod.fst).Nodup
  · exact ⟨hkeys, by rw [← nameOf_of_mem hkeys hmem, h]⟩
  · rw [nameOf, if_neg hkeys] at h
    cases h

/-- A single-quoted name is read as itself, or as a longer text if a quote follows: the closing
quote is then the first half of a doubled one. -/
theorem readFlowScalar_yamlSq_inv {name z t : Str} {v : FlowScalar}
    (h : readFlowScalar (yamlSq name ++ z) = some (v, t)) :
    name.all isNbJson = true ∧ ∃ u, v = .quoted (name ++ u) ∧ (u = [] → t = z) := by
  have htext : yamlSq name ++ z = '\'' :: (doubleQuotes name ++ '\'' :: z) := by simp [yamlSq_eq]
  rw [htext, readFlowScalar_single, readSingle_doubleQuotes] at h
  split_ifs at h with hjson
  swap
  · cases h
  obtain ⟨⟨s, t'⟩, hs, heq⟩ := Option.map_eq_some_iff.mp h
  obtain ⟨⟨u, t''⟩, hu, heq'⟩ := Option.map_eq_some_iff.mp hs
  obtain ⟨rfl, rfl⟩ := Prod.mk.inj heq'
  obtain ⟨rfl, rfl⟩ := Prod.mk.inj heq
  refine ⟨hjson, u, rfl, ?_⟩
  rintro rfl
  cases z with
  | nil =>
      rw [readSingle] at hu
      exact (Prod.mk.inj (Option.some.inj hu)).2.symm
  | cons c z =>
      rw [readSingle] at hu
      split_ifs at hu
      · obtain ⟨⟨u', t'⟩, -, heq⟩ := Option.map_eq_some_iff.mp hu
        exact absurd (Prod.mk.inj heq).1 (by simp)
      · exact (Prod.mk.inj (Option.some.inj hu)).2.symm

/-! ### The lines of a clash configuration -/

theorem isFlowEnd_iff {s : Str} : isFlowEnd s = true ↔
    ∃ x r, s.dropWhile isWhite = x :: r ∧ (x = ',' ∨ x = '\x7d') := by
  unfold isFlowEnd
  cases s.dropWhile isWhite with
  | nil => simp
  | cons c r => simp

theorem isFlowEnd_of_rstrip {s : Str} (h : isFlowEnd (rstrip s) = true) : isFlowEnd s = true := by
  obtain ⟨x, r, hdrop, hx⟩ := isFlowEnd_iff.mp h
  have hs : s = rstrip s ++ s.rtakeWhile isSpace := List.rdropWhile_append_rtakeWhile.symm
  refine isFlowEnd_iff.mpr ⟨x, r ++ s.rtakeWhile isSpace, ?_, hx⟩
  rw [hs, List.dropWhile_append, hdrop]
  simp [rstrip]

theorem lstrip_of_blanksOnly {r : Str} (h : BlanksOnly r) : lstrip r = r.dropWhile isWhite := by
  have hsplit : r.takeWhile isWhite ++ lstrip r = r.takeWhile isWhite ++ r.dropWhile isWhite := by
    rw [List.takeWhile_append_dropWhile]
    conv_lhs => rw [← h]
    exact List.takeWhile_append_dropWhile
  exact List.append_cancel_left hsplit

section

variable {ln a : Str} {es pre post : List FlowEntry} {e : FlowEntry}

/-- **The patterns cut off what the reader takes for the value**, if the name that is found needs
no escapes and what follows it ends a value. -/
theorem cutValue_of_flowEnd (hread : readFlowItem ln = some (pre ++ e :: post))
    (hblanks : BlanksOnly e.behind) (hne : shownName e.behind ≠ [])
    (hslash : '\\' ∉ shownName e.behind)
    (hend : isFlowEnd (cutValue (lstrip e.behind)).2 = true) :
    readFlowScalar (e.behind.dropWhile isWhite) =
      some (e.value, (cutValue (lstrip e.behind)).2) := by
  obtain ⟨a', t, x, r, hs, -, hv, ht, hx, -⟩ := readFlowItem_replace hread
  have hl := lstrip_of_blanksOnly hblanks
  rw [hv]
  rw [shownName, hl] at hne hslash
  rw [hl] at hend ⊢
  -- a character that is no blank is not lost by stripping
  have hjson : ∀ c ∈ e.behind.dropWhile isWhite, isNbJson c = true := fun c hc =>
    List.all_eq_true.mp (readFlowItem_inv hread).1 c
      (by rw [hs]; exact List.mem_append_right _ ((List.dropWhile_suffix isWhite).subset hc))
  rcases value_cases hv with ⟨u, n, hu, hscalar, -⟩ | ⟨u, n, hu, hscalar, -⟩ |
    ⟨p, hp, hsplit, hquote, hplain, -⟩
  · obtain ⟨c, hc, -⟩ := readDouble_local hscalar
    obtain ⟨u', hcut, hno, htail⟩ := exists_cut (q := '"') (s := u) (by rw [hc]; simp)
    rw [hu, cutValue, if_pos ⟨Or.inr rfl, by rw [hc]; simp⟩] at hslash ⊢
    simp only at hslash ⊢
    have hsafe : DoubleSafe (u.takeWhile (· != '"')) := by
      intro d hd
      refine ⟨fun h => hno (h ▸ hd), ?_, hjson d ?_⟩
      · rintro rfl
        exact hslash (mem_strip_of_not_space (by decide) hd)
      · rw [hu]
        exact List.mem_cons_of_mem _ ((List.takeWhile_prefix _).subset hd)
    have hfull := readDouble_of_safe hsafe u'
    rw [← hcut, hscalar] at hfull
    rw [htail, (Prod.mk.inj (Option.some.inj hfull)).2]
  · obtain ⟨c, hc, -⟩ := readSingle_local hscalar
    obtain ⟨u', hcut, hno, htail⟩ := exists_cut (q := '\'') (s := u) (by rw [hc]; simp)
    rw [hu, cutValue, if_pos ⟨Or.inl rfl, by rw [hc]; simp⟩] at hend ⊢
    simp only [htail] at hend ⊢
    rw [hcut] at hscalar
    rcases readSingle_plain hno hscalar with ⟨hq, -⟩ | ⟨-, rfl⟩
    · -- a second quote does not end a value
      obtain ⟨z, rfl⟩ := List.head?_eq_some_iff.mp hq
      simp [isFlowEnd, isWhite] at hend
    · rfl
  · obtain rfl := eq_of_endsPlain hplain ht hx
    have hclosed : ¬ inValue x = true := by rcases hx with rfl | rfl <;> decide
    cases p with
    | nil =>
        rw [hsplit, List.nil_append, cutValue, if_neg (by rcases hx with rfl | rfl <;> simp),
          List.takeWhile_cons_of_neg hclosed] at hne
        exact absurd rfl hne
    | cons c p => rw [hsplit, cutValue_plain hp (hquote c rfl) hclosed]

theorem head?_behind (hread : readFlowItem ln = some (pre ++ e :: post))
    (hfirst : firstName ln = some (a, e.behind)) (z : Str) :
    (e.behind.takeWhile isWhite ++ z).head? = e.behind.head? := by
  obtain ⟨a', -, -, -, hs, hend, -⟩ := readFlowItem_replace hread
  have hboth := (opensValue_of_firstName hfirst).1.symm.trans hs
  rw [← List.append_assoc] at hboth
  obtain ⟨y, hy, hwhite⟩ := behind_white hend (List.append_cancel_right hboth)
  obtain ⟨u, hu⟩ := List.head?_eq_some_iff.mp hy
  rw [hu, List.takeWhile_cons_of_pos hwhite]
  rfl

/-- **The rewritten line is a flow mapping up to the rewritten value**, and if it is one as a
whole, it has the value that is read there. -/
theorem rewritten_inv (hread : readFlowItem ln = some (pre ++ e :: post))
    (hfirst : firstName ln = some (a, e.behind)) (hblanks : BlanksOnly e.behind) {label line name : Str}
    (hproxy : flowProxy label ln = some (line, name)) :
    (flowBody line).isSome ∧ ∀ {es'}, readFlowItem line = some es' →
      ∃ pre' v t b post', es' = pre' ++ ⟨e.key, v, b⟩ :: post' ∧
        readFlowScalar (yamlSq name ++ rstrip (cutValue (lstrip e.behind)).2) = some (v, t) ∧
        isFlowEnd t = true := by
  obtain ⟨a', r', hfirst', hne⟩ := firstName_of_flowProxy hproxy
  obtain ⟨rfl, rfl⟩ := Prod.mk.inj (Option.some.inj (hfirst.symm.trans hfirst'))
  obtain ⟨rfl, hname⟩ := Prod.mk.inj (Option.some.inj ((flowProxy_eq hfirst hne label).symm.trans hproxy))
  rw [hname, hblanks]
  obtain ⟨w, d, hw, hs, hvalue⟩ := readFlowItem_value hread
  generalize (cutValue (lstrip e.behind)).2 = behind
  have hkey : a ++ "name:".toList = w ++ '-' :: d := by
    have hboth := (opensValue_of_firstName hfirst).1.symm.trans hs
    rw [← List.append_assoc, ← List.cons_append, ← List.append_assoc] at hboth
    exact List.append_cancel_right hboth
  have hline : strip (a ++ ("name:".toList ++ (e.behind.takeWhile isWhite ++ (yamlSq name ++ behind)))) =
      '-' :: (d ++ (e.behind.takeWhile isWhite ++ (yamlSq name ++ rstrip behind))) := by
    have hsplit : ∀ z, a ++ ("name:".toList ++ (e.behind.takeWhile isWhite ++ (yamlSq name ++ z))) =
        w ++ ('-' :: (d ++ (e.behind.takeWhile isWhite ++ '\'' :: doubleQuotes name)) ++ '\'' :: z) := by
      intro z
      rw [← List.append_assoc, hkey, yamlSq_eq]
      simp
    rw [hsplit, strip, lstrip, List.dropWhile_append_of_pos fun c hc => isSpace_of_isWhite (hw c hc),
      List.cons_append, List.dropWhile_cons_of_neg (by decide), ← List.cons_append,
      rstrip_append_cons (by decide), yamlSq_eq]
    simp
  obtain ⟨hbody, hentries⟩ := hvalue "  ".toList _ (by simp [isWhite])
    (head?_behind hread hfirst (yamlSq name ++ rstrip behind))
  rw [hline]
  refine ⟨hbody, fun {es'} hes' => ?_⟩
  obtain ⟨pre', v, t, x, r, post', rfl, hv, ht, hx⟩ := hentries hes'
  rw [dropWhile_yamlSq] at hv
  exact ⟨pre', v, t, _, post', rfl, hv, isFlowEnd_iff.mpr ⟨x, r, ht, hx⟩⟩

end

theorem map_fst_pair (es : List FlowEntry) :
    (es.map FlowEntry.pair).map Prod.fst = es.map FlowEntry.key := by
  rw [List.map_map]
  rfl

theorem shownName_of_flowProxy {label ln line name a r : Str}
    (hproxy : flowProxy label ln = some (line, name)) (hfirst : firstName ln = some (a, r)) :
    shownName r ≠ [] ∧ name = labelled label (shownName r) ∧ line = "  ".toList ++ strip (a ++
      ("name:".toList ++ (r.takeWhile isSpace ++ (yamlSq name ++ (cutValue (lstrip r)).2)))) := by
  obtain ⟨a', r', hfirst', hne⟩ := firstName_of_flowProxy hproxy
  obtain ⟨rfl, rfl⟩ := Prod.mk.inj (Option.some.inj (hfirst.symm.trans hfirst'))
  obtain ⟨hline, hname⟩ := Prod.mk.inj
    (Option.some.inj ((flowProxy_eq hfirst hne label).symm.trans hproxy))
  exact ⟨hne, hname.symm, by rw [← hline, hname]⟩

theorem mem_labelled {label n : Str} {c : Char} (hc : c ∈ n) : c ∈ labelled label n := by
  unfold labelled
  split_ifs
  · exact hc
  · simp [hc]

theorem resolves_of_keeps_item {label ln line name : Str}
    (hproxy : flowProxy label ln = some (line, name)) (h : (Origin.item ln).Keeps name) :
    Resolves line name := by
  obtain ⟨hsafe, es, e, a, hitem, hfirst, hblanks, hend⟩ := h
  obtain ⟨pre, post, rfl⟩ := List.append_of_mem hitem.mem
  obtain ⟨hne, hname, hline⟩ := shownName_of_flowProxy hproxy hfirst
  have hslash : '\\' ∉ shownName e.behind := by
    intro hmem
    have hmem' : '\\' ∈ name := hname ▸ mem_labelled hmem
    exact (hsafe _ hmem').2.1 rfl
  have hcut := cutValue_of_flowEnd hitem.read hblanks hne hslash hend
  obtain ⟨es', hes', hpairs⟩ := readFlowItem_rewritten hitem.read hfirst hblanks hcut
    (List.all_eq_true.mpr fun c hc => (hsafe c hc).2.2)
  rw [← hline] at hes'
  refine ⟨name, groupString_of_safe hsafe, ?_⟩
  have hkeys : ((pre.map FlowEntry.pair ++
      ("name".toList, FlowScalar.quoted name) :: post.map FlowEntry.pair).map Prod.fst).Nodup := by
    have hnodup := hitem.keys
    rw [List.map_append, List.map_cons, hitem.key] at hnodup
    rw [List.map_append, List.map_cons, map_fst_pair, map_fst_pair]
    exact hnodup
  rw [ownName_of_flow (isSome_flowBody hes'), hes', Option.bind_some, hpairs, hitem.key,
    nameOf_of_mem hkeys (List.mem_append_right _ List.mem_cons_self)]
  rfl

theorem keeps_of_resolves_item {label ln line name : Str}
    (hproxy : flowProxy label ln = some (line, name)) (hclear : (Origin.item ln).Clear name)
    (h : Resolves line name) : (Origin.item ln).Keeps name := by
  obtain ⟨es, e, hitem, hstop⟩ := hclear
  obtain ⟨a, r, hfirst, -⟩ := firstName_of_flowProxy hproxy
  obtain ⟨s, hgroup, hown⟩ := h
  rcases hstop a r hfirst with ⟨rfl, hblanks⟩ | ⟨hchance, e', he', hkey, rfl, hverb, hne⟩
  · -- at the key of the name
    obtain ⟨pre, post, rfl⟩ := List.append_of_mem hitem.mem
    obtain ⟨hbody, hinv⟩ := rewritten_inv hitem.read hfirst hblanks hproxy
    rw [ownName_of_flow hbody] at hown
    obtain ⟨es', hes', hname⟩ := Option.bind_eq_some_iff.mp hown
    obtain ⟨pre', v, t, b, post', rfl, hv, hend⟩ := hinv hes'
    obtain ⟨-, u, rfl, hrest⟩ := readFlowScalar_yamlSq_inv hv
    have hmem : ("name".toList, FlowScalar.quoted (name ++ u)) ∈
        (pre' ++ ⟨e.key, .quoted (name ++ u), b⟩ :: post').map FlowEntry.pair :=
      List.mem_map.mpr ⟨_, List.mem_append_right _ List.mem_cons_self, by rw [FlowEntry.pair, hitem.key]⟩
    obtain rfl : name ++ u = s := Option.some.inj (nameOf_eq_some hname hmem).2
    obtain ⟨rfl, hsafe⟩ := groupString_length hgroup
    rw [hrest rfl] at hend
    exact ⟨hsafe, _, e, a, hitem, hfirst, hblanks, isFlowEnd_of_rstrip hend⟩
  · -- at another key: then the name is as before
    exfalso
    obtain ⟨pre, post, rfl⟩ := List.append_of_mem he'
    obtain ⟨-, t, x, z, -, -, hv, ht, hx, -⟩ := readFlowItem_replace hitem.read
    have hblanks : BlanksOnly e'.behind := (cutValue_of_verbatim hv ht hx hne hverb).1
    obtain ⟨hbody, -⟩ := rewritten_inv hitem.read hfirst hblanks hproxy
    rw [ownName_of_flow hbody] at hown
    obtain ⟨es', hes', hname⟩ := Option.bind_eq_some_iff.mp hown
    obtain ⟨line', hproxy', hlines⟩ := flowProxy_of_verbatim hitem.read hne hfirst hverb label
    obtain ⟨rfl, rfl⟩ := Prod.mk.inj (Option.some.inj (hproxy'.symm.trans hproxy))
    have hjson : (labelled label e'.value.text).all isNbJson = true :=
      List.all_eq_true.mpr fun c hc =>
        List.all_eq_true.mp (readFlowItem_inv hes').1 c (mem_line_of_mem_name hproxy hc)
    obtain ⟨es'', hes'', hpairs⟩ := hlines hjson
    obtain rfl := Option.some.inj (hes''.symm.trans hes')
    rw [hpairs] at hname
    have hmem : ("name".toList, e.value) ∈ pre.map FlowEntry.pair ++
        (e'.key, FlowScalar.quoted (labelled label e'.value.text)) :: post.map FlowEntry.pair := by
      have hpair : e.pair = ("name".toList, e.value) := by rw [FlowEntry.pair, hitem.key]
      rw [← hpair]
      rcases List.mem_append.mp hitem.mem with hmem | hmem
      · exact List.mem_append_left _ (List.mem_map_of_mem hmem)
      · rcases List.mem_cons.mp hmem with rfl | hmem
        · exact absurd hitem.key hkey
        · exact List.mem_append_right _ (List.mem_cons_of_mem _ (List.mem_map_of_mem hmem))
    exact hchance (hgroup.trans (nameOf_eq_some hname hmem).2.symm)

/-! ### The lines of `ss://` URLs -/

theorem readFlowEntries_blank (n : Nat) (s : Str) :
    readFlowEntries n (' ' :: s) = readFlowEntries n s := by
  cases n with
  | zero => rfl
  | succ n =>
      have hentry : readFlowEntry (' ' :: s) = readFlowEntry s := by
        rw [readFlowEntry, readFlowEntry, List.dropWhile_cons_of_pos (by decide)]
      rw [readFlowEntries, readFlowEntries, hentry]

theorem readFlowEntries_bound {n m : Nat} {s : Str} (hn : s.length ≤ n) (hm : s.length ≤ m) :
    readFlowEntries n s = readFlowEntries m s := by
  have hsome : ∀ {k l es}, s.length ≤ l → readFlowEntries k s = some es →
      readFlowEntries l s = some es := fun hl h =>
    readFlowEntries_fuel h ((length_readFlowEntries h).trans hl)
  cases h : readFlowEntries n s with
  | some es => exact (hsome hm h).symm
  | none =>
      cases h' : readFlowEntries m s with
      | none => rfl
      | some es => exact absurd ((hsome hn h').symm.trans h) (by simp)

/-- A name in front of other entries is one more entry. `yaml_sq` doubles its quotes, so the reader
is behind the comma whatever the name is, if it has no character a document may not hold. -/
theorem readFlowItem_named (name rest : Str) :
    readFlowItem ("  - \x7bname: ".toList ++ (yamlSq name ++ (", ".toList ++ rest))) =
      if name.all isNbJson then (readFlowItem ("  - \x7b".toList ++ rest)).map
        (⟨"name".toList, .quoted name, ' ' :: (yamlSq name ++ (", ".toList ++ rest))⟩ :: ·)
      else none := by
  have hitem : "  - \x7bname: ".toList ++ (yamlSq name ++ (", ".toList ++ rest)) = "  ".toList ++
      '-' :: (" ".toList ++ '\x7b' :: ("name:".toList ++ ' ' :: (yamlSq name ++ (", ".toList ++ rest)))) :=
    rfl
  have hrest : "  - \x7b".toList ++ rest = "  ".toList ++ '-' :: (" ".toList ++ '\x7b' :: rest) := rfl
  have hwhite : ∀ c ∈ "  ".toList, isWhite c = true := List.all_eq_true.mp (by decide)
  have hwhite' : ∀ c ∈ " ".toList, isWhite c = true := List.all_eq_true.mp (by decide)
  have hall : ("  - \x7bname: ".toList ++ (yamlSq name ++ (", ".toList ++ rest))).all isNbJson = true ↔
      name.all isNbJson = true ∧ ("  - \x7b".toList ++ rest).all isNbJson = true := by
    have hlit : "  - \x7bname: ".toList.all isNbJson = true := by decide
    have hlit' : ", ".toList.all isNbJson = true := by decide
    have hlit'' : "  - \x7b".toList.all isNbJson = true := by decide
    simp only [List.all_append, hlit, hlit', hlit'', Bool.true_and, Bool.and_eq_true, all_yamlSq_iff]
  -- the entry of the name is read as in a line that is known
  have hentry : name.all isNbJson = true →
      readFlowEntry ("name:".toList ++ ' ' :: (yamlSq name ++ (", ".toList ++ rest))) =
        some (⟨"name".toList, .quoted name, ' ' :: (yamlSq name ++ (", ".toList ++ rest))⟩,
          ',' :: ' ' :: rest) := by
    intro hjson
    have hknown : readFlowEntry "name: x\x7d".toList =
        some (⟨"name".toList, .plain "x".toList, " x\x7d".toList⟩, "\x7d".toList) := by decide
    obtain ⟨a, -, ha, -, hvalue⟩ := readFlowEntry_value hknown
    have hsame : "name:".toList ++ " x\x7d".toList = a ++ " x\x7d".toList := ha
    obtain rfl : "name:".toList = a := List.append_cancel_right hsame
    have hread := hvalue (' ' :: (yamlSq name ++ (", ".toList ++ rest))) rfl
    have hscalar : readFlowScalar ((' ' :: (yamlSq name ++ (", ".toList ++ rest))).dropWhile isWhite) =
        some (.quoted name, ", ".toList ++ rest) :=
      readFlowScalar_yamlSq (t := ", ".toList ++ rest) hjson (by simp)
    rw [hscalar] at hread
    exact hread
  rw [readFlowItem, readFlowItem]
  by_cases hjson : name.all isNbJson = true
  · rw [if_pos hjson]
    by_cases hother : ("  - \x7b".toList ++ rest).all isNbJson = true
    · rw [if_pos (hall.mpr ⟨hjson, hother⟩), if_pos hother, hitem, hrest,
        flowBody_of hwhite hwhite' (by decide), flowBody_of hwhite hwhite' (by decide),
        Option.bind_some, Option.bind_some]
      obtain ⟨k, hk, hbound⟩ : ∃ k, ("name:".toList ++ ' ' ::
          (yamlSq name ++ (", ".toList ++ rest))).length = k + 1 ∧ rest.length ≤ k := by
        refine ⟨("ame:".toList ++ ' ' :: (yamlSq name ++ (", ".toList ++ rest))).length, rfl, ?_⟩
        simp only [List.length_append, List.length_cons]
        omega
      rw [hk, readFlowEntries, hentry hjson]
      simp only [readFlowEntries_blank]
      rw [readFlowEntries_bound (m := rest.length) hbound le_rfl]
    · rw [if_neg (fun h => hother (hall.mp h).2), if_neg hother]
      rfl
  · rw [if_neg hjson, if_neg (fun h => hjson (hall.mp h).1)]

theorem resolves_ss_iff {name rest : Str} :
    Resolves ("  - \x7bname: ".toList ++ (yamlSq name ++ (", ".toList ++ rest))) name ↔
      (Origin.ss rest).Keeps name := by
  have hbody : (flowBody ("  - \x7bname: ".toList ++ (yamlSq name ++ (", ".toList ++ rest)))).isSome := by
    have hflow := flowBody_of (w := "  ".toList) (g := " ".toList) (List.all_eq_true.mp (by decide))
      (List.all_eq_true.mp (by decide)) (by decide)
      ("name:".toList ++ ' ' :: (yamlSq name ++ (", ".toList ++ rest)))
    exact Option.isSome_iff_exists.mpr ⟨_, hflow⟩
  rw [Resolves, ownName_of_flow hbody, readFlowItem_named]
  constructor
  · intro h
    obtain ⟨s, hgroup, hown⟩ := h
    obtain ⟨es, hes, hname⟩ := Option.bind_eq_some_iff.mp hown
    split_ifs at hes
    obtain ⟨es', hes', rfl⟩ := Option.map_eq_some_iff.mp hes
    obtain ⟨hkeys, hs⟩ := nameOf_eq_some hname List.mem_cons_self
    obtain rfl : name = s := Option.some.inj hs
    have hsafe := (groupString_length (u := []) (by rw [List.append_nil]; exact hgroup)).2
    rw [map_fst_pair] at hkeys
    exact ⟨hsafe, es', hes', hkeys⟩
  · intro h
    obtain ⟨hsafe, es, hes, hkeys⟩ := h
    refine ⟨name, groupString_of_safe hsafe, ?_⟩
    rw [if_pos (List.all_eq_true.mpr fun c hc => (hsafe c hc).2.2), hes, Option.map_some,
      Option.bind_some]
    refine nameOf_of_mem (v := .quoted name) ?_ List.mem_cons_self
    rw [map_fst_pair]
    exact hkeys

/-! ### The blocks of `vless://` URLs -/

theorem resolves_vless_iff {node : Node} :
    Resolves node.clashProxy node.name ↔ (Origin.vless node).Keeps node.name := by
  have hblock : ownName node.clashProxy =
      (readItem node.clashProxy).bind fun doc => stringOf (doc.lookup ["name".toList]) := by
    obtain ⟨z, hz⟩ := clashProxy_named node
    have hbody : flowBody node.clashProxy = none := by
      rw [← hz]
      rfl
    rw [ownName, hbody]
    rfl
  rw [Resolves, hblock]
  constructor
  · intro h
    obtain ⟨s, hgroup, hown⟩ := h
    obtain ⟨doc, hdoc, -⟩ := Option.bind_eq_some_iff.mp hown
    obtain ⟨hbreak, rest, hread⟩ := groupString_eq_some.mp hgroup
    exact ⟨by rw [hdoc]; rfl, hbreak, s, rest, hread⟩
  · intro h
    obtain ⟨hsome, hbreak, s, rest, hread⟩ := h
    refine ⟨s, groupString_eq_some.mpr ⟨hbreak, rest, hread⟩, ?_⟩
    obtain ⟨doc, hdoc⟩ := Option.isSome_iff_exists.mp hsome
    have hvalue : readValue ('"' :: (node.name ++ ['"'])) = some (some (.str s)) := by
      rw [readValue_double, hread.1, Option.bind_some]
      exact if_pos hread.2
    have hline : entries (lines (keyLine 4 "name".toList ('"' :: (node.name ++ ['"'])))) =
        some [⟨4, "name".toList, some (.str s)⟩] := by
      refine entries_keyLine_one (by decide) (by decide) 4 (fun c hc => ?_) hvalue
      simp only [List.mem_cons, List.mem_append, List.not_mem_nil, or_false] at hc
      rcases hc with rfl | hc | rfl
      · decide
      · exact hbreak c hc
      · decide
    have hnest := hdoc
    rw [readItem_clashProxy] at hnest
    obtain ⟨es, hes, hnest⟩ := Option.bind_eq_some_iff.mp hnest
    obtain ⟨p, rfl⟩ := entries_keyLines_eq_some.mp hes
    obtain hname : p.name = [⟨4, "name".toList, some (.str s)⟩] :=
      Option.some.inj (p.name_eq.symm.trans hline)
    have hmem : (["name".toList], some (.str s)) ∈ doc :=
      mem_nest_of_mem hnest (by simp [Node.Parts.all, hname])
    rw [hdoc, Option.bind_some, lookup_of_mem (nest_eq_some hnest).2 hmem]
    rfl

/-! ### The proxies of a source -/

section

variable [UnicodeData] {label line name url : Str}

theorem writes_of_ssClashProxy (h : ssClashProxy url name = some line) :
    ∃ o : Origin, o.Writes label line name := by
  unfold ssClashProxy at h
  simp only at h
  split_ifs at h with hplugin
  · cases h
  · obtain ⟨⟨userinfo, hostport⟩, -, h⟩ := Option.bind_eq_some_iff.mp h
    simp only at h
    split_ifs at h with hparts
    · cases h
    · obtain rfl := Option.some.inj h
      have hcomma : ", type: ss, server: ".toList = ", ".toList ++ "type: ss, server: ".toList := rfl
      rw [hcomma]
      simp only [List.append_assoc]
      exact ⟨.ss _, rfl⟩

theorem writes_of_uriProxy (h : uriProxy url name = .ok (some line)) :
    ∃ o : Origin, o.Writes label line name := by
  unfold uriProxy at h
  split_ifs at h
  · unfold vlessClashProxy at h
    cases hparts : liftUrl (urlsplit url) with
    | error e =>
        rw [hparts] at h
        cases h
    | ok parts =>
        rw [hparts] at h
        change (if isReality parts then _ else _) = _ at h
        split_ifs at h
        · cases hnode : Node.init url [] with
          | error e =>
              rw [hnode] at h
              cases h
          | ok node =>
              rw [hnode] at h
              obtain rfl : ({ node with name := name } : Node).clashProxy = line := by
                simpa using Except.ok.inj h
              exact ⟨.vless { node with name := name }, rfl, rfl⟩
        · cases h
  · exact writes_of_ssClashProxy (Except.ok.inj h)
  · cases h

/-- The proxies of a list of URLs. -/
theorem writes_of_mem_uriProxies {i : Nat} {urls : List Str} {ps : List (Str × Str)}
    (hrun : uriProxies label i urls = .ok ps) (h : (line, name) ∈ ps) :
    ∃ o : Origin, o.Writes label line name := by
  induction urls generalizing i ps with
  | nil =>
      obtain rfl : [] = ps := Except.ok.inj hrun
      simp at h
  | cons url urls ih =>
      obtain ⟨line', rest, hline, hrest, rfl⟩ := uriProxies_cons_eq_ok hrun
      rcases List.mem_append.mp h with h | h
      · obtain ⟨l, rfl, hl⟩ : ∃ l, line' = some l ∧
            (line, name) = (l, labelled label (rawName i url)) := by
          cases line' with
          | none => simp at h
          | some l => exact ⟨l, rfl, by simpa using h⟩
        obtain ⟨rfl, rfl⟩ := Prod.mk.inj hl
        exact writes_of_uriProxy hline
      · exact ih hrest h

end

section

attribute [local instance] asciiData

/-- The entries behind the name of the `ss://` node below. -/
def ssRest : Str :=
  "type: ss, server: 'h', port: 2, cipher: m, password: 'p', udp: true\x7d".toList

end

end BlogStuff.VlessSubs
