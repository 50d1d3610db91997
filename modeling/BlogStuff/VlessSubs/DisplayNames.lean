import BlogStuff.Python.PlainUrl
import BlogStuff.VlessSubs.Generate

/-!
# BlogStuff.VlessSubs.DisplayNames

The name a node of an extra subscription is shown under. `uri_clash_proxies` names the
clash proxy, `_prefix_url_name` the URL in `base64.txt`; both put the label in front of
the decoded fragment, but they fall back differently when there is nothing to decode:
the first invents `scheme-i` for a URL without a fragment and keeps an empty one, the
second uses the label alone.

Quoting the new name loses nothing (`unquote_quote`), so what a client shows for the
line of `base64.txt` is `prefixedName` (`displayName_prefixUrlName`), and the two names
can be compared as texts (`labelled_rawName_eq_iff`).
-/

namespace BlogStuff.VlessSubs

open BlogStuff.Python

/-- What a client shows for a node URL: its percent-decoded fragment. -/
def displayName (url : Str) : Str := unquote (partition '#' url).2.2

theorem displayName_prefixUrlName (url label : Str) :
    displayName (prefixUrlName url label) = prefixedName url label := by
  have hbase : '#' ∉ (partition '#' url).1 := by
    intro h
    simpa using List.mem_takeWhile_imp h
  rw [displayName, prefixUrlName, List.append_assoc, List.singleton_append,
    partition_append hbase, unquote_quote]

theorem prefixedName_eq (url label : Str) :
    prefixedName url label =
      if displayName url = [] then label else label ++ " | ".toList ++ displayName url := by
  by_cases h : '#' ∈ url
  · simp [prefixedName, displayName, partition, h]
  · simp [prefixedName, displayName, partition_of_not_mem h, unquote]

/-- The two ways to put a label in front of a name agree when both or neither is empty. With only
one of them empty, one way writes the separator and the other does not. -/
theorem labelled_eq_prefixed_iff {label name : Str} :
    (labelled label name = if name = [] then label else label ++ " | ".toList ++ name) ↔
      (label = [] ↔ name = []) := by
  have hsep : " | ".toList.length = 3 := by decide
  unfold labelled
  by_cases hl : label = [] <;> by_cases hn : name = []
  · simp [hl, hn]
  · refine iff_of_false ?_ (by simp [hl, hn])
    rw [if_pos hl, if_neg hn]
    intro h
    have := congrArg List.length h
    simp only [List.length_append] at this
    omega
  · refine iff_of_false ?_ (by simp [hl, hn])
    rw [if_neg hl, if_pos hn]
    intro h
    have := congrArg List.length h
    simp only [List.length_append] at this
    omega
  · simp [hl, hn]

section

variable [UnicodeData] {label url : Str}

/-- A name made up from the scheme and the index is never the one of `base64.txt`, which is the
label: the made-up name is longer. -/
theorem labelled_rawName_ne {i : Nat} (h : '#' ∉ url) : labelled label (rawName i url) ≠ label := by
  have hraw : rawName i url = urlScheme url ++ "-".toList ++ Nat.toDigits 10 i := by
    simp [rawName, h]
  have hdash : "-".toList.length = 1 := by decide
  intro he
  have hlen := congrArg List.length he
  rw [hraw] at hlen
  unfold labelled at hlen
  split_ifs at hlen with hl
  · rw [hl] at hlen
    simp only [List.length_append, List.length_nil] at hlen
    omega
  · simp only [List.length_append] at hlen
    omega

/-- **When the two formats name a node alike**: the URL has a fragment, and it decodes to
something unless the label is empty as well. -/
theorem labelled_rawName_eq_iff {i : Nat} :
    labelled label (rawName i url) = displayName (prefixUrlName url label) ↔
      '#' ∈ url ∧ (label = [] ↔ displayName url = []) := by
  rw [displayName_prefixUrlName, prefixedName_eq]
  by_cases h : '#' ∈ url
  · have hraw : rawName i url = displayName url := by simp [rawName, displayName, h]
    rw [hraw, labelled_eq_prefixed_iff]
    simp [h]
  · have hempty : displayName url = [] := by
      simp [displayName, partition_of_not_mem h, unquote]
    rw [hempty, if_pos rfl]
    exact iff_of_false (labelled_rawName_ne h) (fun hc => h hc.1)

/-- One turn of the loop: the URL's own proxy, if it has one, then those behind it. -/
theorem uriProxies_cons_eq_ok {i : Nat} {urls : List Str} {ps : List (Str × Str)}
    (h : uriProxies label i (url :: urls) = .ok ps) :
    ∃ line rest, uriProxy url (labelled label (rawName i url)) = .ok line ∧
      uriProxies label (i + 1) urls = .ok rest ∧
      ps = (line.map fun line => (line, labelled label (rawName i url))).toList ++ rest := by
  rw [uriProxies] at h
  cases hline : uriProxy url (labelled label (rawName i url)) with
  | error e =>
      rw [hline] at h
      cases h
  | ok line =>
      cases hrest : uriProxies label (i + 1) urls with
      | error e =>
          rw [hline, hrest] at h
          cases h
      | ok rest =>
          rw [hline, hrest] at h
          exact ⟨line, rest, rfl, rfl, (Except.ok.inj h).symm⟩

/-- Each URL of the list is converted under its own index, and its proxy is kept. The index counts
every URL, those without a proxy too. -/
theorem mem_uriProxies {i : Nat} {before behind : List Str} {line : Str} {ps : List (Str × Str)}
    (h : uriProxies label i (before ++ url :: behind) = .ok ps)
    (hline : uriProxy url (labelled label (rawName (i + before.length) url)) = .ok (some line)) :
    (line, labelled label (rawName (i + before.length) url)) ∈ ps := by
  induction before generalizing i ps with
  | nil =>
      obtain ⟨line', rest, hline', -, rfl⟩ := uriProxies_cons_eq_ok h
      obtain rfl : line' = some line := Except.ok.inj (hline'.symm.trans hline)
      simp
  | cons u before ih =>
      obtain ⟨line', rest, -, hrest, rfl⟩ := uriProxies_cons_eq_ok h
      have hidx : i + (u :: before).length = i + 1 + before.length := by
        simp only [List.length_cons]
        omega
      rw [hidx] at hline ⊢
      exact List.mem_append_right _ (ih hrest hline)

/-- **Both outputs name a converted node alike exactly when it has a fragment that, under
a label, is not empty.** The proxy of a converted URL is in the result of
`uri_clash_proxies` under the name compared here. -/
theorem display_names_agree_iff {before behind : List Str} {line : Str} {ps : List (Str × Str)}
    (hrun : uriProxies label 1 (before ++ url :: behind) = .ok ps)
    (hline : uriProxy url (labelled label (rawName (1 + before.length) url)) = .ok (some line)) :
    ∃ name, (line, name) ∈ ps ∧ name = labelled label (rawName (1 + before.length) url) ∧
      (name = displayName (prefixUrlName url label) ↔
        '#' ∈ url ∧ (label = [] ↔ displayName url = [])) := by
  exact ⟨_, mem_uriProxies hrun hline, rfl, labelled_rawName_eq_iff⟩

end

section

attribute [local instance] asciiData

/-- The second of two nodes has a fragment, and both outputs show `L | b`. -/
theorem display_names_agree_iff_second :
    ∃ name, ("  - \x7bname: 'L | b', type: ss, server: 'h', port: 2, cipher: m, ".toList ++
        "password: 'p', udp: true\x7d".toList, name) ∈
      ((uriProxies "L".toList 1 ["tuic://t".toList, "ss://m:p@h:2#b".toList]).toOption.getD []) ∧
      name = displayName (prefixUrlName "ss://m:p@h:2#b".toList "L".toList) := by
  have hrun : uriProxies "L".toList 1 (["tuic://t".toList] ++ "ss://m:p@h:2#b".toList :: []) =
      .ok [("  - \x7bname: 'L | b', type: ss, server: 'h', port: 2, cipher: m, ".toList ++
        "password: 'p', udp: true\x7d".toList, "L | b".toList)] := by decide
  have hline : uriProxy "ss://m:p@h:2#b".toList (labelled "L".toList
      (rawName (1 + ["tuic://t".toList].length) "ss://m:p@h:2#b".toList)) =
      .ok (some ("  - \x7bname: 'L | b', type: ss, server: 'h', port: 2, cipher: m, ".toList ++
        "password: 'p', udp: true\x7d".toList)) := by decide
  obtain ⟨name, hmem, -, hname⟩ := display_names_agree_iff hrun hline
  refine ⟨name, ?_, hname.mpr (by decide)⟩
  rw [List.singleton_append] at hrun
  rw [hrun]
  exact hmem

/-- A node without a fragment: clash shows `L | ss-1`, the line of `base64.txt` `L`. -/
theorem display_names_differ :
    (uriProxies "L".toList 1 ["ss://m:p@h:2".toList]).map (List.map Prod.snd) =
        .ok ["L | ss-1".toList] ∧
      displayName (prefixUrlName "ss://m:p@h:2".toList "L".toList) = "L".toList := by
  refine ⟨?_, ?_⟩ <;> decide

end

end BlogStuff.VlessSubs
