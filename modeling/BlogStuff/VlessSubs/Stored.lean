import BlogStuff.VlessSubs.Conf

/-!
# BlogStuff.VlessSubs.Stored

What comes back of a node that has been stored: its conf file read again, and its SSH
target taken apart for `sync`.

The conf file has one line per value, and the reader ends a line at every Unicode line
boundary. A value with a boundary inside is cut there, and what is left over stands on
lines of its own. A URL may hold one: `urlsplit` deletes `\n`, `\r` and `\t` before it
looks at the URL, while the raw text is what is stored.

`parse_ssh` takes digits behind the last colon for a port. The default target is
`root@` with the server of the URL, and an IPv6 server has colons of its own.
-/

namespace BlogStuff.VlessSubs

open BlogStuff.Python

/-! ### Conf files -/

/-- The `data` dictionary that `load_nodes` reads from the conf file of a node has the
node's URL and its SSH target, trimmed, and nothing else. -/
def ReadsBack (n : Node) : Prop :=
  ∀ k, (confData (confText n)).reverse.lookup k =
    if k = "URL".toList then some n.url
    else if k = "SSH".toList then some (strip n.ssh)
    else none

/-- The value of a line is shorter than the line: the `=` is not part of it. -/
theorem solid_confLine {line : Str} {kv : Str × Str} (h : confLine line = some kv) :
    solid kv.2 < solid line := by
  simp only [confLine, Option.ite_none_left_eq_some, Option.some.injEq, not_or, not_not] at h
  obtain ⟨⟨-, -, heq⟩, rfl⟩ := h
  obtain ⟨a, b, hline, ha⟩ := List.eq_append_cons_of_mem heq
  rw [hline, partition_append ha]
  calc solid (strip b) = solid b := solid_strip b
    _ < solid a + (solid ['='] + solid b) := by
        have hone : solid ['='] = 1 := by decide
        omega
    _ = solid (a ++ '=' :: b) := by rw [solid_append, ← solid_append, List.singleton_append]
    _ = solid line := by rw [← hline, solid_strip]

theorem confData_white {s : Str} (h : ∀ c ∈ s, isSpace c = true) : confData s = [] := by
  refine List.filterMap_eq_nil_iff.mpr fun l hl => ?_
  have hwhite : strip l = [] :=
    strip_eq_nil_iff.mpr fun c hc => h c ((sublist_of_mem_splitlines hl).mem hc)
  simp [confLine, hwhite]

theorem solid_lt_of_mem_confData {s : Str} {kv : Str × Str} (h : kv ∈ confData s) :
    solid kv.2 < solid s := by
  obtain ⟨l, hl, hline⟩ := List.mem_filterMap.mp h
  exact (solid_confLine hline).trans_le (solid_le (sublist_of_mem_splitlines hl))

/-- What stands in front of a character that is not white space is not trimmed off, since trimming
from the right ends at that character. -/
theorem mem_rstrip_of_solid {a b : Str} {c : Char} (h : ¬ ∀ d ∈ c :: b, isSpace d = true) :
    c ∈ rstrip (a ++ c :: b) := by
  push Not at h
  obtain ⟨d, hd, hsolid⟩ := h
  obtain ⟨x, y, hxy⟩ := List.append_of_mem hd
  have hkept : rstrip (a ++ c :: b) = a ++ x ++ d :: rstrip y := by
    rw [hxy, ← List.append_assoc, rstrip_append_cons (by simpa using hsolid)]
  rw [hkept]
  cases x with
  | nil =>
      obtain ⟨rfl, -⟩ := List.cons.inj hxy
      simp
  | cons e x =>
      obtain ⟨rfl, -⟩ := List.cons.inj hxy
      simp

/-- **What the SSH line assigns.** It is the target, trimmed, if no boundary stands inside
it; otherwise no line has the whole target as its value. -/
theorem confData_ssh_cases (ssh : Str) :
    (OneLine (rstrip ssh) ∧
      confData ("SSH=".toList ++ ssh ++ ['\n']) = [("SSH".toList, strip ssh)]) ∨
    (¬ OneLine (rstrip ssh) ∧
      ∀ kv ∈ confData ("SSH=".toList ++ ssh ++ ['\n']), kv.2 ≠ strip ssh) := by
  rcases splitlines_cases ssh with hone | ⟨a, c, b, rfl, ha, hc, hsplit⟩
  · have hline : OneLine ("SSH=".toList ++ ssh) := oneLine_append.mpr ⟨by decide, hone⟩
    refine Or.inl ⟨fun d hd => hone d ((List.rdropWhile_prefix isSpace ssh).mem hd), ?_⟩
    rw [confData_line hline, confLine_ssh]
    rfl
  · -- the first line holds what stands before the boundary
    obtain ⟨r, hr, hlines⟩ := hsplit ['\n']
    have hkey : OneLine "SSH=".toList := by decide
    have hdata : confData ("SSH=".toList ++ (a ++ c :: b) ++ ['\n']) =
        ("SSH".toList, strip a) :: confData r := by
      rw [List.append_assoc, confData, splitlines_oneLine_append hkey hlines, List.filterMap_cons,
        confLine_ssh]
      rfl
    by_cases hwhite : ∀ d ∈ c :: b, isSpace d = true
    · have hrest : confData r = [] := confData_white fun d hd => by
        rcases List.mem_append.mp (hr.mem hd) with hd | hd
        · exact hwhite d (by simp [hd])
        · rw [List.mem_singleton.mp hd]
          decide
      have hstrip : rstrip (a ++ c :: b) = rstrip a := rstrip_append_white hwhite
      refine Or.inl ⟨?_, ?_⟩
      · rw [hstrip]
        exact fun d hd => ha d ((List.rdropWhile_prefix isSpace a).mem hd)
      · rw [hdata, hrest, ← strip_rstrip (a ++ c :: b), hstrip, strip_rstrip]
    · refine Or.inr ⟨fun hone => ?_, ?_⟩
      · -- the boundary is in front of a character that is kept
        rw [hone c (mem_rstrip_of_solid hwhite)] at hc
        cases hc
      · -- no line has all the characters that are not white space
        have hpos : 0 < solid (c :: b) := by
          rw [Nat.pos_iff_ne_zero, ne_eq, solid_eq_zero]
          exact hwhite
        have htotal : solid (strip (a ++ c :: b)) = solid a + solid (c :: b) := by
          rw [solid_strip, solid_append]
        have hbehind : solid r ≤ solid (c :: b) := by
          have hnl : solid ['\n'] = 0 := by decide
          have hle := solid_le hr.sublist
          rw [solid_append, hnl, Nat.add_zero] at hle
          exact hle.trans (solid_le (List.sublist_cons_self c b))
        intro kv hkv heq
        rw [← heq] at htotal
        rw [hdata] at hkv
        rcases List.mem_cons.mp hkv with rfl | hkv
        · rw [solid_strip] at htotal
          omega
        · have hshort := solid_lt_of_mem_confData hkv
          omega

theorem lookup_concat (data : List (Str × Str)) (k v k' : Str) :
    (data ++ [(k, v)]).reverse.lookup k' = if k' = k then some v else data.reverse.lookup k' := by
  rw [List.reverse_append, List.reverse_singleton, List.singleton_append, List.lookup_cons]
  by_cases h : k' = k
  · simp [h]
  · rw [if_neg h, beq_false_of_ne h]

section

variable [UnicodeData]

/-- **Conf files read back exactly** if neither the URL nor the SSH target, its trailing white
space apart, holds a line boundary, and only then. The reader splits at every boundary
`splitlines` knows, while the writer ends its lines with `\n` and checks for none. -/
theorem conf_reads_back_iff {u s : Str} {n : Node} (h : Node.init u s = .ok n) (ssh : Str) :
    ReadsBack (n.withSsh ssh) ↔ OneLine n.url ∧ OneLine (rstrip ssh) := by
  have hstrip : strip n.url = n.url := by rw [(Node.init_url h).1, strip_idem]
  have hdata : OneLine n.url → confData (confText (n.withSsh ssh)) =
      confData ("SSH=".toList ++ ssh ++ ['\n']) ++ [("URL".toList, n.url)] := by
    intro hu
    have hline : OneLine ("URL=".toList ++ n.url) := oneLine_append.mpr ⟨by decide, hu⟩
    rw [confData_parts, Node.withSsh_url, Node.withSsh_ssh, confData_line hline, confLine_url,
      hstrip]
    rfl
  constructor
  · intro hback
    have hu : OneLine n.url := by
      have hone := oneLine_dataGet (confText (n.withSsh ssh)) "URL".toList
      rw [dataGet, hback, if_pos rfl] at hone
      exact hone
    refine ⟨hu, ?_⟩
    rcases confData_ssh_cases ssh with ⟨hone, -⟩ | ⟨-, hnone⟩
    · exact hone
    · exfalso
      have hssh := hback "SSH".toList
      rw [hdata hu, lookup_concat, if_neg (by decide), if_neg (by decide), if_pos rfl] at hssh
      obtain ⟨l₁, l₂, hl, -⟩ := List.lookup_eq_some_iff.mp hssh
      refine hnone ("SSH".toList, strip ssh) ?_ rfl
      rw [← List.mem_reverse, hl]
      simp
  · intro hone
    obtain ⟨hu, hs⟩ := hone
    rcases confData_ssh_cases ssh with ⟨-, hssh⟩ | ⟨hno, -⟩
    · intro k
      rw [hdata hu, lookup_concat, hssh, ← List.nil_append [("SSH".toList, strip ssh)],
        lookup_concat]
      rfl
    · exact absurd hs hno

end

section

attribute [local instance] asciiData

theorem conf_reads_back_iff_small : ReadsBack (smallNode.withSsh "me@h:22 ".toList) := by
  have h : Node.init smallUrl "root@h".toList = .ok smallNode := by decide
  exact (conf_reads_back_iff h _).mpr ⟨by decide, by decide⟩

/-- A URL with a newline in its fragment is accepted; what is read back ends there. -/
theorem conf_cut_at_newline :
    ∃ n, Node.init "vless://u@h?pbk=k#a\nb".toList [] = .ok n ∧
      (confData (confText (addNode n))).reverse.lookup "URL".toList =
        some "vless://u@h?pbk=k#a".toList ∧ ¬ ReadsBack (addNode n) := by
  have hread : (confData (confText (addNode { smallNode with
      url := "vless://u@h?pbk=k#a\nb".toList, name := "ab".toList,
      ssh := [] }))).reverse.lookup "URL".toList = some "vless://u@h?pbk=k#a".toList := by
    decide
  refine ⟨{ smallNode with
    url := "vless://u@h?pbk=k#a\nb".toList, name := "ab".toList, ssh := [] }, ?_, hread, ?_⟩
  · decide
  · intro hback
    have hurl := hback "URL".toList
    rw [hread] at hurl
    exact absurd hurl (by decide)

end

/-! ### SSH targets -/

section

variable [UnicodeData]

/-- `parse_ssh(target)`: the host and the port. -/
def parseSsh (target : Str) : Str × Option Str :=
  if target.contains ':' then
    let (head, _, tail) := rpartition ':' target
    if isDigitStr tail then (head, some tail) else (target, none)
  else (target, none)

/-- What stands behind the last colon of a text, if it has one, is not a port. -/
def NoPort (s : Str) : Prop := ∀ a b, s = a ++ ':' :: b → ':' ∉ b → isDigitStr b = false

theorem parseSsh_of_not_mem {s : Str} (h : ':' ∉ s) : parseSsh s = (s, none) := by
  simp [parseSsh, h]

theorem parseSsh_append {a b : Str} (h : ':' ∉ b) : parseSsh (a ++ ':' :: b) =
    if isDigitStr b then (a, some b) else (a ++ ':' :: b, none) := by
  have hmem : (a ++ ':' :: b).contains ':' = true := by simp
  simp only [parseSsh, hmem, if_true, rpartition_append h]

/-- A target is left whole exactly if it ends in no port: only what stands behind the last colon is
looked at, and only digits make it a port. -/
theorem parseSsh_eq_self_iff {s : Str} : parseSsh s = (s, none) ↔ NoPort s := by
  rcases last_char ':' s with h | ⟨a, b, rfl, hb⟩
  · refine iff_of_true (parseSsh_of_not_mem h) ?_
    intro a b hs
    rw [hs] at h
    simp at h
  · rw [parseSsh_append hb]
    constructor
    · intro h a' b' hs hb'
      -- the last colon is where it is
      have hpart := rpartition_append hb a
      rw [hs, rpartition_append hb'] at hpart
      obtain ⟨rfl, htail⟩ := Prod.mk.inj hpart
      obtain ⟨-, rfl⟩ := Prod.mk.inj htail
      split_ifs at h with hd
      · simp at h
      · simpa using hd
    · intro h
      rw [h a b rfl hb]
      simp

theorem noPort_rootAt {n : Node} : NoPort (rootAt n) ↔ NoPort n.server := by
  constructor
  · intro h a b hs hb
    refine h ("root@".toList ++ a) b ?_ hb
    rw [rootAt, hs, List.append_assoc]
  · intro h a b hs hb
    rcases last_char ':' n.server with hno | ⟨a', b', hserver, hb'⟩
    · -- there is no colon in `root@` either
      have hmem : ':' ∈ rootAt n := by
        rw [hs]
        simp
      rw [rootAt, List.mem_append] at hmem
      rcases hmem with hmem | hmem
      · exact absurd hmem (by decide)
      · exact absurd hmem hno
    · have hpart := rpartition_append hb a
      rw [← hs, rootAt, hserver, ← List.append_assoc, rpartition_append hb'] at hpart
      obtain ⟨-, htail⟩ := Prod.mk.inj hpart
      obtain ⟨-, rfl⟩ := Prod.mk.inj htail
      exact h a' b' hserver hb

/-- **Default targets parse back to the server** exactly if the server does not end in a colon
and digits, which `parse_ssh` takes for a port. -/
theorem default_target_iff {u s : Str} {n : Node} (h : Node.init u s = .ok n) (hs : strip s = []) :
    (parseSsh (addNode n).ssh = (rootAt n, none) ∧
      parseSsh (importNode n []).ssh = (rootAt n, none)) ↔ NoPort n.server := by
  have hssh : n.ssh = [] := (Node.init_url h).2.1.trans hs
  have hadd : (addNode n).ssh = rootAt n := by
    rw [addNode, Node.withSsh_ssh, hssh, pyOr_nil]
  have himport : (importNode n []).ssh = rootAt n := rfl
  rw [hadd, himport, and_self, parseSsh_eq_self_iff, noPort_rootAt]

end

section

attribute [local instance] asciiData

theorem default_target_iff_small : parseSsh "root@h".toList = ("root@h".toList, none) := by
  have h : Node.init smallUrl [] = .ok (smallNode.withSsh []) := by decide
  refine ((default_target_iff h (by decide)).mpr ?_).1
  intro a b hs
  have hmem : ':' ∈ (smallNode.withSsh []).server := by
    rw [hs]
    simp
  exact absurd hmem (by decide)

/-- The last group of an IPv6 server is taken for a port. -/
theorem ipv6_group_is_port :
    ∃ n, Node.init "vless://u@[2001:db8::1]?pbk=k#n".toList [] = .ok n ∧
      n.server = "2001:db8::1".toList ∧
      parseSsh (addNode n).ssh = ("root@2001:db8:".toList, some "1".toList) := by
  refine ⟨{ smallNode with
    url := "vless://u@[2001:db8::1]?pbk=k#n".toList, server := "2001:db8::1".toList, ssh := [] },
    ?_, rfl, ?_⟩
  · decide
  · decide

end

end BlogStuff.VlessSubs
