import BlogStuff.VlessSubs.Node
import BlogStuff.Yaml.Block

/-!
# BlogStuff.VlessSubs.ProxyYaml

What a YAML reader makes of the block `clash_proxy` writes. The fields of a node are put
into the text as they are: the name between double quotes, the others plain. They come
from a URL whose parts are percent-decoded, so they may hold anything.

The block is a list of key lines (`readItem_clashProxy`), and each field is read on its
own lines. A value read as a string is no longer than the line it stands on, so a field
comes back only if all of it was on that line (`entries_keyLine_str`). The fields that no
one checks, the flow and the network, must still not disturb the mapping: their lines are
part of it.
-/

namespace BlogStuff.VlessSubs

open BlogStuff.Python BlogStuff.Yaml

/-! ### The lines of the block -/

/-- The block as the lines of its keys. -/
def Node.keyLines (n : Node) : List Str :=
  [keyLine 4 "name".toList ('"' :: (n.name ++ ['"'])),
    keyLine 4 "type".toList "vless".toList,
    keyLine 4 "server".toList n.server,
    keyLine 4 "port".toList (Nat.toDigits 10 n.port),
    keyLine 4 "uuid".toList n.uuid,
    keyLine 4 "flow".toList n.flow,
    keyLine 4 "tls".toList "true".toList,
    keyLine 4 "network".toList n.network,
    "    reality-opts:".toList,
    keyLine 6 "public-key".toList n.pbk,
    keyLine 6 "short-id".toList n.sid,
    keyLine 4 "servername".toList n.sni,
    keyLine 4 "client-fingerprint".toList n.fp,
    keyLine 4 "udp".toList "true".toList]

theorem keyLine_eq {lit : Str} {k : Nat} {key : Str} (h : lit = keyLine k key []) (v : Str) :
    lit ++ v = keyLine k key v := by
  rw [h, keyLine, keyLine, List.append_assoc]
  rfl

/-- The template's lines are key lines, but for the dash in front of the first, which stands where a
reader puts the indentation of the mapping. -/
theorem clashProxy_eq (n : Node) : n.clashProxy = List.intercalate ['\n']
    (("  - name: \"".toList ++ (n.name ++ ['"'])) :: n.keyLines.tail) := by
  have hname : "  - name: \"".toList ++ n.name ++ "\"".toList =
      "  - name: \"".toList ++ (n.name ++ ['"']) := List.append_assoc _ _ _
  have htype : "    type: vless".toList = keyLine 4 "type".toList "vless".toList := by decide
  have hserver : "    server: ".toList ++ n.server = keyLine 4 "server".toList n.server :=
    keyLine_eq (by decide) _
  have hport : "    port: ".toList ++ Nat.toDigits 10 n.port =
    keyLine 4 "port".toList (Nat.toDigits 10 n.port) := keyLine_eq (by decide) _
  have huuid : "    uuid: ".toList ++ n.uuid = keyLine 4 "uuid".toList n.uuid :=
    keyLine_eq (by decide) _
  have hflow : "    flow: ".toList ++ n.flow = keyLine 4 "flow".toList n.flow :=
    keyLine_eq (by decide) _
  have htls : "    tls: true".toList = keyLine 4 "tls".toList "true".toList := by decide
  have hnetwork : "    network: ".toList ++ n.network = keyLine 4 "network".toList n.network :=
    keyLine_eq (by decide) _
  have hpbk : "      public-key: ".toList ++ n.pbk = keyLine 6 "public-key".toList n.pbk :=
    keyLine_eq (by decide) _
  have hsid : "      short-id: ".toList ++ n.sid = keyLine 6 "short-id".toList n.sid :=
    keyLine_eq (by decide) _
  have hsni : "    servername: ".toList ++ n.sni = keyLine 4 "servername".toList n.sni :=
    keyLine_eq (by decide) _
  have hfp : "    client-fingerprint: ".toList ++ n.fp =
    keyLine 4 "client-fingerprint".toList n.fp := keyLine_eq (by decide) _
  have hudp : "    udp: true".toList = keyLine 4 "udp".toList "true".toList := by decide
  -- line by line; rewriting would compare the long literals with each other
  exact congrArg (List.intercalate ['\n']) (congrArg₂ _ hname (congrArg₂ _ htype
    (congrArg₂ _ hserver (congrArg₂ _ hport (congrArg₂ _ huuid (congrArg₂ _ hflow
      (congrArg₂ _ htls (congrArg₂ _ hnetwork (congrArg₂ _ rfl (congrArg₂ _ hpbk
        (congrArg₂ _ hsid (congrArg₂ _ hsni (congrArg₂ _ hfp (congrArg₂ _ hudp rfl))))))))))))))

theorem clashProxy_named (n : Node) :
    "  - name: \"".toList ++ n.name ++ "\"\n".toList <+: n.clashProxy := by
  have hline : "  - name: \"".toList ++ n.name ++ "\"\n".toList =
      "  - name: \"".toList ++ n.name ++ "\"".toList ++ ['\n'] := by
    rw [List.append_assoc _ "\"".toList]
    rfl
  rw [hline, Node.clashProxy, List.intercalate_cons_cons]
  exact List.prefix_append _ _

/-- The block is read as its key lines. The dash counts as indentation, so the first line is the key
line of the name like the others. -/
theorem readItem_clashProxy (n : Node) :
    readItem n.clashProxy = (entries (n.keyLines.flatMap lines)).bind (nest 4) := by
  obtain ⟨l, ls, hl, hitem⟩ := lines_append_of_no_break (a := "  - name: \"".toList)
    (no_break_of_all (by decide)) (n.name ++ ['"'])
  obtain ⟨l', ls', hl', hkey⟩ := lines_append_of_no_break (a := keyLine 4 "name".toList ['"'])
    (no_break_of_all (by decide)) (n.name ++ ['"'])
  obtain ⟨rfl, rfl⟩ := List.cons.inj (hl.symm.trans hl')
  have hline : itemLine ("  - name: \"".toList ++ l) = some (4, keyLine 4 "name".toList ['"'] ++ l) := by
    have hlit : "  - name: \"".toList = List.replicate 2 ' ' ++ '-' :: ' ' :: 'n' ::
      ['a', 'm', 'e', ':', ' ', '"'] := by decide
    have hlit' : keyLine 4 "name".toList ['"'] = List.replicate (2 + 2) ' ' ++ 'n' ::
      ['a', 'm', 'e', ':', ' ', '"'] := by decide
    have h := itemLine_dash (c := 'n') (by decide) 2 (['a', 'm', 'e', ':', ' ', '"'] ++ l)
    rw [hlit, hlit', List.append_assoc, List.append_assoc]
    exact h
  have hlines : lines n.clashProxy =
      ("  - name: \"".toList ++ l) :: (ls ++ n.keyLines.tail.flatMap lines) := by
    rw [clashProxy_eq, lines_intercalate (by simp), List.flatMap_cons, hitem, List.cons_append]
  have hkeys : n.keyLines.flatMap lines =
      (keyLine 4 "name".toList ['"'] ++ l) :: (ls ++ n.keyLines.tail.flatMap lines) := by
    have hcut : keyLine 4 "name".toList ('"' :: (n.name ++ ['"'])) =
        keyLine 4 "name".toList ['"'] ++ (n.name ++ ['"']) := by simp [keyLine]
    rw [← List.cons_append, ← hkey, ← hcut]
    rfl
  rw [readItem, hlines, hkeys]
  simp only [hline]
  rfl

/-! ### Reading the fields back -/

/-- A document that has the fields of the node: the texts as strings, the port as a number. -/
structure Node.FieldsIn (n : Node) (doc : Doc) : Prop where
  name : (["name".toList], some (.str n.name)) ∈ doc
  server : (["server".toList], some (.str n.server)) ∈ doc
  port : (["port".toList], some (.int n.port)) ∈ doc
  uuid : (["uuid".toList], some (.str n.uuid)) ∈ doc
  pbk : (["reality-opts".toList, "public-key".toList], some (.str n.pbk)) ∈ doc
  sid : (["reality-opts".toList, "short-id".toList], some (.str n.sid)) ∈ doc
  sni : (["servername".toList], some (.str n.sni)) ∈ doc
  fp : (["client-fingerprint".toList], some (.str n.fp)) ∈ doc

/-- The block is one mapping that has the fields of the node. -/
def Node.Faithful (n : Node) : Prop := ∃ doc, readItem n.clashProxy = some doc ∧ n.FieldsIn doc

/-- The entries of the block around those of the flow and the network. -/
def Node.skeleton (n : Node) (flow network : List Entry) : List Entry :=
  [⟨4, "name".toList, some (.str n.name)⟩, ⟨4, "type".toList, some (.str "vless".toList)⟩,
    ⟨4, "server".toList, some (.str n.server)⟩, ⟨4, "port".toList, some (.int n.port)⟩,
    ⟨4, "uuid".toList, some (.str n.uuid)⟩] ++ flow ++
  ⟨4, "tls".toList, some (.bool true)⟩ :: network ++
  [⟨4, "reality-opts".toList, none⟩, ⟨6, "public-key".toList, some (.str n.pbk)⟩,
    ⟨6, "short-id".toList, some (.str n.sid)⟩, ⟨4, "servername".toList, some (.str n.sni)⟩,
    ⟨4, "client-fingerprint".toList, some (.str n.fp)⟩, ⟨4, "udp".toList, some (.bool true)⟩]

/-- The fields can be written as they are: the name needs no escapes, the others are
strings when they stand plain, and the lines of the flow and the network are entries that
leave the mapping in order. -/
structure Node.Plain (n : Node) : Prop where
  name : DoubleSafe n.name
  server : PlainString n.server
  uuid : PlainString n.uuid
  pbk : PlainString n.pbk
  sid : PlainString n.sid
  sni : PlainString n.sni
  fp : PlainString n.fp
  rest : ∃ flow network,
    entries (lines (keyLine 4 "flow".toList n.flow)) = some flow ∧
      entries (lines (keyLine 4 "network".toList n.network)) = some network ∧
      (nest 4 (n.skeleton flow network)).isSome

/-- The entries of the block, part by part. -/
structure Node.Parts (n : Node) where
  name : List Entry
  server : List Entry
  uuid : List Entry
  flow : List Entry
  network : List Entry
  pbk : List Entry
  sid : List Entry
  sni : List Entry
  fp : List Entry
  name_eq : entries (lines (keyLine 4 "name".toList ('"' :: (n.name ++ ['"'])))) = some name
  server_eq : entries (lines (keyLine 4 "server".toList n.server)) = some server
  uuid_eq : entries (lines (keyLine 4 "uuid".toList n.uuid)) = some uuid
  flow_eq : entries (lines (keyLine 4 "flow".toList n.flow)) = some flow
  network_eq : entries (lines (keyLine 4 "network".toList n.network)) = some network
  pbk_eq : entries (lines (keyLine 6 "public-key".toList n.pbk)) = some pbk
  sid_eq : entries (lines (keyLine 6 "short-id".toList n.sid)) = some sid
  sni_eq : entries (lines (keyLine 4 "servername".toList n.sni)) = some sni
  fp_eq : entries (lines (keyLine 4 "client-fingerprint".toList n.fp)) = some fp

/-- The entries of all parts in order. -/
def Node.Parts.all {n : Node} (p : n.Parts) : List Entry :=
  p.name ++ [⟨4, "type".toList, some (.str "vless".toList)⟩] ++ p.server ++
    [⟨4, "port".toList, some (.int n.port)⟩] ++ p.uuid ++ p.flow ++
    [⟨4, "tls".toList, some (.bool true)⟩] ++ p.network ++ [⟨4, "reality-opts".toList, none⟩] ++
    p.pbk ++ p.sid ++ p.sni ++ p.fp ++ [⟨4, "udp".toList, some (.bool true)⟩]

theorem entries_keyLines_eq_some {n : Node} {es : List Entry} :
    entries (n.keyLines.flatMap lines) = some es ↔ ∃ p : n.Parts, es = p.all := by
  have htype : entries (lines (keyLine 4 "type".toList "vless".toList)) =
      some [⟨4, "type".toList, some (.str "vless".toList)⟩] := by decide +kernel
  have hport : entries (lines (keyLine 4 "port".toList (Nat.toDigits 10 n.port))) =
      some [⟨4, "port".toList, some (.int n.port)⟩] :=
    entries_keyLine_one (by decide) (by decide) 4
      (isBreak_of_isPlain (isPlain_of_digits Nat.toDigits_ne_nil
        fun c hc => Nat.isDigit_of_mem_toDigits (by decide) (by decide) hc))
      (readValue_toDigits n.port)
  have htls : entries (lines (keyLine 4 "tls".toList "true".toList)) =
      some [⟨4, "tls".toList, some (.bool true)⟩] := by decide +kernel
  have hopts : entries (lines "    reality-opts:".toList) =
      some [⟨4, "reality-opts".toList, none⟩] := by decide +kernel
  have hudp : entries (lines (keyLine 4 "udp".toList "true".toList)) =
      some [⟨4, "udp".toList, some (.bool true)⟩] := by decide +kernel
  rw [entries_flatMap_eq_some]
  constructor
  · intro h
    obtain ⟨ess, hess, rfl⟩ := h
    rw [Node.keyLines] at hess
    -- one list of entries for each line
    obtain _ | ⟨hname, hess⟩ := hess
    obtain _ | ⟨htype', hess⟩ := hess
    obtain _ | ⟨hserver, hess⟩ := hess
    obtain _ | ⟨hport', hess⟩ := hess
    obtain _ | ⟨huuid, hess⟩ := hess
    obtain _ | ⟨hflow, hess⟩ := hess
    obtain _ | ⟨htls', hess⟩ := hess
    obtain _ | ⟨hnetwork, hess⟩ := hess
    obtain _ | ⟨hopts', hess⟩ := hess
    obtain _ | ⟨hpbk, hess⟩ := hess
    obtain _ | ⟨hsid, hess⟩ := hess
    obtain _ | ⟨hsni, hess⟩ := hess
    obtain _ | ⟨hfp, hess⟩ := hess
    obtain _ | ⟨hudp', hess⟩ := hess
    cases hess
    obtain rfl := Option.some.inj (htype.symm.trans htype')
    obtain rfl := Option.some.inj (hport.symm.trans hport')
    obtain rfl := Option.some.inj (htls.symm.trans htls')
    obtain rfl := Option.some.inj (hopts.symm.trans hopts')
    obtain rfl := Option.some.inj (hudp.symm.trans hudp')
    exact ⟨⟨_, _, _, _, _, _, _, _, _, hname, hserver, huuid, hflow, hnetwork, hpbk, hsid, hsni,
      hfp⟩, by simp [Node.Parts.all]⟩
  · intro h
    obtain ⟨p, rfl⟩ := h
    exact ⟨_, .cons p.name_eq (.cons htype (.cons p.server_eq (.cons hport (.cons p.uuid_eq
      (.cons p.flow_eq (.cons htls (.cons p.network_eq (.cons hopts (.cons p.pbk_eq
        (.cons p.sid_eq (.cons p.sni_eq (.cons p.fp_eq (.cons hudp .nil))))))))))))),
      by simp [Node.Parts.all]⟩

/-- Fields that came back were written as they are. Each field is one line with its key, and a line
that yields the field's own text yields nothing else. -/
theorem plain_of_fieldsIn {n : Node} {doc : Doc} (p : n.Parts) (h : nest 4 p.all = some doc)
    (hf : n.FieldsIn doc) : n.Plain := by
  obtain ⟨name, server, uuid, flow, network, pbk, sid, sni, fp, hname, hserver, huuid, hflow,
    hnetwork, hpbk, hsid, hsni, hfp⟩ := p
  simp only [Node.Parts.all, List.append_assoc] at h
  -- each checked key of the mapping in turn, behind the entries already known
  obtain ⟨name_ok, rfl⟩ := doubleSafe_of_mem_nest [] (by decide) (by decide) hname
    (by simpa only [List.nil_append, List.append_assoc] using h) hf.name
  obtain ⟨server_ok, rfl⟩ := plainString_of_mem_nest ([_] ++ [_]) (by decide) (by decide) hserver
    (by simpa only [List.append_assoc] using h) hf.server
  obtain ⟨uuid_ok, rfl⟩ := plainString_of_mem_nest ([_] ++ [_] ++ [_] ++ [_]) (by decide) (by decide)
    huuid (by simpa only [List.append_assoc] using h) hf.uuid
  obtain ⟨sni_ok, rfl⟩ := plainString_of_mem_nest
    ([_] ++ [_] ++ [_] ++ [_] ++ [_] ++ flow ++ [_] ++ network ++ [_] ++ pbk ++ sid)
    (by decide) (by decide) hsni (by simpa only [List.append_assoc] using h) hf.sni
  obtain ⟨fp_ok, rfl⟩ := plainString_of_mem_nest
    ([_] ++ [_] ++ [_] ++ [_] ++ [_] ++ flow ++ [_] ++ network ++ [_] ++ pbk ++ sid ++ [_])
    (by decide) (by decide) hfp (by simpa only [List.append_assoc] using h) hf.fp
  -- the two keys under `reality-opts`
  obtain ⟨pbk_ok, rfl⟩ := plainString_of_mem_child (n := 4) (p := ⟨4, "reality-opts".toList, none⟩)
    ([_] ++ [_] ++ [_] ++ [_] ++ [_] ++ flow ++ [_] ++ network) (by decide) (by decide) hpbk
    (by simpa only [List.append_assoc] using h) rfl rfl (by decide) hf.pbk
  obtain ⟨sid_ok, rfl⟩ := plainString_of_mem_second (n := 4) (p := ⟨4, "reality-opts".toList, none⟩)
    ([_] ++ [_] ++ [_] ++ [_] ++ [_] ++ flow ++ [_] ++ network) (by decide) (by decide) hsid
    (by simpa only [List.append_assoc] using h) rfl rfl rfl (by decide) hf.sid
  refine ⟨name_ok, server_ok, uuid_ok, pbk_ok, sid_ok, sni_ok, fp_ok, flow, network, hflow,
    hnetwork, ?_⟩
  have hskel : nest 4 (n.skeleton flow network) = some doc := by
    rw [← h]
    simp only [Node.skeleton, List.append_assoc, List.cons_append, List.nil_append]
  rw [hskel]
  rfl

theorem fieldsIn_of_nest {n : Node} {flow network : List Entry} {doc : Doc}
    (h : nest 4 (n.skeleton flow network) = some doc) : n.FieldsIn doc := by
  have hopts := h
  rw [Node.skeleton] at hopts
  exact
    { name := mem_nest_of_mem h (by simp [Node.skeleton])
      server := mem_nest_of_mem h (by simp [Node.skeleton])
      port := mem_nest_of_mem h (by simp [Node.skeleton])
      uuid := mem_nest_of_mem h (by simp [Node.skeleton])
      pbk := mem_nest_child hopts rfl rfl (Nat.lt_of_sub_eq_succ rfl)
      sid := mem_nest_second hopts rfl rfl (Nat.lt_of_sub_eq_succ rfl) rfl
      sni := mem_nest_of_mem h (by simp [Node.skeleton])
      fp := mem_nest_of_mem h (by simp [Node.skeleton]) }

/-- **The block is faithful exactly if its fields can be written as they are.** The fields are
put into the text unescaped: a reader gets one back only if it is what its own quoting would
leave unchanged, and if it starts no line or key of its own. -/
theorem clashProxy_faithful_iff (n : Node) : n.Faithful ↔ n.Plain := by
  rw [Node.Faithful, readItem_clashProxy]
  constructor
  · intro h
    obtain ⟨doc, hdoc, hfields⟩ := h
    obtain ⟨es, hes, hnest⟩ := Option.bind_eq_some_iff.mp hdoc
    obtain ⟨p, rfl⟩ := entries_keyLines_eq_some.mp hes
    exact plain_of_fieldsIn p hnest hfields
  · intro h
    obtain ⟨flow, network, hflow, hnetwork, hnest⟩ := h.rest
    obtain ⟨doc, hdoc⟩ := Option.isSome_iff_exists.mp hnest
    have hplain : ∀ {k : Nat} {key value : Str}, isPlain key = true → ':' ∉ key →
        PlainString value → entries (lines (keyLine k key value)) = some [⟨k, key, some (.str value)⟩] :=
      fun hkey hcolon hv => (entries_keyLine_str hkey hcolon).mpr ⟨hv, rfl⟩
    let p : n.Parts :=
      { name := _, server := _, uuid := _, flow := flow, network := network, pbk := _, sid := _,
        sni := _, fp := _
        name_eq := (entries_keyLine_quoted (by decide) (by decide)).mpr ⟨h.name, rfl⟩
        server_eq := hplain (by decide) (by decide) h.server
        uuid_eq := hplain (by decide) (by decide) h.uuid
        flow_eq := hflow
        network_eq := hnetwork
        pbk_eq := hplain (by decide) (by decide) h.pbk
        sid_eq := hplain (by decide) (by decide) h.sid
        sni_eq := hplain (by decide) (by decide) h.sni
        fp_eq := hplain (by decide) (by decide) h.fp }
    have hall : p.all = n.skeleton flow network := by
      simp [p, Node.Parts.all, Node.skeleton]
    refine ⟨doc, ?_, fieldsIn_of_nest hdoc⟩
    rw [entries_keyLines_eq_some.mpr ⟨p, rfl⟩, Option.bind_some, hall, hdoc]

section

attribute [local instance] asciiData

/-- A short id of digits is read as a number. -/
theorem clashProxy_sid_number :
    ((Node.init "vless://u@h:443?sni=s&pbk=k&sid=12345678#n".toList []).map fun n =>
        (n.sid, (readItem n.clashProxy).map fun doc =>
          doc.lookup ["reality-opts".toList, "short-id".toList])) =
      .ok ("12345678".toList, some (some (some (.int 12345678)))) := by
  decide +kernel

end

end BlogStuff.VlessSubs
