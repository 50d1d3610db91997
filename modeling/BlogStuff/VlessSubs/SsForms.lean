import BlogStuff.Python.PlainUrl
import BlogStuff.VlessSubs.Fetch

/-!
# BlogStuff.VlessSubs.SsForms

The ways to write one shadowsocks server as an `ss://` URL all render alike.

`_ss_clash_proxy` tells the forms apart by the characters `@` and `:`. This is sound
because neither is a base64 digit: a body without `@` can only be the legacy form, and a
user info without `:` can only be encoded. It takes trailing slashes off before it
decodes, and `/` is a base64 digit; but a legacy body ends in the port, and text that ends
in a decimal digit is never encoded with a slash at the end (`getLast?_b64Text_ne`).
-/

namespace BlogStuff.VlessSubs

open BlogStuff.Python

/-! ### Servers and their URLs -/

/-- A shadowsocks server. The host is a domain name, an IPv4 address, or an IPv6 address
that is written in brackets. -/
structure SsServer where
  method : Str
  password : Str
  host : Str
  bracketed : Bool
  port : Str
  method_ne : method ≠ []
  method_plain : ':' ∉ method
  password_ne : password ≠ []
  host_ne : host ≠ []
  /-- The delimiters of a URL are not part of a host. -/
  host_plain : ∀ c ∈ host, c ∉ ['[', ']', '@', '/', '?', '#']
  host_colon : bracketed = false → ':' ∉ host
  port_ne : port ≠ []
  port_digits : ∀ c ∈ port, c.isDigit = true

namespace SsServer

variable (srv : SsServer)

/-- `method:password`. -/
def userinfo : Str := srv.method ++ ':' :: srv.password

/-- The host as it stands in a URL. -/
def hostText : Str := if srv.bracketed then '[' :: srv.host ++ [']'] else srv.host

/-- `host:port`. -/
def hostport : Str := srv.hostText ++ ':' :: srv.port

/-- The proxy line with exactly the values of the server. -/
def proxyLine (name : Str) : Str :=
  "  - \x7bname: ".toList ++ yamlSq name ++ ", type: ss, server: ".toList ++ yamlSq srv.host ++
    ", port: ".toList ++ srv.port ++ ", cipher: ".toList ++ srv.method ++ ", password: ".toList ++
    yamlSq srv.password ++ ", udp: true\x7d".toList

/-- What may stand between `ss://` and the fragment, slashes apart: the user info as it is,
percent-encoded or in base64, or all of it in base64. -/
inductive Body (srv : SsServer) : Str → Prop
  /-- Any percent encoding of the user info: escapes of either case, and plain characters
  wherever they are no delimiters. -/
  | percent (e : Str) (decodes : unquote e = srv.userinfo) (hash : '#' ∉ e) (mark : '?' ∉ e) :
      Body srv (e ++ '@' :: srv.hostport)
  | base64 (urlSafe padded : Bool) :
      Body srv (b64Text urlSafe padded (encode srv.userinfo) ++ '@' :: srv.hostport)
  | legacy (urlSafe padded : Bool) :
      Body srv (b64Text urlSafe padded (encode (srv.userinfo ++ '@' :: srv.hostport)))

/-- The `ss://` URLs of a server. -/
inductive Url (srv : SsServer) : Str → Prop
  | plain {body : Str} (h : Body srv body) (slashes : Nat) :
      Url srv ("ss://".toList ++ (body ++ List.replicate slashes '/'))
  | tagged {body : Str} (h : Body srv body) (slashes : Nat) (fragment : Str) :
      Url srv ("ss://".toList ++ (body ++ List.replicate slashes '/' ++ '#' :: fragment))

/-- Quoted text holds no delimiter: it is made of safe characters, of `%`, and of hexadecimal
digits, which are safe too. -/
theorem not_mem_quote {c : Char} (hne : c ≠ '%') (hsafe : isAlwaysSafe c = false) (s : Str) :
    c ∉ quote s := by
  intro hc
  have hhex : ∀ n < 16, isAlwaysSafe (hexDigit n) = true := by decide
  obtain ⟨b, -, hb⟩ := List.mem_flatMap.mp hc
  have hlt := b.toNat_lt
  unfold quoteByte at hb
  split_ifs at hb with hs
  · rw [List.mem_singleton.mp hb, (Bool.and_eq_true_iff.mp hs).1] at hsafe
    cases hsafe
  · simp only [List.mem_cons, List.not_mem_nil, or_false] at hb
    rcases hb with hb | hb | hb
    · exact hne hb
    · rw [hb, hhex _ (by omega)] at hsafe
      cases hsafe
    · rw [hb, hhex _ (by omega)] at hsafe
      cases hsafe

theorem Body.quoted : Body srv (quote srv.userinfo ++ '@' :: srv.hostport) :=
  .percent _ (unquote_quote _) (not_mem_quote (by decide) (by decide) _)
    (not_mem_quote (by decide) (by decide) _)

/-! ### The address -/

variable {srv}

theorem not_mem_port {c : Char} (hc : c.isDigit = false) : c ∉ srv.port := by
  intro h
  rw [srv.port_digits c h] at hc
  cases hc

theorem not_mem_hostport {c : Char} (hhost : c ∈ ['[', ']', '@', '/', '?', '#'])
    (hother : c ∉ ['[', ']', ':']) (hdigit : c.isDigit = false) : c ∉ srv.hostport := by
  have hhost : c ∉ srv.host := fun h => srv.host_plain c h hhost
  have hport : c ∉ srv.port := not_mem_port hdigit
  simp only [List.mem_cons, List.not_mem_nil, or_false, not_or] at hother
  unfold hostport hostText
  split_ifs <;> simp [hhost, hport, hother]

theorem rpartition_hostport : rpartition ':' srv.hostport = (srv.hostText, true, srv.port) :=
  rpartition_append (not_mem_port (by decide)) srv.hostText

theorem stripChars_hostText :
    stripChars (fun c => c == '[' || c == ']') srv.hostText = srv.host := by
  have hno : ∀ c ∈ srv.host, (c == '[' || c == ']') = false := by
    intro c hc
    have h := srv.host_plain c hc
    simp only [List.mem_cons, List.not_mem_nil, or_false, not_or] at h
    simp [h.1, h.2.1]
  have hkeep : (srv.host.dropWhile fun c => c == '[' || c == ']') = srv.host := by
    obtain ⟨c, t, e⟩ := List.exists_cons_of_ne_nil srv.host_ne
    rw [e, List.dropWhile_cons_of_neg]
    rw [hno c (by rw [e]; exact List.mem_cons_self)]
    decide
  have hkeep' : (srv.host.rdropWhile fun c => c == '[' || c == ']') = srv.host := by
    refine List.rdropWhile_eq_self_iff.mpr (fun hne => ?_)
    rw [hno _ (List.getLast_mem hne)]
    decide
  unfold stripChars hostText
  split_ifs
  · have hfront : ('[' :: srv.host ++ [']']).dropWhile (fun c => c == '[' || c == ']') =
        srv.host ++ [']'] := by
      obtain ⟨c, t, e⟩ := List.exists_cons_of_ne_nil srv.host_ne
      rw [List.cons_append, List.dropWhile_cons_of_pos (by decide), e, List.cons_append,
        List.dropWhile_cons_of_neg]
      rw [hno c (by rw [e]; exact List.mem_cons_self)]
      decide
    rw [hfront, List.rdropWhile_concat_pos _ _ _ (by decide), hkeep']
  · rw [hkeep, hkeep']

theorem isDigitStr_port [UnicodeData] : isDigitStr srv.port = true := by
  have hall : srv.port.all UnicodeData.isDigitChar = true := by
    refine List.all_eq_true.mpr (fun c hc => ?_)
    have hdigit := srv.port_digits c hc
    have hlt : c.toNat < 128 := (isDigit_iff.mp hdigit).2.trans_lt (by decide)
    rw [UnicodeData.isDigitChar_ascii c (decide_eq_true hlt), hdigit]
  rw [isDigitStr, hall, Bool.and_true, Bool.not_eq_true', List.isEmpty_eq_false_iff]
  exact srv.port_ne

/-! ### Reading one body -/

/-- Every variant of an encoding is read back. The decoder first undoes the URL-safe alphabet, which
the other one does not use, and then adds the padding that is missing. -/
theorem b64decodeLoose_b64Text (urlSafe padded : Bool) (s : Str) :
    b64decodeLoose (b64Text urlSafe padded (encode s)) = some s := by
  have hback : (b64Text urlSafe padded (encode s)).map
      (fun c => if c = '-' then '+' else if c = '_' then '/' else c) =
      if padded then b64encode (encode s) else unpadded (encode s) := by
    have hstd : ∀ c ∈ (if padded then b64encode (encode s) else unpadded (encode s)),
        c ≠ '-' ∧ c ≠ '_' := by
      have hdigit : ∀ n < 64, b64Char n ≠ '-' ∧ b64Char n ≠ '_' := by decide
      intro c hc
      rcases mem_b64encode (mem_unpadded hc) with rfl | ⟨n, hn, rfl⟩
      · decide
      · exact hdigit n hn
    generalize hplain : (if padded then b64encode (encode s) else unpadded (encode s)) = t at hstd
    have htext : b64Text urlSafe padded (encode s) = if urlSafe then t.map toUrlSafe else t := by
      rw [← hplain, b64Text]
    rw [htext]
    split_ifs
    · rw [List.map_map]
      refine (List.map_congr_left (fun c hc => ?_)).trans (List.map_id t)
      obtain ⟨h1, h2⟩ := hstd c hc
      by_cases hplus : c = '+'
      · subst hplus
        rfl
      · by_cases hslash : c = '/'
        · subst hslash
          rfl
        · simp [toUrlSafe, hplus, hslash, h1, h2]
    · refine (List.map_congr_left (fun c hc => ?_)).trans (List.map_id t)
      obtain ⟨h1, h2⟩ := hstd c hc
      simp [h1, h2]
  have hpad : (if padded then b64encode (encode s) else unpadded (encode s)) ++
      padding (if padded then b64encode (encode s) else unpadded (encode s)) =
      b64encode (encode s) := by
    cases padded with
    | true => simp [padding, length_b64encode_mod]
    | false => exact unpadded_append (encode s)
  have hstrip : strip (b64Text urlSafe padded (encode s)) = b64Text urlSafe padded (encode s) :=
    strip_of_forall fun c hc => not_isSpace_of_mem_b64Text hc
  simp only [b64decodeLoose, hstrip, hback, hpad, b64decode_b64encode, Option.bind_some,
    decode_encode]

/-- **Form detection.** Every body yields the user info and the address. An address has no `@`, and
an encoding has neither `@` nor `:`, so the tests tell the forms apart. -/
theorem ssParts_body {body : Str} (h : Body srv body) :
    ssParts body = some (srv.userinfo, srv.hostport) := by
  have hat : '@' ∉ srv.hostport := not_mem_hostport (by decide) (by decide) (by decide)
  have hcolon : srv.userinfo.contains ':' = true := by simp [userinfo]
  cases h with
  | percent e decodes hash mark =>
      have hmem : (e ++ '@' :: srv.hostport).contains '@' = true := by simp
      simp only [ssParts, hmem, if_true, rpartition_append hat, decodes, hcolon]
      rfl
  | base64 urlSafe padded =>
      generalize hb : b64Text urlSafe padded (encode srv.userinfo) = b
      have hmem : (b ++ '@' :: srv.hostport).contains '@' = true := by simp
      -- an encoding has no escape to undo, and no colon
      have hpct : unquote b = b := by
        refine unquote_of_not_mem ?_
        rw [← hb]
        exact not_mem_b64Text (by decide) (by decide) urlSafe padded _
      have hno : ':' ∉ b := by
        rw [← hb]
        exact not_mem_b64Text (by decide) (by decide) urlSafe padded _
      have hloose : b64decodeLoose b = some srv.userinfo := by
        rw [← hb, b64decodeLoose_b64Text]
      simp [ssParts, rpartition_append hat, hpct, hno, hloose]
  | legacy urlSafe padded =>
      have hno : '@' ∉ b64Text urlSafe padded (encode (srv.userinfo ++ '@' :: srv.hostport)) :=
        not_mem_b64Text (by decide) (by decide) urlSafe padded _
      simp [ssParts, hno, b64decodeLoose_b64Text, rpartition_append hat]

theorem not_mem_body {body : Str} (h : Body srv body) {c : Char} (hc : c = '#' ∨ c = '?') :
    c ∉ body := by
  have hat : c ≠ '@' := by rcases hc with rfl | rfl <;> decide
  have haddr : c ∉ srv.hostport := by
    rcases hc with rfl | rfl <;> exact not_mem_hostport (by decide) (by decide) (by decide)
  have htext : ∀ urlSafe padded bs, c ∉ b64Text urlSafe padded bs := by
    rcases hc with rfl | rfl <;> exact not_mem_b64Text (by decide) (by decide)
  cases h with
  | percent e decodes hash mark =>
      have he : c ∉ e := by rcases hc with rfl | rfl <;> assumption
      simp [he, hat, haddr]
  | base64 urlSafe padded => simp [htext, hat, haddr]
  | legacy urlSafe padded => exact htext urlSafe padded _

/-- No body ends in a slash, so only the trailing ones are taken off. It ends in a digit of the
port, or in the encoding of one. -/
theorem getLast?_body_ne {body : Str} (h : Body srv body) : body.getLast? ≠ some '/' := by
  obtain ⟨p, d, hport⟩ : ∃ p d, srv.port = p ++ [d] :=
    ⟨_, _, (List.dropLast_append_getLast srv.port_ne).symm⟩
  have hdigit : d.isDigit = true := srv.port_digits d (by simp [hport])
  obtain ⟨hlo, hhi⟩ := isDigit_iff.mp hdigit
  have haddr : ∀ a, (a ++ '@' :: srv.hostport).getLast? ≠ some '/' := by
    intro a hlast
    have hd : (a ++ '@' :: srv.hostport).getLast? = some d := by
      simp [hostport, hport, List.getLast?_cons]
    rw [hd] at hlast
    obtain rfl := Option.some.inj hlast
    exact absurd hdigit (by decide)
  cases h with
  | percent e decodes hash mark => exact haddr e
  | base64 urlSafe padded => exact haddr _
  | legacy urlSafe padded =>
      have hd : encode [d] = [UInt8.ofNat d.toNat] := by
        rw [encode_ascii (by simp [isAscii, isAsciiChar]; omega)]
        rfl
      have hbytes : encode (srv.userinfo ++ '@' :: srv.hostport) =
          encode (srv.userinfo ++ '@' :: (srv.hostText ++ ':' :: p)) ++ [UInt8.ofNat d.toNat] := by
        rw [← hd, hostport, hport]
        simp [encode]
      have hval : (UInt8.ofNat d.toNat).toNat = d.toNat :=
        UInt8.toNat_ofNat_of_lt' (show d.toNat < 256 by omega)
      rw [hbytes]
      exact getLast?_b64Text_ne urlSafe padded _ (by omega) (by omega)

theorem rdropWhile_slashes {body : Str} (h : Body srv body) (slashes : Nat) :
    (body ++ List.replicate slashes '/').rdropWhile (· == '/') = body := by
  induction slashes with
  | zero =>
      rw [List.replicate_zero, List.append_nil]
      refine List.rdropWhile_eq_self_iff.mpr (fun hne hlast => getLast?_body_ne h ?_)
      rw [List.getLast?_eq_some_getLast hne, beq_iff_eq.mp hlast]
  | succ n ih =>
      rw [List.replicate_succ', ← List.append_assoc, List.rdropWhile_concat_pos _ _ _ (by decide), ih]

/-! ### The line of a URL -/

variable [UnicodeData]

/-- Once the fragment is cut off, every body gives the line of the server. There is no query to cut,
the slashes at the end are stripped, and the four fields are all there. -/
theorem ssClashProxy_of_partition {url body : Str} (h : Body srv body) {slashes : Nat} {found : Bool}
    {tag : Str} (hcut : partition '#' (url.drop "ss://".toList.length) =
      (body ++ List.replicate slashes '/', found, tag)) (name : Str) :
    ssClashProxy url name = some (srv.proxyLine name) := by
  have hquery : '?' ∉ body ++ List.replicate slashes '/' := by
    have hbody := not_mem_body h (Or.inr rfl)
    simp [hbody]
  have huser : partition ':' srv.userinfo = (srv.method, true, srv.password) :=
    partition_append srv.method_plain srv.password
  have hplugin : hasSub [] "plugin=".toList = false := rfl
  have hfields : ¬ (srv.method = [] ∨ srv.password = [] ∨ srv.host = [] ∨
      (!isDigitStr srv.port) = true) := by
    simp [srv.method_ne, srv.password_ne, srv.host_ne, isDigitStr_port]
  unfold ssClashProxy
  simp only [hcut, partition_of_not_mem hquery, hplugin, rdropWhile_slashes h, ssParts_body h,
    Option.bind_eq_bind, Option.bind_some, huser, rpartition_hostport, stripChars_hostText,
    if_neg hfields]
  rfl

end SsServer

open SsServer in
/-- **All forms render alike.** Every URL of a server gives the one line that carries its
values. The forms are told apart by `@` and `:`, and neither is a base64 digit, so each is
decoded as what it is. -/
theorem ss_forms_agree [UnicodeData] (srv : SsServer) {url : Str} (h : srv.Url url) (name : Str) :
    ssClashProxy url name = some (srv.proxyLine name) := by
  have hhash : ∀ {body : Str} (slashes : Nat), srv.Body body →
      '#' ∉ body ++ List.replicate slashes '/' := by
    intro body slashes hbody
    have hno := not_mem_body hbody (Or.inl rfl)
    simp [hno]
  cases h with
  | plain hbody slashes =>
      have hcut := partition_of_not_mem (hhash slashes hbody)
      exact ssClashProxy_of_partition hbody (by rw [List.drop_left, hcut]) name
  | tagged hbody slashes fragment =>
      have hcut := partition_append (hhash slashes hbody) fragment
      exact ssClashProxy_of_partition hbody (by rw [List.drop_left, hcut]) name

/-- A server whose password holds both delimiters. -/
def smallServer : SsServer where
  method := "rc4".toList
  password := "a:b@c".toList
  host := "::1".toList
  bracketed := true
  port := "80".toList
  method_ne := by decide
  method_plain := by decide
  password_ne := by decide
  host_ne := by decide
  host_plain := List.forall_iff_forall_mem.mp (by decide)
  host_colon := by decide
  port_ne := by decide
  port_digits := List.forall_iff_forall_mem.mp (by decide)

/-- The percent form, and the legacy form in the other alphabet without padding. -/
theorem ss_forms_agree_small :
    @ssClashProxy asciiData "ss://rc4%3Aa%3Ab%40c@[::1]:80".toList "n".toList =
        some "  - \x7bname: 'n', type: ss, server: '::1', port: 80, cipher: rc4, password: 'a:b@c', udp: true\x7d".toList ∧
      @ssClashProxy asciiData "ss://cmM0OmE6YkBjQFs6OjFdOjgw/#t".toList "n".toList =
        some (smallServer.proxyLine "n".toList) := by
  have hquoted := @ss_forms_agree asciiData smallServer _ (.plain (.quoted _) 0) "n".toList
  have hlegacy := @ss_forms_agree asciiData smallServer _ (.tagged (.legacy true false) 1 "t".toList)
    "n".toList
  exact ⟨hquoted, hlegacy⟩

end BlogStuff.VlessSubs
