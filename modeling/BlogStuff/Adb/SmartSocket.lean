import Mathlib.Data.List.TakeWhile
import BlogStuff.Adb.Process

/-!
# BlogStuff.Adb.SmartSocket

Requests of clients to the server (`unhex` and `smart_socket_enqueue` of `sockets.c`, built for
the host; the client's side in `adb_client.c`). A request is four hexadecimal digits and that
many bytes of text.

A smart socket collects what the client writes until a request is complete, whatever pieces it
comes in. What it has collected decides what it does next (`parseData`), and it waits on a text
only if it waits on every part of it from the start (`Waiting.of_append`), so the pieces do not
matter as long as the request is not complete. What comes in one piece with the end of a request
is dropped with it.
-/

namespace BlogStuff.Adb

open BlogStuff.Wire

/-! ### Lengths -/

/-- The value of a hexadecimal digit. -/
def hexValue (c : UInt8) : Option Nat :=
  if 48 ≤ c.toNat ∧ c.toNat ≤ 57 then some (c.toNat - 48)
  else if 97 ≤ c.toNat ∧ c.toNat ≤ 102 then some (c.toNat - 97 + 10)
  else if 65 ≤ c.toNat ∧ c.toNat ≤ 70 then some (c.toNat - 65 + 10)
  else none

/-- The loop of `unhex`; four digits cannot overflow. -/
def unhexLoop (n : Nat) : Bytes → Nat
  | [] => n
  | c :: s =>
      match hexValue c with
      | some d => unhexLoop (n * 16 + d) s
      | none => 0xffffffff

/-- `unhex(s, len)`. -/
def unhex (s : Bytes) : Nat := unhexLoop 0 s

theorem hexValue_hexDigit {n : Nat} (h : n < 16) : hexValue (hexDigit n) = some n := by
  have hall : ∀ k : Fin 16, hexValue (hexDigit k) = some k.val := by decide
  exact hall ⟨n, h⟩

theorem unhex_hex4 {n : Nat} (h : n < 0x10000) : unhex (hex4 n) = n := by
  simp only [unhex, hex4, unhexLoop, hexValue_hexDigit (Nat.mod_lt _ (by decide : 0 < 16))]
  omega

/-! ### Requests -/

/-- What a smart socket makes of the bytes it has: it waits for more of them, gives up, or has
the text of a request. -/
inductive Parsed
  | wait (data : Bytes)
  | fail
  | request (text : Bytes)
  deriving DecidableEq, Repr

/-- `smart_socket_enqueue` once the packet is appended. -/
def parseData (data : Bytes) : Parsed :=
  if data.length < 4 then .wait data
  else if unhex (data.take 4) < 1 ∨ 1024 < unhex (data.take 4) then .fail
  else if data.length < unhex (data.take 4) + 4 then .wait data
  else .request ((data.drop 4).take (unhex (data.take 4)))

/-- `smart_socket_enqueue(s, p)` up to the text of the request; `pktFirst` is what
`s->pkt_first` holds. -/
def smartParse (pktFirst : Option Bytes) (p : Bytes) : Parsed :=
  match pktFirst with
  | none => parseData p
  | some q => if maxPayload < q.length + p.length then .fail else parseData (q ++ p)

/-- A C string: the bytes in front of the first NUL. -/
def cString (text : Bytes) : Bytes := text.takeWhile (· != 0)

/-- `transport_type`. -/
inductive TransportType
  | kTransportAny | kTransportUsb | kTransportLocal
  deriving DecidableEq, Repr

/-- A request to the server itself. -/
structure HostRequest where
  service : Bytes
  ttype : TransportType
  serial : Option Bytes
  deriving DecidableEq, Repr

/-- The text behind the words it starts with. -/
def behind (words : String) (text : Bytes) : Option Bytes :=
  if (ascii words).isPrefixOf text then some (text.drop (ascii words).length) else none

/-- The prefixes of `smart_socket_enqueue`, tried in the order of the source; without one of
them the request is for the other side. -/
def hostRequest (text : Bytes) : Option HostRequest :=
  match behind "host-serial:" text with
  | some service =>
      -- without a second colon there is no serial number, and all of it is the service
      if (58 : UInt8) ∈ service then
        some ⟨(service.dropWhile (· != 58)).tail, .kTransportAny, some (service.takeWhile (· != 58))⟩
      else some ⟨service, .kTransportAny, none⟩
  | none =>
      match behind "host-usb:" text with
      | some service => some ⟨service, .kTransportUsb, none⟩
      | none =>
          match behind "host-local:" text with
          | some service => some ⟨service, .kTransportLocal, none⟩
          | none => (behind "host:" text).map fun service => ⟨service, .kTransportAny, none⟩

/-- What a smart socket finds: whether `handle_host_request` settles a request, whether
`create_host_service_socket` knows its service, and whether its transport is there and online. -/
structure Server where
  handles : HostRequest → Bool
  serves : HostRequest → Bool
  online : Bool

/-- How a call of `smart_socket_enqueue` ends: the socket stays, with this in `s->pkt_first`; it
closes itself and the client's socket; or it hands the client's socket on, to a service of the
server or to the other side. -/
inductive Enqueued
  | stays (pktFirst : Option Bytes)
  | closes
  | host (r : HostRequest)
  | remote (destination : Bytes)
  deriving DecidableEq, Repr

/-- `smart_socket_enqueue(s, p)`. A whole request is for the host itself, if it begins with one of
the host prefixes, or for the other side; a request that cannot be served closes the socket. -/
def smartSocketEnqueue (server : Server) (pktFirst : Option Bytes) (p : Bytes) : Enqueued :=
  match smartParse pktFirst p with
  | .wait data => .stays (some data)
  | .fail => .closes
  | .request text =>
      match hostRequest (cString text) with
      | some r =>
          if server.handles r then .closes
          -- the packet is kept, with `p->len = 0`
          else if (ascii "transport").isPrefixOf r.service then .stays (some [])
          else if server.serves r then .host r
          else .closes
      | none => if server.online then .remote (cString text) else .closes

/-- The packets of a client as long as the smart socket only waits, and what it has kept of them.
None if one of them makes it fail or completes the request. -/
def waits (pktFirst : Option Bytes) : List Bytes → Option (Option Bytes)
  | [] => some pktFirst
  | p :: ps =>
      match smartParse pktFirst p with
      | .wait data => waits (some data) ps
      | .fail => none
      | .request _ => none

/-- What the client writes for a service: `%04x` of its length and the text. -/
def clientRequest (service : Bytes) : Bytes := hex4 service.length ++ service

/-! ### Waiting -/

/-- The request is not complete, and can still be one. -/
def Waiting (data : Bytes) : Prop :=
  data.length < 4 ∨
    (1 ≤ unhex (data.take 4) ∧ unhex (data.take 4) ≤ 1024 ∧ data.length < unhex (data.take 4) + 4)

/-- A text begins with a whole request. -/
def Holds (data text : Bytes) : Prop :=
  ∃ h rest, data = h ++ text ++ rest ∧ h.length = 4 ∧ unhex h = text.length ∧
    1 ≤ text.length ∧ text.length ≤ 1024

theorem Waiting.of_append {a b : Bytes} (h : Waiting (a ++ b)) : Waiting a := by
  by_cases ha : a.length < 4
  · exact Or.inl ha
  · have htake : (a ++ b).take 4 = a.take 4 := List.take_append_of_le_length (by omega)
    rcases h with h | ⟨h1, h2, h3⟩
    · rw [List.length_append] at h
      omega
    · rw [htake] at h1 h2 h3
      rw [List.length_append] at h3
      exact Or.inr ⟨h1, h2, by omega⟩

theorem parseData_wait_iff {data d : Bytes} : parseData data = .wait d ↔ d = data ∧ Waiting data := by
  simp only [parseData, Waiting]
  split_ifs with h4 hbad hlen
  · simp [h4, eq_comm]
  · simp only [false_iff, not_and]
    omega
  · simp only [Parsed.wait.injEq, eq_comm, iff_self_and]
    omega
  · simp only [false_iff, not_and]
    omega

theorem parseData_request_iff {data text : Bytes} : parseData data = .request text ↔ Holds data text := by
  constructor
  · intro h
    simp only [parseData] at h
    split_ifs at h with h4 hbad hlen
    obtain rfl := Parsed.request.inj h
    refine ⟨data.take 4, (data.drop 4).drop (unhex (data.take 4)), ?_, ?_, ?_, ?_, ?_⟩
    · rw [List.append_assoc, List.take_append_drop, List.take_append_drop]
    · rw [List.length_take]
      omega
    all_goals
      rw [List.length_take, List.length_drop]
      omega
  · rintro ⟨h, rest, rfl, hh, hlen, h1, h2⟩
    have htake : (h ++ text ++ rest).take 4 = h := by
      rw [List.append_assoc, List.take_left' hh]
    have hdrop : (h ++ text ++ rest).drop 4 = text ++ rest := by
      rw [List.append_assoc, List.drop_left' hh]
    rw [parseData, htake, hdrop, hlen, if_neg (by simp; omega), if_neg (by omega),
      if_neg (by simp; omega), List.take_left]

/-- A whole packet is parsed behind what there is, unless both do not fit together. -/
theorem smartParse_eq (q : Option Bytes) {p : Bytes} (hp : p.length ≤ maxPayload) :
    smartParse q p = if maxPayload < (q.getD [] ++ p).length then .fail else parseData (q.getD [] ++ p) := by
  cases q with
  | none =>
      rw [Option.getD_none, List.nil_append, if_neg (by omega)]
      rfl
  | some d =>
      rw [Option.getD_some, List.length_append]
      rfl

theorem smartParse_wait_iff {q : Option Bytes} {p d : Bytes} (hp : p.length ≤ maxPayload) :
    smartParse q p = .wait d ↔
      d = q.getD [] ++ p ∧ Waiting (q.getD [] ++ p) ∧ (q.getD [] ++ p).length ≤ maxPayload := by
  rw [smartParse_eq q hp]
  split_ifs with hlong
  · simp only [false_iff, not_and]
    omega
  · have hfits : (q.getD [] ++ p).length ≤ maxPayload := by omega
    rw [parseData_wait_iff, and_iff_left hfits]

theorem smartParse_request_iff {q : Option Bytes} {p text : Bytes} (hp : p.length ≤ maxPayload) :
    smartParse q p = .request text ↔
      Holds (q.getD [] ++ p) text ∧ (q.getD [] ++ p).length ≤ maxPayload := by
  rw [smartParse_eq q hp]
  split_ifs with hlong
  · simp only [false_iff, not_and]
    omega
  · rw [parseData_request_iff, and_iff_left (by omega)]

theorem waits_cons_eq_some {q r : Option Bytes} {p : Bytes} {ps : List Bytes} :
    waits q (p :: ps) = some r ↔ ∃ d, smartParse q p = .wait d ∧ waits (some d) ps = some r := by
  rw [waits]
  cases smartParse q p <;> simp

/-- The pieces do not matter: a smart socket waits through packets exactly if it would wait on
all of them at once, and then has them all. -/
theorem waits_iff {q : Option Bytes} {ps : List Bytes} (hps : ∀ p ∈ ps, p.length ≤ maxPayload)
    (hw : Waiting (q.getD [])) (hl : (q.getD []).length ≤ maxPayload) {data : Bytes} :
    (∃ r, waits q ps = some r ∧ r.getD [] = data) ↔
      data = q.getD [] ++ ps.flatten ∧ Waiting data ∧ data.length ≤ maxPayload := by
  induction ps generalizing q with
  | nil =>
      constructor
      · rintro ⟨r, hr, rfl⟩
        obtain rfl := Option.some.inj hr
        exact ⟨by simp, hw, hl⟩
      · rintro ⟨rfl, -, -⟩
        exact ⟨q, rfl, by simp⟩
  | cons p ps ih =>
      obtain ⟨hp, hrest⟩ := List.forall_mem_cons.mp hps
      have hflat : q.getD [] ++ (p :: ps).flatten = (q.getD [] ++ p) ++ ps.flatten := by simp
      rw [hflat]
      constructor
      · rintro ⟨r, hr, hdata⟩
        obtain ⟨d, hd, hr⟩ := waits_cons_eq_some.mp hr
        obtain ⟨rfl, hwait, hlen⟩ := (smartParse_wait_iff hp).mp hd
        exact (ih (q := some (q.getD [] ++ p)) hrest hwait hlen).mp ⟨r, hr, hdata⟩
      · rintro ⟨hdata, hwait, hlen⟩
        have hfirst : Waiting (q.getD [] ++ p) := Waiting.of_append (hdata ▸ hwait)
        have hshort : (q.getD [] ++ p).length ≤ maxPayload := by
          rw [hdata, List.length_append] at hlen
          omega
        obtain ⟨r, hr, hr'⟩ :=
          (ih (q := some (q.getD [] ++ p)) hrest hfirst hshort).mpr ⟨hdata, hwait, hlen⟩
        exact ⟨r, waits_cons_eq_some.mpr ⟨_, (smartParse_wait_iff hp).mpr ⟨rfl, hfirst, hshort⟩, hr⟩, hr'⟩

/-! ### What is recognised -/

/-- The beginning of a text with a whole request is waited on as long as it is shorter. -/
theorem Holds.waiting_iff {a b text : Bytes} (h : Holds (a ++ b) text) :
    Waiting a ↔ a.length < text.length + 4 := by
  obtain ⟨h, rest, heq, hh, hlen, h1, h2⟩ := h
  by_cases ha : a.length < 4
  · exact iff_of_true (Or.inl ha) (by omega)
  · have htake : a.take 4 = h := by
      have hleft : (a ++ b).take 4 = a.take 4 := List.take_append_of_le_length (by omega)
      rw [← hleft, heq, List.append_assoc, List.take_left' hh]
    simp only [Waiting, htake, hlen]
    omega

theorem waiting_of_empty {q : Option Bytes} (hq : q.getD [] = []) :
    Waiting (q.getD []) ∧ (q.getD []).length ≤ maxPayload := by
  rw [hq]
  exact ⟨Or.inl (by simp), Nat.zero_le _⟩

theorem Holds.recognised {q : Option Bytes} (hq : q.getD [] = []) {ps : List Bytes} {p text : Bytes}
    (hps : ∀ a ∈ ps, a.length ≤ maxPayload) (hp : p.length ≤ maxPayload) (h : Holds (ps.flatten ++ p) text)
    (hlt : ps.flatten.length < text.length + 4) (hlen : (ps.flatten ++ p).length ≤ maxPayload) :
    ∃ r, waits q ps = some r ∧ smartParse r p = .request text := by
  obtain ⟨hw, hl⟩ := waiting_of_empty hq
  have hshort : ps.flatten.length ≤ maxPayload := by
    rw [List.length_append] at hlen
    omega
  obtain ⟨r, hr, hdata⟩ := (waits_iff hps hw hl).mpr
    ⟨by rw [hq, List.nil_append], h.waiting_iff.mpr hlt, hshort⟩
  refine ⟨r, hr, (smartParse_request_iff hp).mpr ?_⟩
  rw [hdata]
  exact ⟨h, hlen⟩

/-- **What a smart socket takes for a request.** Whatever the packets of a client are, the last of
them completes a request exactly if all of them together begin with four hexadecimal digits, of
either case, that give the length of the text, from 1 to 1024; the text ends in the last packet;
and all of them fit into one packet. -/
theorem smart_request_iff {q : Option Bytes} (hq : q.getD [] = []) {ps : List Bytes} {p text : Bytes}
    (hps : ∀ a ∈ ps, a.length ≤ maxPayload) (hp : p.length ≤ maxPayload) :
    (∃ r, waits q ps = some r ∧ smartParse r p = .request text) ↔
      Holds (ps.flatten ++ p) text ∧ ps.flatten.length < text.length + 4 ∧
        (ps.flatten ++ p).length ≤ maxPayload := by
  constructor
  · rintro ⟨r, hr, hparse⟩
    obtain ⟨hw, hl⟩ := waiting_of_empty hq
    obtain ⟨hdata, hwait, -⟩ := (waits_iff hps hw hl).mp ⟨r, hr, rfl⟩
    rw [hq, List.nil_append] at hdata
    rw [hdata] at hwait
    obtain ⟨hholds, hlen⟩ := (smartParse_request_iff hp).mp hparse
    rw [hdata] at hholds hlen
    exact ⟨hholds, hholds.waiting_iff.mp hwait, hlen⟩
  · rintro ⟨hholds, hlt, hlen⟩
    exact hholds.recognised hq hps hp hlt hlen

/-- Upper-case digits in two pieces; the byte behind the text is not part of it. -/
theorem smart_request_iff_pieces :
    ∃ r, waits none [ascii "00"] = some r ∧ smartParse r (ascii "0Ashell:date,x") = .request (ascii "shell:date") := by
  refine (smart_request_iff (q := none) rfl (by decide) (by decide)).mpr ⟨?_, by decide, by decide⟩
  exact ⟨ascii "000A", ascii ",x", by decide, by decide, by decide, by decide, by decide⟩

/-! ### Handing on -/

theorem length_le_of_request {q : Option Bytes} {p text : Bytes} (h : smartParse q p = .request text) :
    text.length ≤ 1024 := by
  have hholds : ∃ data, Holds data text := by
    cases q with
    | none => exact ⟨p, parseData_request_iff.mp h⟩
    | some d =>
        rw [smartParse] at h
        split_ifs at h
        exact ⟨d ++ p, parseData_request_iff.mp h⟩
  obtain ⟨data, -, -, -, -, -, -, hshort⟩ := hholds
  exact hshort

/-- What a smart socket passes on to the other side is a connection two processes can make: no
destination is too long for `connect_to_remote`. -/
theorem remote_step {S : System} {server : Server} {q : Option Bytes} {p d : Bytes}
    (can : (S.proc .host).CanConnect true true) (h : smartSocketEnqueue server q p = .remote d) :
    S.Step (S.set .host ((S.proc .host).connectToRemote true d)) := by
  have hlen : d.length ≤ 1024 := by
    rw [smartSocketEnqueue] at h
    split at h
    · cases h
    · cases h
    · next text hparse =>
        have htext := length_le_of_request hparse
        split at h
        · split_ifs at h
        · split_ifs at h
          obtain rfl := Enqueued.remote.inj h
          exact (List.takeWhile_prefix _).length_le.trans htext
  have hmax : maxPayload = 4096 := rfl
  exact .connect .host d (by omega) can

/-! ### What a client sends -/

/-- The texts `_adb_connect` sends. -/
structure Sendable (service : Bytes) : Prop where
  pos : 1 ≤ service.length
  short : service.length ≤ 1024
  text : 0 ∉ service

/-- The packets `ps` and then `p` are a text in pieces, and `p` is not empty. -/
structure Pieces (ps : List Bytes) (p : Bytes) (data : Bytes) : Prop where
  whole : ps.flatten ++ p = data
  last : p ≠ []

theorem cString_of_sendable {service : Bytes} (h : Sendable service) : cString service = service := by
  rw [cString, List.takeWhile_eq_self_iff]
  intro c hc
  have : c ≠ 0 := fun h0 => h.text (h0 ▸ hc)
  simpa using this

/-- A request of a client is recognised, in whatever pieces it comes: every piece but the last
leaves the parser waiting, and with the last one the length in the header is reached. -/
theorem Pieces.request {q : Option Bytes} (hq : q.getD [] = []) {ps : List Bytes} {p service : Bytes}
    (hs : Sendable service) (h : Pieces ps p (clientRequest service)) :
    ∃ r, waits q ps = some r ∧ smartParse r p = .request service := by
  have hlen : ps.flatten.length + p.length = 4 + service.length := by
    rw [← List.length_append, h.whole, clientRequest, List.length_append]
    rfl
  have hpos : 0 < p.length := List.length_pos_iff.mpr h.last
  have hshort := hs.short
  have hmax : maxPayload = 4096 := rfl
  have hpiece : ∀ a ∈ ps, a.length ≤ maxPayload := by
    intro a ha
    have := (List.sublist_flatten_of_mem ha).length_le
    omega
  have hholds : Holds (ps.flatten ++ p) service := by
    refine ⟨hex4 service.length, [], ?_, rfl, unhex_hex4 (by omega), hs.pos, hshort⟩
    rw [h.whole, clientRequest, List.append_nil]
  refine hholds.recognised hq hpiece (by omega) (by omega) ?_
  rw [List.length_append]
  omega

/-- **Switching the transport, then connecting.** A client that has its transport switched and then
asks for a service of the device, as `_adb_connect` does, gets its socket connected to just that
service, in whatever pieces the two requests come: the connection is a step of the two processes. -/
theorem switch_then_connect {server server' : Server} {t service : Bytes} {r : HostRequest}
    (ht : Sendable t) (hs : Sendable service) (hr : hostRequest t = some r)
    (hswitch : (ascii "transport").isPrefixOf r.service = true)
    (hleft : server.handles r = false) (hdevice : hostRequest service = none)
    (honline : server'.online = true) {ps ps' : List Bytes} {p p' : Bytes}
    (hp : Pieces ps p (clientRequest t)) (hp' : Pieces ps' p' (clientRequest service)) :
    ∃ a b, waits none ps = some a ∧ smartSocketEnqueue server a p = .stays (some []) ∧
      waits (some []) ps' = some b ∧ smartSocketEnqueue server' b p' = .remote service ∧
      ∀ S : System, (S.proc .host).CanConnect true true →
        S.Step (S.set .host ((S.proc .host).connectToRemote true service)) := by
  obtain ⟨a, ha, hparse⟩ := hp.request (q := none) rfl ht
  obtain ⟨b, hb, hparse'⟩ := hp'.request (q := some []) rfl hs
  have hremote : smartSocketEnqueue server' b p' = .remote service := by
    simp only [smartSocketEnqueue, hparse', cString_of_sendable hs, hdevice, honline, if_true]
  refine ⟨a, b, ha, ?_, hb, hremote, fun S can => remote_step can hremote⟩
  simp only [smartSocketEnqueue, hparse, cString_of_sendable ht, hr, hleft, hswitch, if_true,
    Bool.false_eq_true, if_false]

/-- A server that leaves every request alone, with a device that is online. -/
def plainServer : Server := ⟨fun _ => false, fun _ => false, true⟩

theorem switch_then_connect_shell :
    ∃ a b, waits none [ascii "0012host:trans"] = some a ∧
      smartSocketEnqueue plainServer a (ascii "port-any") = .stays (some []) ∧
      waits (some []) [ascii "0006"] = some b ∧
      smartSocketEnqueue plainServer b (ascii "shell:") = .remote (ascii "shell:") ∧
      ∀ S : System, (S.proc .host).CanConnect true true →
        S.Step (S.set .host ((S.proc .host).connectToRemote true (ascii "shell:"))) :=
  switch_then_connect (t := ascii "host:transport-any") (r := ⟨ascii "transport-any", .kTransportAny, none⟩)
    ⟨by decide, by decide, by decide⟩ ⟨by decide, by decide, by decide⟩ (by decide) (by decide) rfl
    (by decide) rfl ⟨by decide, by decide⟩ ⟨by decide, by decide⟩

end BlogStuff.Adb
