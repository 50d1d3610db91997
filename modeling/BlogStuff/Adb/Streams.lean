import BlogStuff.Adb.Sessions

/-!
# BlogStuff.Adb.Streams

What two processes that talk adb keep of every connection, whatever the order of their steps.

The two sockets of a connection are `Joined`; nothing below depends on which of them asked.
A pair of joined sockets is two ends with a `BlogStuff.Link.Dir` each way (`Inv.pair`), and
each result is read off one of these:

* bytes arrive as they were read, in order, and none is lost while the receiver is open;
* the right to read from a descriptor is in exactly one place while both sockets are open, so
  no wake-up is lost and a socket queues at most one packet;
* a socket that closes sends a `CLSE`, unless its client had hung up with the request, and
  nothing follows a `CLSE`;
* the only bad pointer that is followed is the one a closing socket keeps.
-/

namespace BlogStuff.Adb

open BlogStuff.Wire BlogStuff.Link

namespace System

variable {S : System} {x : Side} {n f : Nat} {s : Sock}

/-- A descriptor of `x` and one of the other side are the two ends of a connection. -/
def Joined (S : System) (x : Side) (n f : Nat) : Prop := S.Linked x n f ∨ S.Linked x.other f n

/-- The socket of a descriptor takes part in its connection. -/
def Open (S : System) (x : Side) (n : Nat) : Prop :=
  ∃ s, (S.proc x).socks n = some s ∧ s.closing = false

instance (S : System) (x : Side) (n f : Nat) : Decidable (S.Joined x n f) :=
  inferInstanceAs (Decidable (_ ∨ _))

instance (S : System) (x : Side) (n : Nat) : Decidable (S.Open x n) :=
  decidable_of_iff (((S.proc x).socks n).any fun s => !s.closing)
    (by cases hs : (S.proc x).socks n <;> simp [Open, hs])

/-- What a client may find in front of the stream: nothing, or if it asked for the connection
the status message. -/
def Greeted (S : System) (x : Side) (n f : Nat) (g : Bytes) : Prop :=
  g = [] ∨ (S.Linked x n f ∧ Status g)

/-- Two joined sockets as the ends of a connection, seen from the first: what both show, the
messages on the way there and back, and the invariant of the direction. -/
structure Pair (S : System) (x : Side) (n f : Nat) (a b : End UInt8) (m m' : List (Msg UInt8)) : Prop where
  here : Shows (idOf n) (idOf f) (S.Greeted x n f) (S.cut x) ((S.proc x).socks n) ((S.proc x).descr n) a
  there : Shows (idOf f) (idOf n) (S.Greeted x.other f n) (S.cut x.other) ((S.proc x.other).socks f)
    ((S.proc x.other).descr f) b
  out : S.inbox x.other f = m.map (packetOf (idOf n) (idOf f))
  back : S.inbox x n = m'.map (packetOf (idOf f) (idOf n))
  dir : Dir a b m m' (S.cut x)
  withdrew : a.phase = .withdrawn ↔ S.Withdrew x n
  untold : a.phase = .withdrawn → m = []

/-- The connection that `x` asked for, read from both ends. The invariant has one direction for each
of them, and a linked connection is one that has been answered. -/
theorem Inv.pair_near (h : S.Inv) (hlink : S.Linked x n f) :
    ∃ a b m m', S.Pair x n f a b m m' ∧ S.Pair x.other f n b a m' m := by
  obtain ⟨c, hc, hproj⟩ := h.conns x n (h.shape.near x n f hlink)
  have inv := hc.inv
  cases hproj with
  | before unanswered => exact absurd hlink (unanswered f)
  | after f' answered near far asked toFar toNear cutNear cutFar withdrew =>
      obtain rfl := h.shape.one_far x n f' f answered hlink
      have hnear : Shows (idOf n) (idOf f') (S.Greeted x n f') (S.cut x) ((S.proc x).socks n)
          ((S.proc x).descr n) c.near :=
        near.mono (fun _ => rfl) (fun g hg => Or.inr ⟨hlink, hg⟩) id
      have hfar : Shows (idOf f') (idOf n) (S.Greeted x.other f' n) (S.cut x.other)
          ((S.proc x.other).socks f') ((S.proc x.other).descr f') c.far :=
        far.mono (fun _ => rfl) (fun g hg => Or.inl hg) id
      have hout := inv.out
      have hback := inv.back
      rw [cutNear] at hout
      rw [cutFar] at hback
      -- Only a socket that asked can have been withdrawn.
      have hstays : ¬ S.Withdrew x.other f' := by
        intro hw
        have hlinks := (h.shape.withdrew x.other f' hw).2 n
        rw [Side.other_other] at hlinks
        exact hlinks hlink
      have hphase := inv.stage.far_asked.2
      refine ⟨c.near, c.far, c.toFar, c.toNear, ⟨hnear, hfar, toFar, toNear, hout, withdrew, ?_⟩, ?_⟩
      · exact fun hp => inv.stage.untold hp far.there
      refine ⟨hfar, ?_, ?_, toFar, hback, iff_of_false hphase hstays, fun hp => absurd hp hphase⟩
      · rwa [Side.other_other]
      · rwa [Side.other_other]

theorem Inv.pair (h : S.Inv) (hj : S.Joined x n f) : ∃ a b m m', S.Pair x n f a b m m' := by
  rcases hj with hlink | hlink
  · obtain ⟨a, b, m, m', hpair, -⟩ := h.pair_near hlink
    exact ⟨a, b, m, m', hpair⟩
  · obtain ⟨a, b, m, m', -, hpair⟩ := h.pair_near hlink
    rw [Side.other_other] at hpair
    exact ⟨b, a, m', m, hpair⟩

/-! ### Connections are independent -/

/-- Both transports come up, and a client of a forwarded port of the host is connected. -/
def opening : List Action :=
  [.up .host, .up .device, .deliver .host false ⟨[], [], 0⟩, .deliver .device false ⟨[], [], 0⟩,
    .connect .host false [58], .deliver .host true ⟨[], [], 0⟩, .deliver .device false ⟨[], [], 0⟩]

/-- The client has written two bytes and left; nothing of this has arrived. -/
def parting : List Action := opening ++ [.event .host 0 ⟨true, false⟩ ⟨[], [.data [104, 105], .data []], 0⟩]

/-- The service of the device does not take the bytes, and the client's side has closed. -/
def stalled : List Action :=
  parting ++ [.deliver .host false ⟨[.again], [], 0⟩, .deliver .host false ⟨[], [], 0⟩]

/-- **Every connection behaves as if it were alone.** Packets carry the id of the socket they
are for and ids are not used twice, so a callback reaches its own connection only; and each
callback is a step that one end of a connection can make, whatever the others do. -/
theorem connection_alone (h : S.Reachable) (fits : S.Fits) (hn : S.IsNear x n) :
    ∃ c : Conn UInt8, c.Reachable ∧ S.Projects x n c :=
  (h.inv fits).conns x n hn

theorem connection_alone_parting : (acts parting).IsNear .host 0 ∧
    ∃ c : Conn UInt8, c.Reachable ∧ (acts parting).Projects .host 0 c := by
  have hlinks : (acts parting).links = [⟨.host, 0, 0⟩] := by decide
  have hn : (acts parting).IsNear .host 0 :=
    ⟨by decide, fun m hm => by simp [Linked, hlinks, Side.other] at hm⟩
  exact ⟨hn, connection_alone (reachable_acts _) (by decide) hn⟩

/-! ### Streams -/

theorem flatMap_data_packetOf (self other : UInt32) (m : List (Msg UInt8)) :
    (m.map (packetOf self other)).flatMap Packet.data = m.flatMap Msg.items := by
  rw [List.flatMap_map]
  congr 1
  funext msg
  cases msg <;> rfl

/-- **Bytes arrive in order.** Whatever has been closed or cut, the descriptor of one end has
been given what the other end has read, from the start and without a gap: packets are handled
in the order they were sent, and a queue is written before anything that comes later. -/
theorem in_order (h : S.Reachable) (fits : S.Fits) (hj : S.Joined x n f) :
    ∃ g given, S.Greeted x.other f n g ∧ ((S.proc x.other).descr f).given = g ++ given ∧
      given <+: ((S.proc x).descr n).taken := by
  obtain ⟨a, b, m, m', hpair⟩ := (h.inv fits).pair hj
  obtain ⟨htaken, -⟩ := hpair.here.descr_eq
  obtain ⟨-, g, hg, hgiven⟩ := hpair.there.descr_eq
  refine ⟨g, b.given, hg, hgiven, ?_⟩
  rw [htaken]
  exact (List.prefix_append _ _).trans hpair.dir.stream

theorem in_order_parting : (acts parting).Joined .host 0 0 ∧
    ∃ g given, (acts parting).Greeted .device 0 0 g ∧
      (((acts parting).proc .device).descr 0).given = g ++ given ∧
      given <+: (((acts parting).proc .host).descr 0).taken :=
  ⟨by decide, in_order (reachable_acts _) (by decide) (x := .host) (by decide)⟩

/-- **No byte is lost.** As long as the receiver is open and the sender was not cut off, what
was read at one end is what was written at the other, what is queued there and what is on the
way, even if the sender has closed: `CLSE` comes behind the last `WRTE`, and a write that
blocks leaves the rest of its packet in the queue. -/
theorem nothing_lost (h : S.Reachable) (fits : S.Fits) (hj : S.Joined x n f)
    (hs : (S.proc x.other).socks f = some s) (hopen : s.closing = false)
    (hup : (S.proc x).pump ≠ .down) :
    ∃ g, S.Greeted x.other f n g ∧ g ++ ((S.proc x).descr n).taken =
      ((S.proc x.other).descr f).given ++ s.queue.flatten ++ (S.inbox x.other f).flatMap Packet.data := by
  obtain ⟨a, b, m, m', hpair⟩ := (h.inv fits).pair hj
  have hthere := hpair.there
  obtain ⟨htaken, -⟩ := hpair.here.descr_eq
  obtain ⟨-, g, hg, hgiven⟩ := hthere.descr_eq
  rw [hs] at hthere
  have hlive : b.Live := hthere.live_of_open hopen
  obtain ⟨lost, hlost, hnone⟩ := hpair.dir.flow hlive
  obtain rfl := hnone (by simpa [cut] using hup)
  refine ⟨g, hg, ?_⟩
  rw [htaken, hgiven, hthere.queue_eq, flatten_pack, hpair.out, flatMap_data_packetOf, ← hlost]
  simp

theorem nothing_lost_parting : (acts parting).Open .device 0 ∧
    ∃ g, (acts parting).Greeted .device 0 0 g ∧ g ++ [104, 105] =
      (((acts parting).proc .device).descr 0).given ++ ([] : List Bytes).flatten ++
        ((acts parting).inbox .device 0).flatMap Packet.data :=
  ⟨by decide, nothing_lost (reachable_acts _) (by decide) (x := .host)
    (s := ⟨1, false, .remote 1, [], true, false, false, false⟩) (by decide) (by decide) (by decide)
    (by decide)⟩

/-! ### Flow control -/

/-- The socket of a descriptor asks for what can be read. -/
def reads (S : System) (x : Side) (n : Nat) : Nat :=
  match (S.proc x).socks n with
  | some s => s.wantRead.toNat
  | none => 0

/-- The packets queued at an open socket. -/
def queued (S : System) (x : Side) (n : Nat) : Nat :=
  match (S.proc x).socks n with
  | some s => if s.closing then 0 else s.queue.length
  | none => 0

/-- Where the right to read from a descriptor can be: with its socket, in a `WRTE` to the other
end, in the queue there, or in an `OKAY` on the way back. -/
def rights (S : System) (x : Side) (n f : Nat) : Nat :=
  S.reads x n + (S.inbox x.other f).countP (fun p => p.command == .aWrte) + S.queued x.other f +
    (S.inbox x n).countP fun p => p.command == .aOkay

theorem countP_wrte (self other : UInt32) (m : List (Msg UInt8)) :
    ((m.map (packetOf self other)).countP fun p => p.command == .aWrte) = m.countP Msg.isData := by
  rw [List.countP_map]
  congr 1
  funext msg
  cases msg <;> rfl

theorem countP_okay (self other : UInt32) (m : List (Msg UInt8)) :
    ((m.map (packetOf self other)).countP fun p => p.command == .aOkay) = m.countP Msg.isAck := by
  rw [List.countP_map]
  congr 1
  funext msg
  cases msg <;> rfl

theorem length_pack (x : Bytes) : (pack x).length = if x = [] then 0 else 1 := by
  by_cases hx : x = [] <;> simp [pack, hx]

theorem Pair.reads_le {a b : End UInt8} {m m' : List (Msg UInt8)} (hp : S.Pair x n f a b m m') :
    S.reads x n ≤ a.reading.toNat ∧ (S.Open x n → S.reads x n = a.reading.toNat) := by
  have hhere := hp.here
  rw [reads]
  cases hs : (S.proc x).socks n with
  | none =>
      refine ⟨Nat.zero_le _, ?_⟩
      rintro ⟨s, hs', -⟩
      rw [hs] at hs'
      cases hs'
  | some s =>
      rw [hs] at hhere
      dsimp only
      rw [hhere.wantRead_eq]
      exact ⟨le_rfl, fun _ => rfl⟩

theorem Pair.queued_eq {a b : End UInt8} {m m' : List (Msg UInt8)} (hp : S.Pair x n f a b m m') :
    S.queued x.other f = if b.Live ∧ b.backlog ≠ [] then 1 else 0 := by
  have hthere := hp.there
  have hopen := hthere.open_iff
  rw [queued]
  cases hs : (S.proc x.other).socks f with
  | none =>
      rw [hs] at hopen
      have hdead : ¬ b.Live := fun hlive => by simpa using hopen.mpr hlive
      rw [if_neg fun h => hdead h.1]
  | some s =>
      rw [hs] at hthere hopen
      have hlive : b.Live ↔ s.closing = false := by simpa using hopen.symm
      simp only [hthere.queue_eq, length_pack, hlive]
      cases s.closing with
      | true => simp
      | false => by_cases hb : b.backlog = [] <;> simp [hb]

/-- The rights of two joined sockets are the credit of their connection, unless the reader is
gone. -/
theorem Pair.rights_le {a b : End UInt8} {m m' : List (Msg UInt8)} (hp : S.Pair x n f a b m m') :
    S.rights x n f ≤ credit a b m m' ∧ (S.Open x n → S.rights x n f = credit a b m m') := by
  obtain ⟨hle, heq⟩ := hp.reads_le
  rw [rights, credit, hp.queued_eq, hp.out, hp.back, countP_wrte, countP_okay]
  exact ⟨by omega, fun hn => by rw [heq hn]⟩

/-- **Flow control.** The right to read from a descriptor is never in two places; while both
sockets are open it is in one, so reading goes on once the other end has taken what there
is. Each callback moves it: reading gives it to the `WRTE`, a blocked write to the queue, the
last byte written to the `OKAY`, which gives it back to the socket. -/
theorem flow_control (h : S.Reachable) (fits : S.Fits) (hj : S.Joined x n f) :
    S.rights x n f ≤ 1 ∧ (S.Open x n → S.Open x.other f → S.rights x n f = 1) := by
  obtain ⟨a, b, m, m', hpair⟩ := (h.inv fits).pair hj
  obtain ⟨hle, heq⟩ := hpair.rights_le
  refine ⟨hle.trans hpair.dir.credit_le, fun hn hf => ?_⟩
  rw [heq hn]
  exact hpair.dir.credit_eq (hpair.here.open_iff.mp hn) (hpair.there.open_iff.mp hf)

theorem flow_control_parting : (acts parting).Joined .device 0 0 ∧
    (acts parting).rights .device 0 0 ≤ 1 ∧
      ((acts parting).Open .device 0 → (acts parting).Open .host 0 → (acts parting).rights .device 0 0 = 1) :=
  ⟨by decide, flow_control (reachable_acts _) (by decide) (x := .device) (by decide)⟩

/-! ### Closing -/

/-- A client of the host asks for a service in its last words, and the device opens it. -/
def deserted : List Action :=
  [.up .host, .up .device, .deliver .host false ⟨[], [], 0⟩, .deliver .device false ⟨[], [], 0⟩,
    .withdraw .host [58] 0, .deliver .host true ⟨[], [], 0⟩, .deliver .device false ⟨[], [], 0⟩]

/-- **Who is told that the other end has closed.** With its transport up, the socket that has
closed has sent a `CLSE`, and this is still on its way: `remote_socket_close` sends it whenever
a socket with a remote peer closes. A client that had hung up with its request has no peer to
send it through yet, so the socket opened for it never hears of this. -/
theorem told_of_closed (h : S.Reachable) (fits : S.Fits) (hj : S.Joined x n f)
    (hup : (S.proc x).pump ≠ .down) (hopen : S.Open x.other f) (hclosed : ¬ S.Open x n) :
    clsePacket (idOf f) ∈ S.inbox x.other f ↔ ¬ S.Withdrew x n := by
  obtain ⟨a, b, m, m', hpair⟩ := (h.inv fits).pair hj
  have hlive : b.Live := hpair.there.open_iff.mp hopen
  have hover : a.Over := hpair.here.over_of_closed fun s hs _ => by
    by_contra hc
    exact hclosed ⟨s, hs, by simpa using hc⟩
  rw [hpair.out, ← hpair.withdrew]
  rcases hover with hleft | hp
  · have hbye := hpair.dir.told hlive hleft (by simpa [cut] using hup)
    exact iff_of_true (List.mem_map.mpr ⟨.bye, hbye, rfl⟩) hleft.ne_withdrawn
  · rw [hpair.untold hp]
    exact iff_of_false (by simp) (by simp [hp])

theorem told_of_closed_runs :
    (clsePacket (idOf 0) ∈ (acts parting).inbox .device 0 ↔ ¬ (acts parting).Withdrew .host 0) ∧
      (clsePacket (idOf 0) ∈ (acts deserted).inbox .device 0 ↔ ¬ (acts deserted).Withdrew .host 0) ∧
      ¬ (acts parting).Withdrew .host 0 ∧ (acts deserted).Withdrew .host 0 :=
  ⟨told_of_closed (x := .host) (n := 0) (reachable_acts parting) (by decide) (by decide) (by decide)
      (by decide) (by decide),
    told_of_closed (x := .host) (n := 0) (reachable_acts deserted) (by decide) (by decide) (by decide)
      (by decide) (by decide), by decide, by decide⟩

/-- The mail of a socket, whether or not it has a partner. -/
theorem Inv.mail (h : S.Inv) (hn : n < (S.proc x).count) :
    ∃ other m, S.inbox x n = m.map (packetOf other (idOf n)) ∧ ∀ l r, m = l ++ .bye :: r → r = [] := by
  by_cases hfar : ∃ k, S.Linked x.other k n
  · obtain ⟨k, hlink⟩ := hfar
    obtain ⟨a, b, m, m', hpair, -⟩ := h.pair_near hlink
    have hout := hpair.out
    rw [Side.other_other] at hout
    exact ⟨_, m, hout, hpair.dir.last⟩
  · obtain ⟨c, hc, hproj⟩ := h.conns x n ⟨hn, not_exists.mp hfar⟩
    cases hproj with
    | before unanswered near far toFar toNear => exact ⟨_, c.toNear, toNear, hc.inv.back.last⟩
    | after f answered near far asked toFar toNear => exact ⟨_, c.toNear, toNear, hc.inv.back.last⟩

/-- The client of a forwarded port is refused. -/
def refused : List Action :=
  [.up .host, .up .device, .deliver .host false ⟨[], [], 0⟩, .deliver .device false ⟨[], [], 0⟩,
    .connect .host false [58], .deliver .host false ⟨[], [], 0⟩]

/-- **Nothing follows a `CLSE`**, be it the end of a connection or the refusal of one. A socket
that closes is no longer found by any packet and gets no event that sends (`Dir.last`), and
nothing is ever sent to a socket that was refused. -/
theorem clse_last (h : S.Reachable) (fits : S.Fits) (l r : List Packet) (p : Packet)
    (hmail : S.inbox x n = l ++ p :: r) (hp : p.command = .aClse) : r = [] := by
  have inv := h.inv fits
  have hmem : p ∈ S.inbox x n := by
    rw [hmail]
    exact List.mem_append_right l List.mem_cons_self
  obtain ⟨hsent, haddr⟩ := List.mem_filter.mp hmem
  obtain ⟨fd, hfd, hid⟩ := inv.shape.addressed x.other p hsent (idOf n) (by simpa using haddr)
  rw [Side.other_other] at hfd
  obtain ⟨other, m, hm, hlast⟩ := inv.mail hfd
  rw [inbox, hid, ← inbox, hm] at hmail
  obtain ⟨l', r', rfl, -, hr⟩ := List.map_eq_append_iff.mp hmail
  obtain ⟨msg, tail, rfl, hmsg, rfl⟩ := List.map_eq_cons_iff.mp hr
  obtain rfl : msg = .bye := by
    rw [← hmsg] at hp
    cases msg <;> first | rfl | cases hp
  rw [hlast l' tail rfl, List.map_nil]

theorem clse_last_runs :
    (∃ r, (acts parting).inbox .device 0 = [wrtePacket 1 1 [104, 105]] ++ clsePacket 1 :: r ∧ r = []) ∧
      ∃ r, (acts refused).inbox .host 0 = [] ++ clsePacket 1 :: r ∧ r = [] := by
  have hmail : (acts parting).inbox .device 0 = [wrtePacket 1 1 [104, 105]] ++ [clsePacket 1] := by decide
  have hmail' : (acts refused).inbox .host 0 = [] ++ [clsePacket 1] := by decide
  exact ⟨⟨[], hmail, clse_last (reachable_acts parting) (by decide) _ [] _ hmail rfl⟩,
    [], hmail', clse_last (reachable_acts refused) (by decide) _ [] _ hmail' rfl⟩

/-! ### Bad pointers -/

/-- Every packet can be handled: it finds a socket that is open, and the peer of such a socket
has not been freed. -/
theorem Inv.handled_ne_none (h : S.Inv) (fits : S.Fits) {p : Packet} {rest : List Packet} {service : Bool}
    {c : Calls} (hout : (S.proc x).outgoing = p :: rest) (hup : (S.proc x.other).pump = .up) :
    (S.proc x.other).handlePacket x.other.isHost p service c ≠ none := by
  cases hid : p.addr with
  | none =>
      rw [Process.handlePacket]
      cases hp : p.command with
      | aOkay | aClse | aWrte => simp [Packet.addr, hp] at hid
      | aSync => by_cases hzero : p.arg0 = 0 <;> simp [hzero]
      | aCnxn => simp
      | aOpen => cases (S.proc x.other).online <;> cases service <;> simp
  | some id =>
      rw [handlePacket_addr hid (h.online hout hup (Packet.ne_cnxn_of_addr hid))]
      obtain ⟨n, hn, rfl, ⟨s, hfind, hs, hopen⟩ | ⟨hfind, -⟩⟩ := h.addressee fits hout hid
      · obtain ⟨other, greet, e, inbox, seat⟩ := h.seat fits hn
        have hshows := seat.shows
        rw [hs] at hshows
        rw [hfind]
        simpa using hshows.receive_ne_none hopen p c
      · rw [hfind]
        simp

/-- **The only bad pointer that is followed.** A callback can go wrong just when a closing
socket still points to the remote asocket that was freed, and gets to use it.
`local_socket_close_locked` frees the peer and keeps the pointer; packets no longer find the
socket, but its descriptor still gets events until the queue is written. -/
theorem faults_iff (h : S.Reachable) (fits : S.Fits) :
    S.Faults ↔ ∃ x n ev s c, (S.proc x).CanEvent n ev s ∧ s.closing = true ∧ s.peer = .freed ∧
      UsesPeer ev s c := by
  have inv := h.inv fits
  constructor
  · intro hf
    cases hf with
    | @event x n ev s c can run =>
        obtain ⟨other, greet, e, inbox, seat⟩ := inv.seat fits (inv.shape.installed can.1)
        have hshows := seat.shows
        rw [can.1] at hshows
        obtain ⟨hpeer, huses⟩ := (hshows.event_eq_none_iff can.2.2).mp run
        exact ⟨x, n, ev, s, c, can, hshows.closing_of_freed hpeer, hpeer, huses⟩
    | withdraw x can run =>
        rw [Process.connectAndClose_eq] at run
        cases run
    | reap x can run =>
        obtain ⟨other, greet, e, inbox, seat, hshows, hp⟩ := inv.reap_asking fits can
        rw [(hshows.reap hp).1] at run
        cases run
    | deliver x sent up run => exact absurd run (inv.handled_ne_none fits sent up)
  · rintro ⟨x, n, ev, s, c, can, -, hpeer, huses⟩
    obtain ⟨other, greet, e, inbox, seat⟩ := inv.seat fits (inv.shape.installed can.1)
    have hshows := seat.shows
    rw [can.1] at hshows
    exact .event x can ((hshows.event_eq_none_iff can.2.2).mpr ⟨hpeer, huses⟩)

/-- The service takes the bytes at last. -/
theorem faults_iff_stalled : (acts stalled).Faults :=
  (faults_iff (reachable_acts stalled) (by decide)).mpr
    ⟨.device, 0, ⟨false, true⟩, ⟨0, true, .freed, [[104, 105]], false, true, false, false⟩,
      ⟨[.count 2], [], 0⟩, by decide, rfl, rfl, by rw [UsesPeer, if_pos rfl]; decide⟩

/-! ### The handshake -/

/-- **The handshake comes first.** What a process that is up handles next is the other's
`CNXN` if it is offline, and something else if it is online: no packet is dropped for want of
a connection, and no connection is reset by a second `CNXN`. A side sends nothing before its
own `CNXN`, and sends that once (`Spoken.greets`). -/
theorem handshake_first (h : S.Reachable) (fits : S.Fits) {p : Packet} {rest : List Packet}
    (hout : (S.proc x).outgoing = p :: rest) (hup : (S.proc x.other).pump = .up) :
    p.command = .aCnxn ↔ (S.proc x.other).online = false := by
  have inv := h.inv fits
  constructor
  · intro hp
    exact (inv.greeting hout hp).2.1
  · intro hoffline
    by_contra hp
    rw [inv.online hout hup hp] at hoffline
    cases hoffline

theorem handshake_first_parting : (wrtePacket 1 1 [104, 105]).command = .aCnxn ↔
    ((acts parting).proc .device).online = false := by
  have hout : ((acts parting).proc .host).outgoing = [wrtePacket 1 1 [104, 105], clsePacket 1] := by decide
  exact handshake_first (reachable_acts parting) (by decide) (x := .host) hout (by decide)

end System

end BlogStuff.Adb
