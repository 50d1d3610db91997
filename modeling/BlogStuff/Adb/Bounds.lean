import BlogStuff.Adb.Streams

/-!
# BlogStuff.Adb.Bounds

How much is kept and sent at a time. A handler fills packets of at most `MAX_PAYLOAD` bytes and
queues at most what one packet brought; the second part needs the flow control, since
`local_socket_enqueue` itself appends to whatever is queued.

Every packet under way therefore passes the checks of the reader at the other end, which is
what `fromRemote_inputThread` asks for: the queues of `BlogStuff.Adb.Process` are the wire
(`delivered_whole`).
-/

namespace BlogStuff.Adb

open BlogStuff.Wire BlogStuff.Link

/-- What a socket queues fits into one packet. -/
def Sock.Small (s : Sock) : Prop := s.queue.flatten.length ≤ maxPayload

/-- What a handler leaves and sends fits into packets. -/
structure After.Small (a : After) : Prop where
  sock : ∀ s, a.sock = some s → s.Small
  sent : ∀ p ∈ a.sent, p.data.length ≤ maxPayload

section small

variable {s : Sock} {d : Descr} {a : After} {c : Calls} {note : Nat}

theorem After.Small.behind {p : Packet} (h : a.Small) (hp : p.data.length ≤ maxPayload) :
    (a.behind p).Small := by
  refine ⟨h.sock, fun q hq => ?_⟩
  rcases List.mem_cons.mp hq with rfl | hq
  · exact hp
  · exact h.sent q hq

theorem Sock.Small.alone (h : s.Small) (d : Descr) : After.Small ⟨some s, d, []⟩ :=
  ⟨fun s' hs => by cases hs; exact h, by simp⟩

theorem small_closeAlone (h : s.Small) (d : Descr) : (closeAlone s d).Small := by
  rw [closeAlone]
  split
  · exact ⟨by simp, by simp⟩
  · have hclosing : Sock.Small { s with closing := true, wantRead := false, id := 0 } := h
    exact hclosing.alone d

theorem small_closeLocked (hrun : localSocketCloseLocked s d = some a) (h : s.Small) : a.Small := by
  rw [localSocketCloseLocked] at hrun
  cases hpeer : s.peer with
  | null =>
      rw [hpeer] at hrun
      cases hrun
      exact small_closeAlone h d
  | remote r =>
      rw [hpeer] at hrun
      cases hrun
      have hfreed : Sock.Small { s with peer := .freed } := h
      exact (small_closeAlone hfreed d).behind (p := clsePacket r) (Nat.zero_le _)
  | freed =>
      rw [hpeer] at hrun
      cases hrun

theorem small_close (hrun : s.close d note = some a) (h : s.Small) : a.Small := by
  rw [Sock.close] at hrun
  split at hrun
  · exact small_closeLocked hrun h
  · exact small_closeLocked hrun h

theorem small_closeIf {eof : Bool} (hrun : closeIf eof s d note = some a) (h : s.Small) : a.Small := by
  rw [closeIf] at hrun
  split at hrun
  · exact small_close hrun h
  · cases hrun
    exact h.alone d

theorem small_readEvent (hrun : readEvent s d c = some a) (h : s.Small) : a.Small := by
  have hlen := length_readLoop c.reads maxPayload
  rw [readEvent] at hrun
  generalize readLoop c.reads maxPayload = r at hrun hlen
  obtain ⟨x, eof⟩ := r
  dsimp only at hrun hlen
  split at hrun
  · exact small_closeIf hrun h
  · split at hrun
    · next r _ =>
        obtain ⟨b, hclose, rfl⟩ := Option.map_eq_some_iff.mp hrun
        exact (small_closeIf hclose h).behind (p := wrtePacket s.id r x) hlen
    · cases hrun

theorem small_readIf {read : Bool} (hrun : readIf read s d c = some a) (h : s.Small) : a.Small := by
  rw [readIf] at hrun
  split at hrun
  · exact small_readEvent hrun h
  · cases hrun
    exact h.alone d

theorem small_event {ev : Events} (hrun : localSocketEventFunc ev s d c = some a) (h : s.Small) : a.Small := by
  have hdrained : Sock.Small { s with queue := (drainLoop c.writes s.queue).queue } := by
    have hsplit := congrArg List.length (drainLoop_spec c.writes s.queue).1
    rw [List.length_append] at hsplit
    exact le_trans (by dsimp only; omega) h
  rw [localSocketEventFunc] at hrun
  split at hrun
  · dsimp only at hrun
    split at hrun
    · cases hrun
      exact hdrained.alone _
    · exact small_close hrun hdrained
    · split at hrun
      · exact small_close hrun hdrained
      · split at hrun
        · next r _ =>
            obtain ⟨b, hread, rfl⟩ := Option.map_eq_some_iff.mp hrun
            exact (small_readIf hread hdrained).behind (p := okayPacket s.id r) (Nat.zero_le _)
        · cases hrun
  · exact small_readIf hrun h

theorem small_ready (h : s.Small) (d : Descr) (note : Nat) : (s.ready d note).Small := by
  rw [Sock.ready]
  split
  · have hready : Sock.Small { s with notify := false, wantRead := true } := h
    exact hready.alone _
  · have hready : Sock.Small { s with wantRead := true } := h
    exact hready.alone _

/-- A packet is queued only behind an empty queue, and then only the part of it that the descriptor
did not take: the queue never holds more than one payload. -/
theorem small_receive {p : Packet} (hrun : s.receive d p c = some a) (h : s.Small)
    (hp : p.data.length ≤ maxPayload) (hempty : p.command = .aWrte → s.queue = []) : a.Small := by
  rw [Sock.receive] at hrun
  split at hrun
  · obtain rfl := Option.some.inj hrun
    have hpeer : Sock.Small { s with peer := if s.peer = .null then .remote p.arg0 else s.peer } := h
    exact small_ready hpeer d c.note
  · exact small_close hrun h
  · next hw =>
      obtain ⟨⟨b, more⟩, hrun, hb⟩ := Option.bind_eq_some_iff.mp hrun
      have hsmall : b.Small := by
        rw [localSocketEnqueue, if_pos (hempty hw)] at hrun
        have hsplit := congrArg List.length (writeLoop_spec true c.writes p.data).1
        rw [List.length_append] at hsplit
        dsimp only at hrun
        split at hrun
        · obtain ⟨b', hclose, hb'⟩ := Option.map_eq_some_iff.mp hrun
          cases hb'
          exact small_close hclose h
        · cases hrun
          exact h.alone _
        · cases hrun
          refine Sock.Small.alone ?_ _
          rw [Sock.Small]
          simp only [List.flatten_cons, List.flatten_nil, List.append_nil]
          omega
      cases more with
      | true =>
          cases hb
          exact hsmall.behind (p := okayPacket s.id p.arg0) (Nat.zero_le _)
      | false =>
          cases hb
          exact hsmall
  · cases hrun
    exact h.alone d

end small

namespace System

variable {S S' : System} {x : Side} {n f : Nat} {s : Sock}

/-- No packet and no queue is longer than a packet may be. -/
structure Bounded (S : System) : Prop where
  sock : ∀ x n s, (S.proc x).socks n = some s → s.Small
  sent : ∀ x, ∀ p ∈ (S.proc x).outgoing, p.data.length ≤ maxPayload

namespace Bounded

variable {P : Process} {a : After} {p : Packet} {rest : List Packet} {c : Calls}

theorem set (h : S.Bounded) (hsock : ∀ n s, P.socks n = some s → s.Small)
    (hsent : ∀ p ∈ P.outgoing, p.data.length ≤ maxPayload) : (S.set x P).Bounded := by
  constructor
  · intro z
    rcases eq_or_other x z with rfl | rfl
    · rwa [set_proc_self]
    · rw [set_proc_other]
      exact h.sock x.other
  · intro z
    rcases eq_or_other x z with rfl | rfl
    · rwa [set_proc_self]
    · rw [set_proc_other]
      exact h.sent x.other

theorem taken (h : S.Bounded) (hout : (S.proc x).outgoing = p :: rest) : (S.taken x rest).Bounded :=
  h.set (h.sock x) fun q hq => h.sent x q (by rw [hout]; exact List.mem_cons_of_mem p hq)

theorem sends (hP : ∀ p ∈ P.outgoing, p.data.length ≤ maxPayload) {ps : List Packet}
    (hps : ∀ p ∈ ps, p.data.length ≤ maxPayload) : ∀ p ∈ (P.send ps).outgoing, p.data.length ≤ maxPayload := by
  intro p hp
  rw [Process.send_outgoing] at hp
  rcases List.mem_append.mp hp with hp | hp
  · exact hP p hp
  · split at hp
    · exact hps p hp
    · cases hp

theorem puts (hP : ∀ n s, P.socks n = some s → s.Small) (ha : a.Small) (fd : Nat) :
    ∀ n s, (P.put fd a).socks n = some s → s.Small := by
  intro n s hs
  rw [Process.put_socks] at hs
  by_cases hn : n = fd
  · rw [hn, Function.update_self] at hs
    exact ha.sock s hs
  · rw [Function.update_of_ne hn] at hs
    exact hP n s hs

theorem installs (hP : ∀ n s, P.socks n = some s → s.Small) {new : Sock} (hnew : new.Small) :
    ∀ n s, (P.install new).socks n = some s → s.Small := by
  intro n s hs
  by_cases hn : n = P.count
  · rw [hn, Process.install_socks_self] at hs
    cases hs
    exact hnew
  · rw [Process.install_socks_of_ne P new hn] at hs
    exact hP n s hs

theorem disconnects (hP : ∀ n s, P.socks n = some s → s.Small) (note : Nat) :
    ∀ n s, (P.handleOffline note).socks n = some s → s.Small := by
  intro n s hs
  simp only [Process.handleOffline] at hs
  cases hold : P.socks n with
  | none => simp [hold] at hs
  | some old =>
      have hsmall := hP n old hold
      rw [hold] at hs
      simp only [remoteSocketDisconnect] at hs
      split at hs
      · rw [closeNull] at hs
        split at hs
        · exact (small_closeAlone (s := { old with peer := .null, notify := false }) hsmall _).sock s hs
        · exact (small_closeAlone (s := { old with peer := .null }) hsmall _).sock s hs
      · cases hs
        exact hsmall

end Bounded

variable {P : Process} {a : After} {p : Packet} {rest : List Packet} {c : Calls}

theorem bounded_start : start.Bounded := ⟨by simp [start, Process.fresh], by simp [start, Process.fresh]⟩

theorem Bounded.callback (h : S.Bounded) (ha : a.Small) : (S.set x ((S.proc x).put n a)).Bounded :=
  h.set (Bounded.puts (h.sock x) ha n) (Bounded.sends (h.sent x) ha.sent)

theorem length_connectPacket (host : Bool) : (Process.connectPacket host).data.length ≤ maxPayload := by
  cases host <;> decide

/-- What `handle_packet` leaves of a process. Each branch sends fixed packets, installs an empty
socket or lets one socket receive; the last is `small_receive`, whose empty queue the credit of the
stream provides. -/
theorem Bounded.handlePacket {host service : Bool} {P' : Process}
    (hsock : ∀ n s, P.socks n = some s → s.Small)
    (hsent : ∀ q ∈ P.outgoing, q.data.length ≤ maxPayload) (hp : p.data.length ≤ maxPayload)
    (hempty : ∀ n s, P.findLocalSocket p.arg1 = some (n, s) → p.command = .aWrte → s.queue = [])
    (hrun : P.handlePacket host p service c = some P') :
    (∀ n s, P'.socks n = some s → s.Small) ∧ ∀ q ∈ P'.outgoing, q.data.length ≤ maxPayload := by
  have hconnect : ∀ h : Bool, ∀ q ∈ [Process.connectPacket h], q.data.length ≤ maxPayload := by
    intro h q hq
    rw [List.mem_singleton.mp hq]
    exact length_connectPacket h
  rw [Process.handlePacket] at hrun
  split at hrun
  · split at hrun
    · cases hrun
      exact ⟨Bounded.disconnects hsock c.note, hsent⟩
    · cases hrun
      refine ⟨hsock, Bounded.sends (P := { P with pump := .up }) hsent ?_⟩
      cases host with
      | true => exact hconnect true
      | false => simp
  · cases hrun
    refine ⟨?_, Bounded.sends ?_ ?_⟩
    · cases P.online with
      | true => exact Bounded.disconnects hsock c.note
      | false => exact hsock
    · cases P.online <;> exact hsent
    · cases host with
      | true => simp
      | false => exact hconnect false
  · split at hrun
    · split at hrun
      · cases hrun
        refine ⟨Bounded.installs hsock (Nat.zero_le _),
          Bounded.sends (P := P.install (Process.serviceSock p.arg0)) hsent fun q hq => ?_⟩
        rw [List.mem_singleton.mp hq]
        exact Nat.zero_le _
      · cases hrun
        refine ⟨hsock, Bounded.sends hsent fun q hq => ?_⟩
        rw [List.mem_singleton.mp hq]
        exact Nat.zero_le _
    · cases hrun
      exact ⟨hsock, hsent⟩
  · split at hrun
    · split at hrun
      · next n s hfind =>
          obtain ⟨a, hreceive, rfl⟩ := Option.map_eq_some_iff.mp hrun
          have hs := (Process.findLocalSocket_eq_some hfind).2.1
          have ha := small_receive hreceive (hsock n s hs) hp (hempty n s hfind)
          exact ⟨Bounded.puts hsock ha n, Bounded.sends hsent ha.sent⟩
      · cases hrun
        exact ⟨hsock, hsent⟩
    · cases hrun
      exact ⟨hsock, hsent⟩

/-- With the credit in a `WRTE`, the socket it is for has nothing queued: the message at the head of
the line is one its end expects, and an end expects data only once what came before is written. -/
theorem Inv.queue_empty (h : S.Inv) (fits : S.Fits) (hout : (S.proc x).outgoing = p :: rest)
    (hw : p.command = .aWrte) (hfind : (S.proc x.other).findLocalSocket p.arg1 = some (n, s)) :
    s.queue = [] := by
  have haddr : p.addr = some p.arg1 := by simp [Packet.addr, hw]
  obtain ⟨hn, hs, hopen, hid⟩ := Process.findLocalSocket_eq_some hfind
  obtain ⟨other, greet, e, inbox, seat⟩ := h.seat fits hn
  have hshows := seat.shows
  rw [hs] at hshows
  rw [← hid, hshows.id_eq hopen] at haddr
  obtain ⟨m, inbox', rfl, rfl, -⟩ := seat.head hout haddr
  have hexpects := seat.expects m inbox' rfl
  cases m with
  | data y =>
      rcases hshows.live_of_open hopen with hp | hp
      · exact absurd rfl (hexpects.wait hp y)
      · rw [hshows.queue_eq, hexpects.back hp y rfl, pack_nil]
  | ask => cases hw
  | ack => cases hw
  | bye => cases hw

theorem Bounded.connects (h : S.Bounded) (x : Side) (notify : Bool) {destination : Bytes}
    (hlen : destination.length + 1 < maxPayload) :
    (∀ n s, ((S.proc x).connectToRemote notify destination).socks n = some s → s.Small) ∧
      ∀ q ∈ ((S.proc x).connectToRemote notify destination).outgoing, q.data.length ≤ maxPayload := by
  refine ⟨Bounded.installs (h.sock x) (Nat.zero_le _),
    Bounded.sends (P := (S.proc x).install _) (h.sent x) fun q hq => ?_⟩
  rw [List.mem_singleton.mp hq, List.length_append]
  exact hlen.le

theorem Bounded.step (h : S.Bounded) (inv : S.Inv) (fits : S.Fits) (hs : S.Step S') : S'.Bounded := by
  cases hs with
  | event x can run => exact h.callback (small_event run (h.sock x _ _ can.1))
  | @connect x notify destination hlen can =>
      obtain ⟨hsock, hsent⟩ := h.connects x notify hlen
      exact h.set hsock hsent
  | @withdraw x destination note P hlen can run =>
      rw [Process.connectAndClose_eq] at run
      obtain rfl := Option.some.inj run
      obtain ⟨hsock, hsent⟩ := h.connects x true hlen
      have ha : After.Small ⟨none, ⟨[], (failMsg (ascii "closed")).take note⟩, []⟩ := ⟨by simp, by simp⟩
      have hset := h.set (x := x) (Bounded.puts hsock ha (S.proc x).count) (Bounded.sends hsent ha.sent)
      exact ⟨hset.sock, hset.sent⟩
  | reap x can run => exact h.callback (small_closeLocked run (h.sock x _ _ can.2.1))
  | up x idle run =>
      obtain ⟨hsock, hsent⟩ := Bounded.handlePacket (h.sock x) (h.sent x) (Nat.zero_le _) (by simp) run
      exact h.set hsock hsent
  | down x up run =>
      obtain ⟨hsock, hsent⟩ := Bounded.handlePacket (h.sock x) (h.sent x) (Nat.zero_le _) (by simp) run
      exact h.set hsock hsent
  | @deliver x p rest service c P sent up run =>
      have hp := h.sent x p (by rw [sent]; exact List.mem_cons_self)
      obtain ⟨hsock, hsent⟩ := Bounded.handlePacket (h.sock x.other) (h.sent x.other) hp
        (fun n s hfind hw => inv.queue_empty fits sent hw hfind) run
      have hset : ((S.taken x rest).set x.other P).Bounded := (h.taken sent).set hsock hsent
      exact ⟨hset.sock, hset.sent⟩

theorem Reachable.bounded (h : S.Reachable) (fits : S.Fits) : S.Bounded := by
  induction h with
  | refl => exact bounded_start
  | tail hreach hstep ih =>
      have fits₀ := fun z => lt_of_le_of_lt (hstep.count_le z) (fits z)
      exact (ih fits₀).step (Reachable.inv hreach fits₀) fits₀ hstep

/-- **A socket queues one packet at most**, and no packet is longer than `MAX_PAYLOAD`. The
queue is the backlog of one end, and there the credit stays until it is written; a packet is
filled by one pass of `read` over a buffer of `MAX_PAYLOAD` bytes. -/
theorem queue_bounded (h : S.Reachable) (fits : S.Fits) :
    (∀ x n s, (S.proc x).socks n = some s → s.queue.length ≤ 1 ∧ s.queue.flatten.length ≤ maxPayload) ∧
      ∀ x, ∀ p ∈ (S.proc x).outgoing, p.data.length ≤ maxPayload := by
  have inv := h.inv fits
  have hb := h.bounded fits
  refine ⟨fun x n s hs => ⟨?_, hb.sock x n s hs⟩, hb.sent⟩
  obtain ⟨other, greet, e, inbox, seat⟩ := inv.seat fits (inv.shape.installed hs)
  have hshows := seat.shows
  rw [hs] at hshows
  rw [hshows.queue_eq, length_pack]
  split <;> simp

theorem queue_bounded_stalled : ((acts stalled).proc .device).socks 0 =
      some ⟨0, true, .freed, [[104, 105]], false, true, false, false⟩ ∧
    [([104, 105] : Bytes)].length ≤ 1 ∧ [([104, 105] : Bytes)].flatten.length ≤ maxPayload := by
  have hs : ((acts stalled).proc .device).socks 0 =
      some ⟨0, true, .freed, [[104, 105]], false, true, false, false⟩ := by decide
  exact ⟨hs, (queue_bounded (reachable_acts stalled) (by decide)).1 .device 0 _ hs⟩

/-- **The wire carries what is under way.** However much of it has arrived, the reader at the
other end gets the packets themselves, in order, up to the first that is incomplete. Every
packet is small enough for the reader (`Bounded.sent`) and carries the checksum and magic it
checks, so the reading of frames (`Codec.readAll_take`) applies. -/
theorem delivered_whole (h : S.Reachable) (fits : S.Fits) (x : Side) (n : Nat) :
    outputThread (((S.proc x).outgoing.flatMap fun p => remoteWrite (sendPacket p)).take n) =
      wire.whole n ((S.proc x).outgoing.map sendPacket) := by
  have hflat : ((S.proc x).outgoing.flatMap fun p => remoteWrite (sendPacket p)) =
      ((S.proc x).outgoing.map sendPacket).flatMap wire.encode := by
    rw [List.flatMap_map]
    rfl
  rw [hflat, outputThread]
  refine Codec.readAll_take wire_exact wire_waits ?_ n
  intro q hq
  obtain ⟨p, hp, rfl⟩ := List.mem_map.mp hq
  exact sound_sendPacket ((h.bounded fits).sent x p hp)

theorem delivered_whole_parting :
    outputThread ((((acts parting).proc .host).outgoing.flatMap fun p => remoteWrite (sendPacket p)).take 30) =
      wire.whole 30 (((acts parting).proc .host).outgoing.map sendPacket) :=
  delivered_whole (reachable_acts parting) (by decide) .host 30

end System

end BlogStuff.Adb
