import BlogStuff.Adb.Socket

/-!
# BlogStuff.Adb.Process

A process of adb, host or device, with one transport (`adb.c`, `sockets.c` and `transport.c`),
and two of them connected by it.

The event loop is single-threaded, so a process is a state and each callback one step of it.
Local sockets are kept by their descriptor, numbered in the order of creation: a number the
kernel uses again stands for a new descriptor. What `send_packet` queues is on its way to the
other process (see `fromRemote_inputThread`); it is handled there one packet at a time.

The sockets of the model are those that get connected to the other process: the socket of a
client from the moment its request has been read, that of a connection to a forwarded port,
and the socket of a service that has a descriptor. A client and its `host:` service are two
local sockets joined to each other, the `jdwp` services have no descriptor, and the services
that track devices or processes send without waiting for `ready`; these are left out.

`System.Step` is any interleaving of what the two processes do. A handler that follows a bad
pointer has no result and no step; `System.Faults` says that this can happen next.
-/

namespace BlogStuff.Adb

open BlogStuff.Wire

/-! ### One process -/

/-- The threads of the transport: not up yet, passing packets on, or ended. -/
inductive Pump
  | idle
  | up
  | down
  deriving DecidableEq, Repr

structure Process where
  pump : Pump
  /-- `connection_state` is not `CS_OFFLINE`. -/
  online : Bool
  /-- The number of local sockets installed so far. -/
  count : Nat
  socks : Nat → Option Sock
  descr : Nat → Descr
  /-- Sent, and not handled by the other process yet. -/
  outgoing : List Packet

/-- The id `install_local_socket` gives to the socket it installs after `n` others:
`local_socket_next_id` starts at 1 and wraps. -/
def idOf (n : Nat) : UInt32 := UInt32.ofNat (n + 1)

namespace Process

/-- A process with a transport that is not up yet. -/
def fresh : Process := ⟨.idle, false, 0, fun _ => none, fun _ => ⟨[], []⟩, []⟩

/-- `send_packet`: `input_thread` drops what comes before its transport is up, and stops when
it is down. -/
def send (P : Process) (ps : List Packet) : Process :=
  { P with outgoing := P.outgoing ++ if P.pump = .up then ps else [] }

/-- The process after a callback of the socket of a descriptor. -/
def put (P : Process) (fd : Nat) (a : After) : Process :=
  send { P with
    socks := Function.update P.socks fd a.sock
    descr := Function.update P.descr fd a.descr } a.sent

@[simp] theorem send_pump (P : Process) (ps : List Packet) : (P.send ps).pump = P.pump := rfl
@[simp] theorem send_online (P : Process) (ps : List Packet) : (P.send ps).online = P.online := rfl
@[simp] theorem send_count (P : Process) (ps : List Packet) : (P.send ps).count = P.count := rfl
@[simp] theorem send_socks (P : Process) (ps : List Packet) : (P.send ps).socks = P.socks := rfl
@[simp] theorem send_descr (P : Process) (ps : List Packet) : (P.send ps).descr = P.descr := rfl

theorem send_outgoing (P : Process) (ps : List Packet) :
    (P.send ps).outgoing = P.outgoing ++ if P.pump = .up then ps else [] := rfl

@[simp] theorem put_count (P : Process) (fd : Nat) (a : After) : (P.put fd a).count = P.count := rfl

@[simp] theorem put_socks (P : Process) (fd : Nat) (a : After) :
    (P.put fd a).socks = Function.update P.socks fd a.sock := rfl

@[simp] theorem put_descr (P : Process) (fd : Nat) (a : After) :
    (P.put fd a).descr = Function.update P.descr fd a.descr := rfl

theorem put_same (P : Process) (fd : Nat) : P.put fd ⟨P.socks fd, P.descr fd, []⟩ = P := by
  simp [put, send]

/-- `find_local_socket(id)`, with the descriptor of the socket. -/
def findLocalSocket (P : Process) (id : UInt32) : Option (Nat × Sock) :=
  (List.range P.count).findSome? fun fd =>
    (P.socks fd).bind fun s => if s.closing = false ∧ s.id = id then some (fd, s) else none

theorem findLocalSocket_eq_some {P : Process} {id : UInt32} {fd : Nat} {s : Sock}
    (h : P.findLocalSocket id = some (fd, s)) :
    fd < P.count ∧ P.socks fd = some s ∧ s.closing = false ∧ s.id = id := by
  obtain ⟨fd', hfd, hbind⟩ := List.exists_of_findSome?_eq_some h
  obtain ⟨s', hs, hif⟩ := Option.bind_eq_some_iff.mp hbind
  split at hif
  · next hopen =>
      cases hif
      exact ⟨List.mem_range.mp hfd, hs, hopen⟩
  · cases hif

theorem findLocalSocket_eq_none {P : Process} {id : UInt32} (h : P.findLocalSocket id = none) {fd : Nat}
    (hfd : fd < P.count) {s : Sock} (hs : P.socks fd = some s) (hid : s.id = id) : s.closing = true := by
  have hnone := List.findSome?_eq_none_iff.mp h fd (List.mem_range.mpr hfd)
  simpa [hs, hid] using hnone

/-- `create_local_socket(fd)` with what the callers set right after it. -/
def install (P : Process) (s : Sock) : Process :=
  { P with
    count := P.count + 1
    socks := Function.update P.socks P.count (some { s with id := idOf P.count })
    descr := Function.update P.descr P.count ⟨[], []⟩ }

@[simp] theorem install_pump (P : Process) (s : Sock) : (P.install s).pump = P.pump := rfl
@[simp] theorem install_online (P : Process) (s : Sock) : (P.install s).online = P.online := rfl
@[simp] theorem install_count (P : Process) (s : Sock) : (P.install s).count = P.count + 1 := rfl
@[simp] theorem install_outgoing (P : Process) (s : Sock) : (P.install s).outgoing = P.outgoing := rfl

theorem install_socks_self (P : Process) (s : Sock) :
    (P.install s).socks P.count = some { s with id := idOf P.count } := Function.update_self ..

theorem install_descr_self (P : Process) (s : Sock) : (P.install s).descr P.count = ⟨[], []⟩ :=
  Function.update_self ..

theorem install_socks_of_ne (P : Process) (s : Sock) {fd : Nat} (h : fd ≠ P.count) :
    (P.install s).socks fd = P.socks fd := Function.update_of_ne h ..

theorem install_descr_of_ne (P : Process) (s : Sock) {fd : Nat} (h : fd ≠ P.count) :
    (P.install s).descr fd = P.descr fd := Function.update_of_ne h ..

/-- `handle_offline(t)`: the remote asockets of the transport are disconnected, which closes their
local peers. No packet is sent for it: the transport is gone. -/
def handleOffline (P : Process) (note : Nat) : Process :=
  let after (fd : Nat) : After :=
    match P.socks fd with
    | some s => remoteSocketDisconnect s (P.descr fd) note
    | none => ⟨none, P.descr fd, []⟩
  { P with
    online := false
    socks := fun fd => (after fd).sock
    descr := fun fd => (after fd).descr }

/-- `send_connect(t)`. -/
def connectPacket (host : Bool) : Packet :=
  ⟨.aCnxn, 0x01000000, 4096, ascii (if host then "host::" else "device::") ++ [0]⟩

/-- A socket that waits for an answer, before it has an id. -/
def openingSock (notify : Bool) : Sock := ⟨0, false, .null, [], false, false, notify, true⟩

/-- A service socket connected to the socket that asked for it, ready to read. -/
def serviceSock (asker : UInt32) : Sock := ⟨0, false, .remote asker, [], true, false, false, false⟩

/-- `connect_to_remote(s, destination)` with a new local socket: for a connection to a
forwarded port, or for a client that asked for a service, who is notified. -/
def connectToRemote (P : Process) (notify : Bool) (destination : Bytes) : Process :=
  (P.install (openingSock notify)).send [⟨.aOpen, idOf P.count, 0, destination ++ [0]⟩]

/-- `local_socket_event_func` reads a client's request and the end of its stream at once:
`smart_socket_enqueue` has it connected, and the socket is closed right after. -/
def connectAndClose (P : Process) (destination : Bytes) (note : Nat) : Option Process :=
  let Q := P.connectToRemote true destination
  (Q.socks P.count).bind fun s => (s.close (Q.descr P.count) note).map (Q.put P.count)

/-- The client is told of a failure, the process at the other end of nothing. -/
theorem connectAndClose_eq (P : Process) (destination : Bytes) (note : Nat) :
    P.connectAndClose destination note = some ((P.connectToRemote true destination).put P.count
      ⟨none, ⟨[], (failMsg (ascii "closed")).take note⟩, []⟩) := by
  have hsock : (P.connectToRemote true destination).socks P.count =
      some ⟨idOf P.count, false, .null, [], false, false, true, true⟩ := install_socks_self P _
  have hdescr : (P.connectToRemote true destination).descr P.count = ⟨[], []⟩ :=
    install_descr_self P (openingSock true)
  simp [connectAndClose, hsock, hdescr, Sock.close, localSocketCloseLocked, closeAlone, Descr.give]

/-- `handle_packet(p, t)`. `service` says whether the destination of an `OPEN` can be
opened. -/
def handlePacket (host : Bool) (P : Process) (p : Packet) (service : Bool) (c : Calls) :
    Option Process :=
  match p.command with
  | .aSync =>
      if p.arg0 = 0 then some { P.handleOffline c.note with pump := .down }
      else some (send { P with pump := .up } (if host then [connectPacket true] else []))
  | .aCnxn =>
      let P := if P.online then P.handleOffline c.note else P
      some (send { P with online := true } (if host then [] else [connectPacket false]))
  | .aOpen =>
      if P.online then
        if service then
          some ((P.install (serviceSock p.arg0)).send [okayPacket (idOf P.count) p.arg0])
        else some (P.send [clsePacket p.arg0])
      else some P
  | _ =>
      if P.online then
        match P.findLocalSocket p.arg1 with
        | some (fd, s) => (s.receive (P.descr fd) p c).map (P.put fd)
        | none => some P
      else some P

/-- The event loop can call the socket of a descriptor with these events: they are asked for,
or a read was pending when the socket began to close (`fdevent_set` leaves it pending). -/
def CanEvent (P : Process) (fd : Nat) (ev : Events) (s : Sock) : Prop :=
  P.socks fd = some s ∧ (ev.read = true → s.wantRead = true ∨ s.closing = true) ∧
    (ev.write = true → s.wantWrite = true)

/-- A connection can be asked for: by a client of an online transport, or by a forwarded port
of the host as long as the transport is not down. -/
def CanConnect (host : Bool) (P : Process) (notify : Bool) : Prop :=
  P.pump ≠ .down ∧ if notify then P.online = true else host = true

/-- `close_all_sockets` of `input_thread`, as it ends, finds the socket of a descriptor. -/
def CanReap (P : Process) (fd : Nat) (s : Sock) : Prop :=
  P.pump = .down ∧ P.socks fd = some s ∧ s.closing = false ∧
    (s.bound = true ∨ s.peer.isRemote = true)

end Process

/-! ### Two processes -/

inductive Side
  | host
  | device
  deriving DecidableEq, Repr

def Side.other : Side → Side
  | .host => .device
  | .device => .host

@[simp] theorem Side.other_other (x : Side) : x.other.other = x := by cases x <;> rfl

@[simp] theorem Side.other_ne (x : Side) : x.other ≠ x := by cases x <;> simp [Side.other]

@[simp] theorem Side.ne_other (x : Side) : x ≠ x.other := by cases x <;> simp [Side.other]

def Side.isHost : Side → Bool
  | .host => true
  | .device => false

/-- The descriptor of a socket that asked, and the one of the socket that was opened for it on
the other side. -/
structure Link where
  opener : Side
  near : Nat
  far : Nat
  deriving DecidableEq, Repr

structure System where
  proc : Side → Process
  /-- The connections opened so far. No process looks at this. -/
  links : List Link
  /-- The clients that had hung up when their request was sent. No process looks at this. -/
  withdrawn : List (Side × Nat)

namespace System

def start : System := ⟨fun _ => .fresh, [], []⟩

def set (S : System) (x : Side) (P : Process) : System := { S with proc := Function.update S.proc x P }

/-- The first packet from `x` is no longer on its way. -/
def taken (S : System) (x : Side) (rest : List Packet) : System :=
  S.set x { S.proc x with outgoing := rest }

/-- The link that an `OPEN` from `x` makes, if it does. -/
def newLinks (S : System) (x : Side) (p : Packet) (service : Bool) : List Link :=
  if p.command = .aOpen ∧ service = true ∧ (S.proc x.other).online = true then
    [⟨x, p.arg0.toNat - 1, (S.proc x.other).count⟩]
  else []

/-- The first packet from `x` has been handled, with these connections opened for it. -/
def handled (S : System) (x : Side) (rest : List Packet) (P : Process) (links : List Link) : System :=
  ⟨((S.taken x rest).set x.other P).proc, links ++ S.links, S.withdrawn⟩

/-- A client of `x` has hung up with its request. -/
def hungUp (S : System) (x : Side) (P : Process) : System :=
  ⟨(S.set x P).proc, S.links, (x, (S.proc x).count) :: S.withdrawn⟩

/-- One callback of one of the two processes. The callbacks of a process run one after the other,
those of the two in any order; what the system calls return is up to the step. -/
inductive Step : System → System → Prop
  | event {S : System} (x : Side) {fd : Nat} {ev : Events} {s : Sock} {c : Calls} {a : After}
      (can : (S.proc x).CanEvent fd ev s)
      (run : localSocketEventFunc ev s ((S.proc x).descr fd) c = some a) :
      Step S (S.set x ((S.proc x).put fd a))
  /-- A longer destination is fatal. -/
  | connect {S : System} (x : Side) {notify : Bool} (destination : Bytes)
      (fits : destination.length + 1 < maxPayload) (can : (S.proc x).CanConnect x.isHost notify) :
      Step S (S.set x ((S.proc x).connectToRemote notify destination))
  | withdraw {S : System} (x : Side) (destination : Bytes) {note : Nat} {P : Process}
      (fits : destination.length + 1 < maxPayload) (can : (S.proc x).CanConnect x.isHost true)
      (run : (S.proc x).connectAndClose destination note = some P) : Step S (S.hungUp x P)
  | reap {S : System} (x : Side) {fd : Nat} {s : Sock} {a : After} (can : (S.proc x).CanReap fd s)
      (run : localSocketCloseLocked s ((S.proc x).descr fd) = some a) :
      Step S (S.set x ((S.proc x).put fd a))
  /-- `output_thread` announces that the transport is there. -/
  | up {S : System} (x : Side) {token : UInt32} {c : Calls} {P : Process}
      (idle : (S.proc x).pump = .idle)
      (run : (S.proc x).handlePacket x.isHost ⟨.aSync, 1, token, []⟩ false c = some P) :
      Step S (S.set x P)
  /-- `output_thread` has met an error or the end of the transport. -/
  | down {S : System} (x : Side) {c : Calls} {P : Process} (up : (S.proc x).pump = .up)
      (run : (S.proc x).handlePacket x.isHost ⟨.aSync, 0, 0, []⟩ false c = some P) :
      Step S (S.set x P)
  /-- A packet of `x` arrives. -/
  | deliver {S : System} (x : Side) {p : Packet} {rest : List Packet} {service : Bool} {c : Calls}
      {P : Process} (sent : (S.proc x).outgoing = p :: rest) (up : (S.proc x.other).pump = .up)
      (run : (S.proc x.other).handlePacket x.other.isHost p service c = some P) :
      Step S (S.handled x rest P (S.newLinks x p service))

/-- What may happen next, with the results of the system calls: an action determines the step, so a
run is a list of actions. -/
inductive Action
  | event (x : Side) (fd : Nat) (ev : Events) (c : Calls)
  | connect (x : Side) (notify : Bool) (destination : Bytes)
  | withdraw (x : Side) (destination : Bytes) (note : Nat)
  | reap (x : Side) (fd : Nat)
  | up (x : Side)
  | down (x : Side)
  | deliver (x : Side) (service : Bool) (c : Calls)
  deriving DecidableEq, Repr

instance (P : Process) (fd : Nat) (ev : Events) (s : Sock) : Decidable (P.CanEvent fd ev s) :=
  inferInstanceAs (Decidable (_ ∧ _ ∧ _))

instance (host : Bool) (P : Process) (notify : Bool) : Decidable (P.CanConnect host notify) :=
  inferInstanceAs (Decidable (_ ∧ _))

instance (P : Process) (fd : Nat) (s : Sock) : Decidable (P.CanReap fd s) :=
  inferInstanceAs (Decidable (_ ∧ _ ∧ _ ∧ _))

/-- The step for an action, if it is possible and goes well. It is computed by the functions that
`Step` names, so that runs can be evaluated. -/
def act (S : System) : Action → Option System
  | .event x fd ev c => do
      let s ← (S.proc x).socks fd
      if (S.proc x).CanEvent fd ev s then
        let a ← localSocketEventFunc ev s ((S.proc x).descr fd) c
        return S.set x ((S.proc x).put fd a)
      else none
  | .connect x notify destination =>
      if destination.length + 1 < maxPayload ∧ (S.proc x).CanConnect x.isHost notify then
        some (S.set x ((S.proc x).connectToRemote notify destination))
      else none
  | .withdraw x destination note =>
      if destination.length + 1 < maxPayload ∧ (S.proc x).CanConnect x.isHost true then
        ((S.proc x).connectAndClose destination note).map (S.hungUp x)
      else none
  | .reap x fd => do
      let s ← (S.proc x).socks fd
      if (S.proc x).CanReap fd s then
        let a ← localSocketCloseLocked s ((S.proc x).descr fd)
        return S.set x ((S.proc x).put fd a)
      else none
  | .up x =>
      if (S.proc x).pump = .idle then
        ((S.proc x).handlePacket x.isHost ⟨.aSync, 1, 1, []⟩ false ⟨[], [], 0⟩).map (S.set x)
      else none
  | .down x =>
      if (S.proc x).pump = .up then
        ((S.proc x).handlePacket x.isHost ⟨.aSync, 0, 0, []⟩ false ⟨[], [], 0⟩).map (S.set x)
      else none
  | .deliver x service c =>
      match (S.proc x).outgoing with
      | [] => none
      | p :: rest =>
          if (S.proc x.other).pump = .up then
            ((S.proc x.other).handlePacket x.other.isHost p service c).map fun P =>
              S.handled x rest P (S.newLinks x p service)
          else none

/-- One of the callbacks that can come next follows a bad pointer: the function for it has no
outcome. -/
inductive Faults (S : System) : Prop
  | event (x : Side) {fd : Nat} {ev : Events} {s : Sock} {c : Calls}
      (can : (S.proc x).CanEvent fd ev s)
      (run : localSocketEventFunc ev s ((S.proc x).descr fd) c = none)
  | withdraw (x : Side) {destination : Bytes} {note : Nat} (can : (S.proc x).CanConnect x.isHost true)
      (run : (S.proc x).connectAndClose destination note = none)
  | reap (x : Side) {fd : Nat} {s : Sock} (can : (S.proc x).CanReap fd s)
      (run : localSocketCloseLocked s ((S.proc x).descr fd) = none)
  | deliver (x : Side) {p : Packet} {rest : List Packet} {service : Bool} {c : Calls}
      (sent : (S.proc x).outgoing = p :: rest) (up : (S.proc x.other).pump = .up)
      (run : (S.proc x.other).handlePacket x.other.isHost p service c = none)

/-- The states two processes can come to. -/
def Reachable (S : System) : Prop := Relation.ReflTransGen Step start S

theorem act_step {S S' : System} {action : Action} (h : S.act action = some S') : S.Step S' := by
  cases action with
  | event x fd ev c =>
      obtain ⟨s, -, h⟩ := Option.bind_eq_some_iff.mp h
      split at h
      · next can =>
          obtain ⟨a, run, h⟩ := Option.bind_eq_some_iff.mp h
          cases h
          exact .event x can run
      · cases h
  | connect x notify destination =>
      rw [act] at h
      split at h
      · next can =>
          cases h
          exact .connect x destination can.1 can.2
      · cases h
  | withdraw x destination note =>
      rw [act] at h
      split at h
      · next can =>
          obtain ⟨P, run, rfl⟩ := Option.map_eq_some_iff.mp h
          exact .withdraw x destination can.1 can.2 run
      · cases h
  | reap x fd =>
      obtain ⟨s, -, h⟩ := Option.bind_eq_some_iff.mp h
      split at h
      · next can =>
          obtain ⟨a, run, h⟩ := Option.bind_eq_some_iff.mp h
          cases h
          exact .reap x can run
      · cases h
  | up x =>
      rw [act] at h
      split at h
      · next idle =>
          obtain ⟨P, run, rfl⟩ := Option.map_eq_some_iff.mp h
          exact .up x idle run
      · cases h
  | down x =>
      rw [act] at h
      split at h
      · next up =>
          obtain ⟨P, run, rfl⟩ := Option.map_eq_some_iff.mp h
          exact .down x up run
      · cases h
  | deliver x service c =>
      rw [act] at h
      split at h
      · cases h
      · next p rest sent =>
          split at h
          · next up =>
              obtain ⟨P, run, rfl⟩ := Option.map_eq_some_iff.mp h
              exact .deliver x sent up run
          · cases h

/-- The state after some actions; those that are not possible do nothing. -/
def acts (actions : List Action) : System := actions.foldl (fun S action => (S.act action).getD S) start

theorem reachable_acts (actions : List Action) : (acts actions).Reachable := by
  induction actions using List.reverseRecOn with
  | nil => exact .refl
  | append_singleton actions action ih =>
      have hacts : acts (actions ++ [action]) = ((acts actions).act action).getD (acts actions) := by
        simp [acts]
      rw [hacts]
      cases h : (acts actions).act action with
      | none => exact ih
      | some S' => exact ih.tail (act_step h)

/-- Fewer sockets have been created than there are ids. -/
def Fits (S : System) : Prop := ∀ x, (S.proc x).count < 2 ^ 32

instance (S : System) : Decidable S.Fits :=
  decidable_of_iff ((S.proc .host).count < 2 ^ 32 ∧ (S.proc .device).count < 2 ^ 32)
    ⟨fun h x => by cases x; exacts [h.1, h.2], fun h => ⟨h .host, h .device⟩⟩

end System

end BlogStuff.Adb
