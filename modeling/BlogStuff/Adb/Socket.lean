import BlogStuff.Adb.Transport

/-!
# BlogStuff.Adb.Socket

Local sockets (`sockets.c`): what happens to one local asocket and its file descriptor when
the event loop or the far side calls it.

The kernel is outside the model: each handler is given the results of the calls of `adb_read`
and `adb_write` it makes, in order, and where they run out the descriptor would block. What
went in and out of a descriptor is kept in `Descr`, also after its socket is gone.

A local socket points to the remote asocket it is connected to. `local_socket_close_locked`
frees that one and, if it keeps the local socket for its backlog, leaves the pointer behind;
`Peer.freed` is that pointer, and a handler that follows it, or a null pointer, has no result.
Peers that are local themselves are not modelled (see `BlogStuff.Adb.Process`).
-/

namespace BlogStuff.Adb

open BlogStuff.Wire

/-! ### Descriptors -/

/-- One call of `adb_write`: so many bytes, or `EAGAIN`, `EINTR`, another error. -/
inductive WriteResult
  | count (n : Nat)
  | again
  | intr
  | fail
  deriving DecidableEq, Repr

/-- One call of `adb_read`; no data is the end of the file. -/
inductive ReadResult
  | data (bytes : Bytes)
  | again
  | intr
  | fail
  deriving DecidableEq, Repr

/-- How a loop of writes ends. -/
inductive Ended
  | done
  | blocked
  | failed
  deriving DecidableEq, Repr

structure Written where
  out : Bytes
  left : Bytes
  ended : Ended
  /-- The calls not made yet. -/
  calls : List WriteResult

/-- The loop that writes a packet. `local_socket_enqueue` takes an interrupted call for an
error, `local_socket_event_func` repeats it. -/
def writeLoop (intrFails : Bool) : List WriteResult → Bytes → Written
  | calls, [] => ⟨[], [], .done, calls⟩
  | [], p => ⟨[], p, .blocked, []⟩
  | .count n :: calls, p =>
      if n = 0 then ⟨[], p, .failed, calls⟩
      else
        let w := writeLoop intrFails calls (p.drop n)
        { w with out := p.take n ++ w.out }
  | .again :: calls, p => ⟨[], p, .blocked, calls⟩
  | .intr :: calls, p =>
      if intrFails then ⟨[], p, .failed, calls⟩ else writeLoop intrFails calls p
  | .fail :: calls, p => ⟨[], p, .failed, calls⟩

structure Drained where
  out : Bytes
  queue : List Bytes
  ended : Ended

/-- The loop of `local_socket_event_func` over the queued packets. It goes on to the next packet
when one has been written whole, and stops in front of one that has not. -/
def drainLoop : List WriteResult → List Bytes → Drained
  | _, [] => ⟨[], [], .done⟩
  | calls, p :: queue =>
      let w := writeLoop false calls p
      match w.ended with
      | .done =>
          let d := drainLoop w.calls queue
          { d with out := w.out ++ d.out }
      | ended => ⟨w.out, w.left :: queue, ended⟩

/-- The loop that fills a packet with up to `avail` bytes, and whether it met the end of the
file or an error. -/
def readLoop : List ReadResult → Nat → Bytes × Bool
  | _, 0 => ([], false)
  | [], _ => ([], false)
  | .data bytes :: calls, avail =>
      if bytes = [] then ([], true)
      else
        let x := bytes.take avail
        let (y, eof) := readLoop calls (avail - x.length)
        (x ++ y, eof)
  | .again :: _, _ => ([], false)
  | .intr :: calls, avail => readLoop calls avail
  | .fail :: _, _ => ([], true)

/-- What has been read from a descriptor and written to it. -/
structure Descr where
  taken : Bytes
  given : Bytes
  deriving DecidableEq, Repr

def Descr.take (d : Descr) (x : Bytes) : Descr := { d with taken := d.taken ++ x }

def Descr.give (d : Descr) (x : Bytes) : Descr := { d with given := d.given ++ x }

/-- The results of the system calls of one handler, and how many bytes of a status message
go out. -/
structure Calls where
  writes : List WriteResult
  reads : List ReadResult
  note : Nat
  deriving DecidableEq, Repr

/-! ### Sockets -/

/-- The remote asocket of a local one, by the id it has on the far side. -/
inductive Peer
  | null
  | remote (id : UInt32)
  | freed
  deriving DecidableEq, Repr

def Peer.isRemote : Peer → Bool
  | .remote _ => true
  | _ => false

/-- `struct asocket` of a local socket. -/
structure Sock where
  /-- Zero once the socket has left `local_socket_list`. -/
  id : UInt32
  closing : Bool
  peer : Peer
  /-- What is left of the packets `pkt_first` to `pkt_last`. -/
  queue : List Bytes
  /-- The events of `fde` that are asked for. -/
  wantRead : Bool
  wantWrite : Bool
  /-- `ready` and `close` are `local_socket_ready_notify` and `local_socket_close_notify`. -/
  notify : Bool
  /-- `transport` is set. -/
  bound : Bool
  deriving DecidableEq, Repr

/-- A handler's result: the socket, unless it is destroyed, and the packets sent. -/
structure After where
  sock : Option Sock
  descr : Descr
  sent : List Packet
  deriving DecidableEq, Repr

/-- The same with a packet sent before. -/
def After.behind (p : Packet) (a : After) : After := { a with sent := p :: a.sent }

/-! ### Packets -/

/-- `send_ready(local, remote, t)`, and what `remote_socket_ready` sends. -/
def okayPacket (near far : UInt32) : Packet := ⟨.aOkay, near, far, []⟩

/-- `send_close(0, remote, t)`, and what `remote_socket_close` sends: its peer is gone. -/
def clsePacket (far : UInt32) : Packet := ⟨.aClse, 0, far, []⟩

/-- What `remote_socket_enqueue` sends. -/
def wrtePacket (near far : UInt32) (x : Bytes) : Packet := ⟨.aWrte, near, far, x⟩

/-- The bytes of a string constant. -/
def ascii (s : String) : Bytes := s.toList.map fun c => UInt8.ofNat c.toNat

/-- A lower-case hexadecimal digit. -/
def hexDigit (n : Nat) : UInt8 := UInt8.ofNat (if n < 10 then '0'.toNat + n else 'a'.toNat + (n - 10))

/-- `%04x` of a number below `0x10000`. -/
def hex4 (n : Nat) : Bytes :=
  [hexDigit (n / 4096 % 16), hexDigit (n / 256 % 16), hexDigit (n / 16 % 16), hexDigit (n % 16)]

/-- What `sendfailmsg(fd, reason)` writes. -/
def failMsg (reason : Bytes) : Bytes :=
  let len := min reason.length 0xffff
  ascii "FAIL" ++ hex4 len ++ reason.take len

/-! ### Closing -/

/-- `local_socket_close_locked(s)` once there is no peer to close. -/
def closeAlone (s : Sock) (d : Descr) : After :=
  if s.closing || s.queue.isEmpty then ⟨none, d, []⟩
  else ⟨some { s with closing := true, wantRead := false, id := 0 }, d, []⟩

/-- `local_socket_close_locked(s)`. The remote asocket sends the close and is freed; the
local socket, if it stays, still points to it. -/
def localSocketCloseLocked (s : Sock) (d : Descr) : Option After :=
  match s.peer with
  | .null => some (closeAlone s d)
  | .remote r => some ((closeAlone { s with peer := .freed } d).behind (clsePacket r))
  | .freed => none

/-- `s->close(s)`. -/
def Sock.close (s : Sock) (d : Descr) (note : Nat) : Option After :=
  if s.notify then
    localSocketCloseLocked { s with notify := false } (d.give ((failMsg (ascii "closed")).take note))
  else localSocketCloseLocked s d

/-- `s->close(s)` of a socket without a peer. -/
def closeNull (s : Sock) (d : Descr) (note : Nat) : After :=
  if s.notify then
    closeAlone { s with notify := false } (d.give ((failMsg (ascii "closed")).take note))
  else closeAlone s d

/-- `remote_socket_disconnect` on the remote asocket of a local socket: it takes back the
pointer, closes the local socket and frees itself. -/
def remoteSocketDisconnect (s : Sock) (d : Descr) (note : Nat) : After :=
  match s.peer with
  | .remote _ => closeNull { s with peer := .null } d note
  | _ => ⟨some s, d, []⟩

/-! ### The callbacks of a peer -/

/-- `s->ready(s)`. -/
def Sock.ready (s : Sock) (d : Descr) (note : Nat) : After :=
  if s.notify then
    ⟨some { s with notify := false, wantRead := true }, d.give ((ascii "OKAY").take note), []⟩
  else ⟨some { s with wantRead := true }, d, []⟩

/-- `local_socket_enqueue(s, p)`, and whether it returns 0. With packets in the queue nothing is
written; otherwise what the descriptor does not take is queued. -/
def localSocketEnqueue (s : Sock) (d : Descr) (p : Bytes) (c : Calls) : Option (After × Bool) :=
  if s.queue = [] then
    let w := writeLoop true c.writes p
    let d := d.give w.out
    match w.ended with
    | .failed => (s.close d c.note).map (·, false)
    | .done => some (⟨some s, d, []⟩, true)
    | .blocked => some (⟨some { s with queue := [w.left], wantWrite := true }, d, []⟩, false)
  else some (⟨some { s with queue := s.queue ++ [p], wantWrite := true }, d, []⟩, false)

/-- What `handle_packet` does with the local socket a packet is for. The first `OKAY` gives the
socket its peer; data is answered with an `OKAY` only if it was written whole. -/
def Sock.receive (s : Sock) (d : Descr) (p : Packet) (c : Calls) : Option After :=
  match p.command with
  | .aOkay =>
      some (Sock.ready { s with peer := if s.peer = .null then .remote p.arg0 else s.peer } d c.note)
  | .aClse => s.close d c.note
  | .aWrte => do
      let (a, more) ← localSocketEnqueue s d p.data c
      return if more then a.behind (okayPacket s.id p.arg0) else a
  | _ => some ⟨some s, d, []⟩

/-! ### Events -/

/-- The events of a descriptor. -/
structure Events where
  read : Bool
  write : Bool
  deriving DecidableEq, Repr

/-- Closing at the end of the file. -/
def closeIf (eof : Bool) (s : Sock) (d : Descr) (note : Nat) : Option After :=
  if eof then s.close d note else some ⟨some s, d, []⟩

/-- The `FDE_READ` part of `local_socket_event_func`. What was read is sent in one packet, before a
socket at the end of its input is closed. -/
def readEvent (s : Sock) (d : Descr) (c : Calls) : Option After :=
  let (x, eof) := readLoop c.reads maxPayload
  let d := d.take x
  if x = [] ∨ s.peer = .null then closeIf eof s d c.note
  else
    match s.peer with
    | .remote r =>
        -- `remote_socket_enqueue` returns 1, so reading waits for the far side.
        (closeIf eof { s with wantRead := false } d c.note).map (·.behind (wrtePacket s.id r x))
    | _ => none

/-- What `local_socket_event_func` does once it is past `FDE_WRITE`. -/
def readIf (read : Bool) (s : Sock) (d : Descr) (c : Calls) : Option After :=
  if read then readEvent s d c else some ⟨some s, d, []⟩

/-- `local_socket_event_func(fd, ev, s)`. The queue is written first; a closing socket is closed
when it is empty, and any other one then says that it is ready again. -/
def localSocketEventFunc (ev : Events) (s : Sock) (d : Descr) (c : Calls) : Option After :=
  if ev.write then
    let w := drainLoop c.writes s.queue
    let s := { s with queue := w.queue }
    let d := d.give w.out
    match w.ended with
    | .blocked => some ⟨some s, d, []⟩
    | .failed => s.close d c.note
    | .done =>
        if s.closing then s.close d c.note
        else
          match s.peer with
          | .remote r =>
              (readIf ev.read { s with wantWrite := false } d c).map (·.behind (okayPacket s.id r))
          | _ => none
  else readIf ev.read s d c

/-! ### The loops -/

theorem writeLoop_nil (intrFails : Bool) (calls : List WriteResult) :
    writeLoop intrFails calls [] = ⟨[], [], .done, calls⟩ := by
  rw [writeLoop]

/-- What a loop has written and what it has left are the packet, and only when nothing is
left has it come to its end. -/
theorem writeLoop_spec (intrFails : Bool) (calls : List WriteResult) (p : Bytes) :
    (writeLoop intrFails calls p).out ++ (writeLoop intrFails calls p).left = p ∧
      ((writeLoop intrFails calls p).ended = .done ↔ (writeLoop intrFails calls p).left = []) := by
  induction calls generalizing p with
  | nil => cases p <;> simp [writeLoop]
  | cons call calls ih =>
      cases p with
      | nil => simp [writeLoop_nil]
      | cons b p =>
          cases call with
          | count n =>
              rw [writeLoop]
              split
              · simp
              · obtain ⟨hsplit, hdone⟩ := ih ((b :: p).drop n)
                refine ⟨?_, hdone⟩
                rw [List.append_assoc, hsplit, List.take_append_drop]
              · simp
          | again => simp [writeLoop]
          | intr =>
              cases intrFails with
              | true => simp [writeLoop]
              | false => simpa [writeLoop] using ih (b :: p)
          | fail => simp [writeLoop]

theorem drainLoop_of_done {calls : List WriteResult} {p : Bytes}
    (h : (writeLoop false calls p).ended = .done) (queue : List Bytes) :
    drainLoop calls (p :: queue) =
      let d := drainLoop (writeLoop false calls p).calls queue
      { d with out := (writeLoop false calls p).out ++ d.out } := by
  simp only [drainLoop, h]

theorem drainLoop_of_ne_done {calls : List WriteResult} {p : Bytes}
    (h : (writeLoop false calls p).ended ≠ .done) (queue : List Bytes) :
    drainLoop calls (p :: queue) = ⟨(writeLoop false calls p).out,
      (writeLoop false calls p).left :: queue, (writeLoop false calls p).ended⟩ := by
  cases hended : (writeLoop false calls p).ended <;> simp_all [drainLoop]

/-- The same for the queue; what is left of it is packets that still have bytes. By induction on the
queue: the loop goes on to the next packet only when the last one has been written whole. -/
theorem drainLoop_spec (calls : List WriteResult) (queue : List Bytes) :
    (drainLoop calls queue).out ++ (drainLoop calls queue).queue.flatten = queue.flatten ∧
      ((drainLoop calls queue).ended = .done ↔ (drainLoop calls queue).queue = []) ∧
      (drainLoop calls queue).queue.length ≤ queue.length ∧
      ((∀ p ∈ queue, p ≠ []) → ∀ p ∈ (drainLoop calls queue).queue, p ≠ []) := by
  induction queue generalizing calls with
  | nil => simp [drainLoop]
  | cons p queue ih =>
      obtain ⟨hsplit, hdone⟩ := writeLoop_spec false calls p
      by_cases hended : (writeLoop false calls p).ended = .done
      · obtain ⟨ihsplit, ihdone, ihlen, ihfull⟩ := ih (writeLoop false calls p).calls
        rw [hdone.mp hended, List.append_nil] at hsplit
        rw [drainLoop_of_done hended]
        refine ⟨?_, ihdone, Nat.le_succ_of_le ihlen,
          fun h => ihfull fun q hq => h q (List.mem_cons_of_mem p hq)⟩
        rw [List.append_assoc, ihsplit, hsplit, List.flatten_cons]
      · have hleft : (writeLoop false calls p).left ≠ [] := fun h => hended (hdone.mpr h)
        rw [drainLoop_of_ne_done hended]
        refine ⟨?_, by simp [hended], le_rfl, ?_⟩
        · rw [List.flatten_cons, ← List.append_assoc, hsplit, List.flatten_cons]
        · intro h q hq
          rcases List.mem_cons.mp hq with rfl | hq
          · exact hleft
          · exact h q (List.mem_cons_of_mem p hq)

theorem length_readLoop (calls : List ReadResult) (avail : Nat) :
    (readLoop calls avail).1.length ≤ avail := by
  induction calls generalizing avail with
  | nil => cases avail <;> simp [readLoop]
  | cons call calls ih =>
      cases avail with
      | zero => simp [readLoop]
      | succ avail =>
          cases call with
          | data bytes =>
              rw [readLoop]
              · split
                · simp
                · have := ih (avail + 1 - (bytes.take (avail + 1)).length)
                  rw [List.length_append]
                  have hlen := List.length_take_le (avail + 1) bytes
                  omega
              · simp
          | again => simp [readLoop]
          | intr => simpa [readLoop] using ih (avail + 1)
          | fail => simp [readLoop]

end BlogStuff.Adb
