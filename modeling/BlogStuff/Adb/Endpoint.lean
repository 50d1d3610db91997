import BlogStuff.Adb.Socket
import BlogStuff.Link.Duplex

/-!
# BlogStuff.Adb.Endpoint

A local socket is one end of a connection: every handler of `BlogStuff.Adb.Socket` that has a
result is a sequence of steps of `BlogStuff.Link.End`.

`Shows` is the state of a socket and its descriptor for each phase of the end. The queue of a
socket is its backlog as a single packet: with one unit of credit there is never a second one.
-/

namespace BlogStuff.Adb

open BlogStuff.Wire BlogStuff.Link

/-- The packet for a message from the socket `self` to the socket `other`. -/
def packetOf (self other : UInt32) : Msg UInt8 → Packet
  | .ask => ⟨.aOpen, self, 0, []⟩
  | .ack => okayPacket self other
  | .data x => wrtePacket self other x
  | .bye => clsePacket other

/-- A queue of at most one packet. -/
def pack (x : Bytes) : List Bytes := if x = [] then [] else [x]

/-- What may stand in front of the stream that a descriptor is given. -/
abbrev Greeting := Bytes → Prop

/-- The status message of a connection that a client asked for: all or part of it. -/
def Status (g : Bytes) : Prop := g <+: ascii "OKAY" ∨ g <+: failMsg (ascii "closed")

/-- The socket with the id `self` and its descriptor, as one end of a connection whose other
end has the id `other`. -/
inductive Shows (self other : UInt32) (greet : Greeting) (cut : Bool) :
    Option Sock → Descr → End UInt8 → Prop
  | asking (notify : Bool) (status : ∀ g, Status g → greet g) :
      Shows self other greet cut (some ⟨self, false, .null, [], false, false, notify, true⟩) ⟨[], []⟩
        (.blank .asking)
  | linked (reading bound : Bool) (backlog taken given g : Bytes) (hg : greet g) :
      Shows self other greet cut
        (some ⟨self, false, .remote other, pack backlog, reading, !backlog.isEmpty, false, bound⟩)
        ⟨taken, g ++ given⟩ ⟨.linked, reading, backlog, taken, given⟩
  /-- Only a broken connection leaves a null pointer behind. -/
  | leaving (bound : Bool) (peer : Peer) (backlog taken given g : Bytes) (hg : greet g)
      (hb : backlog ≠ []) (hpeer : peer = .freed ∨ (peer = .null ∧ cut = true)) :
      Shows self other greet cut (some ⟨0, true, peer, pack backlog, false, true, false, bound⟩)
        ⟨taken, g ++ given⟩ ⟨.leaving, false, backlog, taken, given⟩
  | gone (reading : Bool) (backlog taken given g : Bytes) (hg : greet g) :
      Shows self other greet cut none ⟨taken, g ++ given⟩ ⟨.gone, reading, backlog, taken, given⟩
  /-- The client had hung up when its request was sent. -/
  | withdrawn (g : Bytes) (hg : greet g) : Shows self other greet cut none ⟨[], g⟩ (.blank .withdrawn)

section

variable {self other : UInt32} {greet : Greeting} {cut : Bool}

@[simp] theorem pack_nil : pack [] = [] := rfl

theorem pack_of_ne {x : Bytes} (h : x ≠ []) : pack x = [x] := by simp [pack, h]

@[simp] theorem flatten_pack (x : Bytes) : (pack x).flatten = x := by
  by_cases h : x = [] <;> simp [pack, h]

theorem eq_pack {queue : List Bytes} (hlen : queue.length ≤ 1) (hfull : ∀ p ∈ queue, p ≠ []) :
    queue = pack queue.flatten := by
  match queue, hlen with
  | [], _ => rfl
  | [p], _ => simp [pack, hfull p List.mem_cons_self]

/-- Draining the queue of a socket: some of the backlog goes out, the rest stays. -/
theorem drainLoop_pack (calls : List WriteResult) (backlog : Bytes) :
    ∃ out rest, backlog = out ++ rest ∧ (drainLoop calls (pack backlog)).out = out ∧
      (drainLoop calls (pack backlog)).queue = pack rest ∧
      ((drainLoop calls (pack backlog)).ended = .done ↔ rest = []) := by
  obtain ⟨hsplit, hdone, hlen, hfull⟩ := drainLoop_spec calls (pack backlog)
  have hpack : (pack backlog).length ≤ 1 ∧ ∀ p ∈ pack backlog, p ≠ [] := by
    by_cases h : backlog = [] <;> simp [pack, h]
  have hq := eq_pack (hlen.trans hpack.1) (hfull hpack.2)
  refine ⟨_, (drainLoop calls (pack backlog)).queue.flatten, ?_, rfl, hq, ?_⟩
  · rw [hsplit, flatten_pack]
  · rw [hdone]
    refine ⟨fun h => by simp [h], fun h => ?_⟩
    rw [hq, h, pack_nil]

/-- The result of a handler comes about by steps of the end. -/
def Follows (self other : UInt32) (greet : Greeting) (cut : Bool) (e : End UInt8) (a : After) : Prop :=
  ∃ e' out, (∀ inbox, End.Steps e inbox cut e' inbox cut out) ∧ Shows self other greet cut a.sock a.descr e' ∧
    a.sent = out.map (packetOf self other)

theorem Shows.follows {s : Option Sock} {d : Descr} {e : End UInt8}
    (h : Shows self other greet cut s d e) : Follows self other greet cut e ⟨s, d, []⟩ :=
  ⟨e, [], fun _ => .refl, h, rfl⟩

/-- A step in front, and what it says. -/
theorem Follows.step {e e₁ : End UInt8} {a : After} (h : Follows self other greet cut e₁ a)
    (out : List (Msg UInt8)) (hstep : ∀ inbox, e.Step inbox cut e₁ inbox cut out) :
    Follows self other greet cut e { a with sent := out.map (packetOf self other) ++ a.sent } := by
  obtain ⟨e', out', hsteps, hshows, hsent⟩ := h
  refine ⟨e', out ++ out', fun inbox => ?_, hshows, ?_⟩
  · exact (hstep inbox).steps.trans (hsteps inbox)
  · rw [List.map_append, hsent]

/-! ### Closing -/

theorem close_linked (self other : UInt32) (bound reading wantWrite : Bool) (backlog : Bytes)
    (d : Descr) (note : Nat) :
    Sock.close ⟨self, false, .remote other, pack backlog, reading, wantWrite, false, bound⟩ d note =
      some ⟨if backlog = [] then none
        else some ⟨0, true, .freed, pack backlog, false, wantWrite, false, bound⟩, d, [clsePacket other]⟩ := by
  by_cases h : backlog = []
  · simp [Sock.close, localSocketCloseLocked, closeAlone, After.behind, pack, h]
  · simp [Sock.close, localSocketCloseLocked, closeAlone, After.behind, pack, h]

/-- The end behind a connected socket, after it has closed. -/
theorem shows_quit (bound reading : Bool) (backlog taken given g : Bytes) (hg : greet g) :
    Shows self other greet cut
      (if backlog = [] then none
        else some ⟨0, true, .freed, pack backlog, false, !backlog.isEmpty, false, bound⟩)
      ⟨taken, g ++ given⟩ (End.quit ⟨.linked, reading, backlog, taken, given⟩) := by
  by_cases h : backlog = []
  · subst h
    exact Shows.gone false [] taken given g hg
  · have hempty : backlog.isEmpty = false := by simpa using h
    rw [if_neg h, hempty, End.quit, hempty]
    exact Shows.leaving bound .freed backlog taken given g hg h (Or.inl rfl)

section linked

variable {bound reading : Bool} {backlog taken given g : Bytes} {c : Calls} {a : After}

theorem close_linked_follows (hg : greet g) {note : Nat}
    (hrun : Sock.close ⟨self, false, .remote other, pack backlog, reading, !backlog.isEmpty, false, bound⟩
      ⟨taken, g ++ given⟩ note = some a) :
    Follows self other greet cut ⟨.linked, reading, backlog, taken, given⟩ a := by
  rw [close_linked] at hrun
  cases hrun
  exact (shows_quit bound reading backlog taken given g hg).follows.step [.bye] fun _ => .quit rfl

theorem closeIf_linked (hg : greet g) {eof : Bool} {note : Nat}
    (hrun : closeIf eof ⟨self, false, .remote other, pack backlog, reading, !backlog.isEmpty, false, bound⟩
      ⟨taken, g ++ given⟩ note = some a) :
    Follows self other greet cut ⟨.linked, reading, backlog, taken, given⟩ a := by
  cases eof with
  | false =>
      cases hrun
      exact (Shows.linked reading bound backlog taken given g hg).follows
  | true =>
      rw [closeIf, if_pos rfl] at hrun
      exact close_linked_follows hg hrun

/-- The `FDE_READ` part, of a connected socket that may read. -/
theorem readEvent_linked (hg : greet g)
    (hrun : readEvent ⟨self, false, .remote other, pack backlog, true, !backlog.isEmpty, false, bound⟩
      ⟨taken, g ++ given⟩ c = some a) :
    Follows self other greet cut ⟨.linked, true, backlog, taken, given⟩ a := by
  simp only [readEvent, Descr.take] at hrun
  by_cases hx : (readLoop c.reads maxPayload).1 = []
  · simp only [hx, List.append_nil, true_or, if_true] at hrun
    exact closeIf_linked hg hrun
  · simp only [hx, reduceCtorEq, or_self, if_false, Option.map_eq_some_iff] at hrun
    obtain ⟨b, hrun, rfl⟩ := hrun
    exact (closeIf_linked hg hrun).step [.data _] fun _ => .pass _ rfl rfl hx

theorem readIf_linked (hg : greet g) {read : Bool} (hread : read = true → reading = true)
    (hrun : readIf read ⟨self, false, .remote other, pack backlog, reading, !backlog.isEmpty, false, bound⟩
      ⟨taken, g ++ given⟩ c = some a) :
    Follows self other greet cut ⟨.linked, reading, backlog, taken, given⟩ a := by
  cases read with
  | false =>
      cases hrun
      exact (Shows.linked reading bound backlog taken given g hg).follows
  | true =>
      obtain rfl := hread rfl
      rw [readIf, if_pos rfl] at hrun
      exact readEvent_linked hg hrun

/-- An event on a connected socket. It reads only with the credit, and writes only with a
backlog. -/
theorem event_linked (hg : greet g) {ev : Events} (hread : ev.read = true → reading = true)
    (hwrite : ev.write = true → backlog ≠ [])
    (hrun : localSocketEventFunc ev
      ⟨self, false, .remote other, pack backlog, reading, !backlog.isEmpty, false, bound⟩
      ⟨taken, g ++ given⟩ c = some a) :
    Follows self other greet cut ⟨.linked, reading, backlog, taken, given⟩ a := by
  rw [localSocketEventFunc] at hrun
  cases hw : ev.write with
  | false =>
      rw [hw] at hrun
      exact readIf_linked hg hread hrun
  | true =>
      obtain ⟨out, rest, rfl, hout, hqueue, hdone⟩ := drainLoop_pack c.writes backlog
      have hsome := hwrite hw
      simp only [hw, if_true, hout, hqueue, Descr.give, List.append_assoc] at hrun
      by_cases hend : (drainLoop c.writes (pack (out ++ rest))).ended = .done
      · -- The backlog is out: the credit goes back, and reading has its turn.
        obtain rfl := hdone.mp hend
        simp only [hend, Bool.false_eq_true, if_false, Option.map_eq_some_iff] at hrun
        rw [List.append_nil] at hsome ⊢
        obtain ⟨b, hrun, rfl⟩ := hrun
        exact (readIf_linked hg hread hrun).step [.ack] fun _ => .drain rfl hsome
      · have hrest : rest ≠ [] := fun h => hend (hdone.mpr h)
        have hempty : (out ++ rest).isEmpty = rest.isEmpty := by
          rw [Bool.eq_iff_iff, List.isEmpty_iff, List.isEmpty_iff]
          simp [hrest]
        rw [hempty] at hrun
        have hwrote : ∀ inbox, End.Step ⟨.linked, reading, out ++ rest, taken, given⟩ inbox cut
            ⟨.linked, reading, rest, taken, given ++ out⟩ inbox cut [] :=
          fun _ => .write out rest (Or.inl rfl) rfl hrest
        cases hended : (drainLoop c.writes (pack (out ++ rest))).ended with
        | done => exact absurd hended hend
        | blocked =>
            simp only [hended] at hrun
            cases hrun
            exact (Shows.linked reading bound rest taken (given ++ out) g hg).follows.step [] hwrote
        | failed =>
            simp only [hended] at hrun
            exact (close_linked_follows hg hrun).step [] hwrote

end linked

/-! ### A socket that is closing -/

section leaving

variable {bound : Bool} {peer : Peer} {backlog taken given g : Bytes} {c : Calls} {a : After}

/-- A closing socket that closes again is destroyed, if its peer was not freed. -/
theorem close_leaving {queue : List Bytes} {wantWrite : Bool} {d : Descr} {note : Nat}
    (hpeer : peer = .freed ∨ (peer = .null ∧ cut = true))
    (hrun : Sock.close ⟨0, true, peer, queue, false, wantWrite, false, bound⟩ d note = some a) :
    peer = .null ∧ cut = true ∧ a = ⟨none, d, []⟩ := by
  rcases hpeer with rfl | ⟨rfl, hcut⟩
  · simp [Sock.close, localSocketCloseLocked] at hrun
  · simp only [Sock.close, localSocketCloseLocked, closeAlone, Bool.false_eq_true, if_false,
      Bool.true_or, if_true, Option.some.injEq] at hrun
    exact ⟨rfl, hcut, hrun.symm⟩

theorem closeIf_leaving (hg : greet g) (hb : backlog ≠ [])
    (hpeer : peer = .freed ∨ (peer = .null ∧ cut = true)) {eof : Bool} {note : Nat}
    (hrun : closeIf eof ⟨0, true, peer, pack backlog, false, true, false, bound⟩ ⟨taken, g ++ given⟩ note =
      some a) :
    Follows self other greet cut ⟨.leaving, false, backlog, taken, given⟩ a := by
  cases eof with
  | false =>
      cases hrun
      exact (Shows.leaving bound peer backlog taken given g hg hb hpeer).follows
  | true =>
      rw [closeIf, if_pos rfl] at hrun
      obtain ⟨-, -, rfl⟩ := close_leaving hpeer hrun
      -- Whatever is left of the backlog is discarded.
      have hgone : Follows self other greet cut ⟨.gone, false, [], taken, given ++ []⟩
          ⟨none, ⟨taken, g ++ given⟩, []⟩ := by
        rw [List.append_nil]
        exact (Shows.gone false [] taken given g hg).follows
      exact hgone.step [] fun _ => .finish [] backlog rfl rfl

theorem readEvent_leaving (hg : greet g) (hb : backlog ≠ [])
    (hpeer : peer = .freed ∨ (peer = .null ∧ cut = true))
    (hrun : readEvent ⟨0, true, peer, pack backlog, false, true, false, bound⟩ ⟨taken, g ++ given⟩ c =
      some a) :
    Follows self other greet cut ⟨.leaving, false, backlog, taken, given⟩ a := by
  simp only [readEvent, Descr.take] at hrun
  rcases hpeer with rfl | ⟨rfl, rfl⟩
  · by_cases hx : (readLoop c.reads maxPayload).1 = []
    · simp only [hx, List.append_nil, true_or, if_true] at hrun
      exact closeIf_leaving hg hb (Or.inl rfl) hrun
    · simp [hx] at hrun
  · simp only [or_true, if_true] at hrun
    exact (closeIf_leaving hg hb (Or.inr ⟨rfl, rfl⟩) hrun).step [] fun _ => .waste _ rfl

theorem event_leaving (hg : greet g) (hb : backlog ≠ [])
    (hpeer : peer = .freed ∨ (peer = .null ∧ cut = true)) {ev : Events}
    (hrun : localSocketEventFunc ev ⟨0, true, peer, pack backlog, false, true, false, bound⟩
      ⟨taken, g ++ given⟩ c = some a) :
    Follows self other greet cut ⟨.leaving, false, backlog, taken, given⟩ a := by
  rw [localSocketEventFunc] at hrun
  cases hw : ev.write with
  | false =>
      rw [hw] at hrun
      cases hr : ev.read with
      | false =>
          simp only [hr, readIf, Bool.false_eq_true, if_false] at hrun
          cases hrun
          exact (Shows.leaving bound peer backlog taken given g hg hb hpeer).follows
      | true =>
          simp only [hr, readIf, Bool.false_eq_true, if_false, if_true] at hrun
          exact readEvent_leaving hg hb hpeer hrun
  | true =>
      obtain ⟨out, rest, rfl, hout, hqueue, hdone⟩ := drainLoop_pack c.writes backlog
      simp only [hw, if_true, hout, hqueue, Descr.give, List.append_assoc] at hrun
      cases hended : (drainLoop c.writes (pack (out ++ rest))).ended with
      | blocked =>
          have hrest : rest ≠ [] := by
            intro h
            simp [hdone.mpr h] at hended
          simp only [hended] at hrun
          cases hrun
          exact (Shows.leaving bound peer rest taken (given ++ out) g hg hrest hpeer).follows.step []
            fun _ => .write out rest (Or.inr rfl) rfl hrest
      | failed =>
          simp only [hended] at hrun
          obtain ⟨-, -, rfl⟩ := close_leaving hpeer hrun
          exact (Shows.gone false [] taken (given ++ out) g hg).follows.step []
            fun _ => .finish out rest rfl rfl
      | done =>
          simp only [hended] at hrun
          obtain ⟨-, -, rfl⟩ := close_leaving hpeer hrun
          exact (Shows.gone false [] taken (given ++ out) g hg).follows.step []
            fun _ => .finish out rest rfl rfl

end leaving

/-! ### Any socket -/

namespace Shows

variable {s : Sock} {sock : Option Sock} {d : Descr} {e : End UInt8} {c : Calls} {a : After}

/-- **Events are steps of the end.** The loop delivers the events that are asked for, and may
deliver a read that a closing socket no longer asks for. -/
theorem event (h : Shows self other greet cut (some s) d e) {ev : Events}
    (hread : ev.read = true → s.wantRead = true ∨ s.closing = true)
    (hwrite : ev.write = true → s.wantWrite = true)
    (hrun : localSocketEventFunc ev s d c = some a) : Follows self other greet cut e a := by
  cases h with
  | asking notify status =>
      have hnone : ev.write = false ∧ ev.read = false := by simpa using And.intro hwrite hread
      simp only [localSocketEventFunc, readIf, hnone.1, hnone.2, Bool.false_eq_true, if_false] at hrun
      cases hrun
      exact (Shows.asking notify status).follows
  | linked reading bound backlog taken given g hg =>
      exact event_linked hg (by simpa using hread) (by simpa using hwrite) hrun
  | leaving bound peer backlog taken given g hg hb hpeer => exact event_leaving hg hb hpeer hrun

/-- What a socket shows goes on being shown for more greetings and after a cut, and only a connected
socket knows the id of its partner. -/
theorem mono {other' : UInt32} {greet' : Greeting} {cut' : Bool}
    (h : Shows self other greet cut sock d e) (hother : e.phase = .linked → other' = other)
    (hgreet : ∀ g, greet g → greet' g) (hcut : cut = true → cut' = true) :
    Shows self other' greet' cut' sock d e := by
  cases h with
  | asking notify status => exact .asking notify fun g hg => hgreet g (status g hg)
  | linked reading bound backlog taken given g hg =>
      rw [← hother rfl]
      exact .linked reading bound backlog taken given g (hgreet g hg)
  | leaving bound peer backlog taken given g hg hb hpeer =>
      exact .leaving bound peer backlog taken given g (hgreet g hg) hb
        (hpeer.imp_right (And.imp_right hcut))
  | gone reading backlog taken given g hg => exact .gone reading backlog taken given g (hgreet g hg)
  | withdrawn g hg => exact .withdrawn g (hgreet g hg)

theorem there (h : Shows self other greet cut sock d e) : e.phase ≠ .absent := by
  cases h <;> simp [End.blank]

theorem id_eq (h : Shows self other greet cut (some s) d e) (hopen : s.closing = false) : s.id = self := by
  cases h with
  | asking | linked => rfl
  | leaving => cases hopen

theorem live_of_open (h : Shows self other greet cut (some s) d e) (hopen : s.closing = false) : e.Live := by
  cases h with
  | asking => exact Or.inl rfl
  | linked => exact Or.inr rfl
  | leaving => cases hopen

theorem open_iff (h : Shows self other greet cut sock d e) :
    (∃ s, sock = some s ∧ s.closing = false) ↔ e.Live := by
  cases h <;> simp [End.Live, End.blank]

/-- What went through the descriptor, and what waits in the socket. -/
theorem descr_eq (h : Shows self other greet cut sock d e) :
    d.taken = e.taken ∧ ∃ g, greet g ∧ d.given = g ++ e.given := by
  cases h with
  | asking notify status => exact ⟨rfl, [], status _ (Or.inl List.nil_prefix), rfl⟩
  | linked reading bound backlog taken given g hg => exact ⟨rfl, g, hg, rfl⟩
  | leaving bound peer backlog taken given g hg => exact ⟨rfl, g, hg, rfl⟩
  | gone reading backlog taken given g hg => exact ⟨rfl, g, hg, rfl⟩
  | withdrawn g hg => exact ⟨rfl, g, hg, (List.append_nil g).symm⟩

theorem queue_eq (h : Shows self other greet cut (some s) d e) : s.queue = pack e.backlog := by
  cases h <;> rfl

theorem wantRead_eq (h : Shows self other greet cut (some s) d e) : s.wantRead = e.reading := by
  cases h <;> rfl

/-- A socket that points to a freed one is closing. -/
theorem closing_of_freed (h : Shows self other greet cut (some s) d e) (hpeer : s.peer = .freed) :
    s.closing = true := by
  cases h with
  | asking => cases hpeer
  | linked => cases hpeer
  | leaving => rfl

theorem over_of_closed (h : Shows self other greet cut sock d e)
    (hclosed : ∀ s, sock = some s → s.id = self → s.closing = true) : e.Over := by
  cases h with
  | asking => cases hclosed _ rfl rfl
  | linked => cases hclosed _ rfl rfl
  | leaving => exact Or.inl (Or.inl rfl)
  | gone => exact Or.inl (Or.inr rfl)
  | withdrawn => exact Or.inr rfl

theorem status_okay (n : Nat) : Status ((ascii "OKAY").take n) := Or.inl (List.take_prefix n _)

theorem status_fail (n : Nat) : Status ((failMsg (ascii "closed")).take n) :=
  Or.inr (List.take_prefix n _)

theorem status_nil : Status [] := Or.inl List.nil_prefix

/-- A socket that waits for its answer, when the answer comes. -/
theorem ready_asking (self other : UInt32) (notify : Bool) (status : ∀ g, Status g → greet g)
    (note : Nat) :
    ∃ g, greet g ∧ Sock.ready ⟨self, false, .remote other, [], false, false, notify, true⟩ ⟨[], []⟩ note =
      ⟨some ⟨self, false, .remote other, [], true, false, false, true⟩, ⟨[], g ++ []⟩, []⟩ := by
  cases notify with
  | false => exact ⟨[], status _ status_nil, rfl⟩
  | true => exact ⟨_, status _ (status_okay note), by simp [Sock.ready, Descr.give]⟩

theorem close_asking (self : UInt32) (notify : Bool) (status : ∀ g, Status g → greet g) (note : Nat) :
    ∃ g, greet g ∧ Sock.close ⟨self, false, .null, [], false, false, notify, true⟩ ⟨[], []⟩ note =
      some ⟨none, ⟨[], g ++ []⟩, []⟩ := by
  cases notify with
  | false => exact ⟨[], status _ status_nil, rfl⟩
  | true =>
      exact ⟨_, status _ (status_fail note),
        by simp [Sock.close, localSocketCloseLocked, closeAlone, Descr.give]⟩

/-- What a packet does to a socket is a step that hears the message. -/
def Hears (self other : UInt32) (greet : Greeting) (e : End UInt8) (m : Msg UInt8) (a : After) : Prop :=
  ∃ e' out, (∀ inbox, e.Step (m :: inbox) false e' inbox false out) ∧
    Shows self other greet false a.sock a.descr e' ∧ a.sent = out.map (packetOf self other)

theorem hears_asking (notify : Bool) (status : ∀ g, Status g → greet g) {m : Msg UInt8}
    (hm : m = .ack ∨ m = .bye)
    (hrun : Sock.receive ⟨self, false, .null, [], false, false, notify, true⟩ ⟨[], []⟩
      (packetOf other self m) c = some a) : Hears self other greet (.blank .asking) m a := by
  rcases hm with rfl | rfl
  · obtain ⟨g, hg, hready⟩ := ready_asking self other notify status c.note
    have ha : some (Sock.ready ⟨self, false, .remote other, [], false, false, notify, true⟩ ⟨[], []⟩
        c.note) = some a := hrun
    rw [hready] at ha
    cases ha
    exact ⟨_, [], fun _ => .hearAck (Or.inl rfl), .linked true true [] [] [] g hg, rfl⟩
  · obtain ⟨g, hg, hclose⟩ := close_asking self notify status c.note
    have ha : Sock.close ⟨self, false, .null, [], false, false, notify, true⟩ ⟨[], []⟩ c.note =
        some a := hrun
    rw [hclose] at ha
    cases ha
    exact ⟨_, [], fun _ => .hearNo rfl, .gone false [] [] [] g hg, rfl⟩

/-- Data for a connected socket without a backlog. The three ways in which the write loop can end
are the three ways to hear data: all of it is taken, a part of it, or the descriptor fails. -/
theorem hears_data {bound reading : Bool} {taken given g x : Bytes} (hg : greet g)
    (hrun : Sock.receive ⟨self, false, .remote other, pack [], reading, false, false, bound⟩
      ⟨taken, g ++ given⟩ (wrtePacket other self x) c = some a) :
    Hears self other greet ⟨.linked, reading, [], taken, given⟩ (.data x) a := by
  obtain ⟨hsplit, hdone⟩ := writeLoop_spec true c.writes x
  simp only [Sock.receive, wrtePacket, localSocketEnqueue, pack_nil, if_true, Descr.give,
    List.append_assoc] at hrun
  generalize writeLoop true c.writes x = w at hsplit hdone hrun
  obtain ⟨out, left, ended, calls⟩ := w
  subst hsplit
  cases ended with
  | failed =>
      have hclose := close_linked self other bound reading false [] ⟨taken, g ++ (given ++ out)⟩ c.note
      simp only [pack_nil, if_true] at hclose
      simp only [hclose] at hrun
      cases hrun
      exact ⟨_, [.bye], fun _ => .hearFail out left rfl rfl, .gone false [] taken (given ++ out) g hg, rfl⟩
  | done =>
      obtain rfl : left = [] := hdone.mp rfl
      cases hrun
      refine ⟨_, [.ack], fun _ => .hearData (out ++ []) rfl rfl, ?_, rfl⟩
      rw [List.append_nil]
      exact .linked reading bound [] taken (given ++ out) g hg
  | blocked =>
      have hleft : left ≠ [] := fun h => by simpa using hdone.mpr h
      have hempty : List.isEmpty left = false := List.isEmpty_eq_false_iff.mpr hleft
      have hshows : Shows self other greet false
          (some ⟨self, false, .remote other, pack left, reading, !List.isEmpty left, false, bound⟩)
          ⟨taken, g ++ (given ++ out)⟩ ⟨.linked, reading, left, taken, given ++ out⟩ :=
        .linked reading bound left taken (given ++ out) g hg
      rw [pack_of_ne hleft, hempty] at hshows
      cases hrun
      exact ⟨_, [], fun _ => .hearPart out left rfl rfl hleft, hshows, rfl⟩

/-- **Packets are heard as messages.** Cases of the phase the socket shows and of the message. The
credit keeps data from a socket with a backlog, so the queue is appended to only while it is empty.
-/
theorem receive (h : Shows self other greet false (some s) d e) (hopen : s.closing = false)
    {m : Msg UInt8} (hm : e.Expects m)
    (hrun : s.receive d (packetOf other self m) c = some a) : Hears self other greet e m a := by
  cases h with
  | asking notify status =>
      refine hears_asking notify status ?_ hrun
      cases m with
      | ask => exact absurd rfl hm.ask
      | data x => exact absurd rfl (hm.wait rfl x)
      | ack => exact Or.inl rfl
      | bye => exact Or.inr rfl
  | linked reading bound backlog taken given g hg =>
      cases m with
      | ask => exact absurd rfl hm.ask
      | ack =>
          cases hrun
          exact ⟨_, [], fun _ => .hearAck (Or.inr rfl), .linked true bound backlog taken given g hg, rfl⟩
      | bye =>
          have ha : Sock.close _ _ c.note = some a := hrun
          rw [close_linked] at ha
          cases ha
          exact ⟨_, [.bye], fun _ => .hearBye rfl, shows_quit bound reading backlog taken given g hg, rfl⟩
      | data x =>
          obtain rfl : backlog = [] := hm.back rfl x rfl
          exact hears_data hg hrun
  | leaving bound peer backlog taken given g hg hb hpeer => cases hopen

/-- A packet for a socket that can be found is handled. Only a close through a freed peer has no
outcome; a socket with such a peer is closing, and is not found any more. -/
theorem receive_ne_none (h : Shows self other greet cut (some s) d e) (hopen : s.closing = false)
    (p : Packet) (c : Calls) : s.receive d p c ≠ none := by
  have hclose : ∀ d, s.close d c.note ≠ none := by
    intro d
    cases h with
    | asking notify => cases notify <;> simp [Sock.close, localSocketCloseLocked]
    | linked => simp [close_linked]
    | leaving => cases hopen
  have henqueue : localSocketEnqueue s d p.data c ≠ none := by
    rw [localSocketEnqueue]
    dsimp only
    split
    · split
      · simpa using hclose _
      · simp
      · simp
    · simp
  rw [Sock.receive]
  split
  · simp
  · exact hclose d
  · obtain ⟨a, ha⟩ := Option.ne_none_iff_exists'.mp henqueue
    simp [ha]
  · simp

/-- **A broken connection cuts the end off.** `remote_socket_disconnect` closes the local
socket with its peer already null, so nothing is sent; what is queued is still written. -/
theorem disconnect (h : Shows self other greet false (some s) d e) (note : Nat) :
    (remoteSocketDisconnect s d note).sent = [] ∧ ∃ e', (∀ inbox, e.Step inbox false e' inbox true []) ∧
      Shows self other greet true (remoteSocketDisconnect s d note).sock
        (remoteSocketDisconnect s d note).descr e' := by
  cases h with
  | asking notify status =>
      exact ⟨rfl, _, fun _ => .cutIdle (by simp [End.blank]), .asking notify status⟩
  | linked reading bound backlog taken given g hg =>
      by_cases hb : backlog = []
      · subst hb
        exact ⟨rfl, _, fun _ => .cutOff rfl, .gone false [] taken given g hg⟩
      · have hempty : backlog.isEmpty = false := by simpa using hb
        have hrun : remoteSocketDisconnect
            ⟨self, false, .remote other, pack backlog, reading, !backlog.isEmpty, false, bound⟩
            ⟨taken, g ++ given⟩ note =
            ⟨some ⟨0, true, .null, pack backlog, false, true, false, bound⟩, ⟨taken, g ++ given⟩, []⟩ := by
          simp [remoteSocketDisconnect, closeNull, closeAlone, pack, hb]
        rw [hrun]
        refine ⟨rfl, _, fun _ => .cutOff rfl, ?_⟩
        rw [End.quit, hempty]
        exact .leaving bound .null backlog taken given g hg hb (Or.inr ⟨rfl, rfl⟩)
  | leaving bound peer backlog taken given g hg hb hpeer =>
      obtain rfl : peer = .freed := by simpa using hpeer
      exact ⟨rfl, _, fun _ => .cutIdle (by simp),
        .leaving bound .freed backlog taken given g hg hb (Or.inl rfl)⟩

/-- A socket that never got its answer is closed with the transport. -/
theorem reap (h : Shows self other greet cut (some s) d e) (hp : e.phase = .asking) :
    localSocketCloseLocked s d = some ⟨none, d, []⟩ ∧
      Shows self other greet cut none d { e with phase := .gone } := by
  cases h with
  | asking notify status => exact ⟨rfl, .gone false [] [] [] [] (status _ status_nil)⟩
  | linked => cases hp
  | leaving => cases hp

end Shows

/-! ### Where a freed socket is touched -/

/-- The handler gets to the point where it uses the peer: a write ends other than by
blocking, or a read brings something. -/
def UsesPeer (ev : Events) (s : Sock) (c : Calls) : Prop :=
  if ev.write then (drainLoop c.writes s.queue).ended ≠ .blocked
  else ev.read = true ∧ readLoop c.reads maxPayload ≠ ([], false)

theorem close_eq_none_iff (s : Sock) (d : Descr) (note : Nat) : s.close d note = none ↔ s.peer = .freed := by
  obtain ⟨id, closing, peer, queue, wantRead, wantWrite, notify, bound⟩ := s
  cases notify <;> cases peer <;> simp [Sock.close, localSocketCloseLocked]

theorem closeIf_eq_none_iff (eof : Bool) (s : Sock) (d : Descr) (note : Nat) :
    closeIf eof s d note = none ↔ eof = true ∧ s.peer = .freed := by
  cases eof <;> simp [closeIf, close_eq_none_iff]

theorem readEvent_eq_none_iff (s : Sock) (d : Descr) (c : Calls) :
    readEvent s d c = none ↔ s.peer = .freed ∧ readLoop c.reads maxPayload ≠ ([], false) := by
  rw [readEvent]
  generalize readLoop c.reads maxPayload = r
  obtain ⟨x, eof⟩ := r
  cases hpeer : s.peer with
  | null => simp [closeIf_eq_none_iff, hpeer]
  | remote r => by_cases hx : x = [] <;> simp [hx, closeIf_eq_none_iff, hpeer]
  | freed => by_cases hx : x = [] <;> simp [hx, closeIf_eq_none_iff, hpeer]

theorem readIf_eq_none_iff (read : Bool) (s : Sock) (d : Descr) (c : Calls) :
    readIf read s d c = none ↔
      s.peer = .freed ∧ read = true ∧ readLoop c.reads maxPayload ≠ ([], false) := by
  cases read <;> simp [readIf, readEvent_eq_none_iff]

/-- **The only way to touch a freed socket.** Every other use of a peer is behind a test for
null or on a socket whose peer is still there. -/
theorem Shows.event_eq_none_iff {s : Sock} {d : Descr} {e : End UInt8} {c : Calls}
    (h : Shows self other greet cut (some s) d e) {ev : Events}
    (hwrite : ev.write = true → s.wantWrite = true) :
    localSocketEventFunc ev s d c = none ↔ s.peer = .freed ∧ UsesPeer ev s c := by
  rw [localSocketEventFunc, UsesPeer]
  cases hw : ev.write with
  | false => simp [readIf_eq_none_iff]
  | true =>
      cases h with
      | asking notify status => cases hwrite hw
      | linked reading bound backlog taken given g hg =>
          cases hended : (drainLoop c.writes (pack backlog)).ended <;>
            simp [hended, close_eq_none_iff, readIf_eq_none_iff]
      | leaving bound peer backlog taken given g hg hb hpeer =>
          cases hended : (drainLoop c.writes (pack backlog)).ended <;>
            simp [hended, close_eq_none_iff]

end

end BlogStuff.Adb
