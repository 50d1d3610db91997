import BlogStuff.Adb.Process
import BlogStuff.Adb.Endpoint

/-!
# BlogStuff.Adb.Multiplex

Two processes keep any number of connections over one transport, and each behaves as if it
were alone: in every state of the system, each socket that asked for a connection is the near
end of a reachable `BlogStuff.Link.Conn` (`System.Inv.conns`).

A packet belongs to the connection it names. `System.inbox` is what is under way to the socket
of a descriptor, `System.asks` the `OPEN` of a socket that nobody has handled yet, and
`System.Projects` says that the two sockets and what is under way between them are a given
connection. A callback of one socket takes packets from its own inbox and adds to that of its
partner; for all other connections nothing changes (`Projects.congr`).

Two lists of the state are there for the statements only: which sockets belong together, and
which clients had hung up when their request was sent (`System.Withdrew`). The second tells a
socket that has closed without a word from one that has said so.
-/

namespace BlogStuff.Adb

open BlogStuff.Wire BlogStuff.Link

/-- The id of the socket a packet is for. -/
def Packet.addr (p : Packet) : Option UInt32 :=
  match p.command with
  | .aOkay | .aClse | .aWrte => some p.arg1
  | _ => none

/-- The id of the socket that asks for a connection. -/
def Packet.asker (p : Packet) : Option UInt32 := if p.command = .aOpen then some p.arg0 else none

/-- A request without its destination. -/
def Packet.bare (p : Packet) : Packet := { p with data := [] }

namespace System

variable (S : System)

/-- The transport of a side is down. -/
def cut (x : Side) : Bool := decide ((S.proc x).pump = .down)

/-- What is under way to the socket of a descriptor. -/
def inbox (x : Side) (n : Nat) : List Packet :=
  (S.proc x.other).outgoing.filter fun p => p.addr == some (idOf n)

/-- The request of a socket, while it is under way. -/
def asks (x : Side) (n : Nat) : List Packet :=
  (S.proc x).outgoing.filter fun p => p.asker == some (idOf n)

/-- A socket that asked, and the one that was opened for it. -/
def Linked (x : Side) (n f : Nat) : Prop := (⟨x, n, f⟩ : Link) ∈ S.links

instance (x : Side) (n f : Nat) : Decidable (S.Linked x n f) := inferInstanceAs (Decidable (_ ∈ _))

/-- A client that had hung up when its request was sent. -/
def Withdrew (x : Side) (n : Nat) : Prop := (x, n) ∈ S.withdrawn

instance (x : Side) (n : Nat) : Decidable (S.Withdrew x n) := inferInstanceAs (Decidable (_ ∈ _))

/-- The socket of a descriptor asked for its connection. -/
def IsNear (x : Side) (n : Nat) : Prop := n < (S.proc x).count ∧ ∀ m, ¬ S.Linked x.other m n

/-- The socket that asked, the one opened for it if there is one, and what is under way
between them are a connection. -/
inductive Projects (x : Side) (n : Nat) (c : Conn UInt8) : Prop
  | before (unanswered : ∀ f, ¬ S.Linked x n f)
      (near : Shows (idOf n) 0 Status (S.cut x) ((S.proc x).socks n) ((S.proc x).descr n) c.near)
      (far : c.far = .blank .absent)
      (toFar : (S.asks x n).map Packet.bare = c.toFar.map (packetOf (idOf n) 0))
      (toNear : S.inbox x n = c.toNear.map (packetOf 0 (idOf n)))
      (cutNear : c.cutNear = S.cut x) (cutFar : c.cutFar = S.cut x.other)
      (withdrew : c.near.phase = .withdrawn ↔ S.Withdrew x n)
  | after (f : Nat) (answered : S.Linked x n f)
      (near : Shows (idOf n) (idOf f) Status (S.cut x) ((S.proc x).socks n) ((S.proc x).descr n) c.near)
      (far : Shows (idOf f) (idOf n) (· = []) (S.cut x.other) ((S.proc x.other).socks f)
        ((S.proc x.other).descr f) c.far)
      (asked : S.asks x n = [])
      (toFar : S.inbox x.other f = c.toFar.map (packetOf (idOf n) (idOf f)))
      (toNear : S.inbox x n = c.toNear.map (packetOf (idOf f) (idOf n)))
      (cutNear : c.cutNear = S.cut x) (cutFar : c.cutFar = S.cut x.other)
      (withdrew : c.near.phase = .withdrawn ↔ S.Withdrew x n)

/-- Which sockets there are, and which packets name them. A link joins one socket that asked to one
that answered, and every address on the way is the id of a socket that has been made. -/
structure Shape : Prop where
  beyond : ∀ x fd, (S.proc x).count ≤ fd → (S.proc x).socks fd = none
  no_sync : ∀ x, ∀ p ∈ (S.proc x).outgoing, p.command ≠ .aSync
  addressed : ∀ x, ∀ p ∈ (S.proc x).outgoing, ∀ id, p.addr = some id →
    ∃ fd, fd < (S.proc x.other).count ∧ id = idOf fd
  asking : ∀ x, ∀ p ∈ (S.proc x).outgoing, p.command = .aOpen →
    ∃ n, S.IsNear x n ∧ p.arg0 = idOf n ∧ p.arg1 = 0
  near : ∀ x n f, S.Linked x n f → S.IsNear x n
  far : ∀ x n f, S.Linked x n f → f < (S.proc x.other).count
  one_far : ∀ x n f f', S.Linked x n f → S.Linked x n f' → f = f'
  one_near : ∀ x n n' f, S.Linked x n f → S.Linked x n' f → n = n'
  withdrew : ∀ x n, S.Withdrew x n → S.IsNear x n

/-- A side has sent nothing, and the other has not heard of it. -/
structure Silent (x : Side) : Prop where
  outgoing : (S.proc x).outgoing = []
  links : S.links = []
  other : (S.proc x.other).online = false
  host : x = .host → (S.proc x).pump = .idle
  device : x = .device → (S.proc x).online = false

/-- A side has begun to speak. What it sends starts with its half of the handshake, which
brings the other side online; the device speaks once it has heard the host. -/
structure Spoken (x : Side) : Prop where
  pump : (S.proc x).pump ≠ .idle
  heard : x = .device → (S.proc .host).pump ≠ .idle ∧
    ∀ p ∈ (S.proc .host).outgoing, p.command ≠ .aCnxn
  greets : (∃ p rest, (S.proc x).outgoing = p :: rest ∧ p.command = .aCnxn ∧
      (∀ q ∈ rest, q.command ≠ .aCnxn) ∧ (S.proc x.other).online = false) ∨
    ((∀ p ∈ (S.proc x).outgoing, p.command ≠ .aCnxn) ∧
      ((S.proc x.other).online = true ∨ (S.proc x.other).pump = .down))

/-- The invariant of two processes. -/
structure Inv : Prop where
  shape : S.Shape
  speech : ∀ x, S.Silent x ∨ S.Spoken x
  conns : ∀ x n, S.IsNear x n → ∃ c : Conn UInt8, c.Reachable ∧ S.Projects x n c

end System

/-! ### Ids and addresses -/

theorem idOf_inj {m n : Nat} (hm : m + 1 < 2 ^ 32) (hn : n + 1 < 2 ^ 32) (h : idOf m = idOf n) : m = n := by
  have h := congrArg UInt32.toNat h
  rw [idOf, idOf, UInt32.toNat_ofNat', UInt32.toNat_ofNat', Nat.mod_eq_of_lt hm,
    Nat.mod_eq_of_lt hn] at h
  omega

theorem idOf_toNat {n : Nat} (hn : n + 1 < 2 ^ 32) : (idOf n).toNat - 1 = n := by
  rw [idOf, UInt32.toNat_ofNat', Nat.mod_eq_of_lt hn, Nat.add_sub_cancel]

namespace Packet

variable {p : Packet} {id self other : UInt32}

theorem asker_of_addr (h : p.addr = some id) : p.asker = none := by
  cases hc : p.command <;> simp [addr, asker, hc] at h ⊢

theorem ne_cnxn_of_addr (h : p.addr = some id) : p.command ≠ .aCnxn := by
  intro hc
  simp [addr, hc] at h

theorem ne_open_of_addr (h : p.addr = some id) : p.command ≠ .aOpen := by
  intro hc
  simp [addr, hc] at h

theorem ne_sync_of_addr (h : p.addr = some id) : p.command ≠ .aSync := by
  intro hc
  simp [addr, hc] at h

theorem addr_packetOf {m : Msg UInt8} (h : m ≠ .ask) : (packetOf self other m).addr = some other := by
  cases m <;> first | rfl | exact absurd rfl h

end Packet

/-- Who a list of packets is for, when they are all for the same. -/
theorem filter_addr {ps : List Packet} {id : UInt32} (h : ∀ p ∈ ps, p.addr = some id) (id' : UInt32) :
    (ps.filter fun p => p.addr == some id') = if id = id' then ps else [] := by
  split
  · next heq => exact List.filter_eq_self.mpr fun p hp => by simp [h p hp, heq]
  · next hne => exact List.filter_eq_nil_iff.mpr fun p hp => by simp [h p hp, hne]

theorem filter_asker {ps : List Packet} (h : ∀ p ∈ ps, p.asker = none) (id : UInt32) :
    (ps.filter fun p => p.asker == some id) = [] :=
  List.filter_eq_nil_iff.mpr fun p hp => by simp [h p hp]

namespace System

variable {S S' : System} {x y z : Side} {n m k f : Nat} {P : Process} {c : Conn UInt8}

/-! ### The parts of a state -/

theorem eq_or_other (x z : Side) : z = x ∨ z = x.other := by
  cases x <;> cases z <;> simp [Side.other]

@[simp] theorem set_proc_self (S : System) (x : Side) (P : Process) : (S.set x P).proc x = P := by
  simp [set]

@[simp] theorem set_proc_other (S : System) (x : Side) (P : Process) :
    (S.set x P).proc x.other = S.proc x.other := by
  simp [set]

@[simp] theorem set_other_proc (S : System) (x : Side) (P : Process) :
    (S.set x.other P).proc x = S.proc x := by
  simp [set]

@[simp] theorem withdrew_set (S : System) (x : Side) (P : Process) (z : Side) (k : Nat) :
    (S.set x P).Withdrew z k ↔ S.Withdrew z k := Iff.rfl

@[simp] theorem handled_self (S : System) (x : Side) (rest : List Packet) (P : Process)
    (links : List Link) : (S.handled x rest P links).proc x = { S.proc x with outgoing := rest } := by
  simp [handled, taken]

@[simp] theorem handled_other (S : System) (x : Side) (rest : List Packet) (P : Process)
    (links : List Link) : (S.handled x rest P links).proc x.other = P := by
  simp [handled]

/-- A socket, its descriptor and its mail are the same in two states. -/
structure SameAt (S S' : System) (x : Side) (n : Nat) : Prop where
  sock : (S'.proc x).socks n = (S.proc x).socks n
  descr : (S'.proc x).descr n = (S.proc x).descr n
  inbox : S'.inbox x n = S.inbox x n
  withdrew : S'.Withdrew x n ↔ S.Withdrew x n

/-- A connection does not see what happens to others. It is read off the two sockets, the packets to
and from them and the two transports, so a state that agrees there has the same connection. -/
theorem Projects.congr (h : S.Projects x n c) (hlinks : ∀ f, S'.Linked x n f ↔ S.Linked x n f)
    (hcut : ∀ z, S'.cut z = S.cut z) (hself : SameAt S S' x n) (hasks : S'.asks x n = S.asks x n)
    (hfar : ∀ f, S.Linked x n f → SameAt S S' x.other f) : S'.Projects x n c := by
  cases h with
  | before unanswered near far toFar toNear cutNear cutFar withdrew =>
      refine .before (fun f hf => unanswered f ((hlinks f).mp hf)) ?_ far ?_ ?_ ?_ ?_
        (withdrew.trans hself.withdrew.symm)
      · rwa [hself.sock, hself.descr, hcut]
      · rwa [hasks]
      · rwa [hself.inbox]
      · rwa [hcut]
      · rwa [hcut]
  | after f answered near far asked toFar toNear cutNear cutFar withdrew =>
      have hsame := hfar f answered
      refine .after f ((hlinks f).mpr answered) ?_ ?_ ?_ ?_ ?_ ?_ ?_ (withdrew.trans hself.withdrew.symm)
      · rwa [hself.sock, hself.descr, hcut]
      · rwa [hsame.sock, hsame.descr, hcut]
      · rwa [hasks]
      · rwa [hsame.inbox]
      · rwa [hself.inbox]
      · rwa [hcut]
      · rwa [hcut]

/-- Packets between two states of the system: some are taken from the front and some are
added at the back, and no half of the handshake is among them. -/
structure Traffic (l l' popped sent : List Packet) : Prop where
  kept : ∃ kept, l = popped ++ kept ∧ l' = kept ++ sent
  popped_ne : ∀ p ∈ popped, p.command ≠ .aCnxn
  sent_ne : ∀ p ∈ sent, p.command ≠ .aCnxn

theorem Traffic.mem {l l' popped sent : List Packet} (h : Traffic l l' popped sent) {p : Packet}
    (hp : p ∈ l') : p ∈ l ∨ p ∈ sent := by
  obtain ⟨kept, rfl, rfl⟩ := h.kept
  rcases List.mem_append.mp hp with hp | hp
  · exact Or.inl (List.mem_append_right popped hp)
  · exact Or.inr hp

theorem Traffic.ne_cnxn {l l' popped sent : List Packet} (h : Traffic l l' popped sent)
    (hl : ∀ p ∈ l, p.command ≠ .aCnxn) : ∀ p ∈ l', p.command ≠ .aCnxn := by
  intro p hp
  rcases h.mem hp with hp | hp
  · exact hl p hp
  · exact h.sent_ne p hp

/-- The handshake stays in front. -/
theorem Traffic.head {l popped sent l' rest : List Packet} {p : Packet} (h : Traffic l l' popped sent)
    (hl : l = p :: rest) (hp : p.command = .aCnxn) : l' = p :: (rest ++ sent) := by
  obtain ⟨kept, rfl, rfl⟩ := h.kept
  cases popped with
  | nil =>
      rw [List.nil_append] at hl
      rw [hl, List.cons_append]
  | cons q popped =>
      obtain ⟨rfl, -⟩ := List.cons.inj hl
      exact absurd hp (h.popped_ne q List.mem_cons_self)

/-- Ordinary traffic does not touch the handshake. A side that has not been heard of sends nothing,
and a side that has leaves its first packet, the greeting, in front of what it sends. -/
theorem speech_traffic (h : ∀ x, S.Silent x ∨ S.Spoken x)
    (hpump : ∀ z, (S'.proc z).pump = (S.proc z).pump)
    (honline : ∀ z, (S'.proc z).online = (S.proc z).online)
    (hlinks : ∀ z, S.Silent z → S'.links = [])
    (htraffic : ∀ z, ∃ popped sent, Traffic (S.proc z).outgoing (S'.proc z).outgoing popped sent ∧
      (S.Silent z → sent = [])) :
    ∀ x, S'.Silent x ∨ S'.Spoken x := by
  intro x
  obtain ⟨popped, sent, ht, hmute⟩ := htraffic x
  rcases h x with hs | hs
  · left
    obtain ⟨kept, hkept, hout⟩ := ht.kept
    have hnil : kept = [] := by
      rw [hs.outgoing] at hkept
      exact (List.append_eq_nil_iff.mp hkept.symm).2
    refine ⟨?_, hlinks x hs, ?_, ?_, ?_⟩
    · rw [hout, hnil, hmute hs, List.append_nil]
    · rw [honline, hs.other]
    · rw [hpump]
      exact hs.host
    · rw [honline]
      exact hs.device
  · right
    refine ⟨?_, ?_, ?_⟩
    · rw [hpump]
      exact hs.pump
    · intro hx
      obtain ⟨popped', sent', ht', -⟩ := htraffic .host
      rw [hpump]
      exact ⟨(hs.heard hx).1, ht'.ne_cnxn (hs.heard hx).2⟩
    · rw [honline, hpump]
      rcases hs.greets with ⟨p, rest, hout, hp, hrest, hother⟩ | ⟨hout, hother⟩
      · refine Or.inl ⟨p, rest ++ sent, ht.head hout hp, hp, ?_, hother⟩
        intro q hq
        rcases List.mem_append.mp hq with hq | hq
        · exact hrest q hq
        · exact ht.sent_ne q hq
      · exact Or.inr ⟨ht.ne_cnxn hout, hother⟩

/-- The shape of a state in which only packets have come and gone. What is new in a queue is neither
a greeting nor a request, and is addressed to a socket that exists. -/
theorem Shape.congr (h : S.Shape) (hlinks : S'.links = S.links) (hwithdrew : S'.withdrawn = S.withdrawn)
    (hcount : ∀ z, (S'.proc z).count = (S.proc z).count)
    (hbeyond : ∀ z fd, (S.proc z).count ≤ fd → (S'.proc z).socks fd = none)
    (hout : ∀ z, ∀ p ∈ (S'.proc z).outgoing, p ∈ (S.proc z).outgoing ∨
      (p.command ≠ .aSync ∧ p.command ≠ .aOpen ∧
        ∀ id, p.addr = some id → ∃ fd, fd < (S.proc z.other).count ∧ id = idOf fd)) : S'.Shape := by
  have hlinked : ∀ z m f, S'.Linked z m f ↔ S.Linked z m f := by
    intro z m f
    rw [Linked, Linked, hlinks]
  have hnear : ∀ z m, S'.IsNear z m ↔ S.IsNear z m := by
    intro z m
    simp only [IsNear, hcount, hlinked]
  refine ⟨?_, ?_, ?_, ?_, ?_, ?_, ?_, ?_, ?_⟩
  · intro z fd hfd
    exact hbeyond z fd (hcount z ▸ hfd)
  · intro z p hp
    rcases hout z p hp with hp | ⟨hp, -, -⟩
    · exact h.no_sync z p hp
    · exact hp
  · intro z p hp id hid
    rw [hcount]
    rcases hout z p hp with hp | ⟨-, -, hp⟩
    · exact h.addressed z p hp id hid
    · exact hp id hid
  · intro z p hp hopen
    simp only [hnear]
    rcases hout z p hp with hp | ⟨-, hp, -⟩
    · exact h.asking z p hp hopen
    · exact absurd hopen hp
  · simpa only [hlinked, hnear] using h.near
  · simpa only [hlinked, hcount] using h.far
  · simpa only [hlinked] using h.one_far
  · simpa only [hlinked] using h.one_near
  · simpa only [hnear, Withdrew, hwithdrew] using h.withdrew

/-! ### A callback of one socket -/

/-- A callback of the socket of a descriptor has been run, for a packet or without one. -/
def touch (S : System) (x : Side) (n : Nat) (a : After) (rest : List Packet) : System :=
  (S.taken x.other rest).set x ((S.proc x).put n a)

section touch

variable {a : After} {popped rest : List Packet}

theorem touch_same (S : System) (x : Side) (n : Nat) (a : After) :
    S.touch x n a (S.proc x.other).outgoing = S.set x ((S.proc x).put n a) := by
  have htaken : S.taken x.other (S.proc x.other).outgoing = S := by
    rw [taken, set, Function.update_eq_self]
  rw [touch, htaken]

@[simp] theorem touch_self (S : System) (x : Side) (n : Nat) (a : After) (rest : List Packet) :
    (S.touch x n a rest).proc x = (S.proc x).put n a := by
  simp [touch]

@[simp] theorem touch_other (S : System) (x : Side) (n : Nat) (a : After) (rest : List Packet) :
    (S.touch x n a rest).proc x.other = { S.proc x.other with outgoing := rest } := by
  simp [touch, taken]

theorem touch_pump (S : System) (x : Side) (n : Nat) (a : After) (rest : List Packet) (z : Side) :
    ((S.touch x n a rest).proc z).pump = (S.proc z).pump := by
  rcases eq_or_other x z with rfl | rfl
  · rw [touch_self]
    rfl
  · rw [touch_other]

theorem touch_online (S : System) (x : Side) (n : Nat) (a : After) (rest : List Packet) (z : Side) :
    ((S.touch x n a rest).proc z).online = (S.proc z).online := by
  rcases eq_or_other x z with rfl | rfl
  · rw [touch_self]
    rfl
  · rw [touch_other]

theorem touch_count (S : System) (x : Side) (n : Nat) (a : After) (rest : List Packet) (z : Side) :
    ((S.touch x n a rest).proc z).count = (S.proc z).count := by
  rcases eq_or_other x z with rfl | rfl
  · rw [touch_self]
    rfl
  · rw [touch_other]

theorem touch_cut (S : System) (x : Side) (n : Nat) (a : After) (rest : List Packet) (z : Side) :
    (S.touch x n a rest).cut z = S.cut z := by
  rw [cut, cut, touch_pump]

/-- What the callback adds to the packets under way. -/
def added (S : System) (x : Side) (a : After) : List Packet :=
  if (S.proc x).pump = .up then a.sent else []

theorem mem_added {p : Packet} (h : p ∈ S.added x a) : p ∈ a.sent := by
  rw [added] at h
  split at h
  · exact h
  · cases h

theorem touch_outgoing (S : System) (x : Side) (n : Nat) (a : After) (rest : List Packet) :
    ((S.touch x n a rest).proc x).outgoing = (S.proc x).outgoing ++ S.added x a := by
  rw [touch_self]
  rfl

theorem inbox_touch_other (S : System) (x : Side) (n : Nat) (a : After) (rest : List Packet) (k : Nat) :
    (S.touch x n a rest).inbox x.other k =
      S.inbox x.other k ++ (S.added x a).filter fun p => p.addr == some (idOf k) := by
  rw [inbox, inbox, Side.other_other, touch_outgoing, List.filter_append]

theorem inbox_touch_self (hout : (S.proc x.other).outgoing = popped ++ rest) (k : Nat) :
    S.inbox x k = (popped.filter fun p => p.addr == some (idOf k)) ++ (S.touch x n a rest).inbox x k := by
  rw [inbox, inbox, touch_other, hout, List.filter_append]

theorem asks_touch_self (hsent : ∀ p ∈ a.sent, p.asker = none) (k : Nat) :
    (S.touch x n a rest).asks x k = S.asks x k := by
  rw [asks, asks, touch_outgoing, List.filter_append,
    filter_asker fun p hp => hsent p (mem_added hp), List.append_nil]

theorem asks_touch_other (hout : (S.proc x.other).outgoing = popped ++ rest)
    (hpop : ∀ p ∈ popped, p.asker = none) (k : Nat) :
    (S.touch x n a rest).asks x.other k = S.asks x.other k := by
  rw [asks, asks, touch_other, hout, List.filter_append, filter_asker hpop, List.nil_append]

/-- A callback leaves every socket as it is but its own, and every mail but its own and that
of those it sends to. -/
theorem sameAt_touch (fits : S.Fits) (hout : (S.proc x.other).outgoing = popped ++ rest)
    (hpop : ∀ p ∈ popped, p.addr = some (idOf n)) (hn : n < (S.proc x).count)
    (hk : k < (S.proc y).count) (hself : y = x → k ≠ n)
    (hsent : y = x.other → ∀ p ∈ a.sent, p.addr ≠ some (idOf k)) :
    SameAt S (S.touch x n a rest) y k := by
  rcases eq_or_other x y with rfl | rfl
  · have hne := hself rfl
    refine ⟨?_, ?_, ?_, Iff.rfl⟩
    · rw [touch_self]
      exact Function.update_of_ne hne _ _
    · rw [touch_self]
      exact Function.update_of_ne hne _ _
    · have hid : idOf n ≠ idOf k := by
        intro h
        have hcount := fits y
        exact hne (idOf_inj (by omega) (by omega) h).symm
      rw [inbox_touch_self hout, filter_addr hpop, if_neg hid, List.nil_append]
  · refine ⟨by rw [touch_other], by rw [touch_other], ?_, Iff.rfl⟩
    rw [inbox_touch_other, List.filter_eq_nil_iff.mpr, List.append_nil]
    intro p hp
    simpa using hsent rfl p (mem_added hp)

/-- The connection of the socket of a descriptor, by the one that asked for it. -/
def Owns (S : System) (z : Side) (m : Nat) (x : Side) (n : Nat) : Prop :=
  (z = x ∧ m = n) ∨ (z = x.other ∧ S.Linked x.other m n)

theorem Shape.partner_lt (h : S.Shape) (hk : S.Linked x n k ∨ S.Linked x.other k n) :
    k < (S.proc x.other).count := by
  rcases hk with hk | hk
  · exact h.far x n k hk
  · exact (h.near x.other k n hk).1

section partner

variable (h : S.Inv) (fits : S.Fits) (hn : n < (S.proc x).count)
  (hout : (S.proc x.other).outgoing = popped ++ rest) (hpop : ∀ p ∈ popped, p.addr = some (idOf n))
  (hsent : ∀ p ∈ a.sent, ∃ k, p.addr = some (idOf k) ∧ (S.Linked x n k ∨ S.Linked x.other k n))
include h hout hsent

include hn in
theorem Inv.touch_shape : (S.touch x n a rest).Shape := by
  refine h.shape.congr rfl rfl (touch_count S x n a rest) ?_ ?_
  · intro z fd hfd
    have hnone := h.shape.beyond z fd hfd
    rcases eq_or_other x z with rfl | rfl
    · rw [touch_self]
      exact (Function.update_of_ne (by omega) _ _).trans hnone
    · rwa [touch_other]
  · intro z p hp
    rcases eq_or_other x z with rfl | rfl
    · rw [touch_outgoing] at hp
      refine (List.mem_append.mp hp).imp_right fun hp => ?_
      obtain ⟨k, haddr, hk⟩ := hsent p (mem_added hp)
      refine ⟨Packet.ne_sync_of_addr haddr, Packet.ne_open_of_addr haddr,
        fun id hid => ⟨k, h.shape.partner_lt hk, ?_⟩⟩
      exact Option.some.inj (hid.symm.trans haddr)
    · rw [touch_other] at hp
      rw [hout]
      exact Or.inl (List.mem_append_right popped hp)

include hpop in
theorem Inv.touch_speech (z : Side) :
    (S.touch x n a rest).Silent z ∨ (S.touch x n a rest).Spoken z := by
  refine speech_traffic h.speech (touch_pump S x n a rest) (touch_online S x n a rest)
    (fun z hz => hz.links) (fun z => ?_) z
  rcases eq_or_other x z with rfl | rfl
  · refine ⟨[], S.added z a, ⟨⟨_, rfl, touch_outgoing S z n a rest⟩, by simp, ?_⟩, ?_⟩
    · intro p hp
      obtain ⟨k, haddr, -⟩ := hsent p (mem_added hp)
      exact Packet.ne_cnxn_of_addr haddr
    · intro hsilent
      refine List.eq_nil_iff_forall_not_mem.mpr fun p hp => ?_
      obtain ⟨k, -, hk⟩ := hsent p (mem_added hp)
      simp [Linked, hsilent.links] at hk
  · refine ⟨popped, [], ⟨⟨rest, hout, ?_⟩, ?_, by simp⟩, fun _ => rfl⟩
    · rw [touch_other, List.append_nil]
    · exact fun p hp => Packet.ne_cnxn_of_addr (hpop p hp)

include fits hn hpop in
/-- **A callback concerns one connection.** If it sends to its partner only, all the others
are as they were. -/
theorem Inv.touch (hconn : ∀ z m, S.IsNear z m → S.Owns z m x n →
      ∃ c : Conn UInt8, c.Reachable ∧ (S.touch x n a rest).Projects z m c) :
    (S.touch x n a rest).Inv := by
  have hasker : ∀ p ∈ a.sent, p.asker = none := by
    intro p hp
    obtain ⟨k, hk, -⟩ := hsent p hp
    exact Packet.asker_of_addr hk
  refine ⟨h.touch_shape hn hout hsent, h.touch_speech hout hpop hsent, fun z m hz => ?_⟩
  have hz : S.IsNear z m := by
    rw [IsNear, touch_count] at hz
    exact hz
  by_cases howns : S.Owns z m x n
  · exact hconn z m hz howns
  obtain ⟨c, hc, hproj⟩ := h.conns z m hz
  refine ⟨c, hc, hproj.congr (fun _ => Iff.rfl) (touch_cut S x n a rest) ?_ ?_ ?_⟩
  · refine sameAt_touch fits hout hpop hn hz.1 (fun hzx hmn => howns (Or.inl ⟨hzx, hmn⟩)) ?_
    rintro rfl p hp haddr
    obtain ⟨k, hk, hlink⟩ := hsent p hp
    have hcount := fits x.other
    have hk' := h.shape.partner_lt hlink
    have hm := hz.1
    obtain rfl : k = m := idOf_inj (by omega) (by omega) (Option.some.inj (hk.symm.trans haddr))
    rcases hlink with hlink | hlink
    · rw [IsNear, Side.other_other] at hz
      exact hz.2 n hlink
    · exact howns (Or.inr ⟨rfl, hlink⟩)
  · rcases eq_or_other x z with rfl | rfl
    · exact asks_touch_self hasker m
    · exact asks_touch_other hout (fun p hp => Packet.asker_of_addr (hpop p hp)) m
  · intro f hf
    have hfar := h.shape.far z m f hf
    refine sameAt_touch fits hout hpop hn hfar ?_ ?_
    · rintro rfl rfl
      rw [Owns, Side.other_other] at howns
      exact howns (Or.inr ⟨rfl, hf⟩)
    · intro hzx p hp haddr
      obtain rfl : z = x := by rw [← Side.other_other z, hzx, Side.other_other]
      obtain ⟨k, hk, hlink⟩ := hsent p hp
      have hcount := fits z.other
      have hk' := h.shape.partner_lt hlink
      obtain rfl : k = f := idOf_inj (by omega) (by omega) (Option.some.inj (hk.symm.trans haddr))
      rcases hlink with hlink | hlink
      · exact howns (Or.inl ⟨rfl, h.shape.one_near z m n k hf hlink⟩)
      · have hnear := (h.shape.near z.other k n hlink).2 m
        rw [Side.other_other] at hnear
        exact hnear hf

end partner

/-- A socket as one end of its connection, with its mail, and how the system goes on when it
makes some steps. -/
structure Seat (S : System) (x : Side) (n : Nat) (other : UInt32) (greet : Greeting) (e : End UInt8)
    (inbox : List (Msg UInt8)) : Prop where
  shows : Shows (idOf n) other greet (S.cut x) ((S.proc x).socks n) ((S.proc x).descr n) e
  mail : S.inbox x n = inbox.map (packetOf other (idOf n))
  expects : ∀ m rest, inbox = m :: rest → e.Expects m
  up : e.phase = .linked → (S.proc x).pump = .up
  moves : ∀ {a : After} {popped rest : List Packet} {e' : End UInt8} {inbox' out : List (Msg UInt8)},
    (S.proc x.other).outgoing = popped ++ rest → (∀ p ∈ popped, p.addr = some (idOf n)) →
    (S.touch x n a rest).inbox x n = inbox'.map (packetOf other (idOf n)) →
    End.Steps e inbox (S.cut x) e' inbox' (S.cut x) out → (e.phase ≠ .linked → out = []) →
    Shows (idOf n) other greet (S.cut x) a.sock a.descr e' → a.sent = out.map (packetOf (idOf n) other) →
    (S.touch x n a rest).Inv

theorem Inv.pump_up (h : S.Inv) (hcut : S.cut x = false) (hlinks : S.links ≠ []) :
    (S.proc x).pump = .up := by
  have hidle : (S.proc x).pump ≠ .idle := by
    rcases h.speech x with hs | hs
    · exact absurd hs.links hlinks
    · exact hs.pump
  have hdown : (S.proc x).pump ≠ .down := by simpa [cut] using hcut
  cases hp : (S.proc x).pump with
  | idle => exact absurd hp hidle
  | up => rfl
  | down => exact absurd hp hdown

theorem added_eq {e : End UInt8} {out : List (Msg UInt8)} {self other : UInt32}
    (hup : e.phase = .linked → (S.proc x).pump = .up) (hmute : e.phase ≠ .linked → out = [])
    (hsent : a.sent = out.map (packetOf self other)) : S.added x a = out.map (packetOf self other) := by
  rw [added, ← hsent]
  by_cases hp : e.phase = .linked
  · rw [if_pos (hup hp)]
  · rw [hsent, hmute hp, List.map_nil, ite_self]

theorem addr_of_mem_sent {out : List (Msg UInt8)} {self other : UInt32} (hask : .ask ∉ out)
    {p : Packet} (hp : p ∈ out.map (packetOf self other)) : p.addr = some other := by
  obtain ⟨m, hm, rfl⟩ := List.mem_map.mp hp
  exact Packet.addr_packetOf fun heq => hask (heq ▸ hm)

/-- A message for the partner, as its inbox shows it. -/
theorem inbox_touch_partner {out : List (Msg UInt8)} (hask : .ask ∉ out)
    (hadded : S.added x a = out.map (packetOf (idOf n) (idOf k))) :
    (S.touch x n a rest).inbox x.other k =
      S.inbox x.other k ++ out.map (packetOf (idOf n) (idOf k)) := by
  rw [inbox_touch_other, hadded, filter_addr fun p hp => addr_of_mem_sent hask hp, if_pos rfl]

theorem Inv.seat_near (h : S.Inv) (fits : S.Fits) (hn : S.IsNear x n) (hc : c.Reachable)
    (hproj : S.Projects x n c) :
    ∃ other, S.Seat x n other Status c.near c.toNear := by
  have inv := hc.inv
  have howner : ∀ z m, S.Owns z m x n → z = x ∧ m = n := by
    rintro z m (⟨rfl, rfl⟩ | ⟨rfl, hlink⟩)
    · exact ⟨rfl, rfl⟩
    · exact absurd hlink (hn.2 m)
  cases hproj with
  | before unanswered near far toFar toNear cutNear cutFar withdrew =>
      -- Nobody is there yet, and nothing can be sent.
      have hphase : c.near.phase ≠ .linked := (inv.stage.before (by rw [far]; rfl)).1
      refine ⟨0, near, toNear, fun m rest hm => inv.near_expects hm, fun hp => absurd hp hphase, ?_⟩
      intro a popped rest e' inbox' out hout hpop hmail hsteps hmute hshows hsent
      obtain rfl := hmute hphase
      rw [List.map_nil] at hsent
      refine h.touch fits hn.1 hout hpop (by simp [hsent]) ?_
      rintro z m - howns
      obtain ⟨rfl, rfl⟩ := howner z m howns
      rw [← cutNear] at hsteps
      refine ⟨_, hc.trans (Conn.near_steps hsteps), .before unanswered ?_ far ?_ hmail ?_ ?_
        (hsteps.withdrawn_iff.trans withdrew)⟩
      · rwa [touch_cut, touch_self, Process.put_socks, Process.put_descr, Function.update_self,
          Function.update_self]
      · rwa [asks_touch_self (by simp [hsent]), List.append_nil]
      · rwa [touch_cut]
      · rwa [touch_cut]
  | after f answered near far asked toFar toNear cutNear cutFar withdrew =>
      have hup : c.near.phase = .linked → (S.proc x).pump = .up := fun hp =>
        h.pump_up (cutNear ▸ (inv.out.silent hp).1) (List.ne_nil_of_mem answered)
      refine ⟨idOf f, near, toNear, fun m rest hm => inv.near_expects hm, hup, ?_⟩
      intro a popped rest e' inbox' out hout hpop hmail hsteps hmute hshows hsent
      have hask := hsteps.ask_notMem
      have haddr : ∀ p ∈ a.sent, p.addr = some (idOf f) := fun p hp =>
        addr_of_mem_sent hask (hsent ▸ hp)
      refine h.touch fits hn.1 hout hpop (fun p hp => ⟨f, haddr p hp, Or.inl answered⟩) ?_
      rintro z m - howns
      obtain ⟨rfl, rfl⟩ := howner z m howns
      rw [← cutNear] at hsteps
      refine ⟨_, hc.trans (Conn.near_steps hsteps), .after f answered ?_ ?_ ?_ ?_ hmail ?_ ?_
        (hsteps.withdrawn_iff.trans withdrew)⟩
      · rwa [touch_cut, touch_self, Process.put_socks, Process.put_descr, Function.update_self,
          Function.update_self]
      · rwa [touch_cut, touch_other]
      · rwa [asks_touch_self fun p hp => Packet.asker_of_addr (haddr p hp)]
      · rw [inbox_touch_partner hask (added_eq hup hmute hsent), toFar, List.map_append]
      · rwa [touch_cut]
      · rwa [touch_cut]

theorem Inv.seat_far (h : S.Inv) (fits : S.Fits) (hm : S.IsNear x.other m) (hlink : S.Linked x.other m n)
    (hc : c.Reachable) (hproj : S.Projects x.other m c) :
    S.Seat x n (idOf m) (· = []) c.far c.toFar := by
  have inv := hc.inv
  have hn : n < (S.proc x).count := by
    have hfar := h.shape.far x.other m n hlink
    rwa [Side.other_other] at hfar
  cases hproj with
  | before unanswered => exact absurd hlink (unanswered n)
  | after f answered near far asked toFar toNear cutNear cutFar withdrew =>
      obtain rfl := h.shape.one_far x.other m f n answered hlink
      rw [Side.other_other] at far toFar cutFar
      have hup : c.far.phase = .linked → (S.proc x).pump = .up := fun hp =>
        h.pump_up (cutFar ▸ (inv.back.silent hp).1) (List.ne_nil_of_mem answered)
      refine ⟨far, toFar, fun m rest hm => inv.far_expects hm far.there, hup, ?_⟩
      intro a popped rest e' inbox' out hout hpop hmail hsteps hmute hshows hsent
      have hask := hsteps.ask_notMem
      have haddr : ∀ p ∈ a.sent, p.addr = some (idOf m) := fun p hp =>
        addr_of_mem_sent hask (hsent ▸ hp)
      refine h.touch fits hn hout hpop (fun p hp => ⟨m, haddr p hp, Or.inr answered⟩) ?_
      intro z k hk howns
      obtain ⟨rfl, rfl⟩ : z = x.other ∧ k = m := by
        rcases howns with ⟨rfl, rfl⟩ | ⟨rfl, hlink'⟩
        · exact absurd answered (hk.2 m)
        · exact ⟨rfl, h.shape.one_near x.other k m f hlink' answered⟩
      rw [← cutFar] at hsteps
      refine ⟨_, hc.trans (Conn.far_steps hsteps), .after f answered ?_ ?_ ?_ ?_ ?_ ?_ ?_ withdrew⟩
      · rwa [touch_cut, touch_other]
      · rwa [Side.other_other, touch_cut, touch_self, Process.put_socks, Process.put_descr,
          Function.update_self, Function.update_self]
      · rwa [asks_touch_other hout fun p hp => Packet.asker_of_addr (hpop p hp)]
      · rwa [Side.other_other]
      · rw [inbox_touch_partner hask (added_eq hup hmute hsent), toNear, List.map_append]
      · rwa [touch_cut]
      · rwa [Side.other_other, touch_cut]

/-- Every socket that was ever installed has its place in a connection. -/
theorem Inv.seat (h : S.Inv) (fits : S.Fits) (hn : n < (S.proc x).count) :
    ∃ other greet e inbox, S.Seat x n other greet e inbox := by
  by_cases hfar : ∃ m, S.Linked x.other m n
  · obtain ⟨m, hlink⟩ := hfar
    have hm := h.shape.near x.other m n hlink
    obtain ⟨c, hc, hproj⟩ := h.conns x.other m hm
    exact ⟨_, _, _, _, h.seat_far fits hm hlink hc hproj⟩
  · have hnear : S.IsNear x n := ⟨hn, not_exists.mp hfar⟩
    obtain ⟨c, hc, hproj⟩ := h.conns x n hnear
    obtain ⟨other, hseat⟩ := h.seat_near fits hnear hc hproj
    exact ⟨other, _, _, _, hseat⟩

end touch

section steps

variable {a : After} {s : Sock} {calls : Calls} {p : Packet} {rest : List Packet}

theorem Shape.installed (h : S.Shape) (hs : (S.proc x).socks n = some s) : n < (S.proc x).count := by
  by_contra hle
  rw [h.beyond x n (not_lt.mp hle)] at hs
  cases hs

theorem inbox_touch_same (S : System) (x : Side) (n : Nat) (a : After) :
    (S.touch x n a (S.proc x.other).outgoing).inbox x n = S.inbox x n := by
  rw [inbox, inbox, touch_other]

theorem Inv.event (h : S.Inv) (fits : S.Fits) {ev : Events} (can : (S.proc x).CanEvent n ev s)
    (run : localSocketEventFunc ev s ((S.proc x).descr n) calls = some a) :
    (S.set x ((S.proc x).put n a)).Inv := by
  obtain ⟨hs, hread, hwrite⟩ := can
  obtain ⟨other, greet, e, inbox, seat⟩ := h.seat fits (h.shape.installed hs)
  have hshows := seat.shows
  rw [hs] at hshows
  obtain ⟨e', out, hsteps, hshows', hsent⟩ := hshows.event hread hwrite run
  rw [← touch_same]
  refine seat.moves (List.nil_append _).symm (by simp) ?_ (hsteps inbox) (fun hp => (hsteps []).mute hp)
    hshows' hsent
  rw [inbox_touch_same, seat.mail]

/-- With the transport down, only a socket that never got an answer is left to close. -/
theorem Inv.reap_asking (h : S.Inv) (fits : S.Fits) (can : (S.proc x).CanReap n s) :
    ∃ other greet e inbox, S.Seat x n other greet e inbox ∧
      Shows (idOf n) other greet (S.cut x) (some s) ((S.proc x).descr n) e ∧ e.phase = .asking := by
  obtain ⟨hdown, hs, hopen, -⟩ := can
  obtain ⟨other, greet, e, inbox, seat⟩ := h.seat fits (h.shape.installed hs)
  have hshows := seat.shows
  rw [hs] at hshows
  refine ⟨other, greet, e, inbox, seat, hshows, (hshows.live_of_open hopen).resolve_right fun hp => ?_⟩
  have hup := seat.up hp
  rw [hdown] at hup
  cases hup

theorem Inv.reap (h : S.Inv) (fits : S.Fits) (can : (S.proc x).CanReap n s)
    (run : localSocketCloseLocked s ((S.proc x).descr n) = some a) :
    (S.set x ((S.proc x).put n a)).Inv := by
  obtain ⟨other, greet, e, inbox, seat, hshows, hp⟩ := h.reap_asking fits can
  obtain ⟨hclose, hgone⟩ := hshows.reap hp
  rw [hclose] at run
  cases run
  have hcut : S.cut x = true := by simp [cut, can.1]
  have hsteps : e.Steps inbox (S.cut x) { e with phase := .gone } inbox (S.cut x) [] := by
    rw [hcut]
    exact (End.Step.giveUp hp).steps
  rw [← touch_same]
  refine seat.moves (List.nil_append _).symm (by simp) ?_ hsteps (fun _ => rfl) hgone rfl
  rw [inbox_touch_same, seat.mail]

/-- Whoever handles a packet other than the handshake is online. -/
theorem Inv.online (h : S.Inv) (hout : (S.proc x).outgoing = p :: rest)
    (hup : (S.proc x.other).pump = .up) (hp : p.command ≠ .aCnxn) : (S.proc x.other).online = true := by
  rcases h.speech x with hs | hs
  · rw [hs.outgoing] at hout
    cases hout
  · rcases hs.greets with ⟨q, rest', hout', hq, -⟩ | ⟨-, honline | hdown⟩
    · rw [hout] at hout'
      cases hout'
      exact absurd hq hp
    · exact honline
    · rw [hup] at hdown
      cases hdown

/-- A packet for a socket finds that socket, or one that has closed. Ids are not given twice while
the counter has not wrapped, so a socket found by an id is the one the id was given to. -/
theorem Inv.addressee (h : S.Inv) (fits : S.Fits) (hout : (S.proc x).outgoing = p :: rest) {id : UInt32}
    (hid : p.addr = some id) :
    ∃ n, n < (S.proc x.other).count ∧ id = idOf n ∧
      ((∃ s, (S.proc x.other).findLocalSocket id = some (n, s) ∧ (S.proc x.other).socks n = some s ∧
          s.closing = false) ∨
        ((S.proc x.other).findLocalSocket id = none ∧
          ∀ s, (S.proc x.other).socks n = some s → s.id = idOf n → s.closing = true)) := by
  obtain ⟨n, hn, rfl⟩ := h.shape.addressed x p (by rw [hout]; exact List.mem_cons_self) id hid
  refine ⟨n, hn, rfl, ?_⟩
  cases hfind : (S.proc x.other).findLocalSocket (idOf n) with
  | none => exact Or.inr ⟨rfl, fun s hs => Process.findLocalSocket_eq_none hfind hn hs⟩
  | some found =>
      obtain ⟨m, s⟩ := found
      obtain ⟨hm, hs, hopen, hsid⟩ := Process.findLocalSocket_eq_some hfind
      obtain ⟨other, greet, e, inbox, seat⟩ := h.seat fits hm
      have hshows := seat.shows
      rw [hs] at hshows
      have hcount := fits x.other
      obtain rfl : m = n := idOf_inj (by omega) (by omega) ((hshows.id_eq hopen).symm.trans hsid)
      exact Or.inl ⟨s, rfl, hs, hopen⟩

theorem handlePacket_addr {host : Bool} {service : Bool} {id : UInt32} (hid : p.addr = some id)
    (honline : P.online = true) :
    P.handlePacket host p service calls =
      match P.findLocalSocket id with
      | some (fd, s) => (s.receive (P.descr fd) p calls).map (P.put fd)
      | none => some P := by
  cases hfind : P.findLocalSocket id <;> cases hc : p.command <;> simp [Packet.addr, hc] at hid <;>
    simp only [Process.handlePacket, hc, honline, hid, hfind, if_true]

theorem deliver_eq_touch {service : Bool} (hp : p.command ≠ .aOpen) (n : Nat) (a : After) :
    S.handled x rest ((S.proc x.other).put n a) (S.newLinks x p service) = S.touch x.other n a rest := by
  rw [touch, Side.other_other, newLinks, if_neg fun hopen => hp hopen.1]
  rfl

/-- The first message of an inbox, when the first packet is for it. -/
theorem Seat.head {other : UInt32} {greet : Greeting} {e : End UInt8} {inbox : List (Msg UInt8)}
    (seat : S.Seat x.other n other greet e inbox) (hout : (S.proc x).outgoing = p :: rest)
    (hid : p.addr = some (idOf n)) :
    ∃ m inbox', inbox = m :: inbox' ∧ p = packetOf other (idOf n) m ∧
      ∀ a, (S.touch x.other n a rest).inbox x.other n = inbox'.map (packetOf other (idOf n)) := by
  have hmail := seat.mail
  rw [System.inbox, Side.other_other, hout, List.filter_cons_of_pos (by simp [hid])] at hmail
  obtain ⟨m, inbox', rfl, hm, hrest⟩ := List.map_eq_cons_iff.mp hmail.symm
  refine ⟨m, inbox', rfl, hm.symm, fun a => ?_⟩
  rw [System.inbox, touch_other, hrest]

/-- **A packet for a socket** is a message heard by its end of the connection. Where
`find_local_socket` finds nothing the packet is dropped, and the end, which is over, ignores the
message. -/
theorem Inv.deliver_addressed (h : S.Inv) (fits : S.Fits) (hout : (S.proc x).outgoing = p :: rest)
    (hup : (S.proc x.other).pump = .up) {service : Bool} {id : UInt32} (hid : p.addr = some id)
    (run : (S.proc x.other).handlePacket x.other.isHost p service calls = some P) :
    (S.handled x rest P (S.newLinks x p service)).Inv := by
  have hpop : (S.proc x.other.other).outgoing = [p] ++ rest := by
    rw [Side.other_other]
    exact hout
  have hcut : S.cut x.other = false := by simp [cut, hup]
  have honline := h.online hout hup (Packet.ne_cnxn_of_addr hid)
  obtain ⟨n, hn, rfl, hfind⟩ := h.addressee fits hout hid
  obtain ⟨other, greet, e, inbox, seat⟩ := h.seat fits hn
  obtain ⟨m, inbox', rfl, rfl, hmail⟩ := seat.head hout hid
  have haddr : ∀ q ∈ [packetOf other (idOf n) m], q.addr = some (idOf n) := by simpa using hid
  have hshows := seat.shows
  rw [handlePacket_addr hid honline] at run
  rcases hfind with ⟨s, hfind, hs, hopen⟩ | ⟨hfind, hclosed⟩
  · rw [hfind] at run
    obtain ⟨a, hreceive, rfl⟩ := Option.map_eq_some_iff.mp run
    rw [hs, hcut] at hshows
    obtain ⟨e', out, hstep, hshows', hsent⟩ := hshows.receive hopen (seat.expects m inbox' rfl) hreceive
    rw [← hcut] at hstep hshows'
    rw [deliver_eq_touch (Packet.ne_open_of_addr hid)]
    exact seat.moves hpop haddr (hmail a) (hstep inbox').steps (fun hp => (hstep inbox').mute hp)
      hshows' hsent
  · rw [hfind] at run
    cases run
    rw [← Process.put_same (S.proc x.other) n, deliver_eq_touch (Packet.ne_open_of_addr hid)]
    refine seat.moves hpop haddr (hmail _) ?_ (fun _ => rfl) hshows rfl
    rw [hcut]
    exact (End.Step.ignore (hshows.over_of_closed hclosed)).steps

end steps

/-! ### The handshake -/

section handshake

variable {p : Packet} {popped kept sent rest : List Packet} {calls : Calls}

theorem filter_of_ends {q : Packet → Bool} (hpop : ∀ p ∈ popped, q p = false)
    (hsent : ∀ p ∈ sent, q p = false) : (kept ++ sent).filter q = (popped ++ kept).filter q := by
  have hpopped : popped.filter q = [] := List.filter_eq_nil_iff.mpr (by simpa using hpop)
  have hnew : sent.filter q = [] := List.filter_eq_nil_iff.mpr (by simpa using hsent)
  rw [List.filter_append, List.filter_append, hpopped, hnew, List.append_nil, List.nil_append]

theorem inbox_congr (hout : (S.proc y.other).outgoing = popped ++ kept)
    (hout' : (S'.proc y.other).outgoing = kept ++ sent) (hpop : ∀ p ∈ popped, p.addr ≠ some (idOf k))
    (hsent : ∀ p ∈ sent, p.addr ≠ some (idOf k)) : S'.inbox y k = S.inbox y k := by
  rw [inbox, inbox, hout, hout']
  exact filter_of_ends (by simpa using hpop) (by simpa using hsent)

theorem asks_congr (hout : (S.proc y).outgoing = popped ++ kept)
    (hout' : (S'.proc y).outgoing = kept ++ sent) (hpop : ∀ p ∈ popped, p.asker ≠ some (idOf k))
    (hsent : ∀ p ∈ sent, p.asker ≠ some (idOf k)) : S'.asks y k = S.asks y k := by
  rw [asks, asks, hout, hout']
  exact filter_of_ends (by simpa using hpop) (by simpa using hsent)

/-- The connections do not see the handshake: `CNXN` packets have no address and ask for nothing, so
no inbox and no request changes when they come and go. -/
theorem Inv.greet (h : S.Inv) (hlinks : S'.links = S.links) (hwithdrew : S'.withdrawn = S.withdrawn)
    (hcount : ∀ z, (S'.proc z).count = (S.proc z).count)
    (hsocks : ∀ z, (S'.proc z).socks = (S.proc z).socks)
    (hdescr : ∀ z, (S'.proc z).descr = (S.proc z).descr) (hcut : ∀ z, S'.cut z = S.cut z)
    (hout : ∀ z, ∃ popped kept sent, (S.proc z).outgoing = popped ++ kept ∧
      (S'.proc z).outgoing = kept ++ sent ∧ (∀ p ∈ popped, p.command = .aCnxn) ∧
      ∀ p ∈ sent, p.command = .aCnxn)
    (hspeech : ∀ x, S'.Silent x ∨ S'.Spoken x) : S'.Inv := by
  have haddr : ∀ {ps : List Packet} (k : Nat), (∀ p ∈ ps, p.command = .aCnxn) →
      ∀ p ∈ ps, p.addr ≠ some (idOf k) := by
    intro ps k hps p hp
    simp [Packet.addr, hps p hp]
  have hasker : ∀ {ps : List Packet} (k : Nat), (∀ p ∈ ps, p.command = .aCnxn) →
      ∀ p ∈ ps, p.asker ≠ some (idOf k) := by
    intro ps k hps p hp
    simp [Packet.asker, hps p hp]
  have hsame : ∀ z k, SameAt S S' z k := by
    intro z k
    obtain ⟨popped, kept, sent, hold, hnew, hpop, hsent⟩ := hout z.other
    exact ⟨by rw [hsocks], by rw [hdescr],
      inbox_congr hold hnew (haddr k hpop) (haddr k hsent), by rw [Withdrew, Withdrew, hwithdrew]⟩
  refine ⟨?_, hspeech, ?_⟩
  · refine h.shape.congr hlinks hwithdrew hcount ?_ ?_
    · intro z fd hfd
      rw [hsocks]
      exact h.shape.beyond z fd hfd
    · intro z p hp
      obtain ⟨popped, kept, sent, hold, hnew, -, hsent⟩ := hout z
      rw [hnew] at hp
      rw [hold]
      rcases List.mem_append.mp hp with hp | hp
      · exact Or.inl (List.mem_append_right popped hp)
      · exact Or.inr ⟨by simp [hsent p hp], by simp [hsent p hp], by simp [Packet.addr, hsent p hp]⟩
  · intro z m hz
    have hz' : S.IsNear z m := by
      simpa only [IsNear, hcount, Linked, hlinks] using hz
    obtain ⟨c, hc, hproj⟩ := h.conns z m hz'
    obtain ⟨popped, kept, sent, hold, hnew, hpop, hsent⟩ := hout z
    exact ⟨c, hc, hproj.congr (fun f => by rw [Linked, Linked, hlinks]) hcut (hsame z m)
      (asks_congr hold hnew (hasker m hpop) (hasker m hsent)) fun f _ => hsame z.other f⟩

theorem Inv.silent_of_idle (h : S.Inv) (hidle : (S.proc x).pump = .idle) : S.Silent x :=
  (h.speech x).resolve_right fun hs => hs.pump hidle

theorem Inv.up_host (h : S.Inv) (hidle : (S.proc .host).pump = .idle) {token : UInt32}
    (run : (S.proc .host).handlePacket true ⟨.aSync, 1, token, []⟩ false calls = some P) :
    (S.set .host P).Inv := by
  cases run
  have hhost := h.silent_of_idle hidle
  have hdevice : S.Silent .device := (h.speech .device).resolve_right fun hs => (hs.heard rfl).1 hidle
  refine h.greet rfl rfl ?_ ?_ ?_ ?_ ?_ ?_
  · rintro (_ | _) <;> simp [set]
  · rintro (_ | _) <;> simp [set]
  · rintro (_ | _) <;> simp [set]
  · rintro (_ | _) <;> simp [set, cut, hidle]
  · rintro (_ | _)
    · exact ⟨[], _, [Process.connectPacket true], rfl, by simp [Process.send_outgoing],
        by simp, by simp [Process.connectPacket]⟩
    · exact ⟨[], _, [], rfl, by simp [set], by simp, by simp⟩
  · rintro (_ | _)
    · right
      refine ⟨by simp, by simp, Or.inl ⟨Process.connectPacket true, [], ?_, rfl, by simp, ?_⟩⟩
      · simp [Process.send_outgoing, hhost.outgoing]
      · simpa using hhost.other
    · left
      exact ⟨hdevice.outgoing, hdevice.links, hdevice.other, by simp, hdevice.device⟩

theorem Inv.up_device (h : S.Inv) (hidle : (S.proc .device).pump = .idle) {token : UInt32}
    (run : (S.proc .device).handlePacket false ⟨.aSync, 1, token, []⟩ false calls = some P) :
    (S.set .device P).Inv := by
  cases run
  have hdevice := h.silent_of_idle hidle
  have hout : (S.proc .device).outgoing = [] := hdevice.outgoing
  refine h.greet rfl rfl ?_ ?_ ?_ ?_ ?_ ?_
  · rintro (_ | _) <;> simp [set]
  · rintro (_ | _) <;> simp [set]
  · rintro (_ | _) <;> simp [set]
  · rintro (_ | _) <;> simp [set, cut, hidle]
  · rintro (_ | _)
    · exact ⟨[], _, [], rfl, by simp [set], by simp, by simp⟩
    · exact ⟨[], _, [], rfl, by simp [Process.send_outgoing], by simp, by simp⟩
  · rintro (_ | _)
    · refine (h.speech .host).imp (fun hs => ⟨hs.outgoing, hs.links, hs.other, hs.host, by simp⟩) ?_
      -- The host may have greeted, and the device has not heard it.
      intro hs
      refine ⟨hs.pump, by simp, Or.inl ?_⟩
      refine hs.greets.resolve_right fun hgreeted => ?_
      have honline := hdevice.device rfl
      simp [Side.other, honline, hidle] at hgreeted
    · left
      refine ⟨?_, hdevice.links, hdevice.other, by simp, fun _ => hdevice.device rfl⟩
      simp [Process.send_outgoing, hout]

theorem Inv.greeting (h : S.Inv) (hout : (S.proc x).outgoing = p :: rest) (hp : p.command = .aCnxn) :
    S.Spoken x ∧ (S.proc x.other).online = false ∧ ∀ q ∈ rest, q.command ≠ .aCnxn := by
  have hspoken : S.Spoken x := by
    refine (h.speech x).resolve_left fun hs => ?_
    rw [hs.outgoing] at hout
    cases hout
  refine ⟨hspoken, ?_⟩
  rcases hspoken.greets with ⟨q, rest', hout', hq, hrest, hother⟩ | ⟨hno, -⟩
  · rw [hout] at hout'
    cases hout'
    exact ⟨hother, hrest⟩
  · exact absurd hp (hno p (by rw [hout]; exact List.mem_cons_self))

/-- A side hears the handshake of the other and comes online. Nothing else of it changes but what it
sends, so only who has spoken is left to be shown. -/
theorem Inv.cnxn (h : S.Inv) (hout : (S.proc x).outgoing = p :: rest)
    (hup : (S.proc x.other).pump = .up) (hp : p.command = .aCnxn) (hsent : ∀ p ∈ sent, p.command = .aCnxn)
    (hP : P = Process.send { S.proc x.other with online := true } sent)
    (hspeech : ∀ z, (S.handled x rest P []).Silent z ∨ (S.handled x rest P []).Spoken z) :
    (S.handled x rest P []).Inv := by
  have hself : (S.handled x rest P []).proc x = { S.proc x with outgoing := rest } := handled_self ..
  have hother : (S.handled x rest P []).proc x.other = P := handled_other ..
  have hfields : P.count = (S.proc x.other).count ∧ P.socks = (S.proc x.other).socks ∧
      P.descr = (S.proc x.other).descr ∧ P.pump = (S.proc x.other).pump := by
    rw [hP]
    exact ⟨rfl, rfl, rfl, rfl⟩
  obtain ⟨hcount, hsocks, hdescr, hpump⟩ := hfields
  refine h.greet rfl rfl ?_ ?_ ?_ ?_ ?_ hspeech <;> intro z <;> rcases eq_or_other x z with rfl | rfl
  · rw [hself]
  · rw [hother, hcount]
  · rw [hself]
  · rw [hother, hsocks]
  · rw [hself]
  · rw [hother, hdescr]
  · rw [cut, cut, hself]
  · rw [cut, cut, hother, hpump]
  · exact ⟨[p], rest, [], hout, by rw [hself, List.append_nil], by simpa using hp, by simp⟩
  · refine ⟨[], _, sent, rfl, ?_, by simp, hsent⟩
    rw [hother, hP, Process.send_outgoing, if_pos hup]

/-- The device hears the host, and answers. Until then it was silent, because a device that has
spoken has no greeting of the host before it any more; the answer is the first packet in its queue.
-/
theorem Inv.cnxn_device (h : S.Inv) (hout : (S.proc .host).outgoing = p :: rest)
    (hup : (S.proc .device).pump = .up) (hp : p.command = .aCnxn)
    (hP : P = Process.send { S.proc .device with online := true } [Process.connectPacket false]) :
    (S.handled .host rest P []).Inv := by
  obtain ⟨hhost, hoffline, hrest⟩ := h.greeting hout hp
  have hdevice : S.Silent .device := by
    refine (h.speech .device).resolve_right fun hs => ?_
    exact (hs.heard rfl).2 p (by rw [hout]; exact List.mem_cons_self) hp
  have hself : (S.handled .host rest P []).proc .host = { S.proc .host with outgoing := rest } :=
    handled_self ..
  have hother : (S.handled .host rest P []).proc .device = P := handled_other S .host rest P []
  have hpump : P.pump = .up := by rw [hP, ← hup]; rfl
  have honline : P.online = true := by rw [hP]; rfl
  have hanswer : P.outgoing = (S.proc .device).outgoing ++ [Process.connectPacket false] := by
    rw [hP, Process.send_outgoing, if_pos hup]
  refine h.cnxn hout hup hp (by simp [Process.connectPacket]) hP ?_
  rintro (_ | _)
  · right
    refine ⟨by simpa [hself] using hhost.pump, by simp, Or.inr ⟨?_, Or.inl ?_⟩⟩
    · simpa [hself] using hrest
    · simp [Side.other, hother, honline]
  · right
    refine ⟨by simp [hother, hpump], fun _ => ⟨?_, ?_⟩,
      Or.inl ⟨Process.connectPacket false, [], ?_, rfl, by simp, ?_⟩⟩
    · simpa [hself] using hhost.pump
    · simpa [hself] using hrest
    · rw [hother, hanswer, hdevice.outgoing, List.nil_append]
    · simpa [hself, Side.other] using hdevice.other

/-- The host hears the device. It has spoken itself, since its transport is up, and it does not
answer: after this packet both sides are online. -/
theorem Inv.cnxn_host (h : S.Inv) (hout : (S.proc .device).outgoing = p :: rest)
    (hup : (S.proc .host).pump = .up) (hp : p.command = .aCnxn)
    (hP : P = Process.send { S.proc .host with online := true } []) :
    (S.handled .device rest P []).Inv := by
  obtain ⟨hdevice, hoffline, hrest⟩ := h.greeting hout hp
  have hhost : S.Spoken .host := by
    refine (h.speech .host).resolve_left fun hs => ?_
    rw [hs.host rfl] at hup
    cases hup
  have hself : (S.handled .device rest P []).proc .device = { S.proc .device with outgoing := rest } :=
    handled_self ..
  have hother : (S.handled .device rest P []).proc .host = P := handled_other S .device rest P []
  have hpump : P.pump = .up := by rw [hP, ← hup]; rfl
  have honline : P.online = true := by rw [hP]; rfl
  have hquiet : P.outgoing = (S.proc .host).outgoing := by
    rw [hP, Process.send_outgoing, ite_self, List.append_nil]
  refine h.cnxn hout hup hp (by simp) hP ?_
  rintro (_ | _)
  · right
    refine ⟨by simp [hother, hpump], by simp, ?_⟩
    simpa [hself, hother, hquiet, Side.other] using hhost.greets
  · right
    refine ⟨by simpa [hself] using hdevice.pump, fun _ => ⟨?_, ?_⟩, Or.inr ⟨?_, Or.inl ?_⟩⟩
    · simp [hother, hpump]
    · rw [hother, hquiet]
      exact (hdevice.heard rfl).2
    · simpa [hself] using hrest
    · simp [Side.other, hother, honline]

end handshake

end System

end BlogStuff.Adb
