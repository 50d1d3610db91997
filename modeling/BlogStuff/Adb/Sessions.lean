import BlogStuff.Adb.Multiplex

/-!
# BlogStuff.Adb.Sessions

Connections come and go: the steps of the system that are not a callback of one socket.
A socket asks for a connection; the other process opens one for it or refuses; the transport
breaks, and both ends of every connection are cut off.
-/

namespace BlogStuff.Adb

open BlogStuff.Wire BlogStuff.Link

namespace System

variable {S S' : System} {x y z : Side} {n m k f : Nat} {P : Process} {c : Conn UInt8}
  {p q : Packet} {rest : List Packet} {calls : Calls}

/-! ### Asking -/

theorem Shape.inbox_new (h : S.Shape) (hfits : (S.proc x).count + 1 < 2 ^ 32) :
    S.inbox x (S.proc x).count = [] := by
  refine List.filter_eq_nil_iff.mpr fun p hp haddr => ?_
  obtain ⟨fd, hfd, hid⟩ := h.addressed x.other p hp _ (by simpa using haddr)
  rw [Side.other_other] at hfd
  have heq := idOf_inj (by omega) (by omega) hid
  omega

theorem Shape.asks_new (h : S.Shape) (hfits : (S.proc x).count + 1 < 2 ^ 32) :
    S.asks x (S.proc x).count = [] := by
  refine List.filter_eq_nil_iff.mpr fun p hp hasker => ?_
  have hopen : p.command = .aOpen ∧ p.arg0 = idOf (S.proc x).count := by
    simpa [Packet.asker] using hasker
  obtain ⟨m, hm, hid, -⟩ := h.asking x p hp hopen.1
  have hlt := hm.1
  have heq := idOf_inj (by omega) (by omega) (hid.symm.trans hopen.2)
  omega

theorem Shape.not_linked_new (h : S.Shape) (f : Nat) : ¬ S.Linked x (S.proc x).count f := fun hlink =>
  lt_irrefl _ (h.near x _ f hlink).1

theorem Shape.not_far_new (h : S.Shape) (m : Nat) : ¬ S.Linked x.other m (S.proc x).count := by
  intro hlink
  have hlt := h.far x.other m _ hlink
  rw [Side.other_other] at hlt
  exact lt_irrefl _ hlt

/-- What the side `y` does about a new connection. It may take a request of `who` from the
packets for it, sends `sent`, may install a socket, and if it has `opened` one for `who`
they are linked. -/
structure Opens (S S' : System) (y : Side) (popped sent : List Packet) (who : Option Nat)
    (opened : Bool) : Prop where
  pump : ∀ z, (S'.proc z).pump = (S.proc z).pump
  online : ∀ z, (S'.proc z).online = (S.proc z).online
  count_le : ∀ z, (S.proc z).count ≤ (S'.proc z).count
  count_other : (S'.proc y.other).count = (S.proc y.other).count
  count_self : (S'.proc y).count ≤ (S.proc y).count + 1
  beyond : ∀ z fd, (S'.proc z).count ≤ fd → (S'.proc z).socks fd = none
  sock : ∀ z k, k < (S.proc z).count → (S'.proc z).socks k = (S.proc z).socks k
  descr : ∀ z k, k < (S.proc z).count → (S'.proc z).descr k = (S.proc z).descr k
  out : (S'.proc y).outgoing = (S.proc y).outgoing ++ sent
  pop : (S.proc y.other).outgoing = popped ++ (S'.proc y.other).outgoing
  popped_asks : ∀ p ∈ popped, p.command = .aOpen ∧ ∃ m, who = some m ∧ p.arg0 = idOf m
  sent_to : ∀ p ∈ sent,
    (p.command = .aOpen ∧ p.arg0 = idOf (S.proc y).count ∧ p.arg1 = 0 ∧
      (S'.proc y).count = (S.proc y).count + 1 ∧ opened = false) ∨
    ∃ m, who = some m ∧ p.addr = some (idOf m)
  links : ∀ z m f, S'.Linked z m f ↔
    S.Linked z m f ∨ (opened = true ∧ z = y.other ∧ who = some m ∧ f = (S.proc y).count)
  room : opened = true → (S'.proc y).count = (S.proc y).count + 1
  withdrew : ∀ z k, S.Withdrew z k → S'.Withdrew z k
  withdrew_new : ∀ z k, S'.Withdrew z k → S.Withdrew z k ∨
    (z = y ∧ k = (S.proc y).count ∧ (S'.proc y).count = (S.proc y).count + 1 ∧ opened = false)
  /-- Whoever asked is there, and has not been answered. -/
  asked : ∀ m, who = some m → S.IsNear y.other m ∧ ∀ f, ¬ S.Linked y.other m f

namespace Opens

variable {popped sent : List Packet} {who : Option Nat} {opened : Bool}

theorem cut_eq (ho : Opens S S' y popped sent who opened) (z : Side) : S'.cut z = S.cut z := by
  rw [cut, cut, ho.pump]

theorem isNear (ho : Opens S S' y popped sent who opened) (hz : S.IsNear z m) : S'.IsNear z m := by
  refine ⟨lt_of_lt_of_le hz.1 (ho.count_le z), fun k hk => ?_⟩
  rcases (ho.links z.other k m).mp hk with hk | ⟨-, hzy, -, rfl⟩
  · exact hz.2 k hk
  · obtain rfl : z = y := by rw [← Side.other_other z, hzy, Side.other_other]
    exact lt_irrefl _ hz.1

/-- The only new socket that asks is the one just installed. -/
theorem of_isNear (ho : Opens S S' y popped sent who opened) (hz : S'.IsNear z m) :
    S.IsNear z m ∨ (z = y ∧ m = (S.proc y).count ∧ (S'.proc y).count = (S.proc y).count + 1) := by
  have hlinks : ∀ k, ¬ S.Linked z.other k m := fun k hk => hz.2 k ((ho.links z.other k m).mpr (Or.inl hk))
  have hlt := hz.1
  rcases eq_or_other y z with rfl | rfl
  · have hle := ho.count_self
    by_cases hm : m < (S.proc z).count
    · exact Or.inl ⟨hm, hlinks⟩
    · exact Or.inr ⟨rfl, by omega, by omega⟩
  · rw [ho.count_other] at hlt
    exact Or.inl ⟨hlt, hlinks⟩

theorem withdrew_iff (ho : Opens S S' y popped sent who opened) (hk : k < (S.proc z).count) :
    S'.Withdrew z k ↔ S.Withdrew z k := by
  refine ⟨fun hw => (ho.withdrew_new z k hw).resolve_right ?_, ho.withdrew z k⟩
  rintro ⟨rfl, rfl, -⟩
  exact lt_irrefl _ hk

/-- A socket that was there, other than the one that gets its answer, sees nothing of this. What is
removed are requests, which have no address, and what is sent goes to the socket that asked. -/
theorem same (ho : Opens S S' y popped sent who opened) (fits : S'.Fits) (hk : k < (S.proc z).count)
    (hne : z = y.other → who ≠ some k) (hwho : ∀ m, who = some m → m < (S.proc y.other).count) :
    SameAt S S' z k := by
  refine ⟨ho.sock z k hk, ho.descr z k hk, ?_, ho.withdrew_iff hk⟩
  rcases eq_or_other y z with rfl | rfl
  · refine inbox_congr ho.pop (List.append_nil _).symm ?_ (by simp)
    intro p hp
    simp [Packet.addr, (ho.popped_asks p hp).1]
  · have hout : (S'.proc y.other.other).outgoing = (S.proc y.other.other).outgoing ++ sent := by
      rw [Side.other_other]
      exact ho.out
    refine inbox_congr (List.nil_append _).symm hout (by simp) ?_
    intro p hp haddr
    rcases ho.sent_to p hp with ⟨hopen, -⟩ | ⟨m, hm, hid⟩
    · simp [Packet.addr, hopen] at haddr
    · have hcount := fits y.other
      rw [ho.count_other] at hcount
      have hlt := hwho m hm
      have heq : m = k := idOf_inj (by omega) (by omega) (by simpa [hid] using haddr)
      exact hne rfl (heq ▸ hm)

theorem asks_eq (ho : Opens S S' y popped sent who opened) (fits : S'.Fits) (hk : k < (S.proc z).count)
    (hne : z = y.other → who ≠ some k) (hwho : ∀ m, who = some m → m < (S.proc y.other).count) :
    S'.asks z k = S.asks z k := by
  rcases eq_or_other y z with rfl | rfl
  · refine asks_congr (List.nil_append _).symm ho.out (by simp) ?_
    intro p hp hasker
    rcases ho.sent_to p hp with ⟨hopen, hid, -, hroom, -⟩ | ⟨m, -, hid⟩
    · have hcount := fits z
      have heq : (S.proc z).count = k :=
        idOf_inj (by omega) (by omega) (by simpa [Packet.asker, hopen, hid] using hasker)
      omega
    · simp [Packet.asker_of_addr hid] at hasker
  · refine asks_congr ho.pop (List.append_nil _).symm ?_ (by simp)
    intro p hp hasker
    obtain ⟨hopen, m, hm, hid⟩ := ho.popped_asks p hp
    have hcount := fits y.other
    rw [ho.count_other] at hcount
    have hlt := hwho m hm
    have heq : m = k :=
      idOf_inj (by omega) (by omega) (by simpa [Packet.asker, hopen, hid] using hasker)
    exact hne rfl (heq ▸ hm)

theorem shape (ho : Opens S S' y popped sent who opened) (h : S.Shape) : S'.Shape := by
  have hmem : ∀ z, ∀ p ∈ (S'.proc z).outgoing, p ∈ (S.proc z).outgoing ∨ (z = y ∧ p ∈ sent) := by
    intro z p hp
    rcases eq_or_other y z with rfl | rfl
    · rw [ho.out] at hp
      exact (List.mem_append.mp hp).imp id fun hp => ⟨rfl, hp⟩
    · rw [ho.pop]
      exact Or.inl (List.mem_append_right popped hp)
  have hfresh : ∀ m f, who = some m → ¬ S.Linked y.other m f := fun m f hm => (ho.asked m hm).2 f
  -- A new socket that nobody is linked to is one that asks.
  have hnew : (S'.proc y).count = (S.proc y).count + 1 → opened = false → S'.IsNear y (S.proc y).count := by
    intro hroom hclosed
    refine ⟨by omega, fun k hk => ?_⟩
    rcases (ho.links y.other k _).mp hk with hk | ⟨hopened, -⟩
    · exact h.not_far_new k hk
    · simp [hclosed] at hopened
  refine ⟨ho.beyond, ?_, ?_, ?_, ?_, ?_, ?_, ?_, ?_⟩
  · intro z p hp
    rcases hmem z p hp with hp | ⟨rfl, hp⟩
    · exact h.no_sync z p hp
    · rcases ho.sent_to p hp with ⟨hopen, -⟩ | ⟨m, -, hid⟩
      · simp [hopen]
      · exact Packet.ne_sync_of_addr hid
  · intro z p hp id hid
    rcases hmem z p hp with hp | ⟨rfl, hp⟩
    · obtain ⟨fd, hfd, hid⟩ := h.addressed z p hp id hid
      exact ⟨fd, lt_of_lt_of_le hfd (ho.count_le z.other), hid⟩
    · rcases ho.sent_to p hp with ⟨hopen, -⟩ | ⟨m, hm, hid'⟩
      · simp [Packet.addr, hopen] at hid
      · refine ⟨m, lt_of_lt_of_le (ho.asked m hm).1.1 (ho.count_le z.other), ?_⟩
        exact Option.some.inj (hid.symm.trans hid')
  · intro z p hp hopen
    rcases hmem z p hp with hp | ⟨rfl, hp⟩
    · obtain ⟨m, hm, hid⟩ := h.asking z p hp hopen
      exact ⟨m, ho.isNear hm, hid⟩
    · rcases ho.sent_to p hp with ⟨-, hid, hzero, hroom, hclosed⟩ | ⟨m, -, hid⟩
      · exact ⟨_, hnew hroom hclosed, hid, hzero⟩
      · exact absurd hopen (Packet.ne_open_of_addr hid)
  · intro z m f hlink
    rcases (ho.links z m f).mp hlink with hlink | ⟨-, rfl, hm, -⟩
    · exact ho.isNear (h.near z m f hlink)
    · exact ho.isNear (ho.asked m hm).1
  · intro z m f hlink
    rcases (ho.links z m f).mp hlink with hlink | ⟨hopened, rfl, -, rfl⟩
    · exact lt_of_lt_of_le (h.far z m f hlink) (ho.count_le z.other)
    · rw [Side.other_other, ho.room hopened]
      exact Nat.lt_succ_self _
  · intro z m f f' hlink hlink'
    rcases (ho.links z m f).mp hlink with hlink | ⟨-, rfl, hm, rfl⟩ <;>
      rcases (ho.links _ m f').mp hlink' with hlink' | ⟨-, hz, hm', rfl⟩
    · exact h.one_far z m f f' hlink hlink'
    · exact absurd hlink (hz ▸ hfresh m f hm')
    · exact absurd hlink' (hfresh m f' hm)
    · rfl
  · intro z m m' f hlink hlink'
    rcases (ho.links z m f).mp hlink with hlink | ⟨-, rfl, hm, rfl⟩ <;>
      rcases (ho.links _ m' _).mp hlink' with hlink' | ⟨-, hz, hm', hf⟩
    · exact h.one_near z m m' f hlink hlink'
    · subst hz hf
      exact absurd hlink (h.not_far_new m)
    · exact absurd hlink' (h.not_far_new m')
    · exact Option.some.inj (hm.symm.trans hm')
  · intro z k hw
    rcases ho.withdrew_new z k hw with hw | ⟨rfl, rfl, hroom, hclosed⟩
    · exact ho.isNear (h.withdrew z k hw)
    · exact hnew hroom hclosed

/-- **Opening a connection concerns no other.** It is enough to look at the one that asked and
at the new socket. -/
theorem inv (ho : Opens S S' y popped sent who opened) (h : S.Inv) (fits : S'.Fits)
    (hmute : S.Silent y → sent = []) (hlinks : ∀ z, S.Silent z → S'.links = [])
    (hwho : ∀ m, who = some m → ∃ c : Conn UInt8, c.Reachable ∧ S'.Projects y.other m c)
    (hnew : S'.IsNear y (S.proc y).count →
      ∃ c : Conn UInt8, c.Reachable ∧ S'.Projects y (S.proc y).count c) : S'.Inv := by
  have hlt : ∀ m, who = some m → m < (S.proc y.other).count := fun m hm => (ho.asked m hm).1.1
  refine ⟨ho.shape h.shape, ?_, ?_⟩
  · refine speech_traffic h.speech ho.pump ho.online hlinks fun z => ?_
    rcases eq_or_other y z with rfl | rfl
    · refine ⟨[], sent, ⟨⟨_, rfl, ho.out⟩, by simp, ?_⟩, hmute⟩
      intro p hp
      rcases ho.sent_to p hp with ⟨hopen, -⟩ | ⟨m, -, hid⟩
      · simp [hopen]
      · exact Packet.ne_cnxn_of_addr hid
    · refine ⟨popped, [], ⟨⟨_, ho.pop, (List.append_nil _).symm⟩, ?_, by simp⟩, fun _ => rfl⟩
      intro p hp
      simp [(ho.popped_asks p hp).1]
  · intro z m hz
    rcases ho.of_isNear hz with hold | ⟨rfl, rfl, -⟩
    · by_cases hm : z = y.other ∧ who = some m
      · obtain ⟨rfl, hm⟩ := hm
        exact hwho m hm
      have hne : z = y.other → who ≠ some m := fun hzy hw => hm ⟨hzy, hw⟩
      obtain ⟨c, hc, hproj⟩ := h.conns z m hold
      refine ⟨c, hc, hproj.congr ?_ ho.cut_eq (ho.same fits hold.1 hne hlt) (ho.asks_eq fits hold.1 hne hlt) ?_⟩
      · intro f
        rw [ho.links, or_iff_left]
        rintro ⟨-, hzy, hw, -⟩
        exact hne hzy hw
      · intro f hf
        refine ho.same fits (h.shape.far z m f hf) ?_ hlt
        -- The socket opened for this one did not ask for another.
        rintro hzy hw
        obtain rfl : z = y := by rw [← Side.other_other z, hzy, Side.other_other]
        have hnear := (ho.asked f hw).1.2 m
        rw [Side.other_other] at hnear
        exact hnear hf
    · exact hnew hz

end Opens

/-- What a socket sends to ask for a connection. -/
def request (S : System) (x : Side) (destination : Bytes) : List Packet :=
  if (S.proc x).pump = .up then [⟨.aOpen, idOf (S.proc x).count, 0, destination ++ [0]⟩] else []

/-- The process after a socket of it has asked for a connection, whatever has become of the
socket in the same callback. -/
structure Asked (S : System) (x : Side) (destination : Bytes) (P : Process) : Prop where
  pump : P.pump = (S.proc x).pump
  online : P.online = (S.proc x).online
  count : P.count = (S.proc x).count + 1
  outgoing : P.outgoing = (S.proc x).outgoing ++ S.request x destination
  sock : ∀ k, k ≠ (S.proc x).count → P.socks k = (S.proc x).socks k
  descr : ∀ k, k ≠ (S.proc x).count → P.descr k = (S.proc x).descr k

theorem asked_connect (S : System) (x : Side) (notify : Bool) (destination : Bytes) :
    S.Asked x destination ((S.proc x).connectToRemote notify destination) where
  pump := rfl
  online := rfl
  count := rfl
  outgoing := rfl
  sock _ hk := Process.install_socks_of_ne _ _ hk
  descr _ hk := Process.install_descr_of_ne _ (Process.openingSock notify) hk

theorem Asked.put {destination : Bytes} (h : S.Asked x destination P) (sock : Option Sock) (d : Descr) :
    S.Asked x destination (P.put (S.proc x).count ⟨sock, d, []⟩) where
  pump := h.pump
  online := h.online
  count := h.count
  outgoing := by
    rw [Process.put, Process.send_outgoing, ite_self, List.append_nil]
    exact h.outgoing
  sock k hk := (Function.update_of_ne hk _ _).trans (h.sock k hk)
  descr k hk := (Function.update_of_ne hk _ _).trans (h.descr k hk)

/-- The state after that, with a client that waits or has hung up. -/
def afterAsking (S : System) (x : Side) (P : Process) (quick : Bool) : System :=
  if quick then S.hungUp x P else S.set x P

section afterAsking

variable {quick : Bool}

theorem afterAsking_proc (S : System) (x : Side) (P : Process) (quick : Bool) :
    (S.afterAsking x P quick).proc = (S.set x P).proc := by cases quick <;> rfl

@[simp] theorem afterAsking_self (S : System) (x : Side) (P : Process) (quick : Bool) :
    (S.afterAsking x P quick).proc x = P := by rw [afterAsking_proc, set_proc_self]

@[simp] theorem afterAsking_other (S : System) (x : Side) (P : Process) (quick : Bool) :
    (S.afterAsking x P quick).proc x.other = S.proc x.other := by rw [afterAsking_proc, set_proc_other]

@[simp] theorem afterAsking_links (S : System) (x : Side) (P : Process) (quick : Bool) :
    (S.afterAsking x P quick).links = S.links := by cases quick <;> rfl

theorem withdrew_afterAsking (z : Side) (k : Nat) : (S.afterAsking x P quick).Withdrew z k ↔
    S.Withdrew z k ∨ (quick = true ∧ z = x ∧ k = (S.proc x).count) := by
  cases quick with
  | false => simp [afterAsking]
  | true => simp [afterAsking, hungUp, Withdrew, or_comm]

theorem opens_asked (h : S.Inv) {destination : Bytes} (hP : S.Asked x destination P) (quick : Bool) :
    Opens S (S.afterAsking x P quick) x [] (S.request x destination) none false where
  pump z := by
    rcases eq_or_other x z with rfl | rfl
    · rw [afterAsking_self, hP.pump]
    · rw [afterAsking_other]
  online z := by
    rcases eq_or_other x z with rfl | rfl
    · rw [afterAsking_self, hP.online]
    · rw [afterAsking_other]
  count_le z := by
    rcases eq_or_other x z with rfl | rfl
    · rw [afterAsking_self, hP.count]
      exact Nat.le_succ _
    · rw [afterAsking_other]
  count_other := by rw [afterAsking_other]
  count_self := by rw [afterAsking_self, hP.count]
  beyond z fd hfd := by
    rcases eq_or_other x z with rfl | rfl
    · rw [afterAsking_self, hP.count] at hfd
      rw [afterAsking_self, hP.sock fd (by omega)]
      exact h.shape.beyond z fd (by omega)
    · rw [afterAsking_other] at hfd ⊢
      exact h.shape.beyond _ fd hfd
  sock z k hk := by
    rcases eq_or_other x z with rfl | rfl
    · rw [afterAsking_self, hP.sock k (by omega)]
    · rw [afterAsking_other]
  descr z k hk := by
    rcases eq_or_other x z with rfl | rfl
    · rw [afterAsking_self, hP.descr k (by omega)]
    · rw [afterAsking_other]
  out := by rw [afterAsking_self, hP.outgoing]
  pop := by rw [afterAsking_other, List.nil_append]
  popped_asks := by simp
  sent_to p hp := by
    left
    rw [request] at hp
    split at hp
    · rw [List.mem_singleton.mp hp]
      simp [hP.count]
    · cases hp
  links z m f := by simp [Linked]
  room := by simp
  withdrew z k hw := (withdrew_afterAsking z k).mpr (Or.inl hw)
  withdrew_new z k hw := by
    refine ((withdrew_afterAsking z k).mp hw).imp_right ?_
    rintro ⟨-, rfl, rfl⟩
    exact ⟨rfl, rfl, by rw [afterAsking_self, hP.count], rfl⟩
  asked := by simp

/-- A socket asks for a connection, and then waits or is gone. The new connection starts in one of
the two initial states, with the request on its way if the transport is up; all others are as
before. -/
theorem Inv.asked (h : S.Inv) {destination : Bytes} (quick : Bool) (hP : S.Asked x destination P)
    (fits : (S.afterAsking x P quick).Fits) {notify : Bool} (can : (S.proc x).CanConnect x.isHost notify)
    (hshows : Shows (idOf (S.proc x).count) 0 Status (S.cut x) (P.socks (S.proc x).count)
      (P.descr (S.proc x).count) (.blank (if quick then .withdrawn else .asking))) :
    (S.afterAsking x P quick).Inv := by
  have hfits : (S.proc x).count + 1 < 2 ^ 32 := by simpa [hP.count] using fits x
  have ho := opens_asked h hP quick
  refine ho.inv h fits ?_ (fun z hz => by rw [afterAsking_links, hz.links]) (by simp) ?_
  · -- A side that has not been heard of has no client that could ask, or its request is lost.
    intro hs
    rw [request]
    cases x with
    | host => rw [hs.host rfl, if_neg (by simp)]
    | device =>
        obtain ⟨-, hcan⟩ := can
        cases notify <;> simp [Side.isHost, hs.device rfl] at hcan
  · intro _
    refine ⟨⟨.blank (if quick then .withdrawn else .asking), .blank .absent,
      if (S.proc x).pump = .up then [.ask] else [], [], S.cut x, S.cut x.other⟩,
      ⟨_, ⟨?_, rfl, ?_, rfl⟩, .refl⟩, ?_⟩
    · cases quick
      · exact Or.inl rfl
      · exact Or.inr rfl
    · dsimp only
      cases (S.proc x).pump <;> simp
    · refine .before ?_ ?_ rfl ?_ ?_ (ho.cut_eq x).symm (ho.cut_eq x.other).symm ?_
      · intro f hf
        rw [Linked, afterAsking_links] at hf
        exact h.shape.not_linked_new f hf
      · rwa [ho.cut_eq, afterAsking_self]
      · rw [asks, ho.out, List.filter_append, ← asks, h.shape.asks_new hfits, List.nil_append, request]
        split <;> simp [Packet.asker, Packet.bare, packetOf]
      · rw [inbox, afterAsking_other, ← inbox, h.shape.inbox_new hfits]
        rfl
      · have hold : ¬ S.Withdrew x (S.proc x).count := fun hw => lt_irrefl _ (h.shape.withdrew x _ hw).1
        rw [withdrew_afterAsking, or_iff_right hold]
        cases quick <;> simp [End.blank]

end afterAsking

theorem Inv.connect (h : S.Inv) {notify : Bool} {destination : Bytes}
    (fits : (S.set x ((S.proc x).connectToRemote notify destination)).Fits)
    (can : (S.proc x).CanConnect x.isHost notify) :
    (S.set x ((S.proc x).connectToRemote notify destination)).Inv := by
  refine h.asked false (asked_connect S x notify destination) fits can ?_
  rw [Process.connectToRemote, Process.send_socks, Process.send_descr, Process.install_socks_self,
    Process.install_descr_self]
  exact .asking notify fun _ hg => hg

/-- The client has hung up: its socket is destroyed, with nobody told. -/
theorem Inv.withdraw (h : S.Inv) {destination : Bytes} {note : Nat} (fits : (S.hungUp x P).Fits)
    (can : (S.proc x).CanConnect x.isHost true)
    (run : (S.proc x).connectAndClose destination note = some P) : (S.hungUp x P).Inv := by
  rw [Process.connectAndClose_eq] at run
  obtain rfl := Option.some.inj run
  refine h.asked true ((asked_connect S x true destination).put _ _) fits can ?_
  rw [Process.put_socks, Process.put_descr, Function.update_self, Function.update_self]
  exact .withdrawn _ (Shows.status_fail note)

/-! ### Answering -/

/-- A request that is handled next is the only thing under way for its connection: nothing has been
sent to the socket that asked, and it is linked to nothing. -/
structure Requested (S : System) (x : Side) (n : Nat) (p : Packet) (rest : List Packet)
    (e : End UInt8) : Prop where
  near : S.IsNear x n
  id : p.arg0 = idOf n
  fresh : ∀ f, ¬ S.Linked x n f
  conn : Conn.Reachable ⟨e, .blank .absent, [.ask], [], S.cut x, S.cut x.other⟩
  shows : Shows (idOf n) 0 Status (S.cut x) ((S.proc x).socks n) ((S.proc x).descr n) e
  phase : e.phase ≠ .linked
  withdrew : e.phase = .withdrawn ↔ S.Withdrew x n
  inbox : S.inbox x n = []
  rest : (rest.filter fun q => q.asker == some (idOf n)) = []

theorem Inv.requested (h : S.Inv) (hout : (S.proc x).outgoing = p :: rest) (hp : p.command = .aOpen) :
    ∃ n e, S.Requested x n p rest e := by
  obtain ⟨n, hn, hid, -⟩ := h.shape.asking x p (by rw [hout]; exact List.mem_cons_self) hp
  obtain ⟨c, hc, hproj⟩ := h.conns x n hn
  have hasks : S.asks x n = p :: rest.filter fun q => q.asker == some (idOf n) := by
    rw [asks, hout, List.filter_cons_of_pos (by simp [Packet.asker, hp, hid])]
  obtain ⟨near, far, toFar, toNear, cutNear, cutFar⟩ := c
  cases hproj with
  | after f answered near far asked =>
      rw [hasks] at asked
      cases asked
  | before unanswered hnear hfar htoFar htoNear hcutNear hcutFar hwithdrew =>
      dsimp only at hnear hfar htoFar htoNear hcutNear hcutFar hwithdrew
      subst hfar hcutNear hcutFar
      rw [hasks, List.map_cons] at htoFar
      obtain ⟨m, tail, rfl, hm, htail⟩ := List.map_eq_cons_iff.mp htoFar.symm
      obtain rfl : m = .ask := by
        cases m with
        | ask => rfl
        | _ =>
            have hcommand := congrArg Packet.command hm
            simp [packetOf, okayPacket, wrtePacket, clsePacket, Packet.bare, hp] at hcommand
      obtain ⟨rfl, rfl⟩ := hc.inv.stage.asked rfl rfl
      exact ⟨n, near, hn, hid, unanswered, hc, hnear, (hc.inv.stage.before rfl).1, hwithdrew, htoNear,
        List.map_eq_nil_iff.mp htail.symm⟩

/-- Nobody who handles a request has yet to be heard of. The sender has something outgoing, and the
receiver is up and online, which a silent host and a silent device are not. -/
theorem Inv.not_silent (h : S.Inv) (hout : (S.proc x).outgoing = p :: rest)
    (hup : (S.proc x.other).pump = .up) (hp : p.command ≠ .aCnxn) (z : Side) : ¬ S.Silent z := by
  intro hs
  have honline := h.online hout hup hp
  rcases eq_or_other x z with rfl | rfl
  · rw [hs.outgoing] at hout
    cases hout
  · cases hz : x.other with
    | host =>
        rw [hs.host hz] at hup
        cases hup
    | device =>
        rw [hs.device hz] at honline
        cases honline

/-- The state after the side `x.other` has handled a request of `x`, with or without a new
socket. -/
theorem opens_answer (h : S.Inv) {e : End UInt8} (hr : S.Requested x n p rest e)
    (hout : (S.proc x).outgoing = p :: rest) (hp : p.command = .aOpen)
    (hup : (S.proc x.other).pump = .up) (links : List Link) (opened : Bool)
    (hlinks : links = if opened then [⟨x, n, (S.proc x.other).count⟩] else [])
    (hP : P = if opened then (S.proc x.other).install (Process.serviceSock (idOf n)) else S.proc x.other)
    (hq : q.addr = some (idOf n)) :
    Opens S (S.handled x rest (P.send [q]) links) x.other [p] [q] (some n) opened := by
  have hother : ∀ z, z = x.other ∨ z = x := fun z => by
    simpa using eq_or_other x.other z
  have hpump : P.pump = (S.proc x.other).pump := by cases opened <;> simp [hP]
  have honline : P.online = (S.proc x.other).online := by cases opened <;> simp [hP]
  have hcount : P.count = (S.proc x.other).count + opened.toNat := by cases opened <;> simp [hP]
  have houtgoing : P.outgoing = (S.proc x.other).outgoing := by cases opened <;> simp [hP]
  refine ⟨?_, ?_, ?_, ?_, ?_, ?_, ?_, ?_, ?_, ?_, ?_, ?_, ?_, ?_, fun _ _ => id, fun _ _ => Or.inl, ?_⟩
  · intro z
    rcases hother z with rfl | rfl
    · rw [handled_other, Process.send_pump, hpump]
    · rw [handled_self]
  · intro z
    rcases hother z with rfl | rfl
    · rw [handled_other, Process.send_online, honline]
    · rw [handled_self]
  · intro z
    rcases hother z with rfl | rfl
    · rw [handled_other, Process.send_count, hcount]
      exact Nat.le_add_right _ _
    · rw [handled_self]
  · rw [Side.other_other, handled_self]
  · rw [handled_other, Process.send_count, hcount]
    have hle := opened.toNat_le
    omega
  · intro z fd hfd
    rcases hother z with rfl | rfl
    · rw [handled_other, Process.send_count, hcount] at hfd
      have hnone := h.shape.beyond _ fd (Nat.le_of_add_right_le hfd)
      rw [handled_other, Process.send_socks, hP]
      cases opened with
      | false => exact hnone
      | true =>
          rw [if_pos rfl, Process.install_socks_of_ne _ _ (by simp at hfd; omega)]
          exact hnone
    · rw [handled_self] at hfd ⊢
      exact h.shape.beyond _ fd hfd
  · intro z k hk
    rcases hother z with rfl | rfl
    · rw [handled_other, Process.send_socks, hP]
      cases opened with
      | false => rfl
      | true => rw [if_pos rfl, Process.install_socks_of_ne _ _ (by omega)]
    · rw [handled_self]
  · intro z k hk
    rcases hother z with rfl | rfl
    · rw [handled_other, Process.send_descr, hP]
      cases opened with
      | false => rfl
      | true => rw [if_pos rfl, Process.install_descr_of_ne _ _ (by omega)]
    · rw [handled_self]
  · rw [handled_other, Process.send_outgoing, hpump, if_pos hup, houtgoing]
  · rw [Side.other_other, handled_self, hout]
    rfl
  · intro q' hq'
    rw [List.mem_singleton.mp hq']
    exact ⟨hp, n, rfl, hr.id⟩
  · intro q' hq'
    rw [List.mem_singleton.mp hq']
    exact Or.inr ⟨n, rfl, hq⟩
  · intro z m f
    rw [Linked, Linked, handled, hlinks, Side.other_other]
    cases opened with
    | false => simp
    | true => simp [or_comm, eq_comm]
  · rintro rfl
    rw [handled_other, Process.send_count, hcount]
    rfl
  · rintro m ⟨⟩
    rw [Side.other_other]
    exact ⟨hr.near, hr.fresh⟩

theorem Inv.refuse (h : S.Inv) (hout : (S.proc x).outgoing = p :: rest)
    (hup : (S.proc x.other).pump = .up) (hp : p.command = .aOpen)
    (fits : (S.handled x rest ((S.proc x.other).send [clsePacket p.arg0]) []).Fits) :
    (S.handled x rest ((S.proc x.other).send [clsePacket p.arg0]) []).Inv := by
  obtain ⟨n, e, hr⟩ := h.requested hout hp
  rw [hr.id] at fits ⊢
  have ho := opens_answer h hr hout hp hup [] false rfl rfl (q := clsePacket (idOf n)) rfl
  have hsilent := h.not_silent hout hup (by simp [hp])
  have hcut : S.cut x.other = false := by simp [cut, hup]
  refine ho.inv h fits (fun hs => absurd hs (hsilent _)) (fun z hs => absurd hs (hsilent z)) ?_ ?_
  · rintro m ⟨⟩
    rw [Side.other_other]
    refine ⟨_, hr.conn.trans (.single (.refuse rfl hcut rfl)), ?_⟩
    refine .before (fun f hf => ?_) ?_ rfl ?_ ?_ (ho.cut_eq x).symm (ho.cut_eq x.other).symm hr.withdrew
    · rcases (ho.links x n f).mp hf with hf | ⟨hf, -⟩
      · exact hr.fresh f hf
      · cases hf
    · rw [ho.cut_eq, ho.sock x n hr.near.1, ho.descr x n hr.near.1]
      exact hr.shows
    · rw [asks, handled_self, hr.rest]
      rfl
    · rw [inbox, ho.out, List.filter_append, ← inbox, hr.inbox]
      simp [Packet.addr, clsePacket, packetOf]
  · intro hnew
    have hlt := hnew.1
    rw [handled_other, Process.send_count] at hlt
    exact absurd hlt (lt_irrefl _)

theorem Inv.serve (h : S.Inv) (fits : S.Fits) (hout : (S.proc x).outgoing = p :: rest)
    (hup : (S.proc x.other).pump = .up) (hp : p.command = .aOpen)
    (hP : P = ((S.proc x.other).install (Process.serviceSock p.arg0)).send
      [okayPacket (idOf (S.proc x.other).count) p.arg0])
    (fits' : (S.handled x rest P [⟨x, p.arg0.toNat - 1, (S.proc x.other).count⟩]).Fits) :
    (S.handled x rest P [⟨x, p.arg0.toNat - 1, (S.proc x.other).count⟩]).Inv := by
  obtain ⟨n, e, hr⟩ := h.requested hout hp
  have hn : n + 1 < 2 ^ 32 := lt_of_le_of_lt hr.near.1 (fits x)
  rw [hr.id] at hP
  rw [hr.id, idOf_toNat hn] at fits' ⊢
  have ho := opens_answer h hr hout hp hup [⟨x, n, (S.proc x.other).count⟩] true rfl rfl
    (q := okayPacket (idOf (S.proc x.other).count) (idOf n)) rfl
  rw [if_pos rfl, ← hP] at ho
  have hsilent := h.not_silent hout hup (by simp [hp])
  have hcut : S.cut x.other = false := by simp [cut, hup]
  have hcount : (S.proc x.other).count + 1 < 2 ^ 32 := ho.room rfl ▸ fits' x.other
  have hlink : (S.handled x rest P [⟨x, n, (S.proc x.other).count⟩]).Linked x n (S.proc x.other).count :=
    List.mem_cons_self
  refine ho.inv h fits' (fun hs => absurd hs (hsilent _)) (fun z hs => absurd hs (hsilent z)) ?_ ?_
  · rintro m ⟨⟩
    rw [Side.other_other]
    refine ⟨_, hr.conn.trans (.single (.serve rfl hcut rfl)), ?_⟩
    refine .after _ hlink ?_ ?_ ?_ ?_ ?_ (ho.cut_eq x).symm (ho.cut_eq x.other).symm hr.withdrew
    · rw [ho.cut_eq, ho.sock x n hr.near.1, ho.descr x n hr.near.1]
      exact hr.shows.mono (fun hlinked => absurd hlinked hr.phase) (fun _ => id) id
    · rw [handled_other, hP, Process.send_socks, Process.send_descr, Process.install_socks_self,
        Process.install_descr_self]
      exact .linked true false [] [] [] [] rfl
    · rw [asks, handled_self, hr.rest]
    · -- Nothing can have been sent to the new socket.
      have hnone := h.shape.inbox_new hcount
      rw [inbox, Side.other_other, hout, List.filter_cons_of_neg (by simp [Packet.addr, hp])] at hnone
      rw [inbox, Side.other_other, handled_self, hnone]
      rfl
    · rw [inbox, ho.out, List.filter_append, ← inbox, hr.inbox]
      simp [Packet.addr, okayPacket, packetOf]
  · intro hnew
    have hno := hnew.2 n
    rw [Side.other_other] at hno
    exact absurd hlink hno

/-! ### The end of the transport -/

section offline

variable {e : End UInt8} {note : Nat}

/-- When the transport breaks, every socket of the side is cut off. One that is in use is
disconnected, and one that is not has nothing to lose. -/
theorem cut_socket {self other : UInt32} {greet : Greeting}
    (h : Shows self other greet false (P.socks n) (P.descr n) e) (note : Nat) :
    ∃ e', (∀ inbox, e.Step inbox false e' inbox true []) ∧
      Shows self other greet true ((P.handleOffline note).socks n) ((P.handleOffline note).descr n) e' := by
  rw [Process.handleOffline]
  dsimp only
  cases hs : P.socks n with
  | none =>
      rw [hs] at h
      refine ⟨e, fun _ => .cutIdle ?_, h.mono (fun _ => rfl) (fun _ => id) fun _ => rfl⟩
      generalize P.descr n = d at h
      cases h <;> simp [End.blank]
  | some s =>
      rw [hs] at h
      exact (h.disconnect note).2

/-- The state after `handle_packet` has seen the end of the transport of `x`. -/
def broken (S : System) (x : Side) (note : Nat) : System :=
  S.set x { (S.proc x).handleOffline note with pump := .down }

@[simp] theorem broken_other (S : System) (x : Side) (note : Nat) :
    (S.broken x note).proc x.other = S.proc x.other := set_proc_other ..

@[simp] theorem broken_self (S : System) (x : Side) (note : Nat) :
    (S.broken x note).proc x = { (S.proc x).handleOffline note with pump := .down } := set_proc_self ..

theorem broken_outgoing (S : System) (x : Side) (note : Nat) (z : Side) :
    ((S.broken x note).proc z).outgoing = (S.proc z).outgoing := by
  rcases eq_or_other x z with rfl | rfl
  · rw [broken_self]
    rfl
  · rw [broken_other]

theorem broken_count (S : System) (x : Side) (note : Nat) (z : Side) :
    ((S.broken x note).proc z).count = (S.proc z).count := by
  rcases eq_or_other x z with rfl | rfl
  · rw [broken_self]
    rfl
  · rw [broken_other]

theorem broken_inbox (S : System) (x : Side) (note : Nat) (z : Side) (k : Nat) :
    (S.broken x note).inbox z k = S.inbox z k := by
  rw [inbox, inbox, broken_outgoing]

theorem broken_asks (S : System) (x : Side) (note : Nat) (z : Side) (k : Nat) :
    (S.broken x note).asks z k = S.asks z k := by
  rw [asks, asks, broken_outgoing]

theorem broken_cut_self (S : System) (x : Side) (note : Nat) : (S.broken x note).cut x = true := by
  simp [cut]

theorem broken_cut_other (S : System) (x : Side) (note : Nat) :
    (S.broken x note).cut x.other = S.cut x.other := by
  simp [cut]

/-- The connections that the side asked for. The cut of the transport is one step of their near end,
before the answer as well as after it. -/
theorem Projects.broken_near (h : S.Projects x n c) (hcut : S.cut x = false) (note : Nat) :
    ∃ c', c.Step c' ∧ (S.broken x note).Projects x n c' := by
  cases h with
  | before unanswered near far toFar toNear cutNear cutFar withdrew =>
      rw [hcut] at near cutNear
      obtain ⟨e', hstep, hshows⟩ := cut_socket near note
      have hs := hstep c.toNear
      rw [← cutNear] at hs
      refine ⟨_, .near hs, .before unanswered ?_ far ?_ ?_ ?_ ?_ (hs.withdrawn_iff.trans withdrew)⟩
      · rwa [broken_cut_self, broken_self]
      · rwa [broken_asks, List.append_nil]
      · rwa [broken_inbox]
      · rw [broken_cut_self]
      · rwa [broken_cut_other]
  | after f answered near far asked toFar toNear cutNear cutFar withdrew =>
      rw [hcut] at near cutNear
      obtain ⟨e', hstep, hshows⟩ := cut_socket near note
      have hs := hstep c.toNear
      rw [← cutNear] at hs
      refine ⟨_, .near hs, .after f answered ?_ ?_ ?_ ?_ ?_ ?_ ?_ (hs.withdrawn_iff.trans withdrew)⟩
      · rwa [broken_cut_self, broken_self]
      · rwa [broken_cut_other, broken_other]
      · rwa [broken_asks]
      · rwa [broken_inbox, List.append_nil]
      · rwa [broken_inbox]
      · rw [broken_cut_self]
      · rwa [broken_cut_other]

/-- The connections that the other side asked for. Their far end makes the step; where there is no
far end yet, only the transport is cut, and the answer will never be sent. -/
theorem Projects.broken_far (h : S.Projects x.other n c) (hcut : S.cut x = false) (note : Nat) :
    ∃ c', c.Step c' ∧ (S.broken x note).Projects x.other n c' := by
  cases h with
  | before unanswered near far toFar toNear cutNear cutFar withdrew =>
      rw [Side.other_other, hcut] at cutFar
      have hs : c.far.Step c.toFar c.cutFar c.far c.toFar true [] := by
        rw [cutFar, far]
        exact .cutIdle (by simp [End.blank])
      refine ⟨_, .far hs, .before unanswered ?_ far ?_ ?_ ?_ ?_ withdrew⟩
      · rwa [broken_cut_other, broken_other]
      · rwa [broken_asks]
      · rwa [broken_inbox, List.append_nil]
      · rwa [broken_cut_other]
      · rw [Side.other_other, broken_cut_self]
  | after f answered near far asked toFar toNear cutNear cutFar withdrew =>
      rw [Side.other_other, hcut] at far cutFar
      rw [Side.other_other] at toFar
      obtain ⟨e', hstep, hshows⟩ := cut_socket far note
      have hs := hstep c.toFar
      rw [← cutFar] at hs
      refine ⟨_, .far hs, .after f answered ?_ ?_ ?_ ?_ ?_ ?_ ?_ withdrew⟩
      · rwa [broken_cut_other, broken_other]
      · rwa [Side.other_other, broken_cut_self, broken_self]
      · rwa [broken_asks]
      · rwa [Side.other_other, broken_inbox]
      · rwa [broken_inbox, List.append_nil]
      · rwa [broken_cut_other]
      · rw [Side.other_other, broken_cut_self]

/-- What is known of the handshake when the transport of `x` breaks. A transport that is down does
not come up again, so what has been said stays said. -/
theorem Inv.broken_speech (h : S.Inv) (hup : (S.proc x).pump = .up) (note : Nat) (z : Side) :
    (S.broken x note).Silent z ∨ (S.broken x note).Spoken z := by
  have honline : ((S.broken x note).proc x).online = false := by
    rw [broken_self]
    rfl
  have hpump : ((S.broken x note).proc x).pump = .down := by rw [broken_self]
  have hhost : (S.proc .host).pump ≠ .idle → ((S.broken x note).proc .host).pump ≠ .idle := by
    intro hne
    rcases eq_or_other x .host with heq | heq
    · rw [heq, hpump]
      simp
    · rwa [heq, broken_other, ← heq]
  rcases eq_or_other x z with rfl | rfl
  · refine (h.speech z).imp (fun hs => ?_) fun hs => ?_
    · refine ⟨by rw [broken_outgoing, hs.outgoing], hs.links, by rw [broken_other, hs.other], ?_,
        fun _ => honline⟩
      intro hz
      rw [hs.host hz] at hup
      cases hup
    · refine ⟨by simp, fun hz => ⟨hhost (hs.heard hz).1, ?_⟩, ?_⟩
      · rw [broken_outgoing]
        exact (hs.heard hz).2
      · rw [broken_outgoing, broken_other]
        exact hs.greets
  · refine (h.speech x.other).imp (fun hs => ?_) fun hs => ?_
    · refine ⟨by rw [broken_outgoing, hs.outgoing], hs.links, by rwa [Side.other_other], ?_, ?_⟩
      · rw [broken_other]
        exact hs.host
      · rw [broken_other]
        exact hs.device
    · refine ⟨by rw [broken_other]; exact hs.pump, fun hz => ⟨hhost (hs.heard hz).1, ?_⟩, ?_⟩
      · rw [broken_outgoing]
        exact (hs.heard hz).2
      · rw [broken_outgoing, Side.other_other]
        rcases hs.greets with ⟨p, rest, hout, hp, hrest, -⟩ | ⟨hno, -⟩
        · exact Or.inl ⟨p, rest, hout, hp, hrest, honline⟩
        · exact Or.inr ⟨hno, Or.inr hpump⟩

theorem Inv.down (h : S.Inv) (hup : (S.proc x).pump = .up) (note : Nat) : (S.broken x note).Inv := by
  have hcut : S.cut x = false := by simp [cut, hup]
  refine ⟨?_, h.broken_speech hup note, ?_⟩
  · refine h.shape.congr rfl rfl (broken_count S x note) ?_ ?_
    · intro z fd hfd
      have hnone := h.shape.beyond z fd hfd
      rcases eq_or_other x z with rfl | rfl
      · rw [broken_self]
        simp [Process.handleOffline, hnone]
      · rwa [broken_other]
    · intro z p hp
      rw [broken_outgoing] at hp
      exact Or.inl hp
  · intro z m hz
    have hz : S.IsNear z m := by
      rw [IsNear, broken_count] at hz
      exact hz
    obtain ⟨c, hc, hproj⟩ := h.conns z m hz
    rcases eq_or_other x z with rfl | rfl
    · obtain ⟨c', hstep, hproj'⟩ := hproj.broken_near hcut note
      exact ⟨c', hc.trans (.single hstep), hproj'⟩
    · obtain ⟨c', hstep, hproj'⟩ := hproj.broken_far hcut note
      exact ⟨c', hc.trans (.single hstep), hproj'⟩

end offline

/-! ### Every step -/

/-- **Any packet.** By its command: half of the handshake, a request that is served or
refused, or something for a socket; `SYNC` never travels. -/
theorem Inv.deliver (h : S.Inv) (fits : S.Fits) (hout : (S.proc x).outgoing = p :: rest)
    (hup : (S.proc x.other).pump = .up) {service : Bool}
    (run : (S.proc x.other).handlePacket x.other.isHost p service calls = some P)
    (fits' : (S.handled x rest P (S.newLinks x p service)).Fits) :
    (S.handled x rest P (S.newLinks x p service)).Inv := by
  have hmem : p ∈ (S.proc x).outgoing := by rw [hout]; exact List.mem_cons_self
  cases hp : p.command with
  | aSync => exact absurd hp (h.shape.no_sync x p hmem)
  | aCnxn =>
      have hoffline := (h.greeting hout hp).2.1
      have hnew : S.newLinks x p service = [] := by simp [newLinks, hp]
      simp only [Process.handlePacket, hp, hoffline, Bool.false_eq_true, if_false] at run
      rw [hnew]
      cases x with
      | host => exact h.cnxn_device hout hup hp (Option.some.inj run).symm
      | device => exact h.cnxn_host hout hup hp (Option.some.inj run).symm
  | aOpen =>
      have honline := h.online hout hup (by simp [hp])
      simp only [Process.handlePacket, hp, honline, if_true] at run
      cases service with
      | true =>
          have hnew : S.newLinks x p true = [⟨x, p.arg0.toNat - 1, (S.proc x.other).count⟩] := by
            simp [newLinks, hp, honline]
          rw [hnew] at fits' ⊢
          exact h.serve fits hout hup hp (Option.some.inj run).symm fits'
      | false =>
          have hnew : S.newLinks x p false = [] := by simp [newLinks]
          obtain rfl := Option.some.inj run
          rw [hnew] at fits' ⊢
          exact h.refuse hout hup hp fits'
  | aOkay | aClse | aWrte =>
      have haddr : p.addr = some p.arg1 := by simp [Packet.addr, hp]
      exact h.deliver_addressed fits hout hup haddr run

theorem inv_start : start.Inv := by
  refine ⟨?_, fun x => Or.inl ?_, fun x n hn => ?_⟩
  · constructor <;> simp [start, Process.fresh, Linked, Withdrew]
  · constructor <;> simp [start, Process.fresh]
  · exact absurd hn.1 (Nat.not_lt_zero n)

theorem count_set (h : (S.proc x).count ≤ P.count) (z : Side) :
    (S.proc z).count ≤ ((S.set x P).proc z).count := by
  rcases eq_or_other x z with rfl | rfl
  · rwa [set_proc_self]
  · rw [set_proc_other]

theorem handlePacket_count {host service : Bool} {P' : Process}
    (run : P.handlePacket host p service calls = some P') : P.count ≤ P'.count := by
  rw [Process.handlePacket] at run
  split at run
  · split at run <;> cases run <;> rfl
  · cases run
    split <;> rfl
  · split at run
    · split at run <;> cases run <;> simp
    · cases run
      rfl
  · split at run
    · split at run
      · obtain ⟨a, -, rfl⟩ := Option.map_eq_some_iff.mp run
        rw [Process.put_count]
      · cases run
        rfl
    · cases run
      rfl

/-- Sockets are only ever added: no handler takes a number back, so what is shown for a socket can
be followed through a whole run. -/
theorem Step.count_le (hs : S.Step S') (z : Side) : (S.proc z).count ≤ (S'.proc z).count := by
  cases hs with
  | event x can run => exact count_set (by simp) z
  | connect x destination hlen can => exact count_set (by simp [Process.connectToRemote]) z
  | withdraw x destination hlen can run =>
      rw [Process.connectAndClose_eq] at run
      obtain rfl := Option.some.inj run
      exact count_set (by simp [Process.connectToRemote]) z
  | reap x can run => exact count_set (by simp) z
  | up x idle run => exact count_set (handlePacket_count run) z
  | down x up run => exact count_set (handlePacket_count run) z
  | deliver x sent up run =>
      rcases eq_or_other x z with rfl | rfl
      · rw [handled_self]
      · rw [handled_other]
        exact handlePacket_count run

theorem Inv.step (h : S.Inv) (hs : S.Step S') (fits : S'.Fits) : S'.Inv := by
  have fits₀ : S.Fits := fun z => lt_of_le_of_lt (hs.count_le z) (fits z)
  cases hs with
  | event x can run => exact h.event fits₀ can run
  | connect x destination hlen can => exact h.connect fits can
  | withdraw x destination hlen can run => exact h.withdraw fits can run
  | reap x can run => exact h.reap fits₀ can run
  | up x idle run =>
      cases x with
      | host => exact h.up_host idle run
      | device => exact h.up_device idle run
  | down x up run =>
      obtain rfl := Option.some.inj run
      exact h.down up _
  | deliver x sent up run => exact h.deliver fits₀ sent up run fits

/-- **The invariant of two processes**, as long as the ids last. Sockets are never fewer after
a step, so if the ids suffice in the end they did all along. -/
theorem Reachable.inv (h : S.Reachable) (fits : S.Fits) : S.Inv := by
  induction h with
  | refl => exact inv_start
  | tail _ hstep ih =>
      exact (ih fun z => lt_of_le_of_lt (hstep.count_le z) (fits z)).step hstep fits

end System

end BlogStuff.Adb
