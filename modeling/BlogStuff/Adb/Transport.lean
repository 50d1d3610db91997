import BlogStuff.Wire.Words

/-!
# BlogStuff.Adb.Transport

Messages on the wire (`adb.h`, `transport.c` and `transport_local.c`): a header of six
little-endian words, then the payload.

The main thread hands packets to the transport socket (`send_packet`). `input_thread` writes
them to the remote side once its own `SYNC` has come back, `output_thread` on the other side
reads packets until one is bad or cut off, and hands them to that side's main thread. Between
two main threads the transport is therefore a queue (`fromRemote_inputThread`), which is how
`BlogStuff.Adb.Process` uses it.
-/

namespace BlogStuff.Adb

open BlogStuff.Wire

/-! ### Packets -/

/-- `MAX_PAYLOAD`. -/
def maxPayload : Nat := 4096

/-- The message types. -/
inductive Command
  | aSync | aCnxn | aOpen | aOkay | aClse | aWrte
  deriving DecidableEq, Repr

/-- The constants `A_SYNC`, …, `A_WRTE`. -/
def Command.code : Command → UInt32
  | .aSync => 0x434e5953
  | .aCnxn => 0x4e584e43
  | .aOpen => 0x4e45504f
  | .aOkay => 0x59414b4f
  | .aClse => 0x45534c43
  | .aWrte => 0x45545257

/-- A packet as the main thread fills it in; `data` is the payload, `data_length` bytes. -/
structure Packet where
  command : Command
  arg0 : UInt32
  arg1 : UInt32
  data : Bytes
  deriving DecidableEq, Repr

/-- `struct amessage`. -/
structure Amessage where
  command : UInt32
  arg0 : UInt32
  arg1 : UInt32
  dataLength : UInt32
  dataCheck : UInt32
  magic : UInt32
  deriving DecidableEq, Repr

/-- `struct apacket` as it travels. -/
structure Apacket where
  msg : Amessage
  data : Bytes
  deriving DecidableEq, Repr

/-- The sum of the payload bytes. -/
def dataSum (data : Bytes) : UInt32 := data.foldl (fun sum x => sum + x.toUInt32) 0

/-- `send_packet(p, t)`: the packet with its length, checksum and magic. -/
def sendPacket (p : Packet) : Apacket where
  msg :=
    { command := p.command.code
      arg0 := p.arg0
      arg1 := p.arg1
      dataLength := UInt32.ofNat p.data.length
      dataCheck := dataSum p.data
      magic := p.command.code ^^^ 0xffffffff }
  data := p.data

/-- The header in memory, which is how it travels. -/
def Amessage.bytes (m : Amessage) : Bytes :=
  [m.command, m.arg0, m.arg1, m.dataLength, m.dataCheck, m.magic].flatMap word32

/-- The header that 24 bytes make. -/
def Amessage.ofBytes (h : Bytes) : Amessage :=
  ⟨wordAt h 0, wordAt h 1, wordAt h 2, wordAt h 3, wordAt h 4, wordAt h 5⟩

/-- `check_header(p)` returns 0. -/
def checkHeader (m : Amessage) : Bool :=
  m.magic == m.command ^^^ 0xffffffff && decide (m.dataLength.toNat ≤ maxPayload)

/-- `check_data(p)` returns 0. -/
def checkData (p : Apacket) : Bool := dataSum p.data == p.msg.dataCheck

/-- What `remote_write(p, t)` puts on the wire. -/
def remoteWrite (p : Apacket) : Bytes := p.msg.bytes ++ p.data

/-- `remote_read(p, t)` on the bytes that come. A header or a payload that fails its check ends the
reading for good, as does the end of the bytes. -/
def remoteRead (bs : Bytes) : Option (Apacket × Bytes) := do
  let (h, bs) ← readx 24 bs
  let m := Amessage.ofBytes h
  if checkHeader m then
    let (d, bs) ← readx m.dataLength.toNat bs
    if checkData ⟨m, d⟩ then some (⟨m, d⟩, bs) else none
  else none

/-! ### The threads of a transport -/

/-- `input_thread`: what it writes to the remote side, of the packets it is handed. A `SYNC` with
the token of the transport makes it active, one with 0 ends it, and neither is written. -/
def inputThread (token : UInt32) : Bool → List Packet → List Packet
  | _, [] => []
  | active, p :: ps =>
      if p.command = .aSync then
        if p.arg0 = 0 then []
        else inputThread token (active || p.arg1 == token) ps
      else if active then p :: inputThread token active ps
      else inputThread token active ps

/-- The wire format. -/
def wire : Codec Apacket := ⟨remoteWrite, remoteRead⟩

/-- The loop of `output_thread`: the packets it reads from the remote side. -/
def outputThread (bs : Bytes) : List Apacket := wire.readAll bs

/-! ### Headers -/

/-- What the checks of the reader ask for. -/
structure Apacket.Sound (p : Apacket) : Prop where
  header : checkHeader p.msg = true
  length : p.msg.dataLength.toNat = p.data.length
  check : checkData p = true

theorem sound_sendPacket {p : Packet} (h : p.data.length ≤ maxPayload) : (sendPacket p).Sound := by
  have hlen : (UInt32.ofNat p.data.length).toNat = p.data.length := by
    rw [UInt32.toNat_ofNat']
    exact Nat.mod_eq_of_lt (lt_of_le_of_lt h (by decide))
  refine ⟨?_, hlen, ?_⟩
  · simp [checkHeader, sendPacket, hlen, h]
  · simp [checkData, sendPacket]

@[simp] theorem length_bytes (m : Amessage) : m.bytes.length = 24 := by
  simp [Amessage.bytes]

@[simp] theorem ofBytes_bytes (m : Amessage) : Amessage.ofBytes m.bytes = m := by
  simp only [Amessage.ofBytes, Amessage.bytes]
  rw [wordAt_flatMap _ (by simp), wordAt_flatMap _ (by simp), wordAt_flatMap _ (by simp),
    wordAt_flatMap _ (by simp), wordAt_flatMap _ (by simp), wordAt_flatMap _ (by simp)]
  rfl

theorem remoteRead_append {h d : Bytes} (hh : h.length = 24)
    (hd : (Amessage.ofBytes h).dataLength.toNat = d.length) (rest : Bytes) :
    remoteRead (h ++ d ++ rest) =
      if checkHeader (Amessage.ofBytes h) && checkData ⟨Amessage.ofBytes h, d⟩ then
        some (⟨Amessage.ofBytes h, d⟩, rest)
      else none := by
  rw [remoteRead, List.append_assoc, readx_append hh]
  cases hc : checkHeader (Amessage.ofBytes h) with
  | false => simp [hc]
  | true => simp [hc, readx_append hd.symm]

theorem remoteRead_of_short {bs : Bytes} (h : bs.length < 24) : remoteRead bs = none := by
  rw [remoteRead, readx_eq_none.mpr h]
  rfl

/-- The header is there, but not all of the payload it announces. -/
theorem remoteRead_of_waiting {h d : Bytes} (hh : h.length = 24)
    (hd : d.length < (Amessage.ofBytes h).dataLength.toNat) : remoteRead (h ++ d) = none := by
  rw [remoteRead, readx_append hh]
  cases hc : checkHeader (Amessage.ofBytes h) with
  | false => simp [hc]
  | true => simp [hc, readx_eq_none.mpr hd]

/-! ### The wire is a queue -/

theorem wire_encode (p : Apacket) : wire.encode p = p.msg.bytes ++ p.data := rfl

theorem wire_decode (bs : Bytes) : wire.decode bs = remoteRead bs := rfl

theorem wire_exact : wire.Exact Apacket.Sound := by
  intro p hp
  refine ⟨?_, fun rest => ?_⟩
  · intro hnil
    have := congrArg List.length hnil
    simp [wire_encode] at this
  · have hlen : (Amessage.ofBytes p.msg.bytes).dataLength.toNat = p.data.length := by
      rw [ofBytes_bytes, hp.length]
    rw [wire_decode, wire_encode, remoteRead_append (length_bytes _) hlen, ofBytes_bytes, hp.header, hp.check]
    rfl

theorem wire_waits : wire.Waits Apacket.Sound := by
  refine ⟨remoteRead_of_short (by decide), fun p hp n hn => ?_⟩
  rw [wire_encode, List.length_append, length_bytes] at hn
  rw [wire_decode, wire_encode]
  by_cases h24 : n < 24
  · refine remoteRead_of_short ?_
    rw [List.length_take]
    omega
  · rw [List.take_append, List.take_of_length_le (by rw [length_bytes]; omega), length_bytes]
    refine remoteRead_of_waiting (length_bytes _) ?_
    rw [ofBytes_bytes, hp.length, List.length_take]
    omega

/-- The packets `input_thread` forwards of those that follow its own `SYNC`: up to the
`SYNC` that takes the transport offline, and no `SYNC` itself. -/
def forwarded (ps : List Packet) : List Packet :=
  (ps.takeWhile fun p => !(p.command == .aSync && p.arg0 == 0)).filter fun p => p.command != .aSync

theorem inputThread_active (token : UInt32) (ps : List Packet) :
    inputThread token true ps = forwarded ps := by
  induction ps with
  | nil => rfl
  | cons p ps ih =>
      by_cases hs : p.command = .aSync
      · by_cases h0 : p.arg0 = 0
        · simp [inputThread, forwarded, hs, h0]
        · simp [inputThread, forwarded, hs, h0, ih]
      · simp [inputThread, forwarded, hs, ih]

/-- Before its own `SYNC` comes back, `input_thread` drops everything. -/
theorem inputThread_inactive (token : UInt32) {pre : List Packet}
    (hpre : ∀ p ∈ pre, p.command ≠ .aSync) (ps : List Packet) :
    inputThread token false (pre ++ ⟨.aSync, 1, token, []⟩ :: ps) = forwarded ps := by
  induction pre with
  | nil => simp [inputThread, inputThread_active]
  | cons p pre ih =>
      have hp := hpre p List.mem_cons_self
      simpa [inputThread, hp] using ih fun q hq => hpre q (List.mem_cons_of_mem p hq)

theorem mem_of_mem_forwarded {ps : List Packet} {p : Packet} (h : p ∈ forwarded ps) : p ∈ ps :=
  (List.takeWhile_prefix _).subset (List.mem_of_mem_filter h)

/-- **A transport is a queue between two main threads.** Whatever one side sends before its
transport is up is dropped. Of what it sends afterwards, up to the point where the transport
goes down, the other side is handed the packets themselves, in order, as far as the wire
carried them whole. -/
theorem fromRemote_inputThread (token : UInt32) (pre post : List Packet)
    (hpre : ∀ p ∈ pre, p.command ≠ .aSync) (hpost : ∀ p ∈ post, p.data.length ≤ maxPayload) (n : Nat) :
    outputThread
        (((inputThread token false (pre ++ ⟨.aSync, 1, token, []⟩ :: post)).flatMap
          fun p => remoteWrite (sendPacket p)).take n) =
      wire.whole n ((forwarded post).map sendPacket) := by
  rw [inputThread_inactive token hpre, outputThread]
  have hflat : ((forwarded post).flatMap fun p => remoteWrite (sendPacket p)) =
      ((forwarded post).map sendPacket).flatMap wire.encode := by
    rw [List.flatMap_map]
    rfl
  rw [hflat]
  refine Codec.readAll_take wire_exact wire_waits ?_ n
  intro a ha
  obtain ⟨p, hp, rfl⟩ := List.mem_map.mp ha
  exact sound_sendPacket (hpost p (mem_of_mem_forwarded hp))

theorem fromRemote_inputThread_early :
    outputThread
        (((inputThread 7 false ([⟨.aOpen, 1, 0, [0]⟩] ++ ⟨.aSync, 1, 7, []⟩ ::
            [⟨.aOkay, 1, 2, []⟩, ⟨.aSync, 0, 0, []⟩])).flatMap fun p => remoteWrite (sendPacket p)).take 24) =
      wire.whole 24 ((forwarded [⟨.aOkay, 1, 2, []⟩, ⟨.aSync, 0, 0, []⟩]).map sendPacket) :=
  fromRemote_inputThread 7 [⟨.aOpen, 1, 0, [0]⟩] [⟨.aOkay, 1, 2, []⟩, ⟨.aSync, 0, 0, []⟩] (by decide)
    (by decide) 24

/-! ### Damage on the way -/

theorem foldl_add_eq (a : UInt32) (data : Bytes) :
    data.foldl (fun sum x => sum + x.toUInt32) a = a + dataSum data := by
  induction data generalizing a with
  | nil => simp [dataSum]
  | cons x data ih =>
      rw [dataSum, List.foldl_cons, List.foldl_cons, ih, ih (0 + x.toUInt32), UInt32.zero_add,
        UInt32.add_assoc]

theorem dataSum_append_cons (l r : Bytes) (x : UInt8) :
    dataSum (l ++ x :: r) = dataSum l + x.toUInt32 + dataSum r := by
  rw [dataSum, List.foldl_append, List.foldl_cons, foldl_add_eq]
  rfl

theorem dataSum_set_ne {data : Bytes} {i : Nat} (hi : i < data.length) {v : UInt8}
    (hv : data[i]? ≠ some v) : dataSum (data.set i v) ≠ dataSum data := by
  intro heq
  have hold : dataSum data =
      dataSum (data.take i) + data[i].toUInt32 + dataSum (data.drop (i + 1)) := by
    rw [← dataSum_append_cons]
    simp
  rw [List.set_eq_take_append_cons_drop, if_pos hi, dataSum_append_cons, hold, UInt32.add_left_inj,
    UInt32.add_right_inj, UInt8.toUInt32_inj] at heq
  exact hv (by rw [heq, List.getElem?_eq_getElem hi])

/-- The checks of the reader on a header with the words `c`, `s` and `m` for the command, the
checksum and the magic. -/
theorem checks_iff {c s m : UInt32} {q : Apacket} (hq : q.Sound) (a b : UInt32) :
    (checkHeader ⟨c, a, b, q.msg.dataLength, s, m⟩ &&
        checkData ⟨⟨c, a, b, q.msg.dataLength, s, m⟩, q.data⟩) = true ↔
      m = c ^^^ 0xffffffff ∧ q.msg.dataCheck = s := by
  have hlen := (Bool.and_eq_true_iff.mp hq.header).2
  have hsum : dataSum q.data = q.msg.dataCheck := beq_iff_eq.mp hq.check
  simp [checkHeader, checkData, hsum, of_decide_eq_true hlen]

theorem Apacket.Sound.magic {q : Apacket} (hq : q.Sound) : q.msg.magic = q.msg.command ^^^ 0xffffffff :=
  beq_iff_eq.mp (Bool.and_eq_true_iff.mp hq.header).1

theorem remoteRead_header_damaged {q : Apacket} (hq : q.Sound) {i : Nat} {v : UInt8} (hi : i < 24)
    (hv : q.msg.bytes[i]? ≠ some v) (hlen : i / 4 ≠ 3) (rest : Bytes) :
    remoteRead (q.msg.bytes.set i v ++ q.data ++ rest) = none ↔ i / 4 ≠ 1 ∧ i / 4 ≠ 2 := by
  have hsame : ∀ k, i / 4 ≠ k → wordAt (q.msg.bytes.set i v) k = wordAt q.msg.bytes k :=
    fun k hk => wordAt_set_of_ne hk v
  have hdiff := wordAt_set_ne (by rw [length_bytes]; omega) hv
  have hwords := ofBytes_bytes q.msg
  have h0 : wordAt q.msg.bytes 0 = q.msg.command := congrArg Amessage.command hwords
  have h3 : wordAt q.msg.bytes 3 = q.msg.dataLength := congrArg Amessage.dataLength hwords
  have h4 : wordAt q.msg.bytes 4 = q.msg.dataCheck := congrArg Amessage.dataCheck hwords
  have h5 : wordAt q.msg.bytes 5 = q.msg.magic := congrArg Amessage.magic hwords
  have hl : (Amessage.ofBytes (q.msg.bytes.set i v)).dataLength = q.msg.dataLength :=
    (hsame 3 hlen).trans h3
  rw [remoteRead_append (by rw [List.length_set, length_bytes]) (by rw [hl, hq.length]),
    Amessage.ofBytes, hsame 3 hlen, h3]
  rw [ite_eq_right_iff, ← not_iff_not]
  simp only [reduceCtorEq, imp_false, not_not, checks_iff hq]
  have hk : i / 4 = 0 ∨ (i / 4 = 1 ∨ i / 4 = 2) ∨ i / 4 = 4 ∨ i / 4 = 5 := by omega
  rcases hk with hk | hk | hk | hk
  · -- The command changes, its complement does not.
    rw [hk, h0] at hdiff
    rw [hsame 5 (by omega), h5, hq.magic, UInt32.xor_left_inj]
    exact iff_of_false (fun h => hdiff h.1.symm) (by omega)
  · -- Nothing the checks look at changes.
    rw [hsame 5 (by omega), hsame 4 (by omega), hsame 0 (by omega), h0, h4, h5]
    exact iff_of_true ⟨hq.magic, rfl⟩ (by omega)
  · rw [hk, h4] at hdiff
    exact iff_of_false (fun h => hdiff h.2.symm) (by omega)
  · rw [hk, h5] at hdiff
    rw [hsame 0 (by omega), h0, ← hq.magic]
    exact iff_of_false (fun h => hdiff h.1) (by omega)

theorem remoteRead_payload_damaged {q : Apacket} (hq : q.Sound) {i : Nat} {v : UInt8}
    (hi : i < q.data.length) (hv : q.data[i]? ≠ some v) (rest : Bytes) :
    remoteRead (q.msg.bytes ++ q.data.set i v ++ rest) = none := by
  have hsum : dataSum q.data = q.msg.dataCheck := beq_iff_eq.mp hq.check
  have hbad : checkData ⟨q.msg, q.data.set i v⟩ = false := by
    rw [checkData, beq_eq_false_iff_ne, ← hsum]
    exact dataSum_set_ne hi hv
  rw [remoteRead_append (length_bytes _) (by rw [ofBytes_bytes, hq.length, List.length_set]),
    ofBytes_bytes, hbad, Bool.and_false]
  rfl

/-- **Single-byte damage.** A change of any one byte of a packet outside its length word is
noticed, and ends the reading, unless the byte belongs to one of the two arguments. `magic` is
the complement of the command, and the checksum is the sum of the payload's bytes, so one byte
changed in any of these breaks an equation; the arguments are in none. -/
theorem remoteRead_damaged_iff (p : Packet) (hp : p.data.length ≤ maxPayload) {i : Nat} {v : UInt8}
    (hi : i < (remoteWrite (sendPacket p)).length) (hv : (remoteWrite (sendPacket p))[i]? ≠ some v)
    (hlen : i / 4 ≠ 3) (rest : Bytes) :
    remoteRead ((remoteWrite (sendPacket p)).set i v ++ rest) = none ↔ i / 4 ≠ 1 ∧ i / 4 ≠ 2 := by
  have hq := sound_sendPacket hp
  generalize sendPacket p = q at hq hi hv ⊢
  rw [remoteWrite] at hi hv ⊢
  rw [List.length_append, length_bytes] at hi
  by_cases h24 : i < 24
  · rw [List.getElem?_append_left (by rwa [length_bytes])] at hv
    rw [List.set_append_left i v (by rwa [length_bytes])]
    exact remoteRead_header_damaged hq h24 hv hlen rest
  · rw [List.getElem?_append_right (by rw [length_bytes]; omega), length_bytes] at hv
    rw [List.set_append_right i v (by rw [length_bytes]; omega), length_bytes]
    exact iff_of_true (remoteRead_payload_damaged hq (by omega) hv rest) (by omega)

theorem remoteRead_damaged_iff_payload :
    remoteRead ((remoteWrite (sendPacket ⟨.aWrte, 1, 2, [104]⟩)).set 24 105 ++ []) = none ↔
      24 / 4 ≠ 1 ∧ 24 / 4 ≠ 2 :=
  remoteRead_damaged_iff ⟨.aWrte, 1, 2, [104]⟩ (by decide) (by decide) (by decide) (by decide) []

end BlogStuff.Adb
