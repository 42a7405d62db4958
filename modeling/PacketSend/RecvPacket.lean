/-
  One packet in the receive loop of `main.cpp`.

      pkt = rte_pktmbuf_mtod_offset(buf, my_pkt *, 0);
      pkt->idx = ntohl(pkt->idx);
      pkt->value = ntohl(pkt->value);
      ... vote update ...
      total_num++;
      if (total_num % 10 == 0) {
          std::cout << "index = " << pkt->idx << ", value = " << pkt->value << ...;
          std::cout << "payload = " << (char *)(pkt + 1) << std::endl;
      }
      rte_pktmbuf_free(mbufs[i]);

  `processPacket` stops at a table access out of range, which a packet with a negative remainder
  causes.  The program does not stop there: it reads and writes whatever lies beside the tables,
  with some builds `total_num` or `pkt` itself, and goes on to the print and the free.
  `processOr` takes what such an access does to the globals as a parameter (`Beyond`) and goes on
  from there; stopping is one choice of it (`processOr_never`).

  The length of the packet, `data_len`, is never looked at: the fields are the first eight bytes
  of the data room whatever the packet's length, and every tenth packet the bytes after them are
  printed as a C string, up to the first NUL wherever that is.  `reads` lists the offsets the
  processing looks at and `processOr_congr` proves the list complete.  What the program does
  with a packet is therefore a function of the packet's own bytes exactly when the packet is at
  least eight bytes long and, if it is one that is printed, has a NUL among its own bytes
  (`dependsOnPacketOnly_iff`).  The eight-byte packets of `packet_send` fail this every tenth
  time, and the output shows it: the byte after such a packet is visible in what is printed
  (`outcome_differs`).

  The figure printed as `CPU Cycle` is the difference of two variables the program never sets; it
  is not modelled.
-/
import PacketSend.WireFormat
import PacketSend.VoteAccess
import PacketSend.Lib.CString

namespace PacketSend

open Words CString

/-! ## State and output of the receive loop -/

/-- A received mbuf: its address, the length the NIC reports and its data room. -/
structure Mbuf where
  addr : Nat
  dataLen : Nat
  room : DataRoom
  fits : dataLen ≤ room.bytes.length

/-- The two lines printed for a packet. -/
structure Line where
  index : Int
  value : Int
  payload : List Byte
  deriving DecidableEq, Repr

/-- What the receive loop does to mbufs, in order: a burst delivered on queue `r`, an access to
    the data room of an mbuf, a `rte_pktmbuf_free`. -/
inductive RxEvent where
  | rxBurst (r : Nat) (addrs : List Nat)
  | access (addr : Nat)
  | free (addr : Nat)
  deriving DecidableEq, Repr

/-- The globals of `main.cpp`, with what it has printed and done so far. -/
structure RxState where
  tables : Tables
  totalNum : BitVec 64
  burstNum : BitVec 64
  out : List Line
  log : List RxEvent

/-- The state before the first packet. -/
def rxInit : RxState := ⟨zeroTables, 0, 0, [], []⟩

/-- `total_num++` followed by `total_num % 10 == 0`. -/
def printsNext (s : RxState) : Prop := (s.totalNum + 1) % 10 = 0

instance (s : RxState) : Decidable (printsNext s) :=
  inferInstanceAs (Decidable ((s.totalNum + 1) % 10 = 0))

/-- What is printed about a packet: its fields as `int`s and the string at `pkt + 1`. -/
def printLine (room : DataRoom) : Line :=
  ⟨room.pkt.idx.toInt, room.pkt.value.toInt, text room.payload⟩

/-- The loop body for one mbuf.  `none` is a table access out of range. -/
def processPacket (s : RxState) (m : Mbuf) : Option RxState :=
  let room := ntohlInPlace m.room
  match voteUpdate s.tables room.pkt with
  | none => none
  | some tables =>
    some { s with
      tables := tables
      totalNum := s.totalNum + 1
      out := if printsNext s then s.out ++ [printLine room] else s.out
      log := s.log ++ [.access m.addr, .free m.addr] }

/-! ## Going on after an access out of range -/

/-- The globals of the program: what an access out of range can hit.  `pkt` is where that pointer
    points, from the start of the data room of the mbuf at hand. -/
structure Globals where
  tables : Tables
  totalNum : BitVec 64
  burstNum : BitVec 64
  pkt : Nat

/-- The globals at the vote update of a packet: `pkt` has just been set. -/
def RxState.globals (s : RxState) : Globals := ⟨s.tables, s.totalNum, s.burstNum, 0⟩

/-- The state with other globals. -/
def RxState.withGlobals (s : RxState) (g : Globals) : RxState :=
  { s with tables := g.tables, totalNum := g.totalNum, burstNum := g.burstNum }

/-- What the update of a packet with an access out of range does to the globals: C leaves it
    open, so this is any function.  `none` if the program does not survive the access. -/
abbrev Beyond := Globals → MyPkt → Option Globals

/-- The vote update, in range or not. -/
def updateOr (beyond : Beyond) (g : Globals) (p : MyPkt) : Option Globals :=
  match voteUpdate g.tables p with
  | some tables => some { g with tables := tables }
  | none => beyond g p

/-- What is printed about a packet if `pkt` points to the offset `pkt` of the room. -/
def printLineAt (room : DataRoom) (pkt : Nat) : Line :=
  ⟨(load32 room.bytes pkt).toInt, (load32 room.bytes (pkt + 4)).toInt,
    text (room.bytes.drop (pkt + sizeofMyPkt))⟩

/-- Where it was set to, that is the line of the packet. -/
theorem printLineAt_zero (room : DataRoom) : printLineAt room 0 = printLine room := rfl

/-- The rest of the loop body, after the update. -/
def RxState.finish (s : RxState) (m : Mbuf) (pkt : Nat) : RxState :=
  { s with
    totalNum := s.totalNum + 1
    out := if printsNext s then s.out ++ [printLineAt (ntohlInPlace m.room) pkt] else s.out
    log := s.log ++ [.access m.addr, .free m.addr] }

/-- The loop body for one mbuf. -/
def processOr (beyond : Beyond) (s : RxState) (m : Mbuf) : Option RxState :=
  (updateOr beyond s.globals (mainDecode m.room)).map fun g => (s.withGlobals g).finish m g.pkt

/-- Inside the tables there is one way to continue. -/
theorem processOr_of_processPacket {s s' : RxState} {m : Mbuf} (beyond : Beyond)
    (h : processPacket s m = some s') : processOr beyond s m = some s' := by
  unfold processPacket at h
  cases hvote : voteUpdate s.tables (ntohlInPlace m.room).pkt with
  | none =>
    simp only [hvote] at h
    nomatch h
  | some t =>
    have hvote' : voteUpdate s.globals.tables (mainDecode m.room) = some t := hvote
    simp only [hvote] at h
    rw [processOr, updateOr, hvote', ← h]
    rfl

/-- If the program stops at an access out of range, it is `processPacket`. -/
theorem processOr_never (s : RxState) (m : Mbuf) :
    processOr (fun _ _ => none) s m = processPacket s m := by
  cases hm : processPacket s m with
  | some s' => exact processOr_of_processPacket _ hm
  | none =>
    unfold processPacket at hm
    cases hvote : voteUpdate s.tables (ntohlInPlace m.room).pkt with
    | some t =>
      simp only [hvote] at hm
      nomatch hm
    | none =>
      have hvote' : voteUpdate s.globals.tables (mainDecode m.room) = none := hvote
      rw [processOr, updateOr, hvote']
      rfl

/-- A packet with a non-negative remainder keeps to the tables. -/
theorem updateOr_of_nonneg {g : Globals} {p : MyPkt} (beyond : Beyond) (h : 0 ≤ idxRem p) :
    ∃ tables, updateOr beyond g p = some { g with tables := tables } := by
  obtain ⟨t, ht, -⟩ := voteUpdate_slots_of_idxRem g.tables ((idxRem_eq_slotOf_iff p).mpr h)
  exact ⟨t, by rw [updateOr, ht]⟩

/-! ## The conversion in place leaves the payload alone -/

theorem drop_store32 (bytes : List Byte) (off n : Nat) (w : BitVec 32) (h : off + 4 ≤ n) :
    (store32 bytes off w).drop n = bytes.drop n := by
  unfold store32
  rw [List.drop_set_of_lt (by omega), List.drop_set_of_lt (by omega),
    List.drop_set_of_lt (by omega), List.drop_set_of_lt (by omega)]

theorem drop_ntohlInPlace (room : DataRoom) {n : Nat} (h : sizeofMyPkt ≤ n) :
    (ntohlInPlace room).bytes.drop n = room.bytes.drop n := by
  have h' : 8 ≤ n := h
  show (store32 (store32 room.bytes 0 _) 4 _).drop n = room.bytes.drop n
  rw [drop_store32 _ _ _ _ (by omega), drop_store32 _ _ _ _ (by omega)]

@[simp] theorem payload_ntohlInPlace (room : DataRoom) :
    (ntohlInPlace room).payload = room.payload :=
  drop_ntohlInPlace room (Nat.le_refl _)

theorem printLine_ntohlInPlace (room : DataRoom) : printLine (ntohlInPlace room)
    = ⟨(mainDecode room).idx.toInt, (mainDecode room).value.toInt, text room.payload⟩ := by
  rw [printLine, payload_ntohlInPlace, mainDecode]

/-! ## Which bytes the processing reads -/

/-- The packet is printed, with `pkt` at the offset `pkt`: the program goes on after the update,
    and `total_num + 1` is a multiple of 10 then. -/
def Printed (beyond : Beyond) (s : RxState) (m : Mbuf) (pkt : Nat) : Prop :=
  ∃ g ∈ updateOr beyond s.globals (mainDecode m.room), g.pkt = pkt ∧ printsNext (s.withGlobals g)

instance (beyond : Beyond) (s : RxState) (m : Mbuf) (pkt : Nat) :
    Decidable (Printed beyond s m pkt) :=
  inferInstanceAs (Decidable (∃ g ∈ updateOr beyond s.globals (mainDecode m.room), _))

/-- Whether a packet with a non-negative remainder is printed depends on the state before it. -/
theorem printed_iff {beyond : Beyond} {s : RxState} {m : Mbuf}
    (h : 0 ≤ idxRem (mainDecode m.room)) {pkt : Nat} :
    Printed beyond s m pkt ↔ pkt = 0 ∧ printsNext s := by
  obtain ⟨tables, hg⟩ := updateOr_of_nonneg (g := s.globals) beyond h
  constructor
  · rintro ⟨g, hg', rfl, hprint⟩
    obtain rfl := Option.some.inj (hg.symm.trans hg')
    exact ⟨rfl, hprint⟩
  · rintro ⟨rfl, hprint⟩
    exact ⟨_, hg, rfl, hprint⟩

/-- The string at `pkt + 1`. -/
def textAt (room : DataRoom) (pkt : Nat) : List Byte := text (room.bytes.drop (pkt + sizeofMyPkt))

/-- The offsets, from the start of the data room, of the bytes the loop body reads: the two
    fields, and for a printed packet what is at `pkt` then, the fields and the string after them
    with its terminator. -/
def reads (beyond : Beyond) (s : RxState) (m : Mbuf) : List Nat :=
  List.range sizeofMyPkt ++
    match updateOr beyond s.globals (mainDecode m.room) with
    | none => []
    | some g =>
      if printsNext (s.withGlobals g) then
        (List.range (sizeofMyPkt + (textAt m.room g.pkt).length + 1)).map (g.pkt + ·)
      else []

theorem mem_reads {beyond : Beyond} {s : RxState} {m : Mbuf} {off : Nat} :
    off ∈ reads beyond s m ↔ off < sizeofMyPkt ∨ ∃ pkt, Printed beyond s m pkt ∧
      pkt ≤ off ∧ off ≤ pkt + sizeofMyPkt + (textAt m.room pkt).length := by
  unfold reads Printed
  rw [List.mem_append, List.mem_range]
  refine or_congr Iff.rfl ?_
  cases updateOr beyond s.globals (mainDecode m.room) with
  | none =>
    constructor
    · exact fun h => absurd h List.not_mem_nil
    · rintro ⟨pkt, ⟨g, hg, -⟩, -⟩
      nomatch hg
  | some g =>
    by_cases hprint : printsNext (s.withGlobals g)
    · simp only [if_pos hprint, List.mem_map, List.mem_range]
      constructor
      · rintro ⟨i, hi, rfl⟩
        exact ⟨g.pkt, ⟨g, rfl, rfl, hprint⟩, by omega, by omega⟩
      · rintro ⟨pkt, ⟨g', hg, rfl, -⟩, hge, hle⟩
        obtain rfl := Option.some.inj hg
        exact ⟨off - g.pkt, by omega, by omega⟩
    · simp only [if_neg hprint]
      constructor
      · exact fun h => absurd h List.not_mem_nil
      · rintro ⟨pkt, ⟨g', hg, -, hprint'⟩, -⟩
        obtain rfl := Option.some.inj hg
        exact absurd hprint' hprint

theorem load32_congr {bytes bytes' : List Byte} {off : Nat}
    (h : ∀ k, k < 4 → bytes[off + k]? = bytes'[off + k]?) :
    load32 bytes off = load32 bytes' off := by
  have hbyte : ∀ k, k < 4 → bytes.getD (off + k) 0 = bytes'.getD (off + k) 0 := by
    intro k hk
    rw [List.getD_eq_getElem?_getD, List.getD_eq_getElem?_getD, h k hk]
  unfold load32
  rw [show bytes.getD off 0 = bytes'.getD off 0 from hbyte 0 (by omega), hbyte 1 (by omega),
    hbyte 2 (by omega), hbyte 3 (by omega)]

theorem getElem?_set_congr {bytes bytes' : List Byte} {j : Nat} (h : bytes[j]? = bytes'[j]?)
    (i : Nat) (b : Byte) : (bytes.set i b)[j]? = (bytes'.set i b)[j]? := by
  by_cases hij : i = j
  · subst hij
    rw [List.getElem?_set_self', List.getElem?_set_self', h]
  · rw [List.getElem?_set_ne hij, List.getElem?_set_ne hij, h]

/-- The same conversion in two rooms that agree at `j`. -/
theorem ntohlInPlace_congr {room room' : DataRoom} (hpkt : room.pkt = room'.pkt) {j : Nat}
    (h : room.bytes[j]? = room'.bytes[j]?) :
    (ntohlInPlace room).bytes[j]? = (ntohlInPlace room').bytes[j]? := by
  have hstore : ∀ {bytes bytes' : List Byte} (off : Nat) (w : BitVec 32),
      bytes[j]? = bytes'[j]? → (store32 bytes off w)[j]? = (store32 bytes' off w)[j]? := by
    intro bytes bytes' off w hj
    exact getElem?_set_congr (getElem?_set_congr (getElem?_set_congr
      (getElem?_set_congr hj _ _) _ _) _ _) _ _
  have hvalue : (room.storeIdx (ntohl room.pkt.idx)).pkt.value
      = (room'.storeIdx (ntohl room'.pkt.idx)).pkt.value := by
    rw [DataRoom.pkt_storeIdx, DataRoom.pkt_storeIdx, hpkt]
  show (store32 (store32 room.bytes 0 _) 4 _)[j]? = (store32 (store32 room'.bytes 0 _) 4 _)[j]?
  rw [hvalue, hpkt]
  exact hstore 4 _ (hstore 0 _ h)

/-- What is printed depends on the bytes from `pkt` to the end of the string. -/
theorem printLineAt_congr {room room' : DataRoom} (hpkt : room.pkt = room'.pkt) {pkt : Nat}
    (h : ∀ off, pkt ≤ off → off ≤ pkt + sizeofMyPkt + (textAt room pkt).length →
      room.bytes[off]? = room'.bytes[off]?) :
    printLineAt (ntohlInPlace room) pkt = printLineAt (ntohlInPlace room') pkt := by
  have hsize : sizeofMyPkt = 8 := rfl
  have hload : ∀ off, pkt ≤ off → off + 4 ≤ pkt + 8 →
      load32 (ntohlInPlace room).bytes off = load32 (ntohlInPlace room').bytes off := by
    intro off hge hle
    exact load32_congr fun k hk => ntohlInPlace_congr hpkt (h _ (by omega) (by omega))
  have htext : textAt room pkt = textAt room' pkt := by
    apply text_congr
    intro i hi
    have hi' : i ≤ (textAt room pkt).length := hi
    rw [List.getElem?_drop, List.getElem?_drop]
    exact h _ (by omega) (by omega)
  unfold printLineAt
  rw [hload pkt (by omega) (by omega), hload (pkt + 4) (by omega) (by omega),
    drop_ntohlInPlace room (by omega), drop_ntohlInPlace room' (by omega)]
  exact congrArg _ htext

/-- **The list of reads is complete**: an mbuf at the same address that agrees with `m` at every
    offset in `reads beyond s m` is processed exactly as `m` is. -/
theorem processOr_congr {beyond : Beyond} {s : RxState} {m m' : Mbuf} (haddr : m'.addr = m.addr)
    (h : ∀ off ∈ reads beyond s m, m.room.bytes[off]? = m'.room.bytes[off]?) :
    processOr beyond s m' = processOr beyond s m := by
  have hfields : m.room.pkt = m'.room.pkt := by
    have hmem : ∀ off, off < 8 → m.room.bytes[off]? = m'.room.bytes[off]? := fun off hoff =>
      h off (mem_reads.mpr (Or.inl hoff))
    show MyPkt.mk _ _ = MyPkt.mk _ _
    rw [load32_congr (fun k hk => hmem (0 + k) (by omega)),
      load32_congr (fun k hk => hmem (4 + k) (by omega))]
  have hdecode : mainDecode m.room = mainDecode m'.room := by
    rw [mainDecode_eq, mainDecode_eq, hfields]
  unfold processOr
  rw [← hdecode]
  -- the update has seen the same fields; what is left is the print
  cases hg : updateOr beyond s.globals (mainDecode m.room) with
  | none => rw [Option.map_none, Option.map_none]
  | some g =>
    rw [Option.map_some, Option.map_some, RxState.finish, RxState.finish, haddr]
    by_cases hprint : printsNext (s.withGlobals g)
    · have hline : printLineAt (ntohlInPlace m'.room) g.pkt
          = printLineAt (ntohlInPlace m.room) g.pkt := by
        refine (printLineAt_congr hfields fun off hge hle => ?_).symm
        exact h off (mem_reads.mpr (Or.inr ⟨g.pkt, ⟨g, hg, rfl, hprint⟩, hge, hle⟩))
      rw [hline]
    · rw [if_neg hprint, if_neg hprint]

/-! ## What the processing depends on -/

/-- The mbuf `m'` carries the same packet as `m`: same buffer, same length, same first `data_len`
    bytes.  The rest of its data room is whatever an earlier use left there. -/
structure SamePacket (m m' : Mbuf) : Prop where
  addr : m'.addr = m.addr
  dataLen : m'.dataLen = m.dataLen
  data : m.room.bytes.take m.dataLen = m'.room.bytes.take m.dataLen

/-- The processing of `m` depends on the packet only: every mbuf carrying the same packet has the
    same effect on tables, counters and output, and all bytes read are bytes of the packet. -/
structure DependsOnPacketOnly (beyond : Beyond) (s : RxState) (m : Mbuf) : Prop where
  outcome : ∀ m', SamePacket m m' → processOr beyond s m' = processOr beyond s m
  inside : ∀ off ∈ reads beyond s m, off < m.dataLen

/-- A NUL lies behind the fields at `pkt`, before the end of the packet. -/
def NulWithin (m : Mbuf) (pkt : Nat) : Prop :=
  ∃ off, pkt + sizeofMyPkt ≤ off ∧ off < m.dataLen ∧ m.room.bytes[off]? = some 0

/-- The string at `pkt + 1` is read within the packet exactly when the packet has a NUL there. -/
theorem text_within_iff (m : Mbuf) (pkt : Nat) :
    pkt + sizeofMyPkt + (textAt m.room pkt).length < m.dataLen ↔ NulWithin m pkt := by
  have hget : ∀ i, (m.room.bytes.drop (pkt + sizeofMyPkt))[i]?
      = m.room.bytes[pkt + sizeofMyPkt + i]? := fun i => List.getElem?_drop
  constructor
  · intro hlt
    have hlen : (textAt m.room pkt).length
        < (m.room.bytes.drop (pkt + sizeofMyPkt)).length := by
      have hfits := m.fits
      rw [List.length_drop]
      omega
    refine ⟨_, Nat.le_add_right _ _, hlt, ?_⟩
    rw [← hget]
    exact nul_at_text_length _ hlen
  · rintro ⟨off, hge, hlt, hnul⟩
    have hle : (textAt m.room pkt).length ≤ off - (pkt + sizeofMyPkt) := by
      apply text_length_le_of_nul
      rw [hget, Nat.add_sub_cancel' hge]
      exact hnul
    omega

/-- All reads are inside the packet exactly when it holds both fields and, if it is printed, a
    NUL after them. -/
theorem reads_inside_iff (beyond : Beyond) (s : RxState) (m : Mbuf) :
    (∀ off ∈ reads beyond s m, off < m.dataLen) ↔
      sizeofMyPkt ≤ m.dataLen ∧ ∀ pkt, Printed beyond s m pkt → NulWithin m pkt := by
  constructor
  · intro h
    refine ⟨?_, fun pkt hp => ?_⟩
    · have hlast := h 7 (mem_reads.mpr (Or.inl (by decide)))
      exact hlast
    · apply (text_within_iff m pkt).mp
      exact h _ (mem_reads.mpr (Or.inr ⟨pkt, hp, by omega, Nat.le_refl _⟩))
  · rintro ⟨hlen, hnul⟩ off hoff
    rcases mem_reads.mp hoff with hlt | ⟨pkt, hp, -, hle⟩
    · omega
    · have := (text_within_iff m pkt).mpr (hnul pkt hp)
      omega

/-- **When a packet is processed from its own bytes**: for every state and every mbuf, and whatever
    an access out of range does, exactly when the packet is at least eight bytes long and, if it is
    printed, contains a NUL behind the fields that are printed. -/
theorem dependsOnPacketOnly_iff (beyond : Beyond) (s : RxState) (m : Mbuf) :
    DependsOnPacketOnly beyond s m ↔
      sizeofMyPkt ≤ m.dataLen ∧ ∀ pkt, Printed beyond s m pkt → NulWithin m pkt := by
  constructor
  · intro h
    exact (reads_inside_iff beyond s m).mp h.inside
  · intro h
    have hinside := (reads_inside_iff beyond s m).mpr h
    refine ⟨fun m' hm' => ?_, hinside⟩
    apply processOr_congr hm'.addr
    intro off hoff
    rw [← List.getElem?_take_of_lt (hinside off hoff), hm'.data,
      List.getElem?_take_of_lt (hinside off hoff)]

/-! ## A read past the packet shows -/

/-- The mbuf `m` with another byte right after its packet. -/
def Mbuf.withStale (m : Mbuf) (b : Byte) : Mbuf where
  addr := m.addr
  dataLen := m.dataLen
  room := ⟨m.room.bytes.set m.dataLen b, by rw [List.length_set]; exact m.room.holds⟩
  fits := by
    show m.dataLen ≤ (m.room.bytes.set m.dataLen b).length
    rw [List.length_set]
    exact m.fits

theorem samePacket_withStale (m : Mbuf) (b : Byte) : SamePacket m (m.withStale b) :=
  ⟨rfl, rfl, (List.take_set_of_le (Nat.le_refl _)).symm⟩

theorem mainDecode_withStale {m : Mbuf} (b : Byte) (hlen : sizeofMyPkt ≤ m.dataLen) :
    mainDecode (m.withStale b).room = mainDecode m.room := by
  have hlen' : 8 ≤ m.dataLen := hlen
  have hbyte : ∀ off, off < 8 →
      (m.room.bytes.set m.dataLen b)[off]? = m.room.bytes[off]? := fun off hoff =>
    List.getElem?_set_ne (by omega)
  rw [mainDecode_eq, mainDecode_eq]
  show MyPkt.mk (swap (load32 (m.room.bytes.set m.dataLen b) 0))
    (swap (load32 (m.room.bytes.set m.dataLen b) 4)) = _
  rw [load32_congr (fun k hk => hbyte (0 + k) (by omega)),
    load32_congr (fun k hk => hbyte (4 + k) (by omega))]
  rfl

/-- The length of the text printed for a packet without a NUL tells the first byte after it from a
    NUL. -/
theorem text_withStale {m : Mbuf} (b : Byte) (hlen : sizeofMyPkt ≤ m.dataLen)
    (hroom : m.dataLen < m.room.bytes.length) (hnul : ¬ NulWithin m 0) :
    (text (m.withStale b).room.payload).length = m.dataLen - sizeofMyPkt ↔ b = 0 := by
  have hget : ∀ j, (m.withStale b).room.payload[j]?
      = (m.room.bytes.set m.dataLen b)[sizeofMyPkt + j]? := fun j => List.getElem?_drop
  have hself : (m.withStale b).room.payload[m.dataLen - sizeofMyPkt]? = some b := by
    rw [hget, Nat.add_sub_cancel' hlen, List.getElem?_set_self hroom]
  have hbefore : ∀ j, j < m.dataLen - sizeofMyPkt →
      (m.withStale b).room.payload[j]? ≠ some 0 := by
    intro j hj h0
    rw [hget, List.getElem?_set_ne (by omega)] at h0
    exact hnul ⟨_, Nat.le_add_right (0 + sizeofMyPkt) j, by omega, h0⟩
  have hlast : m.dataLen - sizeofMyPkt < (m.withStale b).room.payload.length :=
    (List.getElem?_eq_some_iff.mp hself).1
  constructor
  · intro heq
    rcases Decidable.em (b = 0) with hb | hb
    · exact hb
    have hlt : m.dataLen - sizeofMyPkt < (text (m.withStale b).room.payload).length := by
      apply lt_text_length hlast
      intro j hj
      rcases Nat.lt_or_eq_of_le hj with hlt | rfl
      · exact hbefore j hlt
      · rw [hself]
        exact fun h => hb (Option.some.inj h)
    omega
  · rintro rfl
    have hle := text_length_le_of_nul _ _ hself
    rcases Nat.lt_or_eq_of_le hle with hlt | heq
    · exact absurd (nul_at_text_length _ (Nat.lt_trans hlt hlast)) (hbefore _ hlt)
    · exact heq

/-- **A read past the packet shows.**  If a tenth packet with a non-negative remainder holds both
    fields but no NUL, and does not fill the data room, then another byte after it changes what is
    printed. -/
theorem outcome_differs (beyond : Beyond) {s : RxState} {m : Mbuf}
    (hidx : 0 ≤ idxRem (mainDecode m.room)) (hlen : sizeofMyPkt ≤ m.dataLen)
    (hroom : m.dataLen < m.room.bytes.length) (hprint : printsNext s)
    (hnul : ¬ NulWithin m 0) : ∃ m' m'', SamePacket m m' ∧ SamePacket m m'' ∧
      processOr beyond s m' ≠ processOr beyond s m'' := by
  refine ⟨m.withStale 0, m.withStale 1, samePacket_withStale m 0, samePacket_withStale m 1, ?_⟩
  intro heq
  have hlen0 := (text_withStale 0 hlen hroom hnul).mpr rfl
  have hlen1 := (text_withStale 1 hlen hroom hnul).mp
  obtain ⟨tables, hg⟩ := updateOr_of_nonneg (g := s.globals) beyond hidx
  -- both are printed, and the two texts would have to be the same
  have hout : ∀ b, (processOr beyond s (m.withStale b)).map RxState.out = some (s.out ++
      [⟨(mainDecode m.room).idx.toInt, (mainDecode m.room).value.toInt,
        text (m.withStale b).room.payload⟩]) := by
    intro b
    rw [processOr, mainDecode_withStale b hlen, hg, Option.map_some, Option.map_some,
      RxState.finish]
    show some (if printsNext s then
      s.out ++ [printLineAt (ntohlInPlace (m.withStale b).room) 0] else s.out) = _
    rw [if_pos hprint, printLineAt_zero, printLine_ntohlInPlace, mainDecode_withStale b hlen]
  have hlines := Option.some.inj ((hout 0).symm.trans ((congrArg _ heq).trans (hout 1)))
  have hline := List.singleton_inj.mp (List.append_cancel_left hlines)
  have htext := congrArg List.length (congrArg Line.payload hline)
  exact absurd (hlen1 (htext.symm.trans hlen0)) (by decide)

/-- An eight-byte packet `(idx, value) = (0, 0)` in a room whose ninth byte is `b`. -/
def shortPacket (b : Byte) : Mbuf :=
  ⟨0, 8, ⟨List.replicate 8 0 ++ [b, 0], by simp [sizeofMyPkt]⟩, by simp⟩

/-- The same with `idx = -1`. -/
def negativePacket (b : Byte) : Mbuf :=
  ⟨0, 8, ⟨List.replicate 4 255 ++ List.replicate 4 0 ++ [b, 0], by simp [sizeofMyPkt]⟩, by simp⟩

/-- An access out of range that does no harm. -/
def harmless : Beyond := fun g _ => some g

/-- The tenth packet, eight bytes long as `packet_send` sends them, prints a byte that is not
    its own: two data rooms that differ in the ninth byte only give different output.  So does a
    tenth packet that is compared with `array[-1]`. -/
theorem dependsOnPacketOnly_not_short :
    ¬ DependsOnPacketOnly harmless { rxInit with totalNum := 9 } (shortPacket 65) ∧
    ¬ DependsOnPacketOnly harmless { rxInit with totalNum := 9 } (negativePacket 65) := by
  constructor
  · intro h
    have hsame : SamePacket (shortPacket 65) (shortPacket 66) := ⟨rfl, rfl, by decide⟩
    have hout := congrArg (Option.map RxState.out) (h.outcome _ hsame)
    exact absurd hout (by decide)
  · intro h
    have hsame : SamePacket (negativePacket 65) (negativePacket 66) := ⟨rfl, rfl, by decide⟩
    have hout := congrArg (Option.map RxState.out) (h.outcome _ hsame)
    exact absurd hout (by decide)

end PacketSend
