/-
  What the two receivers print.

  `main.cpp` counts packets in `total_num` and prints two lines about a packet when the count has
  become a multiple of 10.  `packet_recv` prints a header for every burst that is not empty and
  one line for every packet of it.

  Either output is a function of the polls alone: of the packets in the order of processing for
  `main.cpp` (`mainLoop_output`), of the non-empty bursts for `packet_recv` (`recvLoop_output`).
  Read the other way round,

  * the `j`-th line of `main.cpp` is about the packet at position `10 j + 9`, as long as every
    table access is in range and `total_num` has not wrapped (`main_prints_tenths`).  It shows the
    text at `pkt + 1`, which need not be a part of the packet;
  * the transcript of `packet_recv` can be parsed back into the bursts it reports, with the index
    and the value of every packet (`transcript_round_trip`).  Of what else arrives it says nothing.
-/
import PacketSend.PacketRecv

namespace PacketSend

open PollLoop

/-! ## The lines of `main.cpp` -/

/-- What is printed about the packets `ms` when `total_num` is `n` before the first of them. -/
def printedLines (n : BitVec 64) : List Mbuf → List Line
  | [] => []
  | m :: ms =>
    if (n + 1) % 10 = 0 then printLine (ntohlInPlace m.room) :: printedLines (n + 1) ms
    else printedLines (n + 1) ms

theorem printedLines_append (n : BitVec 64) (ms ms' : List Mbuf) :
    printedLines n (ms ++ ms')
      = printedLines n ms ++ printedLines (n + BitVec.ofNat 64 ms.length) ms' := by
  induction ms generalizing n with
  | nil =>
    rw [List.nil_append, List.length_nil, BitVec.add_zero]
    rfl
  | cons m ms ih =>
    have hlen : n + BitVec.ofNat 64 (ms.length + 1) = n + 1 + BitVec.ofNat 64 ms.length := by
      rw [Nat.add_comm, BitVec.ofNat_add, ← BitVec.add_assoc]
      rfl
    rw [List.cons_append, printedLines, printedLines, List.length_cons, hlen, ih]
    split <;> rfl

/-- From `s` to `s'` the program has counted and printed the packets `ms`. -/
structure Reported (s s' : RxState) (ms : List Mbuf) : Prop where
  total : s'.totalNum = s.totalNum + BitVec.ofNat 64 ms.length
  burst : s'.burstNum = s.burstNum + BitVec.ofNat 64 ms.length
  out : s'.out = s.out ++ printedLines s.totalNum ms

theorem reported_composes : Composes Reported := by
  constructor
  · intro s
    exact ⟨(BitVec.add_zero _).symm, (BitVec.add_zero _).symm, (List.append_nil _).symm⟩
  · intro s₀ s₁ s₂ ms ms' h h'
    refine ⟨?_, ?_, ?_⟩
    · rw [h'.total, h.total, List.length_append, BitVec.ofNat_add, BitVec.add_assoc]
    · rw [h'.burst, h.burst, List.length_append, BitVec.ofNat_add, BitVec.add_assoc]
    · rw [h'.out, h.out, h.total, printedLines_append, List.append_assoc]

/-- One packet is counted in both counters, and printed if the count is a multiple of 10. -/
theorem Reported.body {s s' : RxState} {m : Mbuf} (h : mainReceiver.body s m = .ok s') :
    Reported s s' [m] := by
  cases hm : processPacket s m with
  | none =>
    rw [mainReceiver_body_none hm] at h
    cases h
  | some s₁ =>
    rw [mainReceiver_body_some hm] at h
    obtain rfl := Except.ok.inj h
    unfold processPacket at hm
    cases hvote : voteUpdate s.tables (ntohlInPlace m.room).pkt with
    | none =>
      simp only [hvote] at hm
      cases hm
    | some t =>
      simp only [hvote] at hm
      obtain rfl := Option.some.inj hm
      refine ⟨rfl, rfl, ?_⟩
      show (if printsNext s then s.out ++ [printLine (ntohlInPlace m.room)] else s.out) = _
      rw [printedLines]
      by_cases hprint : printsNext s
      · rw [if_pos hprint, if_pos (show (s.totalNum + 1) % 10 = 0 from hprint)]
        rfl
      · rw [if_neg hprint, if_neg (show ¬ (s.totalNum + 1) % 10 = 0 from hprint)]
        exact (List.append_nil _).symm

/-- **The output of `main.cpp`** is that of its packets in the order of processing. -/
theorem mainLoop_output {bs : List Pass} {s s' : RxState} (h : receiveLoop bs s = .ok s') :
    Reported s s' ((order bs).map Prod.snd) := by
  rw [receiveLoop_eq] at h
  have hpolled : ∀ s (q : Fin numRxQueues × List Mbuf),
      Reported s (mainReceiver.polled q.1.val q.2 s) [] := fun s _ =>
    ⟨(BitVec.add_zero _).symm, (BitVec.add_zero _).symm, (List.append_nil _).symm⟩
  have hloop := reported_composes.loop hpolled (fun _ _ m _ => Reported.body) h
  have hitems : ∀ q : Fin numRxQueues × List Mbuf,
      [] ++ q.2.flatMap (fun m => [m]) = (pollOrder q).map Prod.snd := by
    intro q
    rw [List.nil_append, List.flatMap_singleton', pollOrder, List.map_map]
    exact (List.map_id _).symm
  simp only [hitems] at hloop
  rw [order_eq, List.map_flatMap]
  exact hloop

/-! ## Every tenth packet -/

/-- Counting up by one, below the largest `uint64_t`. -/
theorem toNat_succ {n : BitVec 64} (h : n.toNat + 1 < 18446744073709551616) :
    (n + 1).toNat = n.toNat + 1 := by
  rw [BitVec.toNat_add, show (1 : BitVec 64).toNat = 1 from rfl]
  exact Nat.mod_eq_of_lt h

/-- As long as the count does not wrap, line `j` is about the packet that brings the count to the
    `j`-th next multiple of 10. -/
theorem getElem?_printedLines (ms : List Mbuf) (n : BitVec 64) (j : Nat)
    (hn : n.toNat + ms.length < 18446744073709551616) :
    (printedLines n ms)[j]?
      = ms[10 * j + 9 - n.toNat % 10]?.map fun m => printLine (ntohlInPlace m.room) := by
  induction ms generalizing n j with
  | nil => rfl
  | cons m ms ih =>
    rw [List.length_cons] at hn
    have hsucc : (n + 1).toNat = n.toNat + 1 := toNat_succ (by omega)
    have htenth : (n + 1) % 10 = 0 ↔ (n.toNat + 1) % 10 = 0 := by
      rw [← hsucc, ← BitVec.toNat_inj, BitVec.toNat_umod]
      exact Iff.rfl
    have ih' := fun j => ih (n + 1) j (by omega)
    rw [printedLines]
    by_cases h : (n.toNat + 1) % 10 = 0
    · rw [if_pos (htenth.mpr h)]
      cases j with
      | zero =>
        have hidx : 10 * 0 + 9 - n.toNat % 10 = 0 := by omega
        rw [hidx]
        rfl
      | succ j =>
        -- the next multiple is ten packets away
        have hidx : 10 * (j + 1) + 9 - n.toNat % 10 = 10 * j + 9 - (n + 1).toNat % 10 + 1 := by
          omega
        rw [List.getElem?_cons_succ, ih', hidx, List.getElem?_cons_succ]
    · have hidx : 10 * j + 9 - n.toNat % 10 = 10 * j + 9 - (n + 1).toNat % 10 + 1 := by
        omega
      rw [if_neg (fun h' => h (htenth.mp h')), ih', hidx, List.getElem?_cons_succ]

/-- **`main.cpp` prints every tenth packet.**  After an execution over fewer than `2 ^ 64`
    packets, with all table accesses in range, both counters are the number of packets, a tenth of
    them, rounded down, have been printed, and line `j` shows the fields of the packet at position
    `10 j + 9` of the order of processing and the text at `pkt + 1` in its room. -/
theorem main_prints_tenths {bs : List Pass} {s : RxState} (h : receiveLoop bs rxInit = .ok s)
    (hlen : (order bs).length < 18446744073709551616) :
    s.totalNum.toNat = (order bs).length ∧ s.burstNum = s.totalNum ∧
    s.out.length = (order bs).length / 10 ∧
    ∀ j, s.out[j]? = (order bs)[10 * j + 9]?.map fun e => printLine (ntohlInPlace e.2.room) := by
  have hrep := mainLoop_output h
  have htotal := hrep.total
  have hburst := hrep.burst
  have hout := hrep.out
  rw [List.length_map] at htotal hburst
  have hline : ∀ j, s.out[j]?
      = (order bs)[10 * j + 9]?.map fun e => printLine (ntohlInPlace e.2.room) := by
    intro j
    rw [hout]
    show (printedLines 0 ((order bs).map Prod.snd))[j]? = _
    rw [getElem?_printedLines _ _ _ (by rw [List.length_map]; simpa using hlen), List.getElem?_map,
      Option.map_map]
    rfl
  refine ⟨?_, hburst.trans htotal.symm, ?_, hline⟩
  · rw [htotal]
    show (0#64 + BitVec.ofNat 64 (order bs).length).toNat = _
    rw [BitVec.zero_add, BitVec.toNat_ofNat]
    exact Nat.mod_eq_of_lt hlen
  · -- a line is there exactly when its packet is
    have hiff : ∀ j, s.out.length ≤ j ↔ (order bs).length ≤ 10 * j + 9 := by
      intro j
      rw [← List.getElem?_eq_none_iff, hline, Option.map_eq_none_iff, List.getElem?_eq_none_iff]
    have hlast := hiff ((order bs).length / 10)
    have hprev := hiff ((order bs).length / 10 - 1)
    omega

/-- Twelve packets, three on each queue: one of them is printed. -/
theorem main_prints_tenths_twelve : ∃ s,
    receiveLoop [fun _ => List.replicate 3 (wirePacket 1 7)] rxInit = .ok s ∧
      s.out.length = 1 := by
  obtain ⟨s, hs, -⟩ := receiveLoop_ok [fun _ => List.replicate 3 (wirePacket 1 7)] rxInit
    (by decide) (by decide)
  exact ⟨s, hs, (main_prints_tenths hs (by decide)).2.2.1⟩

/-! ## The transcript of `packet_recv` -/

/-- The line printed about a packet. -/
def packetLine (m : Mbuf) : RecvLine :=
  .packet (recvDecode m.room).idx.toNat (recvDecode m.room).value.toNat

/-- What is printed about one poll: nothing if it delivers nothing, or the header and a line for
    each packet. -/
def pollLines (ms : List Mbuf) : List RecvLine :=
  if ms.length = 0 then [] else .received ms.length :: ms.map packetLine

/-- The line is about a packet. -/
def RecvLine.isPacket : RecvLine → Bool
  | .packet _ _ => true
  | .received _ => false

/-- From `s` to `s'` the program has printed `ls`, and counted one packet for each packet line. -/
structure Transcribed (s s' : RecvState) (ls : List RecvLine) : Prop where
  out : s'.out = s.out ++ ls
  burst : s'.burstNum = s.burstNum + BitVec.ofNat 64 (ls.countP RecvLine.isPacket)

theorem transcribed_composes : Composes Transcribed := by
  constructor
  · intro s
    exact ⟨(List.append_nil _).symm, (BitVec.add_zero _).symm⟩
  · intro s₀ s₁ s₂ ls ls' h h'
    refine ⟨?_, ?_⟩
    · rw [h'.out, h.out, List.append_assoc]
    · rw [h'.burst, h.burst, List.countP_append, BitVec.ofNat_add, BitVec.add_assoc]

/-- **The output of `packet_recv`** is that of its polls, one after another. -/
theorem recvLoop_output {al : Allocator} {bs : List RecvPass} {s s' : RecvState}
    (h : packetRecvLoop al bs s = .ok s') :
    Transcribed s s' ((polls bs).flatMap fun q => pollLines q.2) := by
  have hpolled : ∀ s (q : Fin numRxQueuesRecv × List Mbuf),
      Transcribed s ((packetRecv al).polled q.1.val q.2 s)
        (if q.2.length = 0 then [] else [.received q.2.length]) := by
    intro s q
    by_cases hq : q.2.length = 0
    · simp only [packetRecv, if_pos hq]
      exact ⟨(List.append_nil _).symm, (BitVec.add_zero _).symm⟩
    · simp only [packetRecv, if_neg hq]
      exact ⟨rfl, (BitVec.add_zero _).symm⟩
  have hbody : ∀ (_ : Fin numRxQueuesRecv) s m s', (packetRecv al).body s m = .ok s' →
      Transcribed s s' [packetLine m] := by
    intro _ s m s' hm
    obtain rfl := Except.ok.inj hm
    exact ⟨rfl, rfl⟩
  have hloop := transcribed_composes.loop hpolled hbody h
  have hlines : ∀ q : Fin numRxQueuesRecv × List Mbuf,
      ((if q.2.length = 0 then [] else [.received q.2.length])
        ++ q.2.flatMap fun m => [packetLine m]) = pollLines q.2 := by
    intro q
    rw [pollLines, ← List.map_eq_flatMap]
    by_cases hq : q.2.length = 0
    · rw [if_pos hq, if_pos hq, List.length_eq_zero_iff.mp hq]
      rfl
    · rw [if_neg hq, if_neg hq]
      rfl
  simp only [hlines] at hloop
  exact hloop

/-! ## Reading a transcript -/

/-- One burst of a transcript: what its header announces and the fields in its lines. -/
structure BurstReport where
  announced : Nat
  packets : List (Nat × Nat)
  deriving DecidableEq, Repr

/-- The bursts of a transcript, after the packet lines before its first header. -/
def readTranscript : List RecvLine → List (Nat × Nat) × List BurstReport
  | [] => ([], [])
  | .packet index value :: ls =>
    ((index, value) :: (readTranscript ls).1, (readTranscript ls).2)
  | .received numRecv :: ls =>
    ([], ⟨numRecv, (readTranscript ls).1⟩ :: (readTranscript ls).2)

/-- The fields of a packet as the two numbers that are printed. -/
def fieldsOf (m : Mbuf) : Nat × Nat :=
  ((recvDecode m.room).idx.toNat, (recvDecode m.room).value.toNat)

/-- The report about a burst. -/
def reportOf (ms : List Mbuf) : BurstReport := ⟨ms.length, ms.map fieldsOf⟩

theorem readTranscript_packets (ms : List Mbuf) (ls : List RecvLine) :
    readTranscript (ms.map packetLine ++ ls)
      = (ms.map fieldsOf ++ (readTranscript ls).1, (readTranscript ls).2) := by
  induction ms with
  | nil => rfl
  | cons m ms ih =>
    rw [List.map_cons, List.cons_append, packetLine, readTranscript, ih]
    rfl

/-- The transcript of some polls is read back as their non-empty bursts. -/
theorem readTranscript_pollLines (qs : List (List Mbuf)) :
    readTranscript (qs.flatMap pollLines)
      = ([], (qs.filter fun ms => ms.length ≠ 0).map reportOf) := by
  induction qs with
  | nil => rfl
  | cons ms qs ih =>
    rw [List.flatMap_cons, pollLines]
    by_cases hms : ms.length = 0
    · rw [if_pos hms, List.nil_append, ih, List.filter_cons_of_neg (by simpa using hms)]
    · rw [if_neg hms, List.filter_cons_of_pos (by simpa using hms), List.cons_append,
        readTranscript, readTranscript_packets, ih, List.append_nil]
      rfl

/-- The polls have as many packet lines as packets. -/
theorem countP_pollLines (qs : List (List Mbuf)) :
    (qs.flatMap pollLines).countP RecvLine.isPacket
      = (qs.filter fun ms => ms.length ≠ 0).flatten.length := by
  have hpackets : ∀ ms : List Mbuf, (ms.map packetLine).countP RecvLine.isPacket = ms.length := by
    intro ms
    rw [List.countP_map]
    exact congrFun List.countP_true ms
  induction qs with
  | nil => rfl
  | cons ms qs ih =>
    rw [List.flatMap_cons, List.countP_append, ih, pollLines]
    by_cases hms : ms.length = 0
    · rw [if_pos hms, List.filter_cons_of_neg (by simpa using hms), List.countP_nil, Nat.zero_add]
    · rw [if_neg hms, List.filter_cons_of_pos (by simpa using hms), List.flatten_cons,
        List.length_append, List.countP_cons_of_neg Bool.false_ne_true, hpackets]

/-- What `packet_recv` received in `bs`: the bursts that were not empty, in order. -/
def burstsOf (bs : List RecvPass) : List (List Mbuf) :=
  ((polls bs).map Prod.snd).filter fun ms => ms.length ≠ 0

/-- The two numbers of a line determine the two fields. -/
theorem recvDecode_of_fieldsOf {m m' : Mbuf} (h : fieldsOf m = fieldsOf m') :
    recvDecode m.room = recvDecode m'.room := by
  have hidx : (recvDecode m.room).idx = (recvDecode m'.room).idx :=
    BitVec.eq_of_toNat_eq (congrArg Prod.fst h)
  have hvalue : (recvDecode m.room).value = (recvDecode m'.room).value :=
    BitVec.eq_of_toNat_eq (congrArg Prod.snd h)
  cases hm : recvDecode m.room
  cases hm' : recvDecode m'.room
  rw [hm, hm'] at hidx hvalue
  exact congr (congrArg MyPkt.mk hidx) hvalue

/-- Reports determine the fields of the packets of the bursts. -/
theorem decode_of_reportOf {bss bss' : List (List Mbuf)}
    (h : bss.map reportOf = bss'.map reportOf) :
    bss.map (·.map fun m => recvDecode m.room) = bss'.map (·.map fun m => recvDecode m.room) := by
  induction bss generalizing bss' with
  | nil =>
    cases bss' with
    | nil => rfl
    | cons ms' bss' => cases h
  | cons ms bss ih =>
    cases bss' with
    | nil => cases h
    | cons ms' bss' =>
      obtain ⟨hhead, htail⟩ := List.cons.inj h
      have hfields : ms.map fieldsOf = ms'.map fieldsOf := congrArg BurstReport.packets hhead
      have hpackets : ms.map (fun m => recvDecode m.room) = ms'.map fun m => recvDecode m.room := by
        have hlen : ms.length = ms'.length := congrArg BurstReport.announced hhead
        apply List.ext_getElem (by rw [List.length_map, List.length_map, hlen])
        intro i hi hi'
        rw [List.getElem_map, List.getElem_map]
        apply recvDecode_of_fieldsOf
        have hget := congrArg (·[i]?) hfields
        rw [List.length_map] at hi hi'
        rw [List.getElem?_map, List.getElem?_map, List.getElem?_eq_getElem hi,
          List.getElem?_eq_getElem hi'] at hget
        exact Option.some.inj hget
      rw [List.map_cons, List.map_cons, hpackets, ih htail]

/-- What an execution has printed is parsed into its non-empty bursts. -/
theorem readTranscript_loop {al : Allocator} {live : List Nat} {bs : List RecvPass}
    {s : RecvState} (h : packetRecvLoop al bs (recvInit live) = .ok s) :
    readTranscript s.out = ([], (burstsOf bs).map reportOf) := by
  have hout : s.out = (polls bs).flatMap fun q => pollLines q.2 := (recvLoop_output h).out
  rw [hout, ← List.flatMap_map Prod.snd pollLines]
  exact readTranscript_pollLines _

/-- **The transcript of `packet_recv` can be read back.**  Parsing what an execution has printed
    gives its non-empty bursts in order, each with its announced number and the index and value of
    all its packets; `burst_num` counts the packets; and two executions that print the same have
    received, burst by burst, packets of the same index and value. -/
theorem transcript_round_trip (al : Allocator) (live : List Nat) {bs : List RecvPass}
    {s : RecvState} (h : packetRecvLoop al bs (recvInit live) = .ok s) :
    readTranscript s.out = ([], (burstsOf bs).map reportOf) ∧
    s.burstNum = BitVec.ofNat 64 (burstsOf bs).flatten.length ∧
    ∀ (al' : Allocator) (live' : List Nat) (bs' : List RecvPass) (s' : RecvState),
      packetRecvLoop al' bs' (recvInit live') = .ok s' → s'.out = s.out →
      (burstsOf bs').map (·.map fun m => recvDecode m.room)
        = (burstsOf bs).map (·.map fun m => recvDecode m.room) := by
  refine ⟨readTranscript_loop h, ?_, ?_⟩
  · have hburst := (recvLoop_output h).burst
    rw [← List.flatMap_map Prod.snd pollLines, countP_pollLines] at hburst
    exact hburst.trans (BitVec.zero_add _)
  · intro al' live' bs' s' h' hsame
    have hread := readTranscript_loop h'
    rw [hsame, readTranscript_loop h] at hread
    exact (decode_of_reportOf (congrArg Prod.snd hread)).symm

/-- A poll that delivers nothing, and then a burst of one packet. -/
theorem transcript_round_trip_single : ∃ s,
    packetRecvLoop bumpAllocator [fun _ => [], fun _ => [wirePacket 1 7]] (recvInit []) = .ok s ∧
      readTranscript s.out = ([], [reportOf [wirePacket 1 7]]) :=
  ⟨_, rfl, (transcript_round_trip bumpAllocator []
    (show packetRecvLoop bumpAllocator [fun _ => [], fun _ => [wirePacket 1 7]] (recvInit []) = _
      from rfl)).1⟩

end PacketSend
