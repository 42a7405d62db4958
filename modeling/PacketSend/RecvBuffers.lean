/-
  The mbufs of `main.cpp`.

  Every mbuf a poll delivers belongs to the program from then on and must go back to the pool,
  once, with `rte_pktmbuf_free`; after that it must not be touched.  The loop keeps the books poll
  by poll: whatever a poll of at most `BURST_SIZE` delivers, each entry is accessed and then freed
  before the next poll, so that the log after some polls is known exactly (`Logged.polls`).
  `released_exactly_once` is read off that log.

  What the tables hold plays no part in this, but the bookkeeping is in their reach: a packet with
  a negative remainder can make the program add 1 to an int somewhere before `vote`, and where the
  compiler has put `total_num` there, the packet is counted twice.  The loop is therefore followed
  with any effect of such an access on the globals (`Beyond`).  If the effect spares `total_num`
  and `pkt`, everything holds for all packets (`released_of_spares`); if not, it holds as long as
  no packet with a negative remainder is processed (`released_exactly_once`), and one such packet
  can break the count (`released_exactly_once_not_counted`).  Stopping at the access is
  `receiveLoop` (`receiveLoop_ok_iff`).
-/
import PacketSend.RecvLoop
import PacketSend.MbufLog

namespace PacketSend

open PollLoop

/-! ## The loop, going on after an access out of range -/

/-- How an execution ends that does not reach the next head, with the state there. -/
inductive Halt where
  | exit (s : RxState)
  | undefined (s : RxState)

/-- `main.cpp` at a poll and with a packet. -/
def receiverOr (beyond : Beyond) : Receiver RxState Mbuf Halt where
  limit := burstSize
  overflow := Halt.exit
  missing := Halt.undefined
  polled := mainReceiver.polled
  body := fun s m =>
    match processOr beyond s m with
    | none => .error (.undefined s)
    | some s' => .ok { s' with burstNum := s'.burstNum + 1 }

/-- The receive loop. -/
def receiveLoopOr (beyond : Beyond) (bs : List Pass) (s : RxState) : Except Halt RxState :=
  (receiverOr beyond).loop bs s

theorem receiverOr_body_none {beyond : Beyond} {s : RxState} {m : Mbuf}
    (h : processOr beyond s m = none) : (receiverOr beyond).body s m = .error (.undefined s) := by
  simp only [receiverOr, h]

theorem receiverOr_body_some {beyond : Beyond} {s s' : RxState} {m : Mbuf}
    (h : processOr beyond s m = some s') :
    (receiverOr beyond).body s m = .ok { s' with burstNum := s'.burstNum + 1 } := by
  simp only [receiverOr, h]

/-- An execution of `receiveLoop` is one for every continuation. -/
theorem receiveLoopOr_of_receiveLoop {bs : List Pass} {s s' : RxState} (beyond : Beyond)
    (h : receiveLoop bs s = .ok s') : receiveLoopOr beyond bs s = .ok s' := by
  rw [receiveLoop_eq] at h
  refine mainReceiver.loop_mono (receiverOr beyond) rfl rfl (fun s m s' hbody => ?_) h
  cases hm : processPacket s m with
  | none =>
    rw [mainReceiver_body_none hm] at hbody
    nomatch hbody
  | some s₁ =>
    rw [mainReceiver_body_some hm] at hbody
    rw [receiverOr_body_some (processOr_of_processPacket beyond hm)]
    exact congrArg Except.ok (Except.ok.inj hbody)

/-- `receiveLoop` is the loop that stops at an access out of range. -/
theorem receiveLoop_ok_iff {bs : List Pass} {s s' : RxState} :
    receiveLoop bs s = .ok s' ↔ receiveLoopOr (fun _ _ => none) bs s = .ok s' := by
  refine ⟨receiveLoopOr_of_receiveLoop _, fun h => ?_⟩
  rw [receiveLoop_eq]
  refine (receiverOr fun _ _ => none).loop_mono mainReceiver rfl rfl (fun s m s' hbody => ?_) h
  cases hm : processPacket s m with
  | none =>
    rw [receiverOr_body_none ((processOr_never s m).trans hm)] at hbody
    nomatch hbody
  | some s₁ =>
    rw [receiverOr_body_some ((processOr_never s m).trans hm)] at hbody
    rw [mainReceiver_body_some hm]
    exact congrArg Except.ok (Except.ok.inj hbody)

/-! ## What holds between polls and between passes -/

/-- After the polls `qs` everything is settled, and `total_num` counts what was freed. -/
structure Settled (qs : List (Fin numRxQueues × List Mbuf)) (s : RxState) : Prop where
  mbufs : SettledLog qs s.log
  total : s.totalNum = BitVec.ofNat 64 (freedBy s.log).length

/-- The same at a head of the `while`, after the passes `bs`. -/
structure AtHead (bs : List Pass) (s : RxState) : Prop where
  mbufs : HeadLog bs s.log
  total : s.totalNum = BitVec.ofNat 64 (freedBy s.log).length

/-! ## What the loop logs -/

/-- From `s` to `s'` the program has done `es`, and counted what it freed. -/
structure Logged (s s' : RxState) (es : List RxEvent) : Prop where
  log : s'.log = s.log ++ es
  total : s'.totalNum = s.totalNum + BitVec.ofNat 64 (freedBy es).length

theorem Logged.refl (s : RxState) : Logged s s [] :=
  ⟨(List.append_nil _).symm, (BitVec.add_zero _).symm⟩

theorem Logged.append {s₀ s₁ s₂ : RxState} {es es' : List RxEvent} (h : Logged s₀ s₁ es)
    (h' : Logged s₁ s₂ es') : Logged s₀ s₂ (es ++ es') where
  log := by rw [h'.log, h.log, List.append_assoc]
  total := by
    rw [h'.total, h.total, freedBy_append, List.length_append, BitVec.ofNat_add, BitVec.add_assoc]

/-- An access out of range reaches neither `total_num` nor `pkt`. -/
def Spares (beyond : Beyond) : Prop :=
  ∀ g p g', beyond g p = some g' → g'.totalNum = g.totalNum ∧ g'.pkt = g.pkt

theorem Spares.updateOr {beyond : Beyond} (hspares : Spares beyond) {g g' : Globals}
    {p : MyPkt} (h : updateOr beyond g p = some g') : g'.totalNum = g.totalNum := by
  unfold PacketSend.updateOr at h
  split at h
  · obtain rfl := Option.some.inj h
    rfl
  · exact (hspares _ _ _ h).1

/-- A packet that is processed is accessed, freed and counted. -/
theorem Logged.packet {beyond : Beyond} (hspares : Spares beyond) {s s' : RxState} {m : Mbuf}
    (h : (receiverOr beyond).body s m = .ok s') : Logged s s' (handleEvents [m.addr]) := by
  cases hm : processOr beyond s m with
  | none =>
    rw [receiverOr_body_none hm] at h
    nomatch h
  | some s₁ =>
    rw [receiverOr_body_some hm] at h
    obtain rfl := Except.ok.inj h
    obtain ⟨g, hg, rfl⟩ := Option.map_eq_some_iff.mp hm
    refine ⟨rfl, ?_⟩
    show g.totalNum + 1 = s.totalNum + 1
    rw [hspares.updateOr hg]
    rfl

/-- **The log of any sequence of polls.** -/
theorem Logged.polls {beyond : Beyond} (hspares : Spares beyond)
    {qs : List (Fin numRxQueues × List Mbuf)} {s s' : RxState}
    (h : qs.foldlM (receiverOr beyond).take s = .ok s') : Logged s s' (qs.flatMap pollEvents) := by
  have hcomposes : Composes Logged := ⟨Logged.refl, Logged.append⟩
  have hlog := hcomposes.take (fun _ _ => ⟨rfl, (BitVec.add_zero _).symm⟩)
    (fun _ _ _ _ => Logged.packet hspares) h
  simp only [pollEvents_eq] at hlog
  exact hlog

/-- **After any sequence of polls everything is settled.** -/
theorem Settled.polls {beyond : Beyond} (hspares : Spares beyond)
    {qs : List (Fin numRxQueues × List Mbuf)} {s : RxState}
    (h : qs.foldlM (receiverOr beyond).take rxInit = .ok s) : Settled qs s := by
  have hlogged := Logged.polls hspares h
  have hlog : s.log = qs.flatMap pollEvents := hlogged.log
  constructor
  · rw [hlog]
    exact SettledLog.polls qs
  · rw [hlogged.total, ← hlog]
    exact BitVec.zero_add _

theorem AtHead.of_loop {beyond : Beyond} (hspares : Spares beyond) {bs : List Pass}
    {s : RxState} (h : receiveLoopOr beyond bs rxInit = .ok s) : AtHead bs s := by
  rw [receiveLoopOr, Receiver.loop_eq] at h
  have hsettled := Settled.polls hspares h
  exact ⟨hsettled.mbufs.head, hsettled.total⟩

/-! ## How an execution ends -/

/-- The only stop inside a burst is an access out of range. -/
theorem foldlM_body_error {beyond : Beyond} {ms : List Mbuf} {s : RxState} {e : Halt}
    (h : ms.foldlM (receiverOr beyond).body s = .error e) : ∃ s', e = .undefined s' := by
  rcases foldlM_stop ms s with ⟨s', hok⟩ | ⟨pre, m, post, s', e', -, -, hbody, herr⟩
  · rw [hok] at h
    nomatch h
  · obtain rfl : e' = e := Except.error.inj (herr.symm.trans h)
    cases hm : processOr beyond s' m with
    | none =>
      rw [receiverOr_body_none hm] at hbody
      exact ⟨s', (Except.error.inj hbody).symm⟩
    | some s₁ =>
      rw [receiverOr_body_some hm] at hbody
      nomatch hbody

/-- The program exits at a delivery that does not fit, in the state before that poll. -/
theorem take_error {beyond : Beyond} {s : RxState} {q : Fin numRxQueues × List Mbuf} {e : Halt}
    (h : (receiverOr beyond).take s q = .error e) :
    (burstSize < q.2.length ∧ e = .exit s) ∨ ∃ s', e = .undefined s' := by
  unfold Receiver.take at h
  split at h
  · rename_i hlen
    exact Or.inl ⟨hlen, (Except.error.inj h).symm⟩
  · exact Or.inr (foldlM_body_error h)

/-- Where the program survives every access, every packet is processed. -/
theorem receiverOr_body_total {beyond : Beyond}
    (h : ∀ g p, (updateOr beyond g p).isSome = true) (s : RxState) (m : Mbuf) :
    ∃ s', (receiverOr beyond).body s m = .ok s' := by
  obtain ⟨g, hg⟩ := Option.isSome_iff_exists.mp (h s.globals (mainDecode m.room))
  have hm : processOr beyond s m = some ((s.withGlobals g).finish m g.pkt) := by
    rw [processOr, hg, Option.map_some]
  exact ⟨_, receiverOr_body_some hm⟩

/-- Where the program survives every access, the loop reaches the next head or exits. -/
theorem receiveLoopOr_total {beyond : Beyond} (h : ∀ g p, (updateOr beyond g p).isSome = true)
    (bs : List Pass) (s : RxState) :
    (∃ s', receiveLoopOr beyond bs s = .ok s') ∨
      ∃ s', receiveLoopOr beyond bs s = .error (.exit s') := by
  rcases (receiverOr beyond).loop_stop bs s with hok | ⟨done, q, rest, s', e, -, -, htake, herr⟩
  · exact Or.inl hok
  · rcases Nat.lt_or_ge burstSize q.2.length with hlen | hlen
    · rw [Receiver.take, if_pos (show q.2.length > (receiverOr beyond).limit from hlen)] at htake
      obtain rfl := Except.error.inj htake
      exact Or.inr ⟨s', herr⟩
    · obtain ⟨s₁, hs₁⟩ := (receiverOr beyond).take_total hlen
        (fun m _ s => receiverOr_body_total h s m) s'
      rw [hs₁] at htake
      cases htake

/-! ## Every mbuf once -/

/-- What the receive loop owes the pool: at a head of the `while` no mbuf is owned, each delivered
    one has been freed once and not touched after that, the packets of each queue were processed
    in order, every pass polled the four queues and `total_num` is the number of the frees.  A
    delivery that does not fit the array makes the program exit with everything before it
    settled. -/
structure Released (beyond : Beyond) (bs : List Pass) : Prop where
  head : ∀ s, receiveLoopOr beyond bs rxInit = .ok s → AtHead bs s
  exit : ∀ s, receiveLoopOr beyond bs rxInit = .error (.exit s) → ∃ done q rest,
    polls bs = done ++ q :: rest ∧ burstSize < q.2.length ∧ Settled done s

/-- Where an access out of range spares `total_num` and `pkt`, this holds for all packets. -/
theorem released_of_spares {beyond : Beyond} (hspares : Spares beyond) (bs : List Pass) :
    Released beyond bs := by
  refine ⟨fun s h => AtHead.of_loop hspares h, fun s h => ?_⟩
  rcases (receiverOr beyond).loop_stop bs rxInit with
    ⟨s', hok⟩ | ⟨done, q, rest, s', e, hpolls, hdone, htake, herr⟩
  · rw [receiveLoopOr, hok] at h
    nomatch h
  · obtain rfl : e = .exit s := Except.error.inj (herr.symm.trans h)
    rcases take_error htake with ⟨hlen, heq⟩ | ⟨s₁, heq⟩
    · obtain rfl := Halt.exit.inj heq
      exact ⟨done, q, rest, hpolls, hlen, Settled.polls hspares hdone⟩
    · nomatch heq

/-- The packets the loop processes: those of the polls before the first that does not fit. -/
def processed (bs : List Pass) : List Mbuf := handled burstSize (polls bs)

/-- While no packet with a negative remainder is processed, no access is out of range. -/
theorem receiveLoopOr_eq_harmless (beyond : Beyond) {bs : List Pass}
    (h : ∀ m ∈ processed bs, 0 ≤ idxRem (mainDecode m.room)) :
    receiveLoopOr beyond bs rxInit = receiveLoopOr harmless bs rxInit := by
  refine (receiverOr harmless).loop_congr (receiverOr beyond) rfl rfl rfl (fun m hm s => ?_) _
  obtain ⟨t, ht, -⟩ :=
    voteUpdate_slots_of_idxRem s.tables ((idxRem_eq_slotOf_iff _).mpr (h m hm))
  have hsame : processOr beyond s m = processOr harmless s m := by
    have hvote : voteUpdate s.globals.tables (mainDecode m.room) = some t := ht
    rw [processOr, processOr, updateOr, updateOr, hvote]
  show (match processOr beyond s m with
    | none => Except.error (Halt.undefined s)
    | some s' => .ok { s' with burstNum := s'.burstNum + 1 }) = _
  rw [hsame]
  rfl

/-- **Every received mbuf is released exactly once**, in every run that processes no packet with a
    negative remainder, whatever else such a packet would do.  Such a run reaches the next head as
    long as every delivery fits the array, and exits at the first that does not. -/
theorem released_exactly_once (beyond : Beyond) (bs : List Pass)
    (h : ∀ m ∈ processed bs, 0 ≤ idxRem (mainDecode m.room)) :
    Released beyond bs ∧
    ((∀ b ∈ bs, ∀ r, (b r).length ≤ burstSize) → ∃ s, receiveLoopOr beyond bs rxInit = .ok s) ∧
    ((∃ b ∈ bs, ∃ r, burstSize < (b r).length) →
      ∃ s, receiveLoopOr beyond bs rxInit = .error (.exit s)) := by
  have hloop := receiveLoopOr_eq_harmless beyond h
  have hspares : Spares harmless := by
    intro g p g' hg
    obtain rfl := Option.some.inj hg
    exact ⟨rfl, rfl⟩
  have htotal : ∀ g p, (updateOr harmless g p).isSome = true := by
    intro g p
    unfold updateOr
    split <;> rfl
  have hreleased := released_of_spares hspares bs
  rw [hloop]
  refine ⟨⟨?_, ?_⟩, fun hlen => ?_, ?_⟩
  · rw [hloop]
    exact hreleased.head
  · rw [hloop]
    exact hreleased.exit
  · exact (receiverOr harmless).loop_total hlen
      (fun b _ r m _ s => receiverOr_body_total htotal s m) _
  · rintro ⟨b, hb, r, hlen⟩
    rcases receiveLoopOr_total htotal bs rxInit with ⟨s, hok⟩ | hexit
    · -- a loop that runs on has seen deliveries that fit only
      have hfits := Receiver.loop_fits hok (r, b r) (mem_polls.mpr ⟨b, hb, rfl⟩)
      have hfits' : (b r).length ≤ burstSize := hfits
      omega
    · exact hexit

/-- An eight-byte packet at `addr`, of value 0, with the bytes of `idx`. -/
def packetAt (addr : Nat) (b₀ b₁ b₂ b₃ : Words.Byte) : Mbuf :=
  ⟨addr, 8, ⟨[b₀, b₁, b₂, b₃, 0, 0, 0, 0], Nat.le.refl⟩, Nat.le.refl⟩

/-- What a compiler may make of an access out of range: here `total_num` lies 24 bytes before
    `vote`, so that `vote[-6]` is its lower half, and `array[-6]` is 0. -/
def totalBeforeVote : Beyond := fun g p =>
  if idxRem p = -6 ∧ p.value = 0 then
    some { g with totalNum := g.totalNum.extractLsb' 32 32 ++ (g.totalNum.extractLsb' 0 32 + 1) }
  else some g

/-- Packets of slots 6 and 7 on queue 0, and on queue 3 one with a negative `idx` and the
    remainder 0. -/
def threePackets (r : Fin numRxQueues) : List Mbuf :=
  match r.val with
  | 0 => [packetAt 1 0 0 0 6, packetAt 2 0 0 0 7]
  | 3 => [packetAt 3 255 255 0 0]
  | _ => []

/-- The property in two passes with three packets each. -/
theorem released_exactly_once_twice : Released totalBeforeVote [threePackets, threePackets] :=
  (released_exactly_once totalBeforeVote [threePackets, threePackets] (by decide)).1

/-- A packet with `idx = -6` and value 0, on queue 0. -/
def minusSix (r : Fin numRxQueues) : List Mbuf :=
  if r.val = 0 then [packetAt 1 255 255 255 250] else []

/-- As the first packet it is freed once and counted twice. -/
theorem released_exactly_once_not_counted : ¬ Released totalBeforeVote [minusSix] := by
  intro h
  have hrun : (receiveLoopOr totalBeforeVote [minusSix] rxInit).toOption.map
      (fun s => (s.totalNum, (freedBy s.log).length)) = some (2, 1) := by decide
  cases hloop : receiveLoopOr totalBeforeVote [minusSix] rxInit with
  | error e =>
    rw [hloop] at hrun
    nomatch hrun
  | ok s =>
    rw [hloop] at hrun
    obtain ⟨htotal, hfreed⟩ := Prod.mk.inj (Option.some.inj hrun)
    have hcount := (h.head s hloop).total
    rw [htotal, hfreed] at hcount
    exact absurd hcount (by decide)

end PacketSend
