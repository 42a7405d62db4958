/-
  The receive loop of `main.cpp`.

      while (1) {
          struct rte_mbuf *mbufs[BURST_SIZE];
          for (int r = 0; r < num_rx_queues; r++) {
              uint16_t num_recv = rte_eth_rx_burst(portid, r, mbufs, BURST_SIZE);
              if (num_recv > BURST_SIZE) rte_exit(...);
              for (int i = 0; i < num_recv; i++, burst_num++) { ... mbufs[i] ... }
          }
      }

  One pass of the `while` polls the four queues in turn.  What the NIC answers is the input of the
  model: a `Pass` gives, for each queue, the mbufs its poll delivers, and an execution is a list
  of passes.  The array `mbufs` is shared by the four polls of a pass; a poll overwrites its first
  entries and the loop reads them back by index.

  The tables an execution ends with do not depend on how the NIC sliced the traffic into bursts
  (`receiveLoop_schedule_independent`).  The update of a packet is local to its slot
  (`voteUpdate_slots`), so only the order of the packets of each slot matters; every execution
  takes the packets of one queue in order (`order_filter`), and the packets of one slot arrive on
  one queue.
-/
import PacketSend.RecvPacket
import PacketSend.VoteAccess
import PacketSend.Lib.PollLoop
import Mathlib.Data.List.FinRange

namespace PacketSend

open PollLoop

/-! ## The loop -/

/-- `num_rx_queues` of `main.cpp`. -/
def numRxQueues : Nat := 4

/-- Why an execution does not continue: `rte_exit`, or an access C does not define. -/
inductive Stop where
  | exit
  | undefined
  deriving DecidableEq, Repr

/-- `rte_eth_rx_burst` into the array: the delivered mbufs overwrite its first entries. -/
def rxBurst (mbufs ms : List Mbuf) : List Mbuf := ms ++ mbufs.drop ms.length

/-- The `for` over one burst: `n` iterations left, the next one at index `i`. -/
def burstLoop (mbufs : List Mbuf) : Nat → Nat → RxState → Except Stop RxState
  | 0, _, s => .ok s
  | n + 1, i, s =>
    match mbufs[i]? with
    | none => .error .undefined
    | some m =>
      match processPacket s m with
      | none => .error .undefined
      | some s' => burstLoop mbufs n (i + 1) { s' with burstNum := s'.burstNum + 1 }

/-- One poll of queue `r` that delivers `ms`. -/
def pollQueue (r : Nat) (ms mbufs : List Mbuf) (s : RxState) :
    Except Stop (List Mbuf × RxState) :=
  if ms.length > burstSize then .error .exit
  else
    match burstLoop (rxBurst mbufs ms) ms.length 0
        { s with log := s.log ++ [.rxBurst r (ms.map Mbuf.addr)] } with
    | .error e => .error e
    | .ok s' => .ok (rxBurst mbufs ms, s')

/-- What the four polls of one pass deliver. -/
abbrev Pass := Fin numRxQueues → List Mbuf

/-- The polls of the queues `rs`, in order, over one array. -/
def passLoop (b : Pass) : List (Fin numRxQueues) → List Mbuf → RxState → Except Stop RxState
  | [], _, s => .ok s
  | r :: rs, mbufs, s =>
    match pollQueue r.val (b r) mbufs s with
    | .error e => .error e
    | .ok (mbufs', s') => passLoop b rs mbufs' s'

/-- One pass of the `while`: the array starts with no entry written. -/
def whilePass (b : Pass) (s : RxState) : Except Stop RxState :=
  passLoop b (List.finRange numRxQueues) [] s

/-- The `while`, for a number of passes. -/
def receiveLoop : List Pass → RxState → Except Stop RxState
  | [], s => .ok s
  | b :: bs, s =>
    match whilePass b s with
    | .error e => .error e
    | .ok s' => receiveLoop bs s'

/-! ## The loop is one of `PollLoop` -/

/-- What `main.cpp` does at a poll and with a packet. -/
def mainReceiver : Receiver RxState Mbuf Stop where
  limit := burstSize
  overflow := fun _ => .exit
  missing := fun _ => .undefined
  polled := fun r ms s => { s with log := s.log ++ [.rxBurst r (ms.map Mbuf.addr)] }
  body := fun s m =>
    match processPacket s m with
    | none => .error .undefined
    | some s' => .ok { s' with burstNum := s'.burstNum + 1 }

theorem mainReceiver_body_none {s : RxState} {m : Mbuf} (h : processPacket s m = none) :
    mainReceiver.body s m = .error .undefined := by
  simp only [mainReceiver, h]

theorem mainReceiver_body_some {s s' : RxState} {m : Mbuf} (h : processPacket s m = some s') :
    mainReceiver.body s m = .ok { s' with burstNum := s'.burstNum + 1 } := by
  simp only [mainReceiver, h]

theorem burstLoop_eq (mbufs : List Mbuf) : ∀ (n i : Nat) (s : RxState),
    burstLoop mbufs n i s = mainReceiver.burst mbufs n i s
  | 0, _, _ => rfl
  | n + 1, i, s => by
    rw [burstLoop, Receiver.burst]
    cases mbufs[i]? with
    | none => rfl
    | some m =>
      cases hm : processPacket s m with
      | none => simp only [hm, mainReceiver_body_none hm]
      | some s' =>
        simp only [hm, mainReceiver_body_some hm]
        exact burstLoop_eq mbufs n (i + 1) _

theorem pollQueue_eq (r : Nat) (ms mbufs : List Mbuf) (s : RxState) :
    pollQueue r ms mbufs s = mainReceiver.poll r ms mbufs s := by
  unfold pollQueue Receiver.poll
  by_cases hlen : ms.length > burstSize
  · rw [if_pos hlen]
    exact (if_pos hlen).symm
  · rw [if_neg hlen, if_neg (show ¬ ms.length > mainReceiver.limit from hlen), burstLoop_eq]
    cases hburst : mainReceiver.burst (deliver mbufs ms) ms.length 0
      (mainReceiver.polled r ms s) with
    | error e =>
      have hburst' : mainReceiver.burst (rxBurst mbufs ms) ms.length 0
        { s with log := s.log ++ [.rxBurst r (ms.map Mbuf.addr)] } = .error e := hburst
      simp only [hburst']
    | ok s' =>
      have hburst' : mainReceiver.burst (rxBurst mbufs ms) ms.length 0
        { s with log := s.log ++ [.rxBurst r (ms.map Mbuf.addr)] } = .ok s' := hburst
      simp only [hburst']
      rfl

theorem passLoop_eq (b : Pass) : ∀ (rs : List (Fin numRxQueues)) (mbufs : List Mbuf) (s : RxState),
    passLoop b rs mbufs s = mainReceiver.pass b rs mbufs s
  | [], _, _ => rfl
  | r :: rs, mbufs, s => by
    rw [passLoop, Receiver.pass, pollQueue_eq]
    cases mainReceiver.poll r.val (b r) mbufs s with
    | error e => rfl
    | ok p => exact passLoop_eq b rs p.1 p.2

/-- **The receive loop is the polling loop of `mainReceiver`.** -/
theorem receiveLoop_eq : ∀ (bs : List Pass) (s : RxState), receiveLoop bs s = mainReceiver.loop bs s
  | [], _ => rfl
  | b :: bs, s => by
    rw [receiveLoop, Receiver.loop, whilePass, passLoop_eq]
    cases mainReceiver.pass b (List.finRange numRxQueues) [] s with
    | error e => rfl
    | ok s' => exact receiveLoop_eq bs s'

/-! ## The order in which packets are processed -/

/-- The packets of one pass, each with its queue, in the order of processing. -/
def passOrder (b : Pass) (rs : List (Fin numRxQueues)) : List (Fin numRxQueues × Mbuf) :=
  rs.flatMap (fun r => (b r).map (fun m => (r, m)))

/-- The packets of an execution, each with its queue, in the order of processing. -/
def order (bs : List Pass) : List (Fin numRxQueues × Mbuf) :=
  bs.flatMap (fun b => passOrder b (List.finRange numRxQueues))

/-- The packets a poll delivers, each with the queue. -/
def pollOrder (q : Fin numRxQueues × List Mbuf) : List (Fin numRxQueues × Mbuf) :=
  q.2.map fun m => (q.1, m)

/-- The order of processing is that of the polls. -/
theorem order_eq (bs : List Pass) : order bs = (polls bs).flatMap pollOrder := by
  have hpass : ∀ b : Pass, ((List.finRange numRxQueues).map fun r => (r, b r)).flatMap pollOrder
      = passOrder b (List.finRange numRxQueues) := by
    intro b
    rw [List.flatMap_map]
    rfl
  unfold order polls
  rw [List.flatMap_assoc]
  simp only [hpass]

/-- **Per-queue order**: an execution processes the packets of queue `r` in the order in which
    its polls delivered them. -/
theorem order_filter (bs : List Pass) (r : Fin numRxQueues) :
    (order bs).filter (fun e => e.1 = r)
      = (bs.flatMap (fun b => b r)).map (fun m => (r, m)) := by
  rw [order_eq, filter_flatMap (p := fun q => q.1 = r), polls_filter, List.flatMap_map,
    List.map_flatMap]
  · rfl
  · intro q
    unfold pollOrder
    by_cases h : q.1 = r
    · rw [if_pos (decide_eq_true h), List.filter_eq_self]
      intro e he
      obtain ⟨m, -, rfl⟩ := List.mem_map.mp he
      exact decide_eq_true h
    · rw [if_neg (by rwa [decide_eq_true_iff]), List.filter_eq_nil_iff]
      intro e he
      obtain ⟨m, -, rfl⟩ := List.mem_map.mp he
      rwa [decide_eq_true_iff]

/-! ## What an execution leaves in the tables -/

/-- The slot of a received packet. -/
def mbufSlot (e : Fin numRxQueues × Mbuf) : Slot := slotOf (mainDecode e.2.room)

/-- The step of a slot for a received packet. -/
def mbufStep (c : SlotState) (e : Fin numRxQueues × Mbuf) : SlotState :=
  slotStep c (mainDecode e.2.room)

/-- From `s`, the packets `es` have been processed and `s'` is the state after them. -/
structure Processed (s s' : RxState) (es : List (Fin numRxQueues × Mbuf)) : Prop where
  slots : s'.tables.slots = es.foldl (Keyed.update mbufSlot mbufStep) s.tables.slots
  total : s'.totalNum = s.totalNum + BitVec.ofNat 64 es.length

theorem Processed.nil {s s' : RxState} (ht : s'.tables = s.tables) (hn : s'.totalNum = s.totalNum) :
    Processed s s' [] where
  slots := by rw [ht]; rfl
  total := by rw [hn]; exact (BitVec.add_zero _).symm

theorem Processed.append {s₀ s₁ s₂ : RxState} {es fs : List (Fin numRxQueues × Mbuf)}
    (h : Processed s₀ s₁ es) (h' : Processed s₁ s₂ fs) : Processed s₀ s₂ (es ++ fs) where
  slots := by rw [h'.slots, h.slots, List.foldl_append]
  total := by rw [h'.total, h.total, List.length_append, BitVec.ofNat_add, BitVec.add_assoc]

/-- A packet that is processed has the effect of one slot step. -/
theorem Processed.packet {s s' : RxState} {m : Mbuf} (r : Fin numRxQueues)
    (h : processPacket s m = some s') :
    Processed s { s' with burstNum := s'.burstNum + 1 } [(r, m)] := by
  unfold processPacket at h
  cases hvote : voteUpdate s.tables (ntohlInPlace m.room).pkt with
  | none =>
    simp only [hvote] at h
    nomatch h
  | some t =>
    simp only [hvote] at h
    obtain rfl := Option.some.inj h
    exact ⟨voteUpdate_slots_of_some hvote, rfl⟩

/-- A packet the program can route is processed. -/
theorem mainReceiver_body_ok (s : RxState) {m : Mbuf} (h : Routable (mainDecode m.room)) :
    ∃ s', mainReceiver.body s m = .ok s' := by
  obtain ⟨t, ht, -⟩ := voteUpdate_slots s.tables h
  have ht' : voteUpdate s.tables (ntohlInPlace m.room).pkt = some t := ht
  have hrun : ∃ s', processPacket s m = some s' := by
    unfold processPacket
    simp only [ht']
    exact ⟨_, rfl⟩
  obtain ⟨s', hs'⟩ := hrun
  exact ⟨_, mainReceiver_body_some hs'⟩

theorem processed_composes : Composes Processed :=
  ⟨fun _ => Processed.nil rfl rfl, Processed.append⟩

theorem Processed.body {s s' : RxState} {m : Mbuf} (r : Fin numRxQueues)
    (h : mainReceiver.body s m = .ok s') : Processed s s' [(r, m)] := by
  cases hm : processPacket s m with
  | none =>
    rw [mainReceiver_body_none hm] at h
    nomatch h
  | some s₁ =>
    rw [mainReceiver_body_some hm] at h
    obtain rfl := Except.ok.inj h
    exact Processed.packet r hm

/-- **An execution that runs to its end has processed the packets of its bursts in order.** -/
theorem receiveLoop_processed {bs : List Pass} {s s' : RxState} (h : receiveLoop bs s = .ok s') :
    Processed s s' (order bs) := by
  rw [receiveLoop_eq] at h
  have hitems : ∀ q : Fin numRxQueues × List Mbuf,
      [] ++ q.2.flatMap (fun m => [(q.1, m)]) = pollOrder q := fun _ => List.map_eq_flatMap.symm
  have hloop := processed_composes.loop (fun _ _ => Processed.nil rfl rfl)
    (fun r _ _ _ => Processed.body r) h
  simp only [hitems] at hloop
  rw [order_eq]
  exact hloop

/-- An execution on packets the program can route runs to its end, and has processed the packets
    of all its bursts in order. -/
theorem receiveLoop_ok (bs : List Pass) (s : RxState)
    (hlen : ∀ b ∈ bs, ∀ r, (b r).length ≤ burstSize)
    (hroute : ∀ b ∈ bs, ∀ r, ∀ m ∈ b r, Routable (mainDecode m.room)) :
    ∃ s', receiveLoop bs s = .ok s' ∧ Processed s s' (order bs) := by
  obtain ⟨s', hs'⟩ := mainReceiver.loop_total hlen
    (fun b hb r m hm s => mainReceiver_body_ok s (hroute b hb r m hm)) s
  rw [← receiveLoop_eq] at hs'
  exact ⟨s', hs', receiveLoop_processed hs'⟩

/-! ## Independence of the schedule -/

/-- The execution `bs` takes the queue contents `Q` completely, in bursts of at most
    `BURST_SIZE`. -/
structure Consumes (bs : List Pass) (Q : Fin numRxQueues → List Mbuf) : Prop where
  burst : ∀ b ∈ bs, ∀ r, (b r).length ≤ burstSize
  all : ∀ r, bs.flatMap (fun b => b r) = Q r

theorem Consumes.routable {bs : List Pass} {Q : Fin numRxQueues → List Mbuf}
    (h : Consumes bs Q) (hQ : ∀ r, ∀ m ∈ Q r, Routable (mainDecode m.room)) :
    ∀ b ∈ bs, ∀ r, ∀ m ∈ b r, Routable (mainDecode m.room) := by
  intro b hb r m hm
  apply hQ r m
  rw [← h.all r]
  exact List.mem_flatMap.mpr ⟨b, hb, hm⟩

theorem Consumes.mem_order {bs : List Pass} {Q : Fin numRxQueues → List Mbuf}
    (h : Consumes bs Q) {e : Fin numRxQueues × Mbuf} (he : e ∈ order bs) : e.2 ∈ Q e.1 := by
  have hmem : e ∈ (order bs).filter (fun x => x.1 = e.1) :=
    List.mem_filter.mpr ⟨he, decide_eq_true rfl⟩
  rw [order_filter, h.all] at hmem
  obtain ⟨m, hm, hme⟩ := List.mem_map.mp hmem
  rw [← hme]
  exact hm

/-- Packet sequences with the same packets in the same order at every slot give the same
    tables. -/
theorem voteAll_congr (t : Tables) {ps qs : List MyPkt} (hp : ∀ p ∈ ps, Routable p)
    (hq : ∀ q ∈ qs, Routable q)
    (h : ∀ s, ps.filter (fun p => slotOf p = s) = qs.filter (fun q => slotOf q = s)) :
    voteAll t ps = voteAll t qs := by
  obtain ⟨t₁, ht₁, hs₁⟩ := voteAll_slots ps t hp
  obtain ⟨t₂, ht₂, hs₂⟩ := voteAll_slots qs t hq
  rw [ht₁, ht₂, Tables.eq_of_slots (hs₁.trans ((Keyed.foldl_update_congr h _).trans hs₂.symm))]

/-- **The tables do not depend on the schedule.**  Give each rx queue a list of packets the
    program can route, all packets of one slot on one queue.  Any two executions from the same
    state that take these lists completely end with the same tables and the same `total_num`;
    and packet sequences with the same sub-sequence at every slot lead to the same tables. -/
theorem receiveLoop_schedule_independent (Q : Fin numRxQueues → List Mbuf)
    (hroute : ∀ r, ∀ m ∈ Q r, Routable (mainDecode m.room))
    (hhome : ∀ r r', ∀ m ∈ Q r, ∀ m' ∈ Q r',
      slotOf (mainDecode m.room) = slotOf (mainDecode m'.room) → r = r') :
    (∀ (s₀ : RxState) (bs bs' : List Pass), Consumes bs Q → Consumes bs' Q →
      ∃ s s', receiveLoop bs s₀ = .ok s ∧ receiveLoop bs' s₀ = .ok s' ∧
        s.tables = s'.tables ∧ s.totalNum = s'.totalNum) ∧
    (∀ (t : Tables) (ps qs : List MyPkt), (∀ p ∈ ps, Routable p) → (∀ q ∈ qs, Routable q) →
      (∀ s, ps.filter (fun p => slotOf p = s) = qs.filter (fun q => slotOf q = s)) →
      voteAll t ps = voteAll t qs) := by
  refine ⟨fun s₀ bs bs' h h' => ?_, fun t ps qs => voteAll_congr t⟩
  obtain ⟨s, hs, hp⟩ := receiveLoop_ok bs s₀ h.burst (h.routable hroute)
  obtain ⟨s', hs', hp'⟩ := receiveLoop_ok bs' s₀ h'.burst (h'.routable hroute)
  have hsame : ∀ r, (order bs).filter (fun e => e.1 = r) = (order bs').filter (fun e => e.1 = r) :=
    fun r => by rw [order_filter, order_filter, h.all, h'.all]
  have hone : ∀ e ∈ order bs, ∀ e' ∈ order bs, mbufSlot e = mbufSlot e' → e.1 = e'.1 :=
    fun e he e' he' => hhome e.1 e'.1 e.2 (h.mem_order he) e'.2 (h.mem_order he')
  refine ⟨s, s', hs, hs', Tables.eq_of_slots ?_, ?_⟩
  · rw [hp.slots, hp'.slots]
    exact Keyed.foldl_update_congr (Keyed.filter_key_eq hsame hone) _
  · rw [hp.total, hp'.total, Keyed.length_eq_of_filter_src_eq hsame]

/-- A packet whose words, in network byte order, are `idx` and `value`. -/
def wirePacket (idx value : Words.Byte) : Mbuf :=
  ⟨0, 8, ⟨[0, 0, 0, idx, 0, 0, 0, value], Nat.le_refl _⟩, Nat.le_refl _⟩

/-- Two packets of slot 1 on queue 0, one packet of slot 2 on queue 1. -/
def twoQueues (r : Fin numRxQueues) : List Mbuf :=
  match r.val with
  | 0 => [wirePacket 1 7, wirePacket 1 8]
  | 1 => [wirePacket 2 5]
  | _ => []

/-- All of `twoQueues` in one pass, or the first packet of each queue and then the rest. -/
theorem receiveLoop_schedule_independent_two : ∃ s s',
    receiveLoop [twoQueues] rxInit = .ok s ∧
    receiveLoop [fun r => (twoQueues r).take 1, fun r => (twoQueues r).drop 1] rxInit = .ok s' ∧
    s.tables = s'.tables ∧ s.totalNum = s'.totalNum :=
  (receiveLoop_schedule_independent twoQueues (by decide) (by decide)).1 rxInit _ _
    ⟨by decide, fun r => List.append_nil _⟩
    ⟨by decide, fun r => (congrArg ((twoQueues r).take 1 ++ ·) (List.append_nil _)).trans
      (List.take_append_drop 1 (twoQueues r))⟩

end PacketSend
