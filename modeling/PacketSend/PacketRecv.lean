/-
  `packet_recv`: the receive loop of `main_pkt_recv.cpp`.

      for (int i = 0; i < num_recv; i++, burst_num++) {
          struct rte_mbuf *buf = mbufs[i];
          auto pkt = new(my_pkt);
          pkt = rte_pktmbuf_mtod_offset(buf, my_pkt *, 0);
          std::cout << "index = " << pkt->idx << ", value = " << pkt->value << std::endl;
          rte_pktmbuf_free(mbufs[i]);
      }

  Two kinds of resource are acquired for a packet: the mbuf, by the poll, and a `my_pkt` object on
  the heap, by `new`.  The mbufs are handled as in `main.cpp` and all released
  (`packetRecv_mbufs`).  The object is not: the pointer to it is overwritten in the next statement
  by a pointer into the mbuf, and nothing ever deletes it.  The live objects are a component of
  the state; each packet adds one (`packetRecv_live`), so the loop gives back all it acquired
  exactly when no packet was delivered (`neutral_iff`).

  The heap never runs out here: `new` picks an address that is not live (`Allocator`).
-/
import PacketSend.RecvLoop
import PacketSend.MbufLog

namespace PacketSend

open PollLoop

/-! ## The program -/

/-- `num_rx_queues` of `main_pkt_recv.cpp`. -/
def numRxQueuesRecv : Nat := 1

/-- How `new` chooses the address of an object, given the addresses of the live ones. -/
structure Allocator where
  pick : List Nat → Nat
  fresh : ∀ live, pick live ∉ live

/-- The lines `packet_recv` prints. -/
inductive RecvLine where
  | received (numRecv : Nat)
  | packet (index value : Nat)
  deriving DecidableEq, Repr

/-- The state of `packet_recv`: the `my_pkt` objects that are live on the heap, the global
    `burst_num` (`total_num` stays 0), and what it has printed and done. -/
structure RecvState where
  live : List Nat
  burstNum : BitVec 64
  out : List RecvLine
  log : List RxEvent

/-- The state before the first packet, with the objects `live` on the heap. -/
def recvInit (live : List Nat) : RecvState := ⟨live, 0, [], []⟩

/-- What the variable `pkt` points to: an object on the heap, or the data room of an mbuf. -/
inductive PktPtr where
  | object (p : Nat)
  | room (m : Mbuf)

/-- Reading `pkt->idx` and `pkt->value`.  `none` for an object, whose fields were never written. -/
def PktPtr.load : PktPtr → Option MyPkt
  | .object _ => none
  | .room m => some (recvDecode m.room)

/-- `auto pkt = new(my_pkt);`. -/
def newPkt (al : Allocator) (s : RecvState) : PktPtr × RecvState :=
  (.object (al.pick s.live), { s with live := al.pick s.live :: s.live })

/-- The loop body for one mbuf. -/
def recvPacket (al : Allocator) (s : RecvState) (m : Mbuf) : Option RecvState :=
  let (_, s) := newPkt al s
  -- `pkt = rte_pktmbuf_mtod_offset(…)`: the only pointer to the object is overwritten
  let pkt := PktPtr.room m
  match pkt.load with
  | none => none
  | some fields =>
    some { s with
      out := s.out ++ [.packet fields.idx.toNat fields.value.toNat]
      log := s.log ++ [.access m.addr, .free m.addr]
      burstNum := s.burstNum + 1 }

/-- `packet_recv` at a poll and with a packet. -/
def packetRecv (al : Allocator) : Receiver RecvState Mbuf Stop where
  limit := burstSize
  overflow := fun _ => .exit
  missing := fun _ => .undefined
  polled := fun r ms s =>
    { s with
      out := if ms.length = 0 then s.out else s.out ++ [.received ms.length]
      log := s.log ++ [.rxBurst r (ms.map Mbuf.addr)] }
  body := fun s m =>
    match recvPacket al s m with
    | none => .error .undefined
    | some s' => .ok s'

/-- What the polls of one pass deliver. -/
abbrev RecvPass := Fin numRxQueuesRecv → List Mbuf

/-- The `while`, for a number of passes. -/
def packetRecvLoop (al : Allocator) (bs : List RecvPass) (s : RecvState) :
    Except Stop RecvState := (packetRecv al).loop bs s

/-- The loop runs on as long as no burst exceeds the array. -/
theorem packetRecvLoop_total (al : Allocator) {bs : List RecvPass}
    (hlen : ∀ b ∈ bs, ∀ r, (b r).length ≤ burstSize) (s : RecvState) :
    ∃ s', packetRecvLoop al bs s = .ok s' :=
  (packetRecv al).loop_total hlen (fun _ _ _ _ _ _ => ⟨_, rfl⟩) s

/-! ## What the loop acquires and gives back -/

/-- From `s` to `s'` the program has done `es` to mbufs, and left one new object on the heap for
    each mbuf it freed. -/
structure Left (s s' : RecvState) (es : List RxEvent) : Prop where
  log : s'.log = s.log ++ es
  live : ∃ objs, s'.live = objs ++ s.live ∧ objs.length = (freedBy es).length ∧
    ∀ p ∈ objs, p ∉ s.live

theorem Left.refl (s : RecvState) : Left s s [] :=
  ⟨(List.append_nil _).symm, [], rfl, rfl, fun _ hp => absurd hp List.not_mem_nil⟩

theorem Left.append {s₀ s₁ s₂ : RecvState} {es es' : List RxEvent} (h : Left s₀ s₁ es)
    (h' : Left s₁ s₂ es') : Left s₀ s₂ (es ++ es') := by
  obtain ⟨objs, hlive, hlen, hfresh⟩ := h.live
  obtain ⟨objs', hlive', hlen', hfresh'⟩ := h'.live
  refine ⟨by rw [h'.log, h.log, List.append_assoc], objs' ++ objs, ?_, ?_, ?_⟩
  · rw [hlive', hlive, List.append_assoc]
  · rw [freedBy_append, List.length_append, List.length_append, hlen, hlen', Nat.add_comm]
  · intro p hp
    rcases List.mem_append.mp hp with hp' | hp'
    · intro hmem
      exact hfresh' p hp' (hlive ▸ List.mem_append_right objs hmem)
    · exact hfresh p hp'

/-- A packet leaves one object and no mbuf. -/
theorem Left.packet {al : Allocator} {s s' : RecvState} {m : Mbuf}
    (h : (packetRecv al).body s m = .ok s') : Left s s' (handleEvents [m.addr]) := by
  obtain rfl := Except.ok.inj h
  refine ⟨rfl, [al.pick s.live], rfl, rfl, fun p hp => ?_⟩
  rw [List.mem_singleton.mp hp]
  exact al.fresh s.live

/-- **What an execution leaves**: the log of its polls, and one object for each mbuf freed. -/
theorem Left.loop {al : Allocator} {bs : List RecvPass} {s s' : RecvState}
    (h : packetRecvLoop al bs s = .ok s') : Left s s' ((polls bs).flatMap pollEvents) := by
  have hcomposes : Composes Left := ⟨Left.refl, Left.append⟩
  have hleft := hcomposes.loop
    (fun _ _ => ⟨rfl, [], rfl, rfl, fun _ hp => absurd hp List.not_mem_nil⟩)
    (fun _ _ _ _ => Left.packet) h
  simp only [pollEvents_eq] at hleft
  exact hleft

/-- The mbufs are all given back, as in `main.cpp`. -/
theorem packetRecv_mbufs {al : Allocator} {live : List Nat} {bs : List RecvPass} {s : RecvState}
    (h : packetRecvLoop al bs (recvInit live) = .ok s) : HeadLog bs s.log := by
  have hlog : s.log = (polls bs).flatMap pollEvents := (Left.loop h).log
  rw [hlog]
  exact (SettledLog.polls _).head

/-- **The leak**: after any run the heap holds one object more for each packet delivered. -/
theorem packetRecv_live {al : Allocator} {live : List Nat} {bs : List RecvPass} {s : RecvState}
    (h : packetRecvLoop al bs (recvInit live) = .ok s) :
    ∃ objs, s.live = objs ++ live ∧ objs.length = (deliveredBy s.log).length ∧
      ∀ p ∈ objs, p ∉ live := by
  have hleft := Left.loop h
  have hlog : s.log = (polls bs).flatMap pollEvents := hleft.log
  obtain ⟨objs, hlive, hlen, hfresh⟩ := hleft.live
  rw [← hlog, (packetRecv_mbufs h).freed] at hlen
  exact ⟨objs, hlive, hlen, hfresh⟩

/-! ## Neutrality -/

/-- At a head of the `while` everything acquired for the packets of `bs` has been released: every
    mbuf was freed once and not touched after that, and the live objects are those of the
    start. -/
structure Neutral (live : List Nat) (bs : List RecvPass) (s : RecvState) : Prop where
  mbufs : HeadLog bs s.log
  objects : ∀ p, p ∈ s.live ↔ p ∈ live

/-- Nothing was delivered exactly when no burst delivered anything. -/
theorem delivered_eq_nil_iff (bs : List RecvPass) :
    ((polls bs).flatMap fun q => q.2.map Mbuf.addr) = [] ↔ ∀ b ∈ bs, ∀ r, b r = [] := by
  rw [List.flatMap_eq_nil_iff]
  constructor
  · intro h b hb r
    exact List.map_eq_nil_iff.mp (h (r, b r) (mem_polls.mpr ⟨b, hb, rfl⟩))
  · intro h q hq
    obtain ⟨b, hb, heq⟩ := mem_polls.mp hq
    rw [heq]
    exact List.map_eq_nil_iff.mpr (h b hb q.1)

/-- **When `packet_recv` is neutral.**  At a head of the `while`, after any run, everything
    acquired has been released exactly when no packet was delivered. -/
theorem neutral_iff (al : Allocator) (live : List Nat) (bs : List RecvPass) (s : RecvState)
    (h : packetRecvLoop al bs (recvInit live) = .ok s) :
    Neutral live bs s ↔ ∀ b ∈ bs, ∀ r, b r = [] := by
  have hmbufs := packetRecv_mbufs h
  obtain ⟨objs, hlive, hlen, hfresh⟩ := packetRecv_live h
  rw [← delivered_eq_nil_iff, ← hmbufs.delivered]
  constructor
  · intro hneutral
    apply List.eq_nil_of_length_eq_zero
    rw [← hlen, List.length_eq_zero_iff, List.eq_nil_iff_forall_not_mem]
    intro p hp
    exact hfresh p hp ((hneutral.objects p).mp (hlive ▸ List.mem_append_left live hp))
  · intro hnone
    rw [hnone, List.length_nil, List.length_eq_zero_iff] at hlen
    rw [hlen, List.nil_append] at hlive
    exact ⟨hmbufs, fun p => by rw [hlive]⟩

/-- An address above some others. -/
def above : List Nat → Nat
  | [] => 0
  | p :: ps => max (p + 1) (above ps)

theorem lt_above {ps : List Nat} {p : Nat} (h : p ∈ ps) : p < above ps := by
  induction ps with
  | nil => exact absurd h List.not_mem_nil
  | cons q ps ih =>
    unfold above
    rcases List.mem_cons.mp h with rfl | hp
    · omega
    · have hlt := ih hp
      omega

/-- An allocator that takes the first address above all live ones. -/
def bumpAllocator : Allocator := ⟨above, fun _ h => Nat.lt_irrefl _ (lt_above h)⟩

/-- A pass in which nothing arrives is neutral, one that delivers two packets is not. -/
theorem neutral_iff_idle :
    (∃ s, packetRecvLoop bumpAllocator [fun _ => []] (recvInit [7]) = .ok s ∧
      Neutral [7] [fun _ => []] s) ∧
    ∃ s, packetRecvLoop bumpAllocator [fun _ => [], fun _ => [wirePacket 1 7, wirePacket 2 8]]
        (recvInit [7]) = .ok s ∧
      ¬ Neutral [7] [fun _ => [], fun _ => [wirePacket 1 7, wirePacket 2 8]] s := by
  constructor
  · refine ⟨_, rfl, (neutral_iff bumpAllocator [7] _ _ rfl).mpr ?_⟩
    intro b hb r
    rw [List.mem_singleton.mp hb]
  · refine ⟨_, rfl, fun hneutral => ?_⟩
    have hnone := (neutral_iff bumpAllocator [7] _ _ rfl).mp hneutral _
      (List.mem_cons_of_mem _ List.mem_cons_self) ⟨0, by decide⟩
    exact absurd hnone (List.cons_ne_nil _ _)

/-- One packet `(idx, value) = (1, 7)` and one object is left on the heap. -/
theorem neutral_not_single : ∃ s,
    packetRecvLoop bumpAllocator [fun _ => [wirePacket 1 7]] (recvInit []) = .ok s ∧
      ¬ Neutral [] [fun _ => [wirePacket 1 7]] s := by
  refine ⟨_, rfl, fun hneutral => ?_⟩
  exact absurd ((hneutral.objects 0).mp List.mem_cons_self) List.not_mem_nil

end PacketSend
