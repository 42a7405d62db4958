/-
  The three programs on one wire.

  `packet_send` fills mbufs with the pair (114, 514) and hands them to its NIC; `main.cpp` and
  `packet_recv` poll theirs.  Between them is a network that may lose, duplicate, delay and
  reorder frames and may pad them, and invents none: a receiver is delivered mbufs that each carry
  a frame which some sender's NIC has accepted (`OnWire`).  A state of the system is the senders
  (`SendSystem`), the frames accepted so far, and the two receivers; an event is one of a sender
  or one pass of a receiver over its queues.

  A frame is read out of the mbuf when the NIC accepts it.  That the NIC may do so at any later
  moment is `TrafficLaw.inFlight`: until its completion an accepted mbuf holds what was sent.

  What comes out, in any run and any interleaving (`traffic_law`):

  * every frame on the wire is the same eight bytes, and there are as many as mbufs accepted;
  * `packet_recv` prints (114, 514) and nothing else;
  * `main.cpp` sees the byte-reversed pair, sends all of it to slot 0, and its counter is the
    clock of `UniformVote`, with candidate 0: the vote never finds 514;
  * neither receiver is ever stopped by what it is delivered.
-/
import PacketSend.SendSystem
import PacketSend.UniformVote

namespace PacketSend

open Runs Places PollLoop Words

/-! ## Frames -/

/-- The eight bytes of a `my_pkt` in memory. -/
def MyPkt.bytes (p : MyPkt) : List Byte :=
  [byte p.idx 0, byte p.idx 1, byte p.idx 2, byte p.idx 3,
    byte p.value 0, byte p.value 1, byte p.value 2, byte p.value 3]

/-- What the NIC transmits of an mbuf: the first `data_len` bytes of the data room, which here
    never are more than those of the `my_pkt`. -/
def TxFields.frame (f : TxFields) : List Byte := f.pkt.bytes.take f.dataLen.toNat

/-- The frame of the packet that is sent. -/
def sentFrame : List Byte := sentFields.frame

/-- The field stores leave the bytes of the packet at the start of the data room. -/
theorem take_sendEncode (room : DataRoom) (p : MyPkt) :
    (sendEncode room p).bytes.take sizeofMyPkt = p.bytes := by
  obtain ⟨bytes, hlen⟩ := room
  match bytes, hlen with
  | _ :: _ :: _ :: _ :: _ :: _ :: _ :: _ :: _, _ => rfl

/-- A received mbuf carries a frame: the packet starts with its bytes. -/
def Carries (m : Mbuf) (f : List Byte) : Prop :=
  m.room.bytes.take f.length = f ∧ f.length ≤ m.dataLen

instance (m : Mbuf) (f : List Byte) : Decidable (Carries m f) := inferInstanceAs (Decidable (_ ∧ _))

/-- An mbuf that carries the bytes of `p` is read as `p`. -/
theorem pkt_of_carries {m : Mbuf} {p : MyPkt} (h : Carries m p.bytes) : m.room.pkt = p := by
  have hbyte : ∀ off, off < 8 → m.room.bytes[off]? = p.bytes[off]? := by
    intro off hoff
    rw [← h.1]
    exact (List.getElem?_take_of_lt hoff).symm
  show MyPkt.mk (load32 m.room.bytes 0) (load32 m.room.bytes 4) = p
  rw [load32_congr (fun k hk => hbyte (0 + k) (by omega)),
    load32_congr (fun k hk => hbyte (4 + k) (by omega))]
  show MyPkt.mk (ofBytes (byte p.idx 0) (byte p.idx 1) (byte p.idx 2) (byte p.idx 3))
    (ofBytes (byte p.value 0) (byte p.value 1) (byte p.value 2) (byte p.value 3)) = p
  rw [ofBytes_byte, ofBytes_byte]

/-! ## The system -/

/-- The senders, the frames their NIC has accepted, and the receivers. -/
structure Traffic (ι κ : Type) where
  sys : Sys ι κ
  wire : List (List Byte)
  rx : RxState
  recv : RecvState

/-- An event of the senders, or a pass of `main.cpp` or `packet_recv` over its queues. -/
inductive TrafficEvent (ι κ : Type) where
  | sender (e : Event ι κ)
  | pass (b : Pass)
  | recvPass (b : RecvPass)

/-- The mbuf carries a frame that was accepted. -/
def OnWire (wire : List (List Byte)) (m : Mbuf) : Prop := ∃ f ∈ wire, Carries m f

instance (wire : List (List Byte)) (m : Mbuf) : Decidable (OnWire wire m) :=
  inferInstanceAs (Decidable (∃ f ∈ wire, Carries m f))

section System

variable {ι κ : Type} [DecidableEq ι] [DecidableEq κ]

/-- Before the first event. -/
def Traffic.init (pool : List Ptr) (stack : ι → Vector Ptr burstSize) (mem : Ptr → TxFields)
    (live : List Nat) : Traffic ι κ :=
  ⟨Sys.init pool stack mem, [], rxInit, recvInit live⟩

/-- The frames the NIC accepts in an event. -/
def Sys.frames (s : Sys ι κ) : Event ι κ → List (List Byte)
  | .core _ (.txBurst bs nbTx) => (bs.take nbTx).map fun m => (s.mem m).frame
  | _ => []

/-- One event.  A pass delivers mbufs that carry frames of the wire; a receiver that stops in it
    takes no further part. -/
def Traffic.step (queueId : ι → κ) (al : Allocator) (t : Traffic ι κ) :
    TrafficEvent ι κ → Option (Traffic ι κ)
  | .sender e =>
    (t.sys.step queueId e).map fun sys => { t with sys := sys, wire := t.wire ++ t.sys.frames e }
  | .pass b =>
    if ∀ r, ∀ m ∈ b r, OnWire t.wire m then
      match receiveLoop [b] t.rx with
      | .ok rx => some { t with rx := rx }
      | .error _ => none
    else none
  | .recvPass b =>
    if ∀ r, ∀ m ∈ b r, OnWire t.wire m then
      match packetRecvLoop al [b] t.recv with
      | .ok recv => some { t with recv := recv }
      | .error _ => none
    else none

/-- What an event can be. -/
inductive TrafficStep (queueId : ι → κ) (al : Allocator) (t : Traffic ι κ) :
    TrafficEvent ι κ → Traffic ι κ → Prop where
  | sender {e : Event ι κ} {sys : Sys ι κ} (hs : t.sys.step queueId e = some sys) :
      TrafficStep queueId al t (.sender e)
        { t with sys := sys, wire := t.wire ++ t.sys.frames e }
  | pass {b : Pass} {rx : RxState} (hwire : ∀ r, ∀ m ∈ b r, OnWire t.wire m)
      (hrx : receiveLoop [b] t.rx = .ok rx) : TrafficStep queueId al t (.pass b) { t with rx := rx }
  | recvPass {b : RecvPass} {recv : RecvState} (hwire : ∀ r, ∀ m ∈ b r, OnWire t.wire m)
      (hrecv : packetRecvLoop al [b] t.recv = .ok recv) :
      TrafficStep queueId al t (.recvPass b) { t with recv := recv }

variable {queueId : ι → κ} {al : Allocator}

/-- The inversion of `Traffic.step`. -/
theorem Traffic.step_inv {t t' : Traffic ι κ} {e : TrafficEvent ι κ}
    (h : t.step queueId al e = some t') : TrafficStep queueId al t e t' := by
  cases e with
  | sender e =>
    obtain ⟨sys, hs, rfl⟩ := Option.map_eq_some_iff.mp h
    exact TrafficStep.sender hs
  | pass b =>
    simp only [Traffic.step] at h
    split at h
    · rename_i hwire
      cases hrx : receiveLoop [b] t.rx with
      | ok rx =>
        rw [hrx] at h
        obtain rfl := Option.some.inj h
        exact TrafficStep.pass hwire hrx
      | error e =>
        rw [hrx] at h
        cases h
    · cases h
  | recvPass b =>
    simp only [Traffic.step] at h
    split at h
    · rename_i hwire
      cases hrecv : packetRecvLoop al [b] t.recv with
      | ok recv =>
        rw [hrecv] at h
        obtain rfl := Option.some.inj h
        exact TrafficStep.recvPass hwire hrecv
      | error e =>
        rw [hrecv] at h
        cases h
    · cases h

/-! ## The parts of a run -/

/-- The events of the senders. -/
def senderEvents (ts : List (TrafficEvent ι κ)) : List (Event ι κ) :=
  ts.filterMap fun e => match e with
    | .sender e => some e
    | _ => none

/-- The passes of `main.cpp`. -/
def passes (ts : List (TrafficEvent ι κ)) : List Pass :=
  ts.filterMap fun e => match e with
    | .pass b => some b
    | _ => none

/-- The passes of `packet_recv`. -/
def recvPasses (ts : List (TrafficEvent ι κ)) : List RecvPass :=
  ts.filterMap fun e => match e with
    | .recvPass b => some b
    | _ => none

/-- The senders make a run of their own. -/
theorem Traffic.sys_run {U : List Ptr} {stack : ι → Vector Ptr burstSize} {mem : Ptr → TxFields}
    {live : List Nat} {ts : List (TrafficEvent ι κ)} {t : Traffic ι κ}
    (h : Run (Traffic.step queueId al) (Traffic.init U stack mem live) ts t) :
    Run (Sys.step queueId) (Sys.init U stack mem) (senderEvents ts) t.sys := by
  refine h.project (f := Traffic.sys) (fun t e t' hstep => ?_)
  cases Traffic.step_inv hstep with
  | sender hs => exact hs
  | pass hwire hrx => rfl
  | recvPass hwire hrecv => rfl

/-- The receivers make executions of their own. -/
theorem Traffic.receivers {U : List Ptr} {stack : ι → Vector Ptr burstSize} {mem : Ptr → TxFields}
    {live : List Nat} {ts : List (TrafficEvent ι κ)} {t : Traffic ι κ}
    (h : Run (Traffic.step queueId al) (Traffic.init U stack mem live) ts t) :
    receiveLoop (passes ts) rxInit = .ok t.rx ∧
      packetRecvLoop al (recvPasses ts) (recvInit live) = .ok t.recv := by
  refine h.history (P := fun ts t => receiveLoop (passes ts) rxInit = .ok t.rx ∧
    packetRecvLoop al (recvPasses ts) (recvInit live) = .ok t.recv) ⟨rfl, rfl⟩ ?_
  intro ts t e t' hviews hstep
  obtain ⟨hmain, hrecv⟩ := hviews
  have hpasses : passes (ts ++ [e]) = passes ts ++ passes [e] := List.filterMap_append
  have hrecvPasses : recvPasses (ts ++ [e]) = recvPasses ts ++ recvPasses [e] :=
    List.filterMap_append
  rw [hpasses, hrecvPasses]
  cases Traffic.step_inv hstep with
  | sender hs =>
    show receiveLoop (passes ts ++ []) rxInit = _ ∧
      packetRecvLoop al (recvPasses ts ++ []) (recvInit live) = _
    rw [List.append_nil, List.append_nil]
    exact ⟨hmain, hrecv⟩
  | @pass b rx hwire hrx =>
    refine ⟨?_, ?_⟩
    · rw [receiveLoop_eq] at hmain hrx ⊢
      exact (mainReceiver.loop_append hmain [b]).trans hrx
    · show packetRecvLoop al (recvPasses ts ++ []) (recvInit live) = _
      rw [List.append_nil]
      exact hrecv
  | @recvPass b recv hwire hrecv' =>
    refine ⟨?_, ((packetRecv al).loop_append hrecv [b]).trans hrecv'⟩
    show receiveLoop (passes ts ++ []) rxInit = _
    rw [List.append_nil]
    exact hmain

/-! ## What the NIC holds -/

/-- An mbuf on a ring after an event was there before it, or has been offered full. -/
theorem Sys.ring_step {s s' : Sys ι κ} {e : Event ι κ} (h : s.step queueId e = some s') {q : κ}
    {x : Ptr} (hx : x ∈ s'.ring q) : x ∈ s.ring q ∨ ∃ c, x ∈ (s.core c).filled := by
  cases Sys.step_inv h with
  | @txBurst c bs nbTx k hk =>
    have hx' : x ∈ Function.update s.ring (queueId c) (s.ring (queueId c) ++ bs.take nbTx) q := hx
    by_cases hq : q = queueId c
    · rw [hq, Function.update_self] at hx'
      rcases List.mem_append.mp hx' with hold | hnew
      · rw [hq]
        exact Or.inl hold
      · rw [← (Core.pending_txBurst hk).2] at hnew
        exact Or.inr ⟨c, List.mem_of_mem_take hnew⟩
    · rw [Function.update_of_ne hq] at hx'
      exact Or.inl hx'
  | @complete q' m hm =>
    have hx' : x ∈ Function.update s.ring q' ((s.ring q').erase m) q := hx
    by_cases hq : q = q'
    · rw [hq, Function.update_self] at hx'
      rw [hq]
      exact Or.inl (List.mem_of_mem_erase hx')
    · rw [Function.update_of_ne hq] at hx'
      exact Or.inl hx'
  | _ => exact Or.inl hx

/-- **Nothing changes on a ring**: an mbuf the NIC has accepted holds what was sent until its
    completion. -/
theorem Sys.ring_written {U : List Ptr} (hU : U.Nodup) {stack : ι → Vector Ptr burstSize}
    {mem : Ptr → TxFields} {es : List (Event ι κ)} {s : Sys ι κ}
    (h : Run (Sys.step queueId) (Sys.init U stack mem) es s) :
    ∀ q, ∀ x ∈ s.ring q, s.mem x = sentFields := by
  induction h with
  | nil =>
    intro q x hx
    exact absurd hx List.not_mem_nil
  | @snoc es s s' e hrun hs ih =>
    intro q x hx
    have hpart := Sys.partition hU hrun
    rcases Sys.ring_step hs hx with hring | ⟨c, hfilled⟩
    · refine Sys.mem_kept hs (fun hpool => ?_) (ih q x hring)
      exact absurd (hpart.apart (p := .pool) (q := .ring q) hpool hring) (by simp)
    · refine Sys.mem_kept hs (fun hpool => ?_) (Sys.filled_written hU hrun c x hfilled)
      exact absurd (hpart.apart (p := .pool) (q := .core c) hpool (Core.filled_sub_live hfilled))
        (by simp)

/-- The mbufs accepted in some events. -/
def accepts (es : List (Event ι κ)) : List Ptr :=
  es.flatMap fun e => match e with
    | .core _ call => accepted [call]
    | .complete _ _ => []

/-- The mbufs accepted on queue `q`. -/
def acceptedOn (queueId : ι → κ) (q : κ) (es : List (Event ι κ)) : List Ptr :=
  es.flatMap fun e => match e with
    | .core c call => if queueId c = q then accepted [call] else []
    | .complete _ _ => []

/-- The mbufs completed on queue `q`. -/
def completedOn (q : κ) (es : List (Event ι κ)) : List Ptr :=
  es.flatMap fun e => match e with
    | .core _ _ => []
    | .complete q' m => if q' = q then [m] else []

omit [DecidableEq ι] in
theorem acceptedOn_quiet (q : κ) (c : ι) {call : Call} (h : accepted [call] = []) :
    acceptedOn queueId q [.core c call] = [] := by
  show (if queueId c = q then accepted [call] else []) ++ [] = []
  rw [h, ite_self]
  rfl

/-- **The ledger of a tx ring**: accepted = completed + still on the ring. -/
theorem Sys.ring_ledger {U : List Ptr} {stack : ι → Vector Ptr burstSize} {mem : Ptr → TxFields}
    {es : List (Event ι κ)} {s : Sys ι κ}
    (h : Run (Sys.step queueId) (Sys.init U stack mem) es s) (q : κ) :
    (acceptedOn queueId q es).Perm (completedOn q es ++ s.ring q) := by
  refine h.history
    (P := fun es s => (acceptedOn queueId q es).Perm (completedOn q es ++ s.ring q))
    (List.Perm.refl _) ?_
  intro es s e s' hledger hs
  have hacc : acceptedOn queueId q (es ++ [e])
      = acceptedOn queueId q es ++ acceptedOn queueId q [e] := List.flatMap_append
  have hcomp : completedOn q (es ++ [e]) = completedOn q es ++ completedOn q [e] :=
    List.flatMap_append
  -- it is enough to look at the event
  suffices hone : (s.ring q ++ acceptedOn queueId q [e]).Perm (completedOn q [e] ++ s'.ring q) by
    rw [hacc, hcomp, List.append_assoc]
    refine (hledger.append_right _).trans ?_
    rw [List.append_assoc]
    exact hone.append_left _
  cases Sys.step_inv hs with
  | @txBurst c bs nbTx k hk =>
    have hsent : acceptedOn queueId q [.core c (.txBurst bs nbTx)]
        = if queueId c = q then bs.take nbTx else [] := by
      show (if queueId c = q then accepted [.txBurst bs nbTx] else []) ++ [] = _
      rw [List.append_nil, show accepted [.txBurst bs nbTx] = bs.take nbTx from List.append_nil _]
    rw [hsent]
    show (s.ring q ++ _).Perm (Function.update s.ring (queueId c) _ q)
    by_cases hq : queueId c = q
    · subst hq
      rw [if_pos rfl, Function.update_self]
    · rw [if_neg hq, Function.update_of_ne (Ne.symm hq), List.append_nil]
  | @complete q' m hm =>
    show (s.ring q ++ []).Perm
      (((if q' = q then [m] else []) ++ []) ++ Function.update s.ring q' _ q)
    rw [List.append_nil, List.append_nil]
    by_cases hq : q' = q
    · subst hq
      rw [if_pos rfl, Function.update_self]
      exact List.perm_cons_erase hm
    · rw [if_neg hq, Function.update_of_ne (Ne.symm hq)]
      exact List.Perm.refl _
  | _ =>
    -- no other event accepts or completes an mbuf
    rw [acceptedOn_quiet _ _ (by rfl), List.append_nil]
    exact List.Perm.refl _

/-! ## What is on the wire -/

/-- What is accepted in an event leaves as frames. -/
theorem Sys.frames_eq {s s' : Sys ι κ} {e : Event ι κ} (h : s.step queueId e = some s') :
    s.frames e = (accepts [e]).map fun m => (s.mem m).frame := by
  cases Sys.step_inv h with
  | @txBurst c bs nbTx k hk =>
    have hacc : accepts [(.core c (.txBurst bs nbTx) : Event ι κ)] = bs.take nbTx := by
      show (bs.take nbTx ++ []) ++ [] = _
      rw [List.append_nil, List.append_nil]
    rw [hacc]
    rfl
  | _ => rfl

/-- **Every frame on the wire is the packet that is sent**, and there is one for each mbuf
    accepted. -/
theorem Traffic.wire_eq {U : List Ptr} (hU : U.Nodup) {stack : ι → Vector Ptr burstSize}
    {mem : Ptr → TxFields} {live : List Nat} {ts : List (TrafficEvent ι κ)} {t : Traffic ι κ}
    (h : Run (Traffic.step queueId al) (Traffic.init U stack mem live) ts t) :
    t.wire = (accepts (senderEvents ts)).map fun _ => sentFrame := by
  induction h with
  | nil => rfl
  | @snoc ts t t' e hrun hstep ih =>
    have hsenders : senderEvents (ts ++ [e]) = senderEvents ts ++ senderEvents [e] :=
      List.filterMap_append
    rw [hsenders, accepts, List.flatMap_append, List.map_append]
    cases Traffic.step_inv hstep with
    | @sender e sys hs =>
      have hnew : t.sys.frames e = (accepts [e]).map fun _ => sentFrame := by
        rw [Sys.frames_eq hs]
        apply List.map_congr_left
        intro m hm
        -- an mbuf that is accepted was full
        cases Sys.step_inv hs with
        | @txBurst c bs nbTx k hk =>
          have hbs : m ∈ bs.take nbTx := by
            have hm' : m ∈ (bs.take nbTx ++ []) ++ [] := hm
            rwa [List.append_nil, List.append_nil] at hm'
          have hfilled : m ∈ (t.sys.core c).filled := by
            rw [(Core.pending_txBurst hk).2]
            exact List.mem_of_mem_take hbs
          rw [Sys.filled_written hU (Traffic.sys_run hrun) c m hfilled]
          rfl
        | _ => exact absurd hm List.not_mem_nil
      show t.wire ++ t.sys.frames e = _
      rw [ih, hnew]
      rfl
    | pass hwire hrx => exact ih.trans (List.append_nil _).symm
    | recvPass hwire hrecv => exact ih.trans (List.append_nil _).symm

/-- What is delivered is read as the packet that was sent. -/
theorem pkt_of_onWire {wire : List (List Byte)} (hall : ∀ f ∈ wire, f = sentFrame) {m : Mbuf}
    (h : OnWire wire m) : m.room.pkt = ⟨114, 514⟩ := by
  obtain ⟨f, hf, hcarries⟩ := h
  rw [hall f hf] at hcarries
  exact pkt_of_carries hcarries

theorem Traffic.wire_sent {U : List Ptr} (hU : U.Nodup) {stack : ι → Vector Ptr burstSize}
    {mem : Ptr → TxFields} {live : List Nat} {ts : List (TrafficEvent ι κ)} {t : Traffic ι κ}
    (h : Run (Traffic.step queueId al) (Traffic.init U stack mem live) ts t) :
    ∀ f ∈ t.wire, f = sentFrame := by
  intro f hf
  rw [Traffic.wire_eq hU h] at hf
  obtain ⟨m, -, rfl⟩ := List.mem_map.mp hf
  rfl

/-- Every packet that was ever delivered is the one that was sent. -/
theorem Traffic.delivered {U : List Ptr} (hU : U.Nodup) {stack : ι → Vector Ptr burstSize}
    {mem : Ptr → TxFields} {live : List Nat} {ts : List (TrafficEvent ι κ)} {t : Traffic ι κ}
    (h : Run (Traffic.step queueId al) (Traffic.init U stack mem live) ts t) :
    (∀ b ∈ passes ts, ∀ r, ∀ m ∈ b r, m.room.pkt = ⟨114, 514⟩) ∧
      ∀ b ∈ recvPasses ts, ∀ r, ∀ m ∈ b r, m.room.pkt = ⟨114, 514⟩ := by
  induction h with
  | nil => exact ⟨fun b hb => absurd hb List.not_mem_nil, fun b hb => absurd hb List.not_mem_nil⟩
  | @snoc ts t t' e hrun hstep ih =>
    obtain ⟨hmain, hrecv⟩ := ih
    have hsent := Traffic.wire_sent hU hrun
    have hpasses : passes (ts ++ [e]) = passes ts ++ passes [e] := List.filterMap_append
    have hrecvPasses : recvPasses (ts ++ [e]) = recvPasses ts ++ recvPasses [e] :=
      List.filterMap_append
    rw [hpasses, hrecvPasses]
    cases Traffic.step_inv hstep with
    | sender hs =>
      exact ⟨by simpa [passes] using hmain, by simpa [recvPasses] using hrecv⟩
    | @pass b rx hwire hrx =>
      refine ⟨fun b' hb' r m hm => ?_, by simpa [recvPasses] using hrecv⟩
      rcases List.mem_append.mp hb' with hold | hnew
      · exact hmain b' hold r m hm
      · obtain rfl := List.mem_singleton.mp hnew
        exact pkt_of_onWire hsent (hwire r m hm)
    | @recvPass b recv hwire hrecv' =>
      refine ⟨by simpa [passes] using hmain, fun b' hb' r m hm => ?_⟩
      rcases List.mem_append.mp hb' with hold | hnew
      · exact hrecv b' hold r m hm
      · obtain rfl := List.mem_singleton.mp hnew
        exact pkt_of_onWire hsent (hwire r m hm)

/-! ## The law -/

/-- What holds after the events `ts` have led to `t`. -/
structure TrafficLaw (queueId : ι → κ) (al : Allocator) (ts : List (TrafficEvent ι κ))
    (t : Traffic ι κ) : Prop where
  /-- The wire carries one frame for each mbuf accepted, each the eight bytes of (114, 514). -/
  wire : t.wire = (accepts (senderEvents ts)).map fun _ => [114, 0, 0, 0, 2, 2, 0, 0]
  /-- An mbuf the NIC has accepted and not completed still holds this frame. -/
  inFlight : ∀ q, ∀ m ∈ t.sys.ring q, (t.sys.mem m).frame = [114, 0, 0, 0, 2, 2, 0, 0]
  /-- What was accepted on a queue has been completed or is on its ring. -/
  rings : ∀ q, (acceptedOn queueId q (senderEvents ts)).Perm
    (completedOn q (senderEvents ts) ++ t.sys.ring q)
  /-- `main.cpp` decodes every packet as (0x72000000, 0x02020000). -/
  main : UniformLaw ⟨1912602624, 33685504⟩ (order (passes ts)).length t.rx
  /-- Its slot is 0, with a positive value: no candidate, and a counter that is a clock. -/
  vote : t.rx.tables.array ⟨0, by decide⟩ = 0 ∧ t.rx.tables.vote ⟨0, by decide⟩
    = match (order (passes ts)).length with
      | 0 => 0
      | k + 1 => BitVec.ofNat 32 (33685504 - k % 33685504)
  /-- `packet_recv` reports (114, 514) for every packet. -/
  recv : readTranscript t.recv.out = ([], (burstsOf (recvPasses ts)).map fun ms =>
    ⟨ms.length, List.replicate ms.length (114, 514)⟩)
  /-- Neither receiver is stopped by frames of the wire in bursts that fit the array. -/
  mainGoesOn : ∀ b : Pass, (∀ r, (b r).length ≤ burstSize) →
    (∀ r, ∀ m ∈ b r, OnWire t.wire m) → ∃ t', t.step queueId al (.pass b) = some t'
  recvGoesOn : ∀ b : RecvPass, (∀ r, (b r).length ≤ burstSize) →
    (∀ r, ∀ m ∈ b r, OnWire t.wire m) → ∃ t', t.step queueId al (.recvPass b) = some t'

/-- The report about a burst of equal packets. -/
theorem reportOf_uniform {ms : List Mbuf} (h : ∀ m ∈ ms, m.room.pkt = ⟨114, 514⟩) :
    reportOf ms = ⟨ms.length, List.replicate ms.length (114, 514)⟩ := by
  have hfields : ms.map fieldsOf = List.replicate ms.length (114, 514) := by
    rw [List.eq_replicate_iff, List.length_map]
    refine ⟨rfl, fun q hq => ?_⟩
    obtain ⟨m, hm, rfl⟩ := List.mem_map.mp hq
    rw [fieldsOf, recvDecode, h m hm]
    rfl
  rw [reportOf, hfields]

/-- The pair that is sent, as `main.cpp` decodes it. -/
theorem mainDecode_sent {room : DataRoom} (h : room.pkt = ⟨114, 514⟩) :
    mainDecode room = ⟨1912602624, 33685504⟩ := by
  rw [mainDecode_eq, h]
  decide

/-- **From sender to receivers.**  For any senders, tx queues, initial pool and any interleaving
    of their calls, the completions of the NIC and the polls of both receivers, over a network
    that invents no frames. -/
theorem traffic_law (queueId : ι → κ) (al : Allocator) {U : List Ptr} (hU : U.Nodup)
    (stack : ι → Vector Ptr burstSize) (mem : Ptr → TxFields) (live : List Nat)
    {ts : List (TrafficEvent ι κ)} {t : Traffic ι κ}
    (h : Run (Traffic.step queueId al) (Traffic.init U stack mem live) ts t) :
    TrafficLaw queueId al ts t := by
  have hsys := Traffic.sys_run h
  have hsent := Traffic.wire_sent hU h
  obtain ⟨hmain, hrecv⟩ := Traffic.receivers h
  obtain ⟨hpasses, hrecvPasses⟩ := Traffic.delivered hU h
  have huniform : UniformLaw ⟨1912602624, 33685504⟩ (order (passes ts)).length t.rx :=
    receiveLoop_uniform (by decide) hmain fun b hb r m hm => mainDecode_sent (hpasses b hb r m hm)
  constructor
  · exact Traffic.wire_eq hU h
  · intro q m hm
    rw [Sys.ring_written hU hsys q m hm]
    rfl
  · exact Sys.ring_ledger hsys
  · exact huniform
  · refine ⟨huniform.array _, ?_⟩
    rw [huniform.vote, if_pos (by decide)]
    cases (order (passes ts)).length with
    | zero => rfl
    | succ k => rfl
  · rw [readTranscript_loop hrecv]
    congr 1
    apply List.map_congr_left
    intro ms hms
    apply reportOf_uniform
    intro m hm
    obtain ⟨q, hq, rfl⟩ := List.mem_map.mp (List.mem_filter.mp hms).1
    obtain ⟨b, hb, hqb⟩ := mem_polls.mp hq
    rw [hqb] at hm
    exact hrecvPasses b hb q.1 m hm
  · intro b hlen hwire
    have hroute : ∀ b' ∈ [b], ∀ r, ∀ m ∈ b' r, Routable (mainDecode m.room) := by
      intro b' hb' r m hm
      rw [List.mem_singleton.mp hb'] at hm
      rw [mainDecode_sent (pkt_of_onWire hsent (hwire r m hm))]
      decide
    obtain ⟨rx, hrx, -⟩ := receiveLoop_ok [b] t.rx
      (fun b' hb' r => by rw [List.mem_singleton.mp hb']; exact hlen r) hroute
    exact ⟨_, by rw [Traffic.step, if_pos hwire, hrx]⟩
  · intro b hlen hwire
    obtain ⟨recv, hrecv'⟩ := @packetRecvLoop_total al [b]
      (fun b' hb' r => by rw [List.mem_singleton.mp hb']; exact hlen r) t.recv
    exact ⟨_, by rw [Traffic.step, if_pos hwire, hrecv']⟩

end System

/-- A received mbuf with the packet that is sent, padded by a zero byte. -/
def sentMbuf : Mbuf := ⟨0, 9, ⟨[114, 0, 0, 0, 2, 2, 0, 0, 0], by decide⟩, by decide⟩

/-- One core fills a burst, the NIC accepts one mbuf of it, and each receiver is delivered it. -/
def oneFrame : List (TrafficEvent Unit Unit) :=
  (List.range burstSize).flatMap (fun m =>
    [.sender (.core () (.alloc (some m))), .sender (.core () (.store m sentFields))]) ++
  [.sender (.core () (.txBurst (List.range burstSize) 1)),
    .pass (fun r => if r.val = 0 then [sentMbuf] else []), .recvPass (fun _ => [sentMbuf])]

/-- The state after `oneFrame`. -/
theorem traffic_law_single : ∃ t, TrafficLaw (fun _ => ()) bumpAllocator oneFrame t :=
  ⟨_, traffic_law (fun _ => ()) bumpAllocator List.nodup_range
    (fun _ => Vector.replicate burstSize 0) (fun _ => sentFields) [] (run_of_exec_isSome
      (show (exec (Traffic.step (fun _ => ()) bumpAllocator)
        (Traffic.init (List.range burstSize) (fun _ => Vector.replicate burstSize 0)
          (fun _ => sentFields) []) oneFrame).isSome = true by decide +kernel))⟩

end PacketSend
