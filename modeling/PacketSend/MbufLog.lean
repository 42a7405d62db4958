/-
  The log of mbufs.

  `main.cpp` and `main_pkt_recv.cpp` treat a received mbuf the same way: a poll delivers it, the
  loop over the delivery reads its data room and passes it to `rte_pktmbuf_free`.  The log records
  this as `RxEvent`s, in order.

  What a log must satisfy is `SettledLog`: it can be replayed by `Lifetime` with nothing owned at
  the end, so that every mbuf is freed once for each delivery and not touched after that; the
  frees come in the order of the deliveries, and the packets of each queue are taken as its polls
  delivered them.  `pollEvents` is what one poll and the loop over its mbufs log, and a log made of
  these satisfies it (`SettledLog.polls`).
-/
import PacketSend.RecvPacket
import PacketSend.Lib.PollLoop
import PacketSend.Lib.Lifetime

namespace PacketSend

open PollLoop

variable {n : Nat}

/-! ## Reading the log -/

/-- A log event as an event in the life of mbufs. -/
def RxEvent.lifetime : RxEvent → Lifetime.Event Nat
  | .rxBurst _ addrs => .acquire addrs
  | .access addr => .use addr
  | .free addr => .release addr

/-- The mbufs delivered, in order. -/
def deliveredBy (log : List RxEvent) : List Nat := Lifetime.acquired (log.map RxEvent.lifetime)

/-- The mbufs passed to `rte_pktmbuf_free`, in order. -/
def freedBy (log : List RxEvent) : List Nat := Lifetime.released (log.map RxEvent.lifetime)

/-- The queues polled, in order. -/
def polledBy (log : List RxEvent) : List Nat :=
  log.flatMap fun e => match e with
    | .rxBurst r _ => [r]
    | _ => []

/-- The mbufs accessed after a poll of queue `r` and before the next poll, in order; `on` tells
    whether the last poll was one of `r`. -/
def processedOn (r : Nat) : Bool → List RxEvent → List Nat
  | _, [] => []
  | _, .rxBurst r' _ :: log => processedOn r (r' == r) log
  | on, .access addr :: log => if on then addr :: processedOn r on log else processedOn r on log
  | on, .free _ :: log => processedOn r on log

/-- What the loop does to the mbufs at addresses `addrs`, one after another. -/
def handleEvents (addrs : List Nat) : List RxEvent :=
  addrs.flatMap fun addr => [.access addr, .free addr]

/-- What one poll and the loop over its mbufs do. -/
def pollEvents (q : Fin n × List Mbuf) : List RxEvent :=
  .rxBurst q.1.val (q.2.map Mbuf.addr) :: handleEvents (q.2.map Mbuf.addr)

/-- The polls `qs` have been dealt with: none of the mbufs is owned, each delivered one has been
    freed, in the order of delivery, and the packets of a queue were processed in order. -/
structure SettledLog (qs : List (Fin n × List Mbuf)) (log : List RxEvent) : Prop where
  ownsNone : Runs.exec Lifetime.step [] (log.map RxEvent.lifetime) = some []
  delivered : deliveredBy log = qs.flatMap fun q => q.2.map Mbuf.addr
  freed : freedBy log = deliveredBy log
  arrival : ∀ r : Fin n, processedOn r.val false log
    = (qs.filter fun q => q.1 = r).flatMap fun q => q.2.map Mbuf.addr
  polled : polledBy log = qs.map fun q => q.1.val

/-- The same after the passes `bs`: every pass has polled the `n` queues once each. -/
structure HeadLog (bs : List (Fin n → List Mbuf)) (log : List RxEvent) : Prop where
  ownsNone : Runs.exec Lifetime.step [] (log.map RxEvent.lifetime) = some []
  delivered : deliveredBy log = (polls bs).flatMap fun q => q.2.map Mbuf.addr
  freed : freedBy log = deliveredBy log
  arrival : ∀ r : Fin n, processedOn r.val false log = (bs.flatMap fun b => b r).map Mbuf.addr
  polled : polledBy log = bs.flatMap fun _ => (List.finRange n).map Fin.val

theorem SettledLog.head {bs : List (Fin n → List Mbuf)} {log : List RxEvent}
    (h : SettledLog (polls bs) log) : HeadLog bs log := by
  refine ⟨h.ownsNone, h.delivered, h.freed, fun r => ?_, ?_⟩
  · rw [h.arrival r, polls_filter, List.flatMap_map, List.map_flatMap]
  · have hqueues : (polls bs).map (fun q => q.1.val)
        = ((polls bs).map Prod.fst).map Fin.val := (List.map_map).symm
    rw [h.polled, hqueues, polls_map_fst, List.map_flatMap]

/-- In a settled log every mbuf was freed as often as it was delivered. -/
theorem HeadLog.count_freed {bs : List (Fin n → List Mbuf)} {log : List RxEvent}
    (h : HeadLog bs log) (addr : Nat) :
    (freedBy log).count addr = (deliveredBy log).count addr := by
  have hledger := Lifetime.ledger h.ownsNone addr
  rw [List.count_nil, Nat.add_zero] at hledger
  exact hledger.symm

/-! ## The events of a poll -/

theorem lifetime_handleEvents (addrs : List Nat) :
    (handleEvents addrs).map RxEvent.lifetime = addrs.flatMap Lifetime.spend := by
  unfold handleEvents
  rw [List.map_flatMap]
  rfl

/-- A poll is a delivery and then the handling of one mbuf after another. -/
theorem pollEvents_eq (q : Fin n × List Mbuf) :
    [.rxBurst q.1.val (q.2.map Mbuf.addr)] ++ q.2.flatMap (fun m => handleEvents [m.addr])
      = pollEvents q := by
  rw [pollEvents, handleEvents, List.flatMap_map]
  rfl

/-- A poll and the loop over its mbufs leave nothing owned. -/
theorem exec_pollEvents (qs : List (Fin n × List Mbuf)) :
    Runs.exec Lifetime.step [] ((qs.flatMap pollEvents).map RxEvent.lifetime) = some [] := by
  induction qs with
  | nil => rfl
  | cons q qs ih =>
    have hpoll : Runs.exec Lifetime.step [] ((pollEvents q).map RxEvent.lifetime) = some [] := by
      rw [pollEvents, List.map_cons, lifetime_handleEvents]
      exact Lifetime.exec_session _ _
    rw [List.flatMap_cons, List.map_append, Runs.exec_append _ _ _ _ _ hpoll]
    exact ih

theorem deliveredBy_append (log log' : List RxEvent) :
    deliveredBy (log ++ log') = deliveredBy log ++ deliveredBy log' := by
  rw [deliveredBy, List.map_append]
  exact List.flatMap_append

theorem freedBy_append (log log' : List RxEvent) :
    freedBy (log ++ log') = freedBy log ++ freedBy log' := by
  rw [freedBy, List.map_append]
  exact List.flatMap_append

theorem polledBy_append (log log' : List RxEvent) :
    polledBy (log ++ log') = polledBy log ++ polledBy log' := List.flatMap_append

/-- The loop over some mbufs delivers and polls nothing, and frees them in order. -/
theorem readings_handleEvents (addrs : List Nat) : deliveredBy (handleEvents addrs) = [] ∧
    freedBy (handleEvents addrs) = addrs ∧ polledBy (handleEvents addrs) = [] := by
  induction addrs with
  | nil => exact ⟨rfl, rfl, rfl⟩
  | cons addr addrs ih =>
    obtain ⟨hdelivered, hfreed, hpolled⟩ := ih
    rw [handleEvents, List.flatMap_cons, deliveredBy_append, freedBy_append, polledBy_append]
    refine ⟨hdelivered, ?_, hpolled⟩
    show [addr] ++ freedBy (handleEvents addrs) = addr :: addrs
    rw [hfreed]
    rfl

theorem readings_pollEvents (q : Fin n × List Mbuf) :
    deliveredBy (pollEvents q) = q.2.map Mbuf.addr ∧ freedBy (pollEvents q) = q.2.map Mbuf.addr ∧
      polledBy (pollEvents q) = [q.1.val] := by
  obtain ⟨hdelivered, hfreed, hpolled⟩ := readings_handleEvents (q.2.map Mbuf.addr)
  have hcons : pollEvents q = [.rxBurst q.1.val (q.2.map Mbuf.addr)]
      ++ handleEvents (q.2.map Mbuf.addr) := rfl
  rw [hcons, deliveredBy_append, freedBy_append, polledBy_append, hdelivered, hfreed, hpolled]
  exact ⟨(List.append_nil _).trans (List.append_nil _), rfl, rfl⟩

theorem processedOn_handleEvents (r : Nat) (on : Bool) (log : List RxEvent) (addrs : List Nat) :
    processedOn r on (handleEvents addrs ++ log)
      = (if on then addrs else []) ++ processedOn r on log := by
  induction addrs with
  | nil => cases on <;> rfl
  | cons addr addrs ih =>
    rw [handleEvents, List.flatMap_cons, List.append_assoc]
    show processedOn r on (.access addr :: .free addr :: (handleEvents addrs ++ log)) = _
    rw [processedOn, processedOn, ih]
    cases on with
    | true => rfl
    | false => rfl

/-- After some polls, the mbufs of queue `r` have been processed as its polls delivered them. -/
theorem processedOn_pollEvents (r : Fin n) (qs : List (Fin n × List Mbuf)) (on : Bool) :
    processedOn r.val on (qs.flatMap pollEvents)
      = (qs.filter fun q => q.1 = r).flatMap fun q => q.2.map Mbuf.addr := by
  induction qs generalizing on with
  | nil => rfl
  | cons q qs ih =>
    rw [List.flatMap_cons, pollEvents, List.cons_append, processedOn, processedOn_handleEvents, ih]
    by_cases h : q.1 = r
    · have hfilter : (q :: qs).filter (fun q => q.1 = r) = q :: qs.filter fun q => q.1 = r :=
        List.filter_cons_of_pos (decide_eq_true h)
      rw [hfilter, List.flatMap_cons, if_pos (beq_iff_eq.mpr (congrArg Fin.val h))]
    · have hfilter : (q :: qs).filter (fun q => q.1 = r) = qs.filter fun q => q.1 = r :=
        List.filter_cons_of_neg (by rwa [decide_eq_true_iff])
      rw [hfilter, if_neg fun heq => h (Fin.ext (beq_iff_eq.mp heq)), List.nil_append]

theorem readings_polls (qs : List (Fin n × List Mbuf)) :
    deliveredBy (qs.flatMap pollEvents) = qs.flatMap (fun q => q.2.map Mbuf.addr) ∧
      freedBy (qs.flatMap pollEvents) = qs.flatMap (fun q => q.2.map Mbuf.addr) ∧
      polledBy (qs.flatMap pollEvents) = qs.map fun q => q.1.val := by
  induction qs with
  | nil => exact ⟨rfl, rfl, rfl⟩
  | cons q qs ih =>
    obtain ⟨hdelivered, hfreed, hpolled⟩ := ih
    obtain ⟨hdelivered', hfreed', hpolled'⟩ := readings_pollEvents q
    rw [List.flatMap_cons, deliveredBy_append, freedBy_append, polledBy_append, hdelivered, hfreed,
      hpolled, hdelivered', hfreed', hpolled']
    exact ⟨rfl, rfl, rfl⟩

/-- **The log of any sequence of polls is settled.** -/
theorem SettledLog.polls (qs : List (Fin n × List Mbuf)) :
    SettledLog qs (qs.flatMap pollEvents) := by
  obtain ⟨hdelivered, hfreed, hpolled⟩ := readings_polls qs
  exact ⟨exec_pollEvents qs, hdelivered, hfreed.trans hdelivered.symm,
    fun r => processedOn_pollEvents r qs false, hpolled⟩

end PacketSend
