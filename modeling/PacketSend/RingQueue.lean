/-
  Every run of the ring is a run of the queue.

  The statements of this file are about the ring as the program has it, with 32-bit indices, and
  about all its interleavings.  `RingEvent.spec` reads a step of the ring as what it is for the
  queue of `BulkQueue`: an enqueue takes effect when it stores the producers' tail, or when it
  finds no room; a dequeue when its compare-and-set of the consumers' head succeeds, or when it
  finds too few objects.  Each of these is one access of the thread between its call and its
  return, which is what makes the queue linearizable.

  * `RingMatches.step` — the step lemma, one case for each step of a thread;
  * `ring_is_queue`    — the run lemma: the ring behaves as the queue and holds its elements;
  * `full_is_full`     — an enqueue is turned away only when the objects in the ring, with those
                         that are being written and read, leave no room for it (as a step of the
                         queue it is a `refuse`, `RingMatches.refuse`);
  * `excess_not_used`  — the room a producer computes is not always between 0 and the capacity, as
                         the code has it, but what is too much is never used.

  The side condition is `Timely`: at no time has a head moved by 2^31 since a thread that is about
  to use it has loaded it.

  There are three levels.  The program has 32-bit indices; `RingFifo` has the same steps with
  indices that are never cut off, and an invariant for them; the queue has no indices at all.

  1. **From the unbounded ring to the queue** (`RingMatches`).  The log of the queue is all that
     was ever published, its front stands at the consumers' head, and each thread is at the stage
     of its operation that its place in the code says.  Most steps are not seen by the queue: what
     has to be shown of them is that the invariant is kept and the stage is the same.  A consumer
     has taken its objects as soon as it has moved the head, while they are still in the cells;
     its stage says which they are, by their positions in the log, and that does not change when
     others publish behind them.

  2. **From 32 bits to the unbounded ring** (`Implements`).  The program compares indices for
     equality and subtracts them.  Both are right modulo 2^32 as long as the two indices are less
     than 2^32 apart, which the window of the ring gives for all pairs but one: the head and the
     head a thread has loaded.  For these it is `Timely` that is seen in 32 bits and that gives
     the unbounded distance: a step moves a head by less than 2^31, so after a step from a state
     in which everyone is less than 2^31 behind nobody is 2^32 behind, and there the difference of
     the bits still tells the distance (`RingInv.within_step`, `RingInv.toNat_lag`).

  3. **Runs.**  `Run.simulate` glues the steps.
-/
import PacketSend.RingFifo
import Mathlib.Data.Fintype.Basic

namespace PacketSend

open Runs Tickets Counter BulkQueue

/-! ## The side condition -/

section Timely

variable {ι C α : Type} [Counter C]

/-- How far the head has moved since a thread has loaded it. -/
def RingState.lag (s : RingState ι C α) : RingThread C α → BitVec 32
  | .enqTail _ _ oldHead => bits s.prod.head - bits oldHead
  | .enqCas _ _ oldHead _ _ => bits s.prod.head - bits oldHead
  | .deqTail _ _ oldHead => bits s.cons.head - bits oldHead
  | .deqCas _ _ oldHead _ _ => bits s.cons.head - bits oldHead
  | _ => 0

/-- No thread has fallen behind. -/
def RingState.Timely (s : RingState ι C α) : Prop :=
  ∀ t, (s.lag (s.thread t)).toNat < 2147483648

instance [Fintype ι] (s : RingState ι C α) : Decidable s.Timely :=
  inferInstanceAs (Decidable (∀ _, _))

/-- The steps from states in which no thread has fallen behind.  All results about runs are about
    these: a run stops as soon as a thread is late, whatever it would do next. -/
def RingState.timelyStep [Fintype ι] [DecidableEq ι] [DecidableEq α] (conf : RingConf)
    (s : RingState ι C α) (e : RingEvent ι α) : Option (RingState ι C α) :=
  restrict (fun s _ => s.Timely) (RingState.step conf) s e

/-- Cutting the indices off does not change what 32 bits show of them. -/
theorem RingState.lag_erase (s : RingState ι C α) (th : RingThread C α) :
    s.erase.lag th.erase = s.lag th := by
  cases th <;> rfl

theorem RingState.timely_erase {s : RingState ι C α} : s.erase.Timely ↔ s.Timely := by
  constructor
  · intro h t
    rw [← s.lag_erase]
    exact h t
  · intro h t
    have hthread : s.erase.thread t = (s.thread t).erase := rfl
    rw [hthread, s.lag_erase]
    exact h t

end Timely

/-! ## What a step is for the queue -/

variable {ι α : Type}

/-- Where a thread stands as a worker of the queue.  Before the compare-and-set of a dequeue it
    has taken nothing; from then on it has taken `n` elements from position `oldHead` on, whatever
    it has copied so far. -/
def RingThread.status (log : List α) : RingThread Nat α → Status α
  | .idle => .idle
  | .enqHead objs b => .adding objs (b = .queueFixed)
  | .enqTail objs b _ => .adding objs (b = .queueFixed)
  | .enqCas objs b _ _ _ => .adding objs (b = .queueFixed)
  | .enqCopy objs b _ _ _ _ => .adding objs (b = .queueFixed)
  | .enqWait objs b _ _ _ => .adding objs (b = .queueFixed)
  | .enqStore objs b _ _ _ => .adding objs (b = .queueFixed)
  | .enqEnd _ _ n _ => .added n
  | .deqHead max b => .taking max (b = .queueFixed)
  | .deqTail max b _ => .taking max (b = .queueFixed)
  | .deqCas max b _ _ _ => .taking max (b = .queueFixed)
  | .deqCopy _ _ oldHead n _ _ => .taken ((log.drop oldHead).take n)
  | .deqWait _ _ oldHead n _ _ => .taken ((log.drop oldHead).take n)
  | .deqStore _ _ oldHead n _ _ => .taken ((log.drop oldHead).take n)
  | .deqEnd _ _ _ got => .taken got

/-- What an event of the ring is for the queue. -/
def RingEvent.spec : RingEvent ι α → List (BulkQueue.Event ι α)
  | .call t (.enqueue objs b) => [.askAdd t objs (b = .queueFixed)]
  | .call t (.dequeue max b) => [.askTake t max (b = .queueFixed)]
  | .act _ .access => []
  | .act _ .spin => []
  | .act t .full => [.refuse t]
  | .act t .empty => [.deny t]
  | .act t (.publish objs) => [.add t objs]
  | .act t (.take n) => [.take t n]
  | .act t (.enqueued n _) => [.answerAdd t n]
  | .act t (.dequeued objs _) => [.answerTake t objs]

/-- The ring and the queue: the invariant, the consumers' head is where the queue begins, and
    every thread stands where its worker does. -/
structure RingMatches (conf : RingConf) (s : RingState ι Nat α) (q : Queue ι α) : Prop where
  inv : RingInv conf s q.log
  out : q.out = s.cons.head
  status : q.status = fun t => (s.thread t).status q.log

namespace RingMatches

variable {conf : RingConf} {s : RingState ι Nat α} {q : Queue ι α}

/-- The number of elements of the queue. -/
theorem items_length (h : RingMatches conf s q) : q.items.length = s.prod.tail - s.cons.head := by
  rw [Queue.items_length, h.inv.published, h.out]

variable [DecidableEq ι]

/-- Thread `t` and its worker go on together.  The others stay where they are, so only the worker
    of `t` has to be looked at. -/
theorem goto {t : ι} {th : RingThread Nat α} (hinv : RingInv conf (s.goto t th) q.log)
    (hout : q.out = s.cons.head) (hstatus : q.status = fun t => (s.thread t).status q.log) :
    RingMatches conf (s.goto t th) (q.goto t (th.status q.log)) := by
  refine ⟨hinv, hout, ?_⟩
  funext w
  show Function.update q.status t (th.status q.log) w
    = (Function.update s.thread t th w).status q.log
  by_cases hw : w = t
  · rw [hw, Function.update_self, Function.update_self]
  · rw [Function.update_of_ne hw, Function.update_of_ne hw, hstatus]

/-- Thread `t` goes on and its worker stays. -/
theorem stay {t : ι} {th : RingThread Nat α} (hinv : RingInv conf (s.goto t th) q.log)
    (hout : q.out = s.cons.head) (hstatus : q.status = fun t => (s.thread t).status q.log)
    (hth : th.status q.log = (s.thread t).status q.log) : RingMatches conf (s.goto t th) q := by
  have hgoto := goto hinv hout hstatus
  have hself : q.goto t (th.status q.log) = q := by
    rw [hth, Queue.goto, hstatus]
    show Queue.mk q.log q.out (Function.update _ t _) = q
    rw [Function.update_eq_self, ← hstatus]
  rw [hself] at hgoto
  exact hgoto

end RingMatches

/-! ## One step -/

/-- How far behind a thread is, not cut off. -/
def RingState.behind (s : RingState ι Nat α) : RingThread Nat α → Nat
  | .enqTail _ _ oldHead => s.prod.head - oldHead
  | .enqCas _ _ oldHead _ _ => s.prod.head - oldHead
  | .deqTail _ _ oldHead => s.cons.head - oldHead
  | .deqCas _ _ oldHead _ _ => s.cons.head - oldHead
  | _ => 0

/-- Every thread is less than `bound` behind. -/
def RingState.Within (s : RingState ι Nat α) (bound : Nat) : Prop :=
  ∀ t, s.behind (s.thread t) < bound

/-- What that says of a thread at its place. -/
theorem RingState.Within.known {s : RingState ι Nat α} {bound : Nat} (h : s.Within bound) {t : ι}
    {th : RingThread Nat α} (ht : s.thread t = th) : s.behind th < bound := by
  rw [← ht]
  exact h t

/-- The room a producer computes: exact if the head it has loaded is current, and never less
    than there is. -/
theorem free_eq {conf : RingConf} {s : RingState ι Nat α} {log : List α}
    (h : RingInv conf s log) {oldHead : Nat} (hle : oldHead ≤ s.prod.head)
    (hlag : s.prod.head - oldHead < 2147483648) :
    (BitVec.ofNat 32 conf.capacity + bits s.cons.tail - bits oldHead).toNat
      = s.cons.tail + conf.capacity - oldHead := by
  obtain ⟨hconss, horder, hprods, hroom, hcap, hsize⟩ := h.window
  -- capacity and tail are added first, so that the difference is not a negative one
  have hsum : BitVec.ofNat 32 conf.capacity + bits s.cons.tail
      = bits (s.cons.tail + conf.capacity) := by
    rw [BitVec.add_comm]
    exact (bits_advance s.cons.tail conf.capacity).symm
  rw [hsum]
  exact toNat_bits_sub (by omega) (by omega)

/-- The objects a consumer counts: likewise. -/
theorem entries_eq {conf : RingConf} {s : RingState ι Nat α} {log : List α}
    (h : RingInv conf s log) {oldHead : Nat} (hle : oldHead ≤ s.cons.head)
    (hlag : s.cons.head - oldHead < 2147483648) :
    (bits s.prod.tail - bits oldHead).toNat = s.prod.tail - oldHead := by
  obtain ⟨hconss, horder, hprods, hroom, hcap, hsize⟩ := h.window
  exact toNat_bits_sub (by omega) (by omega)

/-- What may be moved: something, no more than was asked for, all of it if that is asked for. -/
theorem moves_toMove {b : Behavior} {n : Nat} {avail : BitVec 32} (h : toMove b n avail ≠ 0) :
    Moves n b (toMove b n avail) :=
  ⟨Nat.pos_of_ne_zero h, (toMove_le b n avail).1, fun hb => toMove_fixed hb h⟩

/-- Nothing may be moved: nothing was asked for, there is nothing, or there is too little of it. -/
theorem toMove_eq_zero {b : Behavior} {n : Nat} {avail : BitVec 32} (h : toMove b n avail = 0) :
    n = 0 ∨ avail.toNat = 0 ∨ (b = .queueFixed ∧ avail.toNat < n) := by
  unfold toMove at h
  split at h
  · cases b with
    | queueFixed => exact Or.inr (Or.inr ⟨rfl, ‹_›⟩)
    | queueVariable => exact Or.inr (Or.inl h)
  · exact Or.inl h

/-- A producer's reservation lies between tail and head and is not longer than the ring. -/
theorem RingInv.prod_le {conf : RingConf} {s : RingState ι Nat α} {log : List α}
    (h : RingInv conf s log) {t : ι} {r : Stretch} (hr : (s.thread t).prodTicket = some r) :
    s.prod.tail ≤ r.start ∧ r.start + r.length ≤ s.prod.head ∧ r.length ≤ conf.capacity := by
  obtain ⟨-, hlo, hhi⟩ := h.prods.inside t r hr
  have hhi' : r.start + r.length ≤ s.prod.head := hhi
  obtain ⟨hconss, horder, -, hroom, -⟩ := h.window
  exact ⟨hlo, hhi', by omega⟩

/-- A consumer's reservation likewise. -/
theorem RingInv.cons_le {conf : RingConf} {s : RingState ι Nat α} {log : List α}
    (h : RingInv conf s log) {t : ι} {r : Stretch} (hr : (s.thread t).consTicket = some r) :
    s.cons.tail ≤ r.start ∧ r.start + r.length ≤ s.cons.head ∧ r.length ≤ conf.capacity := by
  obtain ⟨-, hlo, hhi⟩ := h.conss.inside t r hr
  have hhi' : r.start + r.length ≤ s.cons.head := hhi
  obtain ⟨-, horder, hprods, hroom, -⟩ := h.window
  exact ⟨hlo, hhi', by omega⟩

section Step

variable [Fintype ι] [DecidableEq ι] [DecidableEq α] {conf : RingConf} {s s' : RingState ι Nat α}
  {q : Queue ι α}

/-- The step of a thread that the queue does not see: it keeps its reservation and its stage. -/
theorem RingMatches.quiet (h : RingMatches conf s q) {t : ι} {th : RingThread Nat α}
    (hprod : th.prodTicket = (s.thread t).prodTicket)
    (hcons : th.consTicket = (s.thread t).consTicket) (hok : s.ThreadOk conf q.log th)
    (hth : th.status q.log = (s.thread t).status q.log) :
    ∃ q', Run (BulkQueue.step conf.capacity) q [] q' ∧ RingMatches conf (s.goto t th) q' :=
  ⟨q, Run.nil, RingMatches.stay (h.inv.quiet hprod hcons hok) h.out h.status hth⟩

omit [Fintype ι] [DecidableEq ι] [DecidableEq α] in
/-- Where a worker stands. -/
theorem RingMatches.status_at (h : RingMatches conf s q) {t : ι} {th : RingThread Nat α}
    (ht : s.thread t = th) : q.status t = th.status q.log := by
  rw [h.status]
  exact congrArg (RingThread.status q.log) ht

/-- An operation is asked for. -/
theorem RingMatches.call (h : RingMatches conf s q) {t : ι} (op : RingOp α)
    (ht : s.thread t = .idle) :
    ∃ q', Run (BulkQueue.step conf.capacity) q (RingEvent.call t op).spec q' ∧
      RingMatches conf (s.goto t op.start) q' := by
  have hw : q.status t = .idle := h.status_at ht
  cases op with
  | enqueue objs b =>
    refine ⟨_, Run.single (Step.askAdd hw).step_eq, ?_⟩
    exact RingMatches.goto (h.inv.quiet (by rw [ht]; rfl) (by rw [ht]; rfl) trivial) h.out h.status
  | dequeue max b =>
    refine ⟨_, Run.single (Step.askTake hw).step_eq, ?_⟩
    exact RingMatches.goto (h.inv.quiet (by rw [ht]; rfl) (by rw [ht]; rfl) trivial) h.out h.status

omit [Fintype ι] [DecidableEq ι] [DecidableEq α] in
/-- What a consumer has taken is not changed by what is published later: its stretch of the log
    ends at the consumers' head, which is no further than the log is long. -/
theorem RingMatches.status_append (h : RingMatches conf s q) (xs : List α) (t : ι) :
    (s.thread t).status (q.log ++ xs) = (s.thread t).status q.log := by
  have htaken : ∀ r, (s.thread t).consTicket = some r →
      ((q.log ++ xs).drop r.start).take r.length = (q.log.drop r.start).take r.length := by
    intro r hr
    obtain ⟨-, hhi, -⟩ := h.inv.cons_le hr
    have horder := h.inv.order
    have hpub := h.inv.published
    rw [List.drop_append_of_le_length (by omega),
      List.take_append_of_le_length (by rw [List.length_drop]; omega)]
  cases ht : s.thread t with
  | deqCopy max b oldHead n entries got =>
    exact congrArg Status.taken (htaken ⟨oldHead, n⟩ (by rw [ht]; rfl))
  | deqWait max b oldHead n entries got =>
    exact congrArg Status.taken (htaken ⟨oldHead, n⟩ (by rw [ht]; rfl))
  | deqStore max b oldHead n entries got =>
    exact congrArg Status.taken (htaken ⟨oldHead, n⟩ (by rw [ht]; rfl))
  | _ => rfl

/-- **The store of the producers' tail adds the objects**: the thread is the first of those that
    write, so its stretch begins where the log ends. -/
theorem RingMatches.publish (h : RingMatches conf s q) {t : ι} {objs : List α} {b : Behavior}
    {oldHead n : Nat} {free : BitVec 32} (ht : s.thread t = .enqStore objs b oldHead n free) :
    ∃ q', Run (BulkQueue.step conf.capacity) q [.add t (objs.take n)] q' ∧
      RingMatches conf ({ s with prod := ⟨s.prod.head, oldHead + n⟩ }.goto t
        (.enqEnd objs b n free)) q' := by
  obtain ⟨hmoves, -, rfl⟩ := h.inv.known ht
  obtain ⟨-, hhi, -⟩ := h.inv.prod_le (t := t) (r := ⟨s.prod.tail, n⟩) (by rw [ht]; rfl)
  have hn := hmoves.le
  have hpos := hmoves.pos
  have hlen : (objs.take n).length = n := by
    rw [List.length_take]
    omega
  -- the queue may hold them: the ring has reserved cells for them
  have hroom : q.items.length + (objs.take n).length ≤ conf.capacity := by
    have hroom' := h.inv.room
    have hconss := h.inv.conss.le
    have horder := h.inv.order
    have hhi' : s.prod.tail + n ≤ s.prod.head := hhi
    rw [h.items_length, hlen]
    omega
  have hadd : Step conf.capacity q (.add t (objs.take n)) _ := Step.add (h.status_at ht)
    (List.ne_nil_of_length_pos (by omega : 0 < (objs.take n).length)) (by rw [hlen])
    (fun hb => by rw [hmoves.fixed (of_decide_eq_true hb), List.take_length]) hroom
  refine ⟨_, Run.single hadd.step_eq, ?_⟩
  have hstatus : (RingThread.enqEnd objs b n free : RingThread Nat α).status (q.log ++ objs.take n)
      = .added (objs.take n).length := congrArg Status.added hlen.symm
  rw [← hstatus]
  refine RingMatches.goto (q := { q with log := q.log ++ objs.take n }) (h.inv.publish ht) h.out ?_
  funext w
  show q.status w = (s.thread w).status (q.log ++ objs.take n)
  rw [h.status_append, h.status]

/-- **The compare-and-set of the consumers' head takes objects**: those from the head on, which
    were there when the thread counted them and still are, the head being the same. -/
theorem RingMatches.take (h : RingMatches conf s q) {t : ι} {max : Nat} {b : Behavior} {n : Nat}
    {entries : BitVec 32} (ht : s.thread t = .deqCas max b s.cons.head n entries) :
    ∃ q', Run (BulkQueue.step conf.capacity) q [.take t n] q' ∧
      RingMatches conf ({ s with cons := ⟨s.cons.head + n, s.cons.tail⟩ }.goto t
        (.deqCopy max b s.cons.head n entries [])) q' := by
  obtain ⟨-, hmoves, hthere⟩ := h.inv.known ht
  have hthere' := (hthere rfl).1
  have htake : Step conf.capacity q (.take t n) _ := Step.take (h.status_at ht) hmoves.pos
    hmoves.le (fun hb => hmoves.fixed (of_decide_eq_true hb)) (by rw [h.items_length]; omega)
  refine ⟨_, Run.single htake.step_eq, ?_⟩
  have hstatus : (RingThread.deqCopy max b s.cons.head n entries []).status q.log
      = .taken (q.items.take n) := by
    show Status.taken _ = _
    rw [← h.out]
    rfl
  rw [← hstatus]
  exact RingMatches.goto (q := { q with out := q.out + n }) (h.inv.reserve_cons ht)
    (congrArg (· + n) h.out) h.status

/-- A consumer that finds too few objects: there are too few.  The tail it has just loaded is the
    current one; against an old head it counts too many rather than too few. -/
theorem RingMatches.deny (h : RingMatches conf s q) {t : ι} {max : Nat} {b : Behavior}
    {oldHead : Nat}
    (ht : s.thread t = .deqTail max b oldHead)
    (hlag : s.cons.head - oldHead < 2147483648)
    (hn : toMove b max (bits s.prod.tail - bits oldHead) = 0) :
    ∃ q', Run (BulkQueue.step conf.capacity) q [.deny t] q' ∧
      RingMatches conf (s.goto t (.deqEnd max b (bits s.prod.tail - bits oldHead) [])) q' := by
  have hle : oldHead ≤ s.cons.head := h.inv.known ht
  have hdenied : Denied q.items.length max (decide (b = .queueFixed)) := by
    have horder := h.inv.order
    have hzero := toMove_eq_zero hn
    rw [entries_eq h.inv hle hlag] at hzero
    rw [h.items_length]
    rcases hzero with hmax | hnone | ⟨hb, hfew⟩
    · exact Or.inl hmax
    · exact Or.inr (Or.inl (by omega))
    · exact Or.inr (Or.inr ⟨decide_eq_true hb, by omega⟩)
  refine ⟨_, Run.single (Step.deny (h.status_at ht) hdenied).step_eq, ?_⟩
  exact RingMatches.goto (h.inv.quiet (by rw [ht]; rfl) (by rw [ht]; rfl) trivial) h.out h.status

omit [Fintype ι] [DecidableEq ι] [DecidableEq α] in
/-- The cells a thread has reserved are for elements its worker has on the way. -/
theorem RingMatches.tickets_le_load (h : RingMatches conf s q) (t : ι) :
    ((s.thread t).prodTicket.elim 0 Stretch.length)
      + ((s.thread t).consTicket.elim 0 Stretch.length) ≤ (q.status t).load := by
  rw [h.status_at rfl]
  -- what a consumer takes is a stretch of the log as long as its ticket
  have hgot : ∀ oldHead n, (s.thread t).consTicket = some ⟨oldHead, n⟩ →
      ((q.log.drop oldHead).take n).length = n := by
    intro oldHead n hr
    obtain ⟨-, hhi, -⟩ := h.inv.cons_le hr
    have hhi' : oldHead + n ≤ s.cons.head := hhi
    have horder := h.inv.order
    have hpub := h.inv.published
    rw [List.length_take, List.length_drop]
    omega
  cases ht : s.thread t with
  | enqCopy objs b oldHead n free i =>
    show n + 0 ≤ objs.length
    rw [Nat.add_zero]
    exact (h.inv.known ht).1.le
  | enqWait objs b oldHead n free =>
    show n + 0 ≤ objs.length
    rw [Nat.add_zero]
    exact (h.inv.known ht).1.le
  | enqStore objs b oldHead n free =>
    show n + 0 ≤ objs.length
    rw [Nat.add_zero]
    exact (h.inv.known ht).1.le
  | deqCopy max b oldHead n entries got =>
    show 0 + n ≤ ((q.log.drop oldHead).take n).length
    rw [hgot oldHead n (by rw [ht]; rfl), Nat.zero_add]
  | deqWait max b oldHead n entries got =>
    show 0 + n ≤ ((q.log.drop oldHead).take n).length
    rw [hgot oldHead n (by rw [ht]; rfl), Nat.zero_add]
  | deqStore max b oldHead n entries got =>
    show 0 + n ≤ ((q.log.drop oldHead).take n).length
    rw [hgot oldHead n (by rw [ht]; rfl), Nat.zero_add]
  | _ => exact Nat.zero_le _

omit [DecidableEq α] in
/-- The cells that are taken, from the consumers' tail to the producers' head, hold the elements of
    the queue and what the workers have on the way, other than one that has reserved nothing. -/
theorem RingMatches.taken_le (h : RingMatches conf s q) {t : ι}
    (hprod : (s.thread t).prodTicket = none) (hcons : (s.thread t).consTicket = none) :
    s.prod.head ≤ s.cons.tail + q.items.length + (q.goto t .idle).load := by
  have hprods := h.inv.prods.head_le
  have hconss := h.inv.conss.head_le
  have horder := h.inv.order
  have hsum : (∑ w, (s.thread w).prodTicket.elim 0 Stretch.length)
      + (∑ w, (s.thread w).consTicket.elim 0 Stretch.length) ≤ (q.goto t .idle).load := by
    rw [← Finset.sum_add_distrib]
    refine Finset.sum_le_sum fun w _ => ?_
    show _ ≤ (Function.update q.status t .idle w).load
    by_cases hw : w = t
    · rw [hw, Function.update_self, hprod, hcons]
      exact Nat.le_refl _
    · rw [Function.update_of_ne hw]
      exact h.tickets_le_load w
  rw [h.items_length]
  omega

/-- A producer that finds no room: there is none.  What it subtracts from the room are the cells
    from the consumers' tail to the head it has loaded, and up to the current head these are
    elements of the queue or on the way (`taken_le`). -/
theorem RingMatches.refuse (h : RingMatches conf s q) {t : ι} {objs : List α} {b : Behavior}
    {oldHead : Nat} (ht : s.thread t = .enqTail objs b oldHead)
    (hlag : s.prod.head - oldHead < 2147483648)
    (hn : toMove b objs.length (BitVec.ofNat 32 conf.capacity + bits s.cons.tail - bits oldHead)
      = 0) :
    ∃ q', Run (BulkQueue.step conf.capacity) q [.refuse t] q' ∧ RingMatches conf
      (s.goto t (.enqEnd objs b 0
        (BitVec.ofNat 32 conf.capacity + bits s.cons.tail - bits oldHead))) q' := by
  have hle : oldHead ≤ s.prod.head := h.inv.known ht
  have hrefused : Refused conf.capacity q t objs (decide (b = .queueFixed)) := by
    have htaken := h.taken_le (t := t) (by rw [ht]; rfl) (by rw [ht]; rfl)
    have hroom := h.inv.room
    have hzero := toMove_eq_zero hn
    rw [free_eq h.inv hle hlag] at hzero
    rcases hzero with hnil | hnone | ⟨hb, hfew⟩
    · exact Or.inl (List.eq_nil_of_length_eq_zero hnil)
    · rcases Nat.eq_zero_or_pos objs.length with hnil | hpos
      · exact Or.inl (List.eq_nil_of_length_eq_zero hnil)
      · refine Or.inr ?_
        split <;> omega
    · refine Or.inr ?_
      rw [if_pos (decide_eq_true hb)]
      omega
  refine ⟨_, Run.single (Step.refuse (h.status_at ht) hrefused).step_eq, ?_⟩
  exact RingMatches.goto (h.inv.quiet (by rw [ht]; rfl) (by rw [ht]; rfl) trivial) h.out h.status

/-- An enqueue returns. -/
theorem RingMatches.enqueued (h : RingMatches conf s q) {t : ι} {objs : List α} {b : Behavior}
    {n : Nat} {free : BitVec 32} (ht : s.thread t = .enqEnd objs b n free) :
    ∃ q', Run (BulkQueue.step conf.capacity) q [.answerAdd t n] q' ∧
      RingMatches conf (s.goto t .idle) q' := by
  have hw : q.status t = .added n := h.status_at ht
  refine ⟨_, Run.single (Step.answerAdd hw).step_eq, ?_⟩
  exact RingMatches.goto (h.inv.quiet (by rw [ht]; rfl) (by rw [ht]; rfl) trivial) h.out h.status

/-- A dequeue returns. -/
theorem RingMatches.dequeued (h : RingMatches conf s q) {t : ι} {max : Nat} {b : Behavior}
    {entries : BitVec 32} {got : List α} (ht : s.thread t = .deqEnd max b entries got) :
    ∃ q', Run (BulkQueue.step conf.capacity) q [.answerTake t got] q' ∧
      RingMatches conf (s.goto t .idle) q' := by
  have hw : q.status t = .taken got := h.status_at ht
  refine ⟨_, Run.single (Step.answerTake hw).step_eq, ?_⟩
  exact RingMatches.goto (h.inv.quiet (by rw [ht]; rfl) (by rw [ht]; rfl) trivial) h.out h.status

/-- **The step lemma**: a step of the ring, when no thread has fallen behind, is what
    `RingEvent.spec` says for the queue.  One case for each step; those that the queue sees have
    their lemma above, for the others the fact about the thread at its new place is derived from
    the one at its old place. -/
theorem RingMatches.step (h : RingMatches conf s q) (hlag : s.Within 2147483648) {e : RingEvent ι α}
    (hs : s.step conf e = some s') :
    ∃ q', Run (BulkQueue.step conf.capacity) q e.spec q' ∧ RingMatches conf s' q' := by
  obtain ⟨hconss, horder, hprods, hroom, hcap, hsize⟩ := h.inv.window
  cases RingState.step_inv hs with
  | @call t op ht hfits => exact h.call op ht
  | @enqHead t objs b ht =>
    exact h.quiet (by rw [ht]; rfl) (by rw [ht]; rfl) (Nat.le_refl _) (by rw [ht]; rfl)
  | @enqRefuse t objs b oldHead free ht hfree hn =>
    have hbehind := hlag.known ht
    subst hfree
    exact h.refuse ht hbehind hn
  | @enqTail t objs b oldHead free ht hfree hn =>
    have hle : oldHead ≤ s.prod.head := h.inv.known ht
    have hbehind := hlag.known ht
    refine h.quiet (by rw [ht]; rfl) (by rw [ht]; rfl) ⟨hle, moves_toMove hn, ?_⟩
      (by rw [ht]; rfl)
    -- if the head is still the one that was loaded, the count is exact and the objects fit
    intro hcurrent
    have hmoves := (toMove_le b objs.length free).2
    have hexact := free_eq h.inv hle hbehind
    rw [← hfree] at hexact
    exact ⟨by omega, by omega⟩
  | @enqCas t objs b oldHead n free ht hcas =>
    -- the head is the one that was loaded, not one with the same 32 bits
    obtain ⟨hle, -⟩ := h.inv.known ht
    have hbehind := hlag.known ht
    obtain rfl : oldHead = s.prod.head := eq_of_bits_eq hcas.symm hle hbehind
    exact ⟨q, Run.nil, RingMatches.stay (h.inv.reserve_prod ht) h.out h.status (by rw [ht]; rfl)⟩
  | @enqRetry t objs b oldHead n free ht hcas =>
    exact h.quiet (by rw [ht]; rfl) (by rw [ht]; rfl) trivial (by rw [ht]; rfl)
  | @enqCopy t objs b oldHead n free i idx j x ht hat hx =>
    -- the cell written is that of position `oldHead + i`, which no one else uses
    obtain ⟨-, -, hn⟩ := h.inv.prod_le (t := t) (r := ⟨oldHead, n⟩) (by rw [ht]; rfl)
    have hn' : n ≤ conf.capacity := hn
    obtain ⟨hi, rfl, rfl⟩ := conf.copy_some (by omega) hat
    exact ⟨q, Run.nil,
      RingMatches.stay (h.inv.write_cell ht hi hx) h.out h.status (by rw [ht]; rfl)⟩
  | @enqCopied t objs b oldHead n free i ht hat =>
    obtain ⟨-, -, hn⟩ := h.inv.prod_le (t := t) (r := ⟨oldHead, n⟩) (by rw [ht]; rfl)
    have hn' : n ≤ conf.capacity := hn
    obtain ⟨hmoves, hi, hfill⟩ := h.inv.known ht
    obtain rfl : i = n := Nat.le_antisymm hi (conf.copy_none (by omega) hat)
    exact h.quiet (by rw [ht]; rfl) (by rw [ht]; rfl) ⟨hmoves, hfill⟩ (by rw [ht]; rfl)
  | @enqTurn t objs b oldHead n free ht htail =>
    -- the tail has the bits of the thread's first position, and the window is short
    obtain ⟨hlo, hhi, -⟩ := h.inv.prod_le (t := t) (r := ⟨oldHead, n⟩) (by rw [ht]; rfl)
    have hlo' : s.prod.tail ≤ oldHead := hlo
    have hhi' : oldHead + n ≤ s.prod.head := hhi
    have hfirst : s.prod.tail = oldHead := eq_of_bits_eq htail hlo' (by omega)
    obtain ⟨hmoves, hfill⟩ := h.inv.known ht
    exact h.quiet (by rw [ht]; rfl) (by rw [ht]; rfl) ⟨hmoves, hfill, hfirst.symm⟩
      (by rw [ht]; rfl)
  | enqSpin ht => exact ⟨q, Run.nil, h⟩
  | enqStore ht => exact h.publish ht
  | enqEnd ht => exact h.enqueued ht
  | @deqHead t max b ht =>
    exact h.quiet (by rw [ht]; rfl) (by rw [ht]; rfl) (Nat.le_refl _) (by rw [ht]; rfl)
  | @deqRefuse t max b oldHead entries ht hentries hn =>
    have hbehind := hlag.known ht
    subst hentries
    exact h.deny ht hbehind hn
  | @deqTail t max b oldHead entries ht hentries hn =>
    have hle : oldHead ≤ s.cons.head := h.inv.known ht
    have hbehind := hlag.known ht
    refine h.quiet (by rw [ht]; rfl) (by rw [ht]; rfl) ⟨hle, moves_toMove hn, ?_⟩
      (by rw [ht]; rfl)
    intro hcurrent
    have hmoves := (toMove_le b max entries).2
    have hexact := entries_eq h.inv hle hbehind
    rw [← hentries] at hexact
    exact ⟨by omega, by omega⟩
  | @deqCas t max b oldHead n entries ht hcas =>
    obtain ⟨hle, -⟩ := h.inv.known ht
    have hbehind := hlag.known ht
    obtain rfl : oldHead = s.cons.head := eq_of_bits_eq hcas.symm hle hbehind
    exact h.take ht
  | @deqRetry t max b oldHead n entries ht hcas =>
    exact h.quiet (by rw [ht]; rfl) (by rw [ht]; rfl) trivial (by rw [ht]; rfl)
  | @deqCopy t max b oldHead n entries got idx j ht hat =>
    -- the cell still holds the log's element: no producer writes before the tail has passed it
    obtain ⟨hlo, hhi, hn⟩ := h.inv.cons_le (t := t) (r := ⟨oldHead, n⟩) (by rw [ht]; rfl)
    have hlo' : s.cons.tail ≤ oldHead := hlo
    have hhi' : oldHead + n ≤ s.cons.head := hhi
    have hn' : n ≤ conf.capacity := hn
    obtain ⟨-, hgot⟩ := h.inv.known ht
    obtain ⟨hi, rfl, -⟩ := conf.copy_some (by omega) hat
    have hcell := h.inv.cells (oldHead + got.length) (by omega) (by omega)
    refine h.quiet (by rw [ht]; rfl) (by rw [ht]; rfl) ?_ (by rw [ht]; rfl)
    refine ⟨by rw [List.length_append]; exact hi, ?_⟩
    rw [List.length_append, List.length_singleton, List.take_add_one, List.getElem?_drop, hcell,
      ← hgot]
    rfl
  | @deqCopied t max b oldHead n entries got ht hat =>
    obtain ⟨-, -, hn⟩ := h.inv.cons_le (t := t) (r := ⟨oldHead, n⟩) (by rw [ht]; rfl)
    have hn' : n ≤ conf.capacity := hn
    obtain ⟨hi, hgot⟩ := h.inv.known ht
    have hdone : got.length = n := Nat.le_antisymm hi (conf.copy_none (by omega) hat)
    rw [hdone] at hgot
    exact h.quiet (by rw [ht]; rfl) (by rw [ht]; rfl) hgot (by rw [ht]; rfl)
  | @deqTurn t max b oldHead n entries got ht htail =>
    obtain ⟨hlo, hhi, -⟩ := h.inv.cons_le (t := t) (r := ⟨oldHead, n⟩) (by rw [ht]; rfl)
    have hlo' : s.cons.tail ≤ oldHead := hlo
    have hhi' : oldHead + n ≤ s.cons.head := hhi
    have hfirst : s.cons.tail = oldHead := eq_of_bits_eq htail hlo' (by omega)
    exact h.quiet (by rw [ht]; rfl) (by rw [ht]; rfl) ⟨h.inv.known ht, hfirst.symm⟩
      (by rw [ht]; rfl)
  | deqSpin ht => exact ⟨q, Run.nil, h⟩
  | @deqStore t max b oldHead n entries got ht =>
    -- the cells are given back; for the queue the objects have long been taken
    obtain ⟨hgot, -⟩ := h.inv.known ht
    refine ⟨q, Run.nil, RingMatches.stay (h.inv.release_cons ht) h.out h.status ?_⟩
    rw [ht]
    exact congrArg Status.taken hgot
  | deqEnd ht => exact h.dequeued ht

end Step

/-! ## The 32 bits -/

section Lag

variable [DecidableEq ι] {conf : RingConf} {s u : RingState ι Nat α} {log : List α}

omit [DecidableEq ι] in
/-- Seen through 32 bits, a thread is as far behind as it is. -/
theorem RingInv.toNat_lag (h : RingInv conf s log) (hlag : s.Within 4294967296) (t : ι) :
    (s.lag (s.thread t)).toNat = s.behind (s.thread t) := by
  cases ht : s.thread t with
  | enqTail objs b oldHead =>
    have hle : oldHead ≤ s.prod.head := h.known ht
    exact toNat_bits_sub hle (hlag.known ht)
  | enqCas objs b oldHead n free =>
    obtain ⟨hle, -⟩ := h.known ht
    exact toNat_bits_sub hle (hlag.known ht)
  | deqTail max b oldHead =>
    have hle : oldHead ≤ s.cons.head := h.known ht
    exact toNat_bits_sub hle (hlag.known ht)
  | deqCas max b oldHead n entries =>
    obtain ⟨hle, -⟩ := h.known ht
    exact toNat_bits_sub hle (hlag.known ht)
  | _ => rfl

/-- Heads that move by less than 2^31 at a time do not leave a thread behind unseen. -/
theorem RingState.Within.goto (hlag : s.Within 2147483648) (hthread : u.thread = s.thread)
    (hprod : u.prod.head ≤ s.prod.head + 2147483648)
    (hcons : u.cons.head ≤ s.cons.head + 2147483648) {t : ι} {th : RingThread Nat α}
    (hth : u.behind th < 4294967296) : (u.goto t th).Within 4294967296 := by
  intro w
  show u.behind (Function.update u.thread t th w) < 4294967296
  by_cases hw : w = t
  · rw [hw, Function.update_self]
    exact hth
  · rw [Function.update_of_ne hw, hthread]
    cases hsw : s.thread w with
    | enqTail objs b oldHead =>
      have hold : s.prod.head - oldHead < 2147483648 := hlag.known hsw
      show u.prod.head - oldHead < 4294967296
      omega
    | enqCas objs b oldHead n free =>
      have hold : s.prod.head - oldHead < 2147483648 := hlag.known hsw
      show u.prod.head - oldHead < 4294967296
      omega
    | deqTail max b oldHead =>
      have hold : s.cons.head - oldHead < 2147483648 := hlag.known hsw
      show u.cons.head - oldHead < 4294967296
      omega
    | deqCas max b oldHead n entries =>
      have hold : s.cons.head - oldHead < 2147483648 := hlag.known hsw
      show u.cons.head - oldHead < 4294967296
      omega
    | _ => exact Nat.zero_lt_succ _

variable [DecidableEq α]

/-- A step keeps the lag visible in 32 bits. -/
theorem RingInv.within_step (h : RingInv conf s log) (hlag : s.Within 2147483648)
    {e : RingEvent ι α} (hs : s.step conf e = some u) : u.Within 4294967296 := by
  obtain ⟨hconss, horder, hprods, hroom, hcap, hsize⟩ := h.window
  have hstay : s.Within 4294967296 := fun t => Nat.lt_trans (hlag t) (by decide)
  -- the heads stay, and only thread `t` can have come to another distance
  have hgoto : ∀ {t : ι} {th : RingThread Nat α}, s.behind th < 4294967296 →
      (s.goto t th).Within 4294967296 :=
    fun hth => hlag.goto rfl (Nat.le_add_right _ _) (Nat.le_add_right _ _) hth
  cases RingState.step_inv hs with
  | @call t op ht hfits => exact hgoto (by cases op <;> exact Nat.zero_lt_succ _)
  | @enqHead t objs b ht =>
    refine hgoto ?_
    show s.prod.head - s.prod.head < 4294967296
    omega
  | @enqTail t objs b oldHead free ht hfree hn =>
    have hold : s.prod.head - oldHead < 4294967296 := hstay.known ht
    exact hgoto hold
  | @enqCas t objs b oldHead n free ht hcas =>
    obtain ⟨hle, -, hfits⟩ := h.known ht
    obtain rfl : oldHead = s.prod.head := eq_of_bits_eq hcas.symm hle (hlag.known ht)
    have hfits' := (hfits rfl).1
    -- the head moves by no more than there are cells
    have hmove : s.prod.head + n ≤ s.prod.head + 2147483648 := by omega
    exact hlag.goto (u := { s with prod := ⟨s.prod.head + n, s.prod.tail⟩ }) rfl hmove
      (Nat.le_add_right _ _) (Nat.zero_lt_succ _)
  | @deqHead t max b ht =>
    refine hgoto ?_
    show s.cons.head - s.cons.head < 4294967296
    omega
  | @deqTail t max b oldHead entries ht hentries hn =>
    have hold : s.cons.head - oldHead < 4294967296 := hstay.known ht
    exact hgoto hold
  | @deqCas t max b oldHead n entries ht hcas =>
    obtain ⟨hle, -, hthere⟩ := h.known ht
    obtain rfl : oldHead = s.cons.head := eq_of_bits_eq hcas.symm hle (hlag.known ht)
    have hthere' := (hthere rfl).1
    have hmove : s.cons.head + n ≤ s.cons.head + 2147483648 := by omega
    exact hlag.goto (u := { s with cons := ⟨s.cons.head + n, s.cons.tail⟩ }) rfl
      (Nat.le_add_right _ _) hmove (Nat.zero_lt_succ _)
  | enqSpin ht => exact hstay
  | deqSpin ht => exact hstay
  | _ => exact hlag.goto rfl (Nat.le_add_right _ _) (Nat.le_add_right _ _) (Nat.zero_lt_succ _)

end Lag

/-! ## Every run -/

section Runs

variable [DecidableEq ι] [DecidableEq α] {conf : RingConf}

/-- The ring in memory implements the queue: it is what is left of an unbounded ring that matches
    the queue, when the indices are cut off. -/
def Implements (conf : RingConf) (s : RingState ι (BitVec 32) α) (q : Queue ι α) : Prop :=
  ∃ u : RingState ι Nat α, s = u.erase ∧ RingMatches conf u q ∧ u.Within 4294967296

omit [DecidableEq ι] [DecidableEq α] in
/-- The empty ring. -/
theorem RingInv.init (conf : RingConf) (cells : Nat → α) :
    RingInv conf (RingState.init 0 cells : RingState ι Nat α) [] := by
  constructor
  · exact Tiled.nothing 0
  · exact Tiled.nothing 0
  · rfl
  · exact Nat.le_refl 0
  · exact Nat.zero_le _
  · intro x _ hx
    exact absurd hx (Nat.not_lt_zero x)
  · intro t
    trivial

omit [DecidableEq ι] [DecidableEq α] in
/-- The empty ring is the empty queue. -/
theorem implements_init (conf : RingConf) (cells : Nat → α) :
    Implements conf (RingState.init 0 cells : RingState ι (BitVec 32) α) BulkQueue.init :=
  ⟨RingState.init 0 cells, rfl, ⟨RingInv.init conf cells, rfl, rfl⟩,
    fun _ => Nat.zero_lt_succ _⟩

variable [Fintype ι]

/-- A step of the program from a state that implements a queue: the same step with indices that
    are not cut off, and what it is for the queue. -/
theorem RingMatches.lift {u : RingState ι Nat α} {q : Queue ι α} {e : RingEvent ι α}
    {s' : RingState ι (BitVec 32) α} (hmatch : RingMatches conf u q)
    (hwithin : u.Within 4294967296) (hs : RingState.timelyStep conf u.erase e = some s') :
    u.Within 2147483648 ∧ ∃ u' q', s' = u'.erase ∧ u.step conf e = some u' ∧
      Run (BulkQueue.step conf.capacity) q e.spec q' ∧ RingMatches conf u' q' ∧
      u'.Within 4294967296 := by
  obtain ⟨htimely, hstep⟩ := restrict_eq_some.mp hs
  -- what the program can see of the distances is what they are
  have hlag : u.Within 2147483648 := by
    intro t
    rw [← hmatch.inv.toNat_lag hwithin t]
    exact RingState.timely_erase.mp htimely t
  rw [RingState.erase_step] at hstep
  obtain ⟨u', hu', rfl⟩ := Option.map_eq_some_iff.mp hstep
  obtain ⟨q', hrun, hmatch'⟩ := hmatch.step hlag hu'
  exact ⟨hlag, u', q', rfl, hu', hrun, hmatch', hmatch.inv.within_step hlag hu'⟩

/-- A step of the program keeps it so. -/
theorem implements_step {s s' : RingState ι (BitVec 32) α} {q : Queue ι α} {e : RingEvent ι α}
    (h : Implements conf s q) (hs : RingState.timelyStep conf s e = some s') :
    ∃ q', Run (BulkQueue.step conf.capacity) q e.spec q' ∧ Implements conf s' q' := by
  obtain ⟨u, rfl, hmatch, hwithin⟩ := h
  obtain ⟨-, u', q', hs', -, hrun, hmatch', hwithin'⟩ := hmatch.lift hwithin hs
  exact ⟨q', hrun, u', hs', hmatch', hwithin'⟩

/-- What is in the ring: the cells from the consumers' head to the producers' tail. -/
def RingState.contents {C : Type} [Counter C] (conf : RingConf) (s : RingState ι C α) : List α :=
  (List.range (bits s.prod.tail - bits s.cons.head).toNat).map fun k =>
    s.cells (conf.index (advance s.cons.head k))

omit [DecidableEq ι] [DecidableEq α] [Fintype ι] in
/-- The cells hold the elements of the queue, in order: there are as many, and each position
    between head and tail has its own cell. -/
theorem Implements.contents_eq {s : RingState ι (BitVec 32) α} {q : Queue ι α}
    (h : Implements conf s q) : s.contents conf = q.items := by
  obtain ⟨u, rfl, hmatch, -⟩ := h
  obtain ⟨hconss, horder, hprods, hroom, hcap, hsize⟩ := hmatch.inv.window
  have hcount : (bits u.prod.tail - bits u.cons.head).toNat = q.items.length := by
    rw [hmatch.items_length]
    exact toNat_bits_sub horder (by omega)
  apply List.ext_getElem?
  intro k
  show (List.map _ (List.range (bits u.prod.tail - bits u.cons.head).toNat))[k]? = _
  rw [hcount, List.getElem?_map]
  by_cases hk : k < q.items.length
  · have hk' := hmatch.items_length ▸ hk
    have hcell := hmatch.inv.cells (u.cons.head + k) (by omega) (by omega)
    rw [List.getElem?_range hk]
    show some (u.cells (conf.index (bits u.cons.head + BitVec.ofNat 32 k))) = (q.log.drop q.out)[k]?
    have hindex : conf.index (bits u.cons.head + BitVec.ofNat 32 k)
        = (u.cons.head + k) % conf.size := by
      rw [← conf.index_eq, ← Counter.bits_advance]
      rfl
    rw [hindex, List.getElem?_drop, hmatch.out, hcell]
  · rw [List.getElem?_eq_none (by rw [List.length_range]; omega),
      List.getElem?_eq_none (by omega), Option.map_none]

/-- Every state that is reached implements the queue that is reached. -/
theorem implements_run {cells : Nat → α} {es : List (RingEvent ι α)}
    {s : RingState ι (BitVec 32) α}
    (h : Run (RingState.timelyStep conf) (RingState.init 0 cells) es s) :
    ∃ q, Run (BulkQueue.step conf.capacity) BulkQueue.init (es.flatMap RingEvent.spec) q ∧
      Implements conf s q :=
  h.simulate (fun _ _ _ _ h hs => implements_step h hs) (implements_init conf cells)

/-- The events `es` have led the ring to `s` as they lead the queue to a queue with the same
    elements. -/
def BehavesAsQueue (conf : RingConf) (es : List (RingEvent ι α))
    (s : RingState ι (BitVec 32) α) : Prop :=
  ∃ q, Run (BulkQueue.step conf.capacity) BulkQueue.init (es.flatMap RingEvent.spec) q ∧
    Law conf.capacity (es.flatMap RingEvent.spec) q ∧ s.contents conf = q.items

/-- **The ring is a queue**: every run of the program on the ring, over any interleaving of its
    threads in which none falls behind, is a run of the bounded first-in, first-out queue; so the
    law of a queue holds of it, and what is in the ring is what is in the queue.  An enqueue that is
    turned away is a `refuse` of the queue, which needs that there is no room for it next to what
    is in the queue and what the others have on the way. -/
theorem ring_is_queue {cells : Nat → α} {es : List (RingEvent ι α)}
    {s : RingState ι (BitVec 32) α}
    (h : Run (RingState.timelyStep conf) (RingState.init 0 cells) es s) :
    BehavesAsQueue conf es s := by
  obtain ⟨q, hrun, himpl⟩ := implements_run h
  exact ⟨q, hrun, run_law hrun, himpl.contents_eq⟩

end Runs

/-- A ring of four cells, one of which stays free. -/
def fourCells : RingConf := ⟨4, 3, ⟨2, rfl⟩, by decide, by decide, by decide⟩

/-- Two producers load the same head; the first moves it, the second has to try again, copies
    first and waits for the first. -/
def race : List (RingEvent (Fin 2) Nat) :=
  List.flatten
    [[.call 0 (.enqueue [7, 8] .queueFixed), .call 1 (.enqueue [9] .queueFixed), .act 0 .access,
        .act 1 .access, .act 0 .access, .act 1 .access, .act 0 .access],
      List.replicate 6 (.act 1 .access), [.act 1 .spin], List.replicate 4 (.act 0 .access),
      [.act 0 (.publish [7, 8]), .act 0 (.enqueued 2 1), .act 1 .access, .act 1 (.publish [9]),
        .act 1 (.enqueued 1 0)]]

/-- Two objects are taken and not yet copied out when one more is to be enqueued. -/
def crowded : List (RingEvent (Fin 2) Nat) :=
  List.append race
    [.call 0 (.dequeue 2 .queueFixed), .act 0 .access, .act 0 .access, .act 0 (.take 2),
      .call 1 (.enqueue [4] .queueFixed), .act 1 .access]

/-- The ring before `race`. -/
def noCells : RingState (Fin 2) (BitVec 32) Nat := RingState.init 0 fun _ => 0

/-- `race` is a run, -/
theorem race_runs : (exec (RingState.timelyStep fourCells) noCells race).isSome = true := by
  decide +kernel

/-- and so is `crowded`. -/
theorem crowded_runs : (exec (RingState.timelyStep fourCells) noCells crowded).isSome = true := by
  decide +kernel

/-- The queue after `crowded` is [9]. -/
theorem ring_is_queue_crowded : ∃ s, BehavesAsQueue fourCells crowded s :=
  ⟨_, ring_is_queue (run_of_exec_isSome crowded_runs)⟩

section Refusal

variable [DecidableEq ι] [DecidableEq α] [Fintype ι] {conf : RingConf}

/-- What an enqueue that is turned away had wanted: all it came with, or one object. -/
def Behavior.wanted : Behavior → List α → Nat
  | .queueFixed, objs => objs.length
  | .queueVariable, _ => 1

/-- **An enqueue is turned away only when there is no room**: as long as no thread has fallen
    behind, it brings nothing, or the cells that are taken, from the consumers' tail to the
    producers' head, and those it needs are more than the ring has. -/
theorem full_is_full {cells : Nat → α} {es : List (RingEvent ι α)}
    {s s' : RingState ι (BitVec 32) α} {t : ι}
    (h : Run (RingState.timelyStep conf) (RingState.init 0 cells) es s)
    (hs : RingState.timelyStep conf s (.act t .full) = some s') :
    ∃ objs b oldHead, s.thread t = .enqTail objs b oldHead ∧
      (objs = [] ∨ conf.capacity < (s.prod.head - s.cons.tail).toNat + b.wanted objs) := by
  -- the question is about the unbounded ring `u`, whose indices are those shown
  obtain ⟨q, -, u, rfl, hmatch, hwithin⟩ := implements_run h
  obtain ⟨hlag, u', -, -, hu', -⟩ := hmatch.lift hwithin hs
  have hinv := hmatch.inv
  obtain ⟨hconss, horder, hprods, hroom, hcap, hsize⟩ := hinv.window
  cases RingState.step_inv hu' with
  | @enqRefuse _ objs b oldHead free ht hfree hn =>
    have hle : oldHead ≤ u.prod.head := hinv.known ht
    have hbehind : u.prod.head - oldHead < 2147483648 := hlag.known ht
    have htaken : (bits u.prod.head - bits u.cons.tail).toNat = u.prod.head - u.cons.tail :=
      toNat_bits_sub (by omega) (by omega)
    have hzero := toMove_eq_zero hn
    rw [hfree, free_eq hinv hle hbehind] at hzero
    refine ⟨objs, b, bits oldHead, congrArg RingThread.erase ht, ?_⟩
    show objs = [] ∨ conf.capacity < (bits u.prod.head - bits u.cons.tail).toNat + b.wanted objs
    rw [htaken]
    -- it has found no free cell, or fewer than it wants all together
    rcases hzero with hnil | hnone | ⟨rfl, hfew⟩
    · exact Or.inl (List.eq_nil_of_length_eq_zero hnil)
    · cases objs with
      | nil => exact Or.inl rfl
      | cons x xs =>
        have hone : 1 ≤ b.wanted (x :: xs) := by
          cases b with
          | queueFixed => exact Nat.succ_le_succ (Nat.zero_le _)
          | queueVariable => exact Nat.le_refl 1
        exact Or.inr (by omega)
    · have hall : Behavior.queueFixed.wanted objs = objs.length := rfl
      exact Or.inr (by omega)

/-- Indices with the same 32 bits are the same, if one has not fallen behind the other. -/
theorem eq_of_bits_eq_of_lag {head oldHead : Nat} (hle : oldHead ≤ head)
    (hlag : head - oldHead < 4294967296) (hbits : bits head = bits oldHead) :
    oldHead = head := by
  have hzero := toNat_bits_sub hle hlag
  rw [hbits, BitVec.sub_self] at hzero
  have hzero' : 0 = head - oldHead := hzero
  omega

/-- **Room that is not there is never used**: the room that a producer computes, and the objects
    that a consumer counts, can be more than the ring has cells for, when the head is an old one;
    but then the compare-and-set does not succeed, as long as no thread has fallen behind.  (It
    would, if it were put off until the head has moved by 2^32 and has its old bits again.) -/
theorem excess_not_used {cells : Nat → α} {es : List (RingEvent ι α)}
    {s : RingState ι (BitVec 32) α}
    (h : Run (RingState.timelyStep conf) (RingState.init 0 cells) es s) (t : ι) :
    (∀ objs b oldHead n free, s.thread t = .enqCas objs b oldHead n free →
      conf.capacity < free.toNat → s.prod.head ≠ oldHead) ∧
    (∀ max b oldHead n entries, s.thread t = .deqCas max b oldHead n entries →
      conf.capacity < entries.toNat → s.cons.head ≠ oldHead) := by
  obtain ⟨q, -, u, rfl, hmatch, hwithin⟩ := implements_run h
  have hinv := hmatch.inv
  constructor
  · intro objs b oldHead n free ht hexcess heq
    have hthread : (u.thread t).erase = .enqCas objs b oldHead n free := ht
    cases hu : u.thread t with
    | enqCas objs' b' oldHead' n' free' =>
      rw [hu] at hthread
      cases hthread
      -- a head with the bits that were loaded is the head that was loaded, and then the count
      -- was exact
      obtain ⟨hle, -, hcurrent⟩ := hinv.known hu
      have hsame := eq_of_bits_eq_of_lag hle (hwithin.known hu) heq
      have hfits := (hcurrent hsame).2
      omega
    | _ =>
      rw [hu] at hthread
      cases hthread
  · intro max b oldHead n entries ht hexcess heq
    have hthread : (u.thread t).erase = .deqCas max b oldHead n entries := ht
    cases hu : u.thread t with
    | deqCas max' b' oldHead' n' entries' =>
      rw [hu] at hthread
      cases hthread
      obtain ⟨hle, -, hcurrent⟩ := hinv.known hu
      have hsame := eq_of_bits_eq_of_lag hle (hwithin.known hu) heq
      have hfits := (hcurrent hsame).2
      omega
    | _ =>
      rw [hu] at hthread
      cases hthread

end Refusal

/-- The ring after `crowded` turns the enqueue away: one object is in the queue, but the cells of
    the two that are being copied out are still taken. -/
theorem full_is_full_crowded : ∃ s : RingState (Fin 2) (BitVec 32) Nat,
    ∃ objs b oldHead, s.thread 1 = .enqTail objs b oldHead ∧
      (objs = [] ∨ fourCells.capacity < (s.prod.head - s.cons.tail).toNat + b.wanted objs) := by
  have hfull : (RingState.timelyStep fourCells
      ((exec (RingState.timelyStep fourCells) noCells crowded).get crowded_runs)
      (.act 1 .full)).isSome = true := by
    decide +kernel
  exact ⟨_, full_is_full (run_of_exec_isSome crowded_runs) (Option.some_get hfull).symm⟩

/-- Between a producer's two loads an object is put in and taken out. -/
def overtaken : List (RingEvent (Fin 2) Nat) :=
  List.flatten
    [[.call 0 (.enqueue [9] .queueFixed), .act 0 .access, .call 1 (.enqueue [7] .queueFixed)],
      List.replicate 6 (.act 1 .access), [.act 1 (.publish [7]), .act 1 (.enqueued 1 2),
        .call 1 (.dequeue 1 .queueFixed), .act 1 .access, .act 1 .access, .act 1 (.take 1)],
      List.replicate 4 (.act 1 .access), [.act 1 (.dequeued [7] 0), .act 0 .access]]

/-- The producer has computed room for four objects in a ring for three. -/
theorem excess_not_used_overtaken : ∃ s : RingState (Fin 2) (BitVec 32) Nat,
    s.thread 0 = .enqCas [9] .queueFixed 0 1 4 ∧ s.prod.head ≠ 0 := by
  have hrun : (exec (RingState.timelyStep fourCells) noCells overtaken).isSome = true := by
    decide +kernel
  have hthread : ((exec (RingState.timelyStep fourCells) noCells overtaken).get
      (by decide +kernel)).thread 0 = .enqCas [9] .queueFixed 0 1 4 := by
    decide +kernel
  exact ⟨_, hthread, (excess_not_used (run_of_exec_isSome hrun) 0).1 [9] .queueFixed 0 1 4 hthread
    (by decide)⟩

end PacketSend
