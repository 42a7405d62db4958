/-
  A pool never turns an object away.

  A mempool gives a whole cache back at once and does not look at the answer:

      rte_mempool_ops_enqueue_bulk(mp, cache->objs, cache->len);
      cache->len = 0;

  If the ring behind it were full, the objects would be lost.  The ring has room for all objects
  of the pool, but what an enqueue counts as taken is more than what is in the queue: cells whose
  objects have been taken out stay taken until their consumer, and all consumers before it, have
  stored the tail (`full_is_full_crowded`).

  `pool_never_full`: as long as threads put in no more objects than have been handed to them (the
  `capacity` objects of the new pool, and what dequeues have returned), every enqueue puts in all
  it has, in every interleaving.  The reason is a ledger: an object is in a taken cell, in the
  hands of a thread that has called and not returned, or in those of the callers, and the cells of
  a consumer are released in the step in which its objects come into its hands.
-/
import PacketSend.RingProgress
import Mathlib.Data.List.Infix

namespace PacketSend

open Runs Counter Ranking Tickets BulkQueue

variable {ι α : Type}

/-! ## The ledger -/

/-- The objects a call brings to the ring. -/
def RingEvent.given : RingEvent ι α → Nat
  | .call _ (.enqueue objs _) => objs.length
  | _ => 0

/-- The objects a return takes from the ring. -/
def RingEvent.returned : RingEvent ι α → Nat
  | .act _ (.dequeued objs _) => objs.length
  | _ => 0

/-- The pool enqueues in bulk: all or nothing. -/
def RingEvent.bulk : RingEvent ι α → Bool
  | .call _ (.enqueue _ .queueVariable) => false
  | _ => true

/-- Callers put in no more objects than they have: those of a new pool of `conf.capacity`, and
    those that have been returned to them. -/
structure Honest (conf : RingConf) (es : List (RingEvent ι α)) : Prop where
  bulk : ∀ e ∈ es, RingEvent.bulk e = true
  paid : ∀ fs, fs <+: es →
    tally RingEvent.given fs ≤ conf.capacity + tally RingEvent.returned fs

theorem Honest.init {conf : RingConf} {es : List (RingEvent ι α)} {e : RingEvent ι α}
    (h : Honest conf (es ++ [e])) : Honest conf es :=
  ⟨fun e' he' => h.bulk e' (List.mem_append_left _ he'),
    fun fs hfs => h.paid fs (hfs.trans (List.prefix_append es [e]))⟩

/-- The objects a thread has brought and not yet reserved cells for, or has got out of cells that
    are released. -/
def RingThread.inHand : RingThread Nat α → Nat
  | .enqHead objs _ => objs.length
  | .enqTail objs _ _ => objs.length
  | .enqCas objs _ _ _ _ => objs.length
  | .enqCopy objs _ _ n _ _ => objs.length - n
  | .enqWait objs _ _ n _ => objs.length - n
  | .enqStore objs _ _ n _ => objs.length - n
  | .enqEnd objs _ n _ => objs.length - n
  | .deqEnd _ _ _ got => got.length
  | _ => 0

/-- An enqueue that is all or nothing, and so far is all. -/
def RingThread.Whole : RingThread Nat α → Prop
  | .enqHead _ b => b = .queueFixed
  | .enqTail _ b _ => b = .queueFixed
  | .enqCas _ b _ _ _ => b = .queueFixed
  | .enqCopy objs _ _ n _ _ => n = objs.length
  | .enqWait objs _ _ n _ => n = objs.length
  | .enqStore objs _ _ n _ => n = objs.length
  | .enqEnd objs _ n _ => n = objs.length
  | _ => True

section Ledger

variable [Fintype ι]

/-- What has been given to the ring is in taken cells, in the hands of threads, or returned; and
    no enqueue has been turned away. -/
structure Ledger (es : List (RingEvent ι α)) (s : RingState ι Nat α) : Prop where
  balance : s.prod.head + (∑ t, (s.thread t).inHand) + tally RingEvent.returned es
    = s.cons.tail + tally RingEvent.given es
  whole : ∀ t, (s.thread t).Whole

/-- There is room for what an honest caller brings. -/
theorem Ledger.room {conf : RingConf} {es : List (RingEvent ι α)} {s : RingState ι Nat α}
    (h : Ledger es s) (hhonest : Honest conf es) {t : ι} {th : RingThread Nat α}
    (ht : s.thread t = th) : s.prod.head + th.inHand ≤ s.cons.tail + conf.capacity := by
  have hsum : (s.thread t).inHand ≤ ∑ w, (s.thread w).inHand :=
    Finset.single_le_sum (f := fun w => (s.thread w).inHand) (fun _ _ => Nat.zero_le _)
      (Finset.mem_univ t)
  have hpaid := hhonest.paid es (List.prefix_refl es)
  have hbalance := h.balance
  rw [ht] at hsum
  omega

variable [DecidableEq ι]

/-- A step of thread `t` that balances. -/
theorem Ledger.goto {es : List (RingEvent ι α)} {e : RingEvent ι α} {s u : RingState ι Nat α}
    (h : Ledger es s) (hthread : u.thread = s.thread) {t : ι} {th th' : RingThread Nat α}
    (ht : s.thread t = th)
    (hbalance : s.cons.tail + u.prod.head + th'.inHand + e.returned
      = u.cons.tail + s.prod.head + th.inHand + e.given) (hwhole : th.Whole → th'.Whole) :
    Ledger (es ++ [e]) (u.goto t th') := by
  have hsum := sum_update RingThread.inHand s.thread t th'
  have hbefore := h.balance
  have hth := h.whole t
  rw [ht] at hsum hth
  constructor
  · show u.prod.head + (∑ w, (Function.update u.thread t th' w).inHand)
        + tally RingEvent.returned (es ++ [e]) = u.cons.tail + tally RingEvent.given (es ++ [e])
    rw [hthread, tally_snoc, tally_snoc]
    omega
  · intro w
    show (Function.update u.thread t th' w).Whole
    rw [hthread]
    exact RingInv.forall_update (P := fun _ th => th.Whole) (hwhole hth) (fun w _ => h.whole w) w

end Ledger

/-! ## Every run -/

section Step

variable [Fintype ι] [DecidableEq ι] [DecidableEq α] {conf : RingConf}

/-- **The step lemma**: the ledger stays balanced, and no enqueue is turned away. -/
theorem Ledger.step {es : List (RingEvent ι α)} {e : RingEvent ι α} {s s' : RingState ι Nat α}
    {log : List α} (h : Ledger es s) (hinv : RingInv conf s log) (hlag : s.Within 2147483648)
    (hhonest : Honest conf (es ++ [e])) (hs : s.step conf e = some s') : Ledger (es ++ [e]) s' := by
  have hspin : RingEvent.returned e = 0 → RingEvent.given e = 0 → Ledger (es ++ [e]) s := by
    intro hreturned hgiven
    refine ⟨?_, h.whole⟩
    rw [tally_snoc, tally_snoc, hreturned, hgiven]
    exact h.balance
  cases RingState.step_inv hs with
  | @call t op ht hfits =>
    cases op with
    | enqueue objs b =>
      have hbulk := hhonest.bulk (.call t (.enqueue objs b))
        (List.mem_append_right _ (List.mem_singleton.mpr rfl))
      refine h.goto rfl ht ?_ fun _ => ?_
      · show s.cons.tail + s.prod.head + objs.length + 0
          = s.cons.tail + s.prod.head + 0 + objs.length
        omega
      · cases b with
        | queueFixed => rfl
        | queueVariable => cases hbulk
    | dequeue max b => exact h.goto rfl ht rfl fun _ => trivial
  | enqHead ht => exact h.goto rfl ht rfl fun hb => hb
  | @enqRefuse t objs b oldHead free ht hfree hn =>
    -- the room is there, so the enqueue is turned away because it brings nothing
    have hroom : s.prod.head + objs.length ≤ s.cons.tail + conf.capacity :=
      h.room hhonest.init ht
    have hle : oldHead ≤ s.prod.head := hinv.known ht
    have hexact := free_eq hinv hle (hlag.known ht)
    rw [← hfree] at hexact
    have hnone : 0 = objs.length := by
      rcases toMove_eq_zero hn with hnil | hfull | ⟨-, hfew⟩ <;> omega
    exact h.goto rfl ht rfl fun _ => hnone
  | enqTail ht hfree hn => exact h.goto rfl ht rfl fun hb => hb
  | @enqCas t objs b oldHead n free ht hcas =>
    obtain ⟨-, hmoves, -⟩ := hinv.known ht
    have hle := hmoves.le
    refine h.goto (u := { s with prod := ⟨s.prod.head + n, s.prod.tail⟩ }) rfl ht ?_ hmoves.fixed
    show s.cons.tail + (s.prod.head + n) + (objs.length - n) + 0
      = s.cons.tail + s.prod.head + objs.length + 0
    omega
  | enqRetry ht hcas => exact h.goto rfl ht rfl fun hb => hb
  | @enqCopy t objs b oldHead n free i idx j x ht hat hx =>
    exact h.goto (u := { s with cells := Function.update s.cells idx x }) rfl ht rfl fun hn => hn
  | enqCopied ht hat => exact h.goto rfl ht rfl fun hn => hn
  | enqTurn ht htail => exact h.goto rfl ht rfl fun hn => hn
  | enqSpin ht => exact hspin rfl rfl
  | @enqStore t objs b oldHead n free ht =>
    exact h.goto (u := { s with prod := ⟨s.prod.head, oldHead + n⟩ }) rfl ht rfl fun hn => hn
  | @enqEnd t objs b n free ht =>
    have hall : (s.thread t).Whole := h.whole t
    rw [ht] at hall
    have hall' : n = objs.length := hall
    refine h.goto rfl ht ?_ fun _ => trivial
    show s.cons.tail + s.prod.head + 0 + 0 = s.cons.tail + s.prod.head + (objs.length - n) + 0
    omega
  | deqHead ht => exact h.goto rfl ht rfl fun _ => trivial
  | deqRefuse ht hentries hn => exact h.goto rfl ht rfl fun _ => trivial
  | deqTail ht hentries hn => exact h.goto rfl ht rfl fun _ => trivial
  | @deqCas t max b oldHead n entries ht hcas =>
    exact h.goto (u := { s with cons := ⟨s.cons.head + n, s.cons.tail⟩ }) rfl ht rfl
      fun _ => trivial
  | deqRetry ht hcas => exact h.goto rfl ht rfl fun _ => trivial
  | deqCopy ht hat => exact h.goto rfl ht rfl fun _ => trivial
  | deqCopied ht hat => exact h.goto rfl ht rfl fun _ => trivial
  | deqTurn ht htail => exact h.goto rfl ht rfl fun _ => trivial
  | deqSpin ht => exact hspin rfl rfl
  | @deqStore t max b oldHead n entries got ht =>
    -- the cells are released and the objects are in the hands of the consumer
    obtain ⟨hgot, rfl⟩ := hinv.known ht
    obtain ⟨-, hhi, -⟩ := hinv.cons_le (t := t) (r := ⟨s.cons.tail, n⟩) (by rw [ht]; rfl)
    have hhi' : s.cons.tail + n ≤ s.cons.head := hhi
    have horder := hinv.order
    have hpub := hinv.published
    have hlen : got.length = n := by
      rw [hgot, List.length_take, List.length_drop]
      omega
    refine h.goto (u := { s with cons := ⟨s.cons.head, s.cons.tail + n⟩ }) rfl ht ?_
      fun _ => trivial
    show s.cons.tail + s.prod.head + got.length + 0 = s.cons.tail + n + s.prod.head + 0 + 0
    omega
  | @deqEnd t max b entries got ht =>
    refine h.goto rfl ht ?_ fun _ => trivial
    show s.cons.tail + s.prod.head + 0 + got.length = s.cons.tail + s.prod.head + got.length + 0
    omega

/-- A run of honest callers, with indices that are not cut off. -/
def Kept (conf : RingConf) (es : List (RingEvent ι α)) (s : RingState ι (BitVec 32) α) : Prop :=
  ∃ (u : RingState ι Nat α) (q : Queue ι α), s = u.erase ∧ RingMatches conf u q ∧
    u.Within 4294967296 ∧ Ledger es u

theorem kept_run {cells : Nat → α} {es : List (RingEvent ι α)} {s : RingState ι (BitVec 32) α}
    (h : Run (RingState.timelyStep conf) (RingState.init 0 cells) es s) :
    Honest conf es → Kept conf es s := by
  refine h.history (P := fun es s => Honest conf es → Kept conf es s) (fun _ => ?_) ?_
  · refine ⟨RingState.init 0 cells, BulkQueue.init, rfl, ⟨RingInv.init conf cells, rfl, rfl⟩,
      fun _ => Nat.zero_lt_succ _, ?_, fun _ => trivial⟩
    have hnobody : (∑ _t : ι, 0) = 0 := Finset.sum_const_zero
    show 0 + (∑ _t : ι, 0) + 0 = 0 + 0
    omega
  · intro es s e s' ih hs hhonest
    obtain ⟨u, q, rfl, hmatch, hwithin, hledger⟩ := ih hhonest.init
    obtain ⟨hlag, u', q', hs', hu', -, hmatch', hwithin'⟩ := hmatch.lift hwithin hs
    exact ⟨u', q', hs', hmatch', hwithin', hledger.step hmatch.inv hlag hhonest hu'⟩

/-- **A pool never turns an object away**: in every run of honest callers in which no thread falls
    behind, an enqueue that is about to return has put in all it was given. -/
theorem pool_never_full {cells : Nat → α} {es : List (RingEvent ι α)}
    {s : RingState ι (BitVec 32) α}
    (h : Run (RingState.timelyStep conf) (RingState.init 0 cells) es s)
    (hhonest : Honest conf es) (t : ι) (objs : List α) (b : Behavior) (n : Nat)
    (free : BitVec 32) : s.thread t = .enqEnd objs b n free → n = objs.length := by
  intro ht
  obtain ⟨u, q, rfl, -, -, hledger⟩ := kept_run h hhonest
  have hend : u.thread t = .enqEnd objs b n free := erase_eq_enqEnd ht
  have hwhole := hledger.whole t
  rw [hend] at hwhole
  exact hwhole

end Step

/-- The callers of `race` bring three objects to a pool of three. -/
theorem pool_never_full_race : ∃ s, Run (RingState.timelyStep fourCells) noCells race s ∧
    ∀ t objs b n free, s.thread t = .enqEnd objs b n free → n = objs.length := by
  have hpaid : ∀ fs ∈ race.inits,
      tally RingEvent.given fs ≤ fourCells.capacity + tally RingEvent.returned fs := by
    decide +kernel
  exact ⟨_, run_of_exec_isSome race_runs, pool_never_full (run_of_exec_isSome race_runs)
    ⟨by decide +kernel, fun fs hfs => hpaid fs ((List.mem_inits _ _).mpr hfs)⟩⟩

end PacketSend
