/-
  The ring does not get stuck.

  An operation on the ring waits twice for other threads: its compare-and-set fails as long as
  others succeed, and the wait loop of the tail goes on until those who reserved before it have
  published.  Neither can go on for ever once no new operations are started:

  * every thread has a rank, and every step of it that is not a load of the wait loop lowers the
    sum of the ranks (`RingState.work_step`): a compare-and-set that succeeds may send every
    other thread back to its load of the head, but there is one less that can do so;
  * unless all threads are idle, one of them can make such a step (`RingInv.someone_moves`): the
    reservations tile the stretch between tail and head, so somebody's is the first of it.

  So the operations that have been started come to their end under every schedule that does not
  run wait loops only, after no more than `RingState.work` steps (`ring_finishes`).

  The difficulty is the rank of a thread before its compare-and-set, for which the code gives no
  bound of its own: it may be sent back any number of times.  Each time, though, some other thread
  has moved the head, and a thread moves a head once in an operation.  So the steps that a move
  costs the others, three for each (load the head, load the tail, try again), are put to the
  account of the one that moves: until then its rank has `N * 3` in store for them.  The
  three steps enter the rank of the others when the head they hold is no longer the head
  (`missed`), and a failing compare-and-set takes them out again.

  The bound needs no assumption about the 32-bit heads.  A head that has come round is, for the
  rank as for the compare-and-set, the head the thread has loaded: the compare-and-set succeeds.
  That somebody can go on is another matter, and rests on the invariant of the ring.
-/
import PacketSend.RingQueue
import PacketSend.Lib.Ranking

namespace PacketSend

open Runs Counter Ranking Tickets

/-! ## The ranks -/

section Rank

variable {ι C α : Type} [Counter C]

/-- What it costs a thread that the head has moved since it has loaded it: three steps. -/
def missed (head oldHead : C) : Nat := if bits head = bits oldHead then 0 else 3

/-- A head that has just been loaded is not missed. -/
theorem missed_self (head : C) : missed head head = 0 := if_pos rfl

/-- Three steps are all it can cost, however often the head has moved. -/
theorem missed_le (head oldHead : C) : missed head oldHead ≤ 3 := by
  unfold missed
  split
  · exact Nat.zero_le 3
  · exact Nat.le_refl 3

/-- The steps a thread has before it, among `N` threads, if no other thread moves the head it has
    loaded; with as many in store, before it has moved a head itself, as that costs the others. -/
def RingState.rank (s : RingState ι C α) (N : Nat) : RingThread C α → Nat
  | .idle => 0
  | .enqHead objs _ => N * 3 + objs.length + 7
  | .enqTail objs _ oldHead => N * 3 + objs.length + 6 + missed s.prod.head oldHead
  | .enqCas objs _ oldHead n _ =>
    N * 3 + objs.length + (n - objs.length) + 5 + missed s.prod.head oldHead
  | .enqCopy _ _ _ n _ i => n - i + 4
  | .enqWait _ _ _ _ _ => 3
  | .enqStore _ _ _ _ _ => 2
  | .enqEnd _ _ _ _ => 1
  | .deqHead max _ => N * 3 + max + 7
  | .deqTail max _ oldHead => N * 3 + max + 6 + missed s.cons.head oldHead
  | .deqCas max _ oldHead n _ => N * 3 + max + (n - max) + 5 + missed s.cons.head oldHead
  | .deqCopy _ _ _ n _ got => n - got.length + 4
  | .deqWait _ _ _ _ _ _ => 3
  | .deqStore _ _ _ _ _ _ => 2
  | .deqEnd _ _ _ _ => 1

/-- The rank of another thread goes up by three at most, whatever happens to the heads: a thread
    that holds no head, or is past its compare-and-set, is not touched at all. -/
theorem RingState.rank_le (s u : RingState ι C α) (N : Nat) (th : RingThread C α) :
    u.rank N th ≤ s.rank N th + 3 := by
  cases th with
  | enqTail objs b oldHead =>
    have hle := missed_le u.prod.head oldHead
    show N * 3 + objs.length + 6 + missed u.prod.head oldHead
      ≤ N * 3 + objs.length + 6 + missed s.prod.head oldHead + 3
    omega
  | enqCas objs b oldHead n free =>
    have hle := missed_le u.prod.head oldHead
    show N * 3 + objs.length + (n - objs.length) + 5 + missed u.prod.head oldHead
      ≤ N * 3 + objs.length + (n - objs.length) + 5 + missed s.prod.head oldHead + 3
    omega
  | deqTail max b oldHead =>
    have hle := missed_le u.cons.head oldHead
    show N * 3 + max + 6 + missed u.cons.head oldHead
      ≤ N * 3 + max + 6 + missed s.cons.head oldHead + 3
    omega
  | deqCas max b oldHead n entries =>
    have hle := missed_le u.cons.head oldHead
    show N * 3 + max + (n - max) + 5 + missed u.cons.head oldHead
      ≤ N * 3 + max + (n - max) + 5 + missed s.cons.head oldHead + 3
    omega
  | _ => exact Nat.le_add_right _ 3

/-- If the heads are as before, so is the rank. -/
theorem RingState.rank_eq {s u : RingState ι C α} (hprod : u.prod.head = s.prod.head)
    (hcons : u.cons.head = s.cons.head) (N : Nat) (th : RingThread C α) :
    u.rank N th = s.rank N th := by
  cases th <;> simp only [RingState.rank, hprod, hcons]

variable [Fintype ι]

/-- The sum of the ranks of all threads: a bound on the steps that are left. -/
def RingState.work (s : RingState ι C α) : Nat :=
  ∑ t, s.rank (Fintype.card ι) (s.thread t)

end Rank

/-! ## Every step is work -/

/-- A step of a thread that is not a load of its wait loop. -/
def RingEvent.moves {ι α : Type} : RingEvent ι α → Bool
  | .call _ _ => false
  | .act _ .spin => false
  | .act _ _ => true

/-- A step, not a call. -/
def RingEvent.isAct {ι α : Type} : RingEvent ι α → Bool
  | .call _ _ => false
  | .act _ _ => true

section Work

variable {ι C α : Type} [Counter C] [Fintype ι] [DecidableEq ι]

/-- A thread that leaves the heads alone and comes nearer to its end.  The ranks of the others are
    what they were. -/
theorem RingState.work_goto {s u : RingState ι C α} (hthread : u.thread = s.thread)
    (hprod : u.prod.head = s.prod.head) (hcons : u.cons.head = s.cons.head) {t : ι}
    {th th' : RingThread C α} (ht : s.thread t = th)
    (hlt : s.rank (Fintype.card ι) th' < s.rank (Fintype.card ι) th) :
    1 + (u.goto t th').work ≤ s.work := by
  rw [Nat.add_comm]
  refine sum_rank_le t (d := 0) (fun w hw => ?_) ?_
  · show (u.goto t th').rank _ (Function.update u.thread t th' w) ≤ s.rank _ (s.thread w) + 0
    rw [Function.update_of_ne hw, hthread]
    exact Nat.le_of_eq (RingState.rank_eq (s := s) (u := u.goto t th') hprod hcons _ _)
  · show (u.goto t th').rank _ (Function.update u.thread t th' t) + _ * 0 + 1
      ≤ s.rank _ (s.thread t)
    rw [Function.update_self, ht, RingState.rank_eq (s := s) (u := u.goto t th') hprod hcons]
    exact hlt

/-- A thread that moves a head pays for all others: the sum may gain three for each of them, and
    loses as much at the thread itself. -/
theorem RingState.work_cas {s u : RingState ι C α} (hthread : u.thread = s.thread) {t : ι}
    {th th' : RingThread C α} (ht : s.thread t = th)
    (hlt : (u.goto t th').rank (Fintype.card ι) th' + Fintype.card ι * 3 + 1
      ≤ s.rank (Fintype.card ι) th) :
    1 + (u.goto t th').work ≤ s.work := by
  rw [Nat.add_comm]
  refine sum_rank_le t (d := 3) (fun w hw => ?_) ?_
  · show (u.goto t th').rank _ (Function.update u.thread t th' w) ≤ s.rank _ (s.thread w) + 3
    rw [Function.update_of_ne hw, hthread]
    exact RingState.rank_le s (u.goto t th') _ _
  · show (u.goto t th').rank _ (Function.update u.thread t th' t) + _ + 1 ≤ s.rank _ (s.thread t)
    rw [Function.update_self, ht]
    exact hlt

variable [DecidableEq α]

/-- **Every step that is not a load of a wait loop is work done**, and none makes work.  One case
    for each step: the rank before it and after it are written out, the rest is arithmetic. -/
theorem RingState.work_step {conf : RingConf} {s s' : RingState ι C α} {e : RingEvent ι α}
    (hact : e.isAct = true) (hs : s.step conf e = some s') :
    (if e.moves = true then 1 else 0) + s'.work ≤ s.work := by
  -- what remains to be shown of a step that moves
  have hmoves : ∀ {k : Nat}, 1 + k ≤ s.work → (if true = true then 1 else 0) + k ≤ s.work :=
    fun h => h
  cases RingState.step_inv hs with
  | call => cases hact
  | enqSpin ht => exact Nat.le_of_eq (Nat.zero_add _)
  | deqSpin ht => exact Nat.le_of_eq (Nat.zero_add _)
  | @enqHead t objs b ht =>
    refine hmoves (RingState.work_goto rfl rfl rfl ht ?_)
    show Fintype.card ι * 3 + objs.length + 6 + missed s.prod.head s.prod.head
      < Fintype.card ι * 3 + objs.length + 7
    rw [missed_self]
    omega
  | @enqRefuse t objs b oldHead free ht hfree hn =>
    refine hmoves (RingState.work_goto rfl rfl rfl ht ?_)
    show 1 < Fintype.card ι * 3 + objs.length + 6 + missed s.prod.head oldHead
    omega
  | @enqTail t objs b oldHead free ht hfree hn =>
    -- no more is reserved than was asked for, so `n - objs.length` is 0 here
    have hle := (toMove_le b objs.length free).1
    refine hmoves (RingState.work_goto rfl rfl rfl ht ?_)
    show Fintype.card ι * 3 + objs.length + (_ - objs.length) + 5 + missed s.prod.head oldHead
      < Fintype.card ι * 3 + objs.length + 6 + missed s.prod.head oldHead
    omega
  | @enqCas t objs b oldHead n free ht hcas =>
    refine hmoves (RingState.work_cas (s := s)
      (u := { s with prod := ⟨advance s.prod.head n, s.prod.tail⟩ }) rfl ht ?_)
    show n - 0 + 4 + Fintype.card ι * 3 + 1
      ≤ Fintype.card ι * 3 + objs.length + (n - objs.length) + 5 + missed s.prod.head oldHead
    omega
  | @enqRetry t objs b oldHead n free ht hcas =>
    -- back to the load of the head, for the three steps that `missed` has in store
    refine hmoves (RingState.work_goto rfl rfl rfl ht ?_)
    have hmissed : missed s.prod.head oldHead = 3 := if_neg hcas
    show Fintype.card ι * 3 + objs.length + 7
      < Fintype.card ι * 3 + objs.length + (n - objs.length) + 5 + missed s.prod.head oldHead
    omega
  | @enqCopy t objs b oldHead n free i idx j x ht hat hx =>
    refine hmoves (RingState.work_goto rfl rfl rfl ht ?_)
    -- there is a cell left to copy
    have hi := (List.getElem?_eq_some_iff.mp hat).1
    rw [copyElems64, length_copyElems] at hi
    show n - (i + 1) + 4 < n - i + 4
    omega
  | @enqCopied t objs b oldHead n free i ht hat =>
    refine hmoves (RingState.work_goto rfl rfl rfl ht ?_)
    show 3 < n - i + 4
    omega
  | enqTurn ht => exact hmoves (RingState.work_goto rfl rfl rfl ht (Nat.lt_succ_self 2))
  | enqStore ht => exact hmoves (RingState.work_goto rfl rfl rfl ht (Nat.lt_succ_self 1))
  | enqEnd ht => exact hmoves (RingState.work_goto rfl rfl rfl ht (Nat.lt_succ_self 0))
  | @deqHead t max b ht =>
    refine hmoves (RingState.work_goto rfl rfl rfl ht ?_)
    show Fintype.card ι * 3 + max + 6 + missed s.cons.head s.cons.head
      < Fintype.card ι * 3 + max + 7
    rw [missed_self]
    omega
  | @deqRefuse t max b oldHead entries ht hentries hn =>
    refine hmoves (RingState.work_goto rfl rfl rfl ht ?_)
    show 1 < Fintype.card ι * 3 + max + 6 + missed s.cons.head oldHead
    omega
  | @deqTail t max b oldHead entries ht hentries hn =>
    have hle := (toMove_le b max entries).1
    refine hmoves (RingState.work_goto rfl rfl rfl ht ?_)
    show Fintype.card ι * 3 + max + (_ - max) + 5 + missed s.cons.head oldHead
      < Fintype.card ι * 3 + max + 6 + missed s.cons.head oldHead
    omega
  | @deqCas t max b oldHead n entries ht hcas =>
    refine hmoves (RingState.work_cas (s := s)
      (u := { s with cons := ⟨advance s.cons.head n, s.cons.tail⟩ }) rfl ht ?_)
    show n - 0 + 4 + Fintype.card ι * 3 + 1
      ≤ Fintype.card ι * 3 + max + (n - max) + 5 + missed s.cons.head oldHead
    omega
  | @deqRetry t max b oldHead n entries ht hcas =>
    refine hmoves (RingState.work_goto rfl rfl rfl ht ?_)
    have hmissed : missed s.cons.head oldHead = 3 := if_neg hcas
    show Fintype.card ι * 3 + max + 7
      < Fintype.card ι * 3 + max + (n - max) + 5 + missed s.cons.head oldHead
    omega
  | @deqCopy t max b oldHead n entries got idx j ht hat =>
    refine hmoves (RingState.work_goto rfl rfl rfl ht ?_)
    have hi := (List.getElem?_eq_some_iff.mp hat).1
    rw [copyElems64, length_copyElems] at hi
    show n - (got ++ [s.cells idx]).length + 4 < n - got.length + 4
    rw [List.length_append, List.length_singleton]
    omega
  | @deqCopied t max b oldHead n entries got ht hat =>
    refine hmoves (RingState.work_goto rfl rfl rfl ht ?_)
    show 3 < n - got.length + 4
    omega
  | deqTurn ht => exact hmoves (RingState.work_goto rfl rfl rfl ht (Nat.lt_succ_self 2))
  | deqStore ht => exact hmoves (RingState.work_goto rfl rfl rfl ht (Nat.lt_succ_self 1))
  | deqEnd ht => exact hmoves (RingState.work_goto rfl rfl rfl ht (Nat.lt_succ_self 0))

end Work

/-! ## Somebody can go on -/

section Move

variable {ι α : Type} {conf : RingConf} {s : RingState ι Nat α} {log : List α}

/-- A thread reserves at one side only. -/
theorem consTicket_of_prodTicket {th : RingThread Nat α} {r : Stretch}
    (h : th.prodTicket = some r) : th.consTicket = none := by
  cases th with
  | enqCopy => rfl
  | enqWait => rfl
  | enqStore => rfl
  | _ => cases h

/-- The other way round. -/
theorem prodTicket_of_consTicket {th : RingThread Nat α} {r : Stretch}
    (h : th.consTicket = some r) : th.prodTicket = none := by
  cases th with
  | deqCopy => rfl
  | deqWait => rfl
  | deqStore => rfl
  | _ => cases h

variable [DecidableEq ι] [DecidableEq α]

omit [DecidableEq α] in
/-- A thread whose reservation, if it has one, is the first can go on.  Two places matter: the wait
    loop, which it leaves as its turn has come, and the copy, which has to find the objects it is
    about to write.  Everywhere else there is a next step whatever the state. -/
theorem RingInv.next_moves (h : RingInv conf s log) {t : ι} (hbusy : s.thread t ≠ .idle)
    (hprod : ∀ r, (s.thread t).prodTicket = some r → s.prod.tail = r.start)
    (hcons : ∀ r, (s.thread t).consTicket = some r → s.cons.tail = r.start) :
    ∃ a s', a ≠ RingAction.spin ∧ s.next conf t = some (a, s') := by
  have haccess : (RingAction.access : RingAction α) ≠ .spin := nofun
  unfold RingState.next
  cases ht : s.thread t with
  | idle => exact absurd ht hbusy
  | enqHead objs b => exact ⟨_, _, haccess, rfl⟩
  | enqTail objs b oldHead =>
    simp only
    split
    · exact ⟨.full, _, nofun, rfl⟩
    · exact ⟨_, _, haccess, rfl⟩
  | enqCas objs b oldHead n free =>
    simp only
    split
    · exact ⟨_, _, haccess, rfl⟩
    · exact ⟨_, _, haccess, rfl⟩
  | enqCopy objs b oldHead n free i =>
    simp only
    split
    · exact ⟨_, _, haccess, rfl⟩
    · rename_i idx j hat
      -- the copy reads the objects it was given
      obtain ⟨hmoves, -⟩ := h.known ht
      obtain ⟨-, -, hn⟩ := h.prod_le (t := t) (r := ⟨oldHead, n⟩) (by rw [ht]; rfl)
      have hn' : n ≤ conf.size := Nat.le_trans hn (Nat.le_of_lt conf.capacity_lt)
      obtain ⟨hi, -, rfl⟩ := conf.copy_some hn' hat
      have hle := hmoves.le
      rw [List.getElem?_eq_getElem (by omega)]
      exact ⟨_, _, haccess, rfl⟩
  | enqWait objs b oldHead n free =>
    have hfirst : s.prod.tail = oldHead := hprod ⟨oldHead, n⟩ (by rw [ht]; rfl)
    simp only [hfirst, if_true]
    exact ⟨_, _, haccess, rfl⟩
  | enqStore objs b oldHead n free => exact ⟨.publish (objs.take n), _, nofun, rfl⟩
  | enqEnd objs b n free => exact ⟨.enqueued n (free - BitVec.ofNat 32 n), _, nofun, rfl⟩
  | deqHead max b => exact ⟨_, _, haccess, rfl⟩
  | deqTail max b oldHead =>
    simp only
    split
    · exact ⟨.empty, _, nofun, rfl⟩
    · exact ⟨_, _, haccess, rfl⟩
  | deqCas max b oldHead n entries =>
    simp only
    split
    · exact ⟨.take n, _, nofun, rfl⟩
    · exact ⟨_, _, haccess, rfl⟩
  | deqCopy max b oldHead n entries got =>
    simp only
    split
    · exact ⟨_, _, haccess, rfl⟩
    · exact ⟨_, _, haccess, rfl⟩
  | deqWait max b oldHead n entries got =>
    have hfirst : s.cons.tail = oldHead := hcons ⟨oldHead, n⟩ (by rw [ht]; rfl)
    simp only [hfirst, if_true]
    exact ⟨_, _, haccess, rfl⟩
  | deqStore max b oldHead n entries got => exact ⟨_, _, haccess, rfl⟩
  | deqEnd max b entries got =>
    exact ⟨.dequeued got (entries - BitVec.ofNat 32 got.length), _, nofun, rfl⟩

omit [DecidableEq α] in
/-- Unless all threads are idle, one of them can go on: a busy thread itself if it has reserved
    nothing, and otherwise the thread with the first reservation at the same side.  That there is
    one is the point: the reservations leave no gap between tail and head. -/
theorem RingInv.someone_moves (h : RingInv conf s log) {t : ι} (hbusy : s.thread t ≠ .idle) :
    ∃ w a s', a ≠ RingAction.spin ∧ s.next conf w = some (a, s') := by
  cases hp : (s.thread t).prodTicket with
  | some r =>
    -- somebody has the first stretch of those being written
    obtain ⟨hpos, hlo, hhi⟩ := h.prods.inside t r hp
    have hhi' : r.start + r.length ≤ s.prod.head := hhi
    obtain ⟨w, n, hw⟩ := h.prods.first (by omega)
    refine ⟨w, h.next_moves ?_ ?_ ?_⟩
    · intro hidle
      rw [hidle] at hw
      cases hw
    · intro r' hr'
      obtain rfl := Option.some.inj (hw.symm.trans hr')
      rfl
    · intro r' hr'
      rw [consTicket_of_prodTicket hw] at hr'
      cases hr'
  | none =>
    cases hc : (s.thread t).consTicket with
    | some r =>
      -- the same for the stretches being read
      obtain ⟨hpos, hlo, hhi⟩ := h.conss.inside t r hc
      have hhi' : r.start + r.length ≤ s.cons.head := hhi
      obtain ⟨w, n, hw⟩ := h.conss.first (by omega)
      refine ⟨w, h.next_moves ?_ ?_ ?_⟩
      · intro hidle
        rw [hidle] at hw
        cases hw
      · intro r' hr'
        rw [prodTicket_of_consTicket hw] at hr'
        cases hr'
      · intro r' hr'
        obtain rfl := Option.some.inj (hw.symm.trans hr')
        rfl
    | none =>
      -- nothing reserved, nobody to wait for
      refine ⟨t, h.next_moves hbusy ?_ ?_⟩
      · intro r hr
        rw [hp] at hr
        cases hr
      · intro r hr
        rw [hc] at hr
        cases hr

variable [Fintype ι]

/-- **The operations on the ring come to their end**: in a run in which no new ones are started
    and no thread falls behind there are no more than `work` steps that are not loads of a wait
    loop, and at any time all threads are idle or one of them can make such a step. -/
theorem ring_finishes {cells : Nat → α} {es fs : List (RingEvent ι α)}
    {s s' : RingState ι (BitVec 32) α}
    (h : Run (RingState.timelyStep conf) (RingState.init 0 cells) es s)
    (h' : Run (RingState.timelyStep conf) s fs s')
    (hacts : ∀ e ∈ fs, RingEvent.isAct e = true) :
    fs.countP RingEvent.moves ≤ s.work ∧ ((∀ t, s'.thread t = .idle) ∨
      ∃ t a s'', a ≠ RingAction.spin ∧ s'.step conf (.act t a) = some s'') := by
  constructor
  · have hwork := h'.of_restrict.countP_add_le (p := RingEvent.moves)
      (fun _ _ _ hact hs => RingState.work_step hact hs) hacts
    exact Nat.le_trans (Nat.le_add_right _ _) hwork
  · -- the invariant is one of the unbounded ring `u`, and its steps are those of the 32-bit ring
    obtain ⟨q, -, u, rfl, hmatch, -⟩ := implements_run (h.trans h')
    by_cases hidle : ∀ t, u.thread t = .idle
    · refine Or.inl fun t => ?_
      show (u.thread t).erase = .idle
      rw [hidle]
      rfl
    · obtain ⟨t, ht⟩ := Classical.not_forall.mp hidle
      obtain ⟨w, a, u', hspin, hnext⟩ := hmatch.inv.someone_moves ht
      refine Or.inr ⟨w, a, u'.erase, hspin, ?_⟩
      rw [RingState.erase_step, RingState.step, hnext]
      exact congrArg (Option.map RingState.erase) (if_pos rfl)

end Move

/-- The two enqueues of `race`, from their calls to their returns. -/
theorem ring_finishes_race : ∃ s s' : RingState (Fin 2) (BitVec 32) Nat,
    (race.drop 2).countP RingEvent.moves ≤ s.work ∧ ((∀ t, s'.thread t = .idle) ∨
      ∃ t a s'', a ≠ RingAction.spin ∧ s'.step fourCells (.act t a) = some s'') :=
  ⟨_, _, ring_finishes
    (run_of_exec_isSome (show (exec (RingState.timelyStep fourCells)
      noCells (race.take 2)).isSome = true by decide +kernel))
    (run_of_exec_isSome (show (exec (RingState.timelyStep fourCells)
      ((exec (RingState.timelyStep fourCells) noCells (race.take 2)).get (by decide +kernel))
      (race.drop 2)).isSome = true by decide +kernel))
    (by decide +kernel)⟩

end PacketSend
