/-
  `rte_ring`, the store behind an mbuf pool.

  The default ops of a mempool keep its objects in an `rte_ring` used by many producers and many
  consumers (`RTE_MBUF_DEFAULT_MEMPOOL_OPS` is "ring_mp_mc").  The ring is an array of `size`
  cells, a power of two, with a head and a tail index on either side; the indices run freely
  modulo 2^32 and are masked when a cell is accessed.  An operation

      do { *old_head = head; n = …; *new_head = *old_head + n; }
      while (!rte_atomic32_cmpset(&head, *old_head, *new_head));
      … copy n elements …
      rte_wait_until_equal_32(&tail, old_head);
      tail = new_head;

  reserves a stretch of the ring at the head, copies, waits for those who reserved before it, and
  publishes at the tail.

  Here every thread is a machine of its own whose steps are the accesses to shared memory: the
  loads of the indices, the compare-and-set, every single element copied, the loads of the wait
  loop, the store of the tail.  A run is any interleaving of the steps of any number of threads,
  each of which sees what all earlier steps have stored: that memory is SEQUENTIALLY CONSISTENT is
  an assumption of the model.  (On x86 a load may overtake an earlier store of its own thread to
  another place, which is not modelled; the barriers of the code are no-ops in the model.)

  Two things are proved about the code as it is written before what it does is looked at:

  * `copyElems_eq`     — the copy, unrolled and cut in two where the ring wraps, makes the same
                         accesses as the plain loop over the indices modulo `size`;
  * `RingState.erase_next` — the program does with 32-bit indices what it does with indices that
                         are never cut off and looked at modulo 2^32.  The latter (`Counter Nat`)
                         are what proofs about a run speak of.
-/
import PacketSend.PacketUtils
import PacketSend.Lib.Runs
import Mathlib.Logic.Function.Basic

namespace PacketSend

open Runs

/-! ## The ring -/

/-- What is fixed when a ring is created. -/
structure RingConf where
  size : Nat
  capacity : Nat
  pow : size.isPowerOfTwo
  capacity_pos : 0 < capacity
  capacity_lt : capacity < size
  size_le : size ≤ 2147483648

/-- `enum rte_ring_queue_behavior`. -/
inductive Behavior where
  | queueFixed
  | queueVariable
  deriving DecidableEq, Repr

/-- An index: its 32 bits, and how it is moved. -/
class Counter (C : Type) where
  bits : C → BitVec 32
  advance : C → Nat → C
  bits_advance : ∀ c n, bits (advance c n) = bits c + BitVec.ofNat 32 n

open Counter

/-- The indices of the program. -/
instance : Counter (BitVec 32) where
  bits := id
  advance c n := c + BitVec.ofNat 32 n
  bits_advance _ _ := rfl

/-- Indices that are not cut off. -/
instance : Counter Nat where
  bits := BitVec.ofNat 32
  advance c n := c + n
  bits_advance c n := BitVec.ofNat_add c n

/-- `struct rte_ring_headtail`. -/
structure HeadTail (C : Type) where
  head : C
  tail : C

/-- `prod_head & r->mask`. -/
def RingConf.index {C : Type} [Counter C] (conf : RingConf) (head : C) : Nat :=
  (bits head &&& BitVec.ofNat 32 (conf.size - 1)).toNat

/-! ## Copying elements

  The accesses `(idx, i)` of a copy between `ring[idx]` and `obj[i]`, in program order. -/

/-- `k` times `ring[idx++] ~ obj[i++]`. -/
def copyRun (idx i : Nat) : Nat → List (Nat × Nat)
  | 0 => []
  | k + 1 => (idx, i) :: copyRun (idx + 1) (i + 1) k

/-- `k` passes of a loop unrolled `unroll` times. -/
def copyUnrolled (unroll idx i : Nat) : Nat → List (Nat × Nat)
  | 0 => []
  | k + 1 => copyRun idx i unroll ++ copyUnrolled unroll (idx + unroll) (i + unroll) k

/-- A copy of `n` elements from index `idx` on: unrolled, with the rest in a `switch` that falls
    through, if the end of the array is not reached; else up to the end and from the start. -/
def copyElems (unroll size idx n : Nat) : List (Nat × Nat) :=
  if idx + n < size then
    copyUnrolled unroll idx 0 (n / unroll)
      ++ copyRun (idx + n / unroll * unroll) (n / unroll * unroll) (n % unroll)
  else copyRun idx 0 (size - idx) ++ copyRun 0 (size - idx) (n - (size - idx))

/-- `__rte_ring_enqueue_elems_64` and `__rte_ring_dequeue_elems_64`. -/
def copyElems64 (size idx n : Nat) : List (Nat × Nat) := copyElems 4 size idx n

/-- Two runs, the second from where the first has stopped. -/
theorem copyRun_append (idx i a b : Nat) :
    copyRun idx i (a + b) = copyRun idx i a ++ copyRun (idx + a) (i + a) b := by
  induction a generalizing idx i with
  | zero =>
    rw [Nat.zero_add]
    rfl
  | succ a ih =>
    rw [Nat.add_right_comm, copyRun, copyRun, ih, List.cons_append, Nat.add_assoc idx,
      Nat.add_assoc i, Nat.add_comm 1 a]

/-- Unrolling a loop does not change what it accesses. -/
theorem copyUnrolled_eq (unroll idx i k : Nat) :
    copyUnrolled unroll idx i k = copyRun idx i (k * unroll) := by
  induction k generalizing idx i with
  | zero => rw [Nat.zero_mul]; rfl
  | succ k ih => rw [copyUnrolled, ih, Nat.succ_mul, Nat.add_comm (k * unroll), copyRun_append]

theorem length_copyRun (idx i n : Nat) : (copyRun idx i n).length = n := by
  induction n generalizing idx i with
  | zero => rfl
  | succ n ih => rw [copyRun, List.length_cons, ih]

/-- Access `k` of a run. -/
theorem getElem?_copyRun (idx i n k : Nat) :
    (copyRun idx i n)[k]? = if k < n then some (idx + k, i + k) else none := by
  induction n generalizing idx i k with
  | zero => rfl
  | succ n ih =>
    cases k with
    | zero => rfl
    | succ k =>
      rw [copyRun, List.getElem?_cons_succ, ih, Nat.add_assoc idx, Nat.add_assoc i,
        Nat.add_comm 1 k]
      by_cases hk : k < n
      · rw [if_pos hk, if_pos (Nat.succ_lt_succ hk)]
      · rw [if_neg hk, if_neg (fun h => hk (Nat.lt_of_succ_lt_succ h))]

/-- Without wrapping around, the unrolled loop and the `switch` are one loop. -/
theorem copyElems_of_fits {unroll size idx n : Nat} (hfit : idx + n < size) :
    copyElems unroll size idx n = copyRun idx 0 n := by
  have hsplit : n / unroll * unroll + n % unroll = n := by
    rw [Nat.mul_comm]
    exact Nat.div_add_mod n unroll
  have happ := copyRun_append idx 0 (n / unroll * unroll) (n % unroll)
  rw [hsplit, Nat.zero_add] at happ
  rw [copyElems, if_pos hfit, copyUnrolled_eq, happ]

/-- A copy of `n` elements makes `n` accesses, wherever it starts. -/
theorem length_copyElems (unroll size idx n : Nat) : (copyElems unroll size idx n).length = n := by
  by_cases hfit : idx + n < size
  · rw [copyElems_of_fits hfit, length_copyRun]
  · rw [copyElems, if_neg hfit, List.length_append, length_copyRun, length_copyRun]
    omega

/-- **The copy is the plain one**: access `k` is the cell `k` places after the first, around the
    ring, and object `k`. -/
theorem copyElems_eq {unroll size idx n : Nat} (hidx : idx < size)
    (hn : n ≤ size) (k : Nat) : (copyElems unroll size idx n)[k]?
      = if k < n then some ((idx + k) % size, k) else none := by
  by_cases hfit : idx + n < size
  · rw [copyElems_of_fits hfit, getElem?_copyRun, Nat.zero_add]
    by_cases hk : k < n
    · rw [if_pos hk, if_pos hk, Nat.mod_eq_of_lt (by omega)]
    · rw [if_neg hk, if_neg hk]
  · have hlen := length_copyRun idx 0 (size - idx)
    rw [copyElems, if_neg hfit]
    by_cases hfirst : k < size - idx
    · rw [List.getElem?_append_left (by omega), getElem?_copyRun, if_pos hfirst, if_pos (by omega),
        Nat.zero_add, Nat.mod_eq_of_lt (by omega)]
    · -- past the end of the array: the second loop begins at cell 0
      rw [List.getElem?_append_right (by omega), hlen, getElem?_copyRun]
      by_cases hk : k < n
      · have hwrap : (idx + k) % size = k - (size - idx) := by
          rw [Nat.mod_eq_sub_mod (by omega), Nat.mod_eq_of_lt (by omega)]
          omega
        rw [if_pos (by omega), if_pos hk, hwrap, Nat.zero_add]
        congr 2
        omega
      · rw [if_neg (by omega), if_neg hk]

example : copyElems64 8 5 6 = [(5, 0), (6, 1), (7, 2), (0, 3), (1, 4), (2, 5)] := by decide

/-! ## The threads -/

/-- Where a thread is in `__rte_ring_do_enqueue_elem` or `__rte_ring_do_dequeue_elem`: before the
    access it makes next, with the variables that are set.  `objs` or `max` and `behavior` are the
    arguments of the call; `n` is what will be moved, `got` what has been copied out. -/
inductive RingThread (C α : Type) where
  | idle
  | enqHead (objs : List α) (behavior : Behavior)
  | enqTail (objs : List α) (behavior : Behavior) (oldHead : C)
  | enqCas (objs : List α) (behavior : Behavior) (oldHead : C) (n : Nat) (freeEntries : BitVec 32)
  | enqCopy (objs : List α) (behavior : Behavior) (oldHead : C) (n : Nat)
      (freeEntries : BitVec 32) (i : Nat)
  | enqWait (objs : List α) (behavior : Behavior) (oldHead : C) (n : Nat) (freeEntries : BitVec 32)
  | enqStore (objs : List α) (behavior : Behavior) (oldHead : C) (n : Nat)
      (freeEntries : BitVec 32)
  | enqEnd (objs : List α) (behavior : Behavior) (n : Nat) (freeEntries : BitVec 32)
  | deqHead (max : Nat) (behavior : Behavior)
  | deqTail (max : Nat) (behavior : Behavior) (oldHead : C)
  | deqCas (max : Nat) (behavior : Behavior) (oldHead : C) (n : Nat) (entries : BitVec 32)
  | deqCopy (max : Nat) (behavior : Behavior) (oldHead : C) (n : Nat) (entries : BitVec 32)
      (got : List α)
  | deqWait (max : Nat) (behavior : Behavior) (oldHead : C) (n : Nat) (entries : BitVec 32)
      (got : List α)
  | deqStore (max : Nat) (behavior : Behavior) (oldHead : C) (n : Nat) (entries : BitVec 32)
      (got : List α)
  | deqEnd (max : Nat) (behavior : Behavior) (entries : BitVec 32) (got : List α)
  deriving DecidableEq

/-- The ring in memory and its threads. -/
structure RingState (ι C α : Type) where
  prod : HeadTail C
  cons : HeadTail C
  cells : Nat → α
  thread : ι → RingThread C α

/-- An operation: `rte_ring_mp_enqueue_bulk` and `_burst`, `rte_ring_mc_dequeue_bulk` and
    `_burst`. -/
inductive RingOp (α : Type) where
  | enqueue (objs : List α) (behavior : Behavior)
  | dequeue (max : Nat) (behavior : Behavior)
  deriving DecidableEq

/-- What a step of a thread shows: a load of the wait loop that has to be made again, a load that
    finds too little room or too few objects, the store that publishes objects, the
    compare-and-set that takes `n` objects, a return with its results, or nothing of the kind. -/
inductive RingAction (α : Type) where
  | access
  | spin
  | full
  | empty
  | publish (objs : List α)
  | take (n : Nat)
  | enqueued (n : Nat) (freeSpace : BitVec 32)
  | dequeued (objs : List α) (available : BitVec 32)
  deriving DecidableEq

/-- A thread starts an operation, or makes a step. -/
inductive RingEvent (ι α : Type) where
  | call (t : ι) (op : RingOp α)
  | act (t : ι) (a : RingAction α)

section Machine

variable {ι C α : Type} [DecidableEq ι] [Counter C] [DecidableEq α]

/-- An empty ring whose indices stand at `c`. -/
def RingState.init (c : C) (cells : Nat → α) : RingState ι C α :=
  ⟨⟨c, c⟩, ⟨c, c⟩, cells, fun _ => .idle⟩

/-- Thread `t` goes to `th`. -/
def RingState.goto (s : RingState ι C α) (t : ι) (th : RingThread C α) : RingState ι C α :=
  { s with thread := Function.update s.thread t th }

/-- `if (n > avail) n = (behavior == RTE_RING_QUEUE_FIXED) ? 0 : avail`. -/
def toMove (behavior : Behavior) (n : Nat) (avail : BitVec 32) : Nat :=
  if n > avail.toNat then
    match behavior with
    | .queueFixed => 0
    | .queueVariable => avail.toNat
  else n

/-- The first access of an operation is the load of the head. -/
def RingOp.start : RingOp α → RingThread C α
  | .enqueue objs behavior => .enqHead objs behavior
  | .dequeue max behavior => .deqHead max behavior

/-- The number of objects is an `unsigned int`. -/
def RingOp.Fits : RingOp α → Prop
  | .enqueue objs _ => objs.length < 4294967296
  | .dequeue max _ => max < 4294967296

instance (op : RingOp α) : Decidable op.Fits := by
  cases op <;> exact inferInstanceAs (Decidable (_ < _))

/-- The next step of thread `t`, and what it shows. -/
def RingState.next (conf : RingConf) (s : RingState ι C α) (t : ι) :
    Option (RingAction α × RingState ι C α) :=
  match s.thread t with
  | .idle => none
  -- `__rte_ring_move_prod_head`
  | .enqHead objs b => some (.access, s.goto t (.enqTail objs b s.prod.head))
  | .enqTail objs b oldHead =>
    -- with an old head this can be more than the capacity
    let freeEntries := BitVec.ofNat 32 conf.capacity + bits s.cons.tail - bits oldHead
    let n := toMove b objs.length freeEntries
    if n = 0 then some (.full, s.goto t (.enqEnd objs b 0 freeEntries))
    else some (.access, s.goto t (.enqCas objs b oldHead n freeEntries))
  | .enqCas objs b oldHead n freeEntries =>
    if bits s.prod.head = bits oldHead then
      some (.access, { s with prod := ⟨advance s.prod.head n, s.prod.tail⟩ }.goto t
        (.enqCopy objs b s.prod.head n freeEntries 0))
    else some (.access, s.goto t (.enqHead objs b))
  -- `__rte_ring_enqueue_elems_64`
  | .enqCopy objs b oldHead n freeEntries i =>
    match (copyElems64 conf.size (conf.index oldHead) n)[i]? with
    | none => some (.access, s.goto t (.enqWait objs b oldHead n freeEntries))
    | some (idx, j) =>
      match objs[j]? with
      | none => none
      | some x => some (.access, { s with cells := Function.update s.cells idx x }.goto t
          (.enqCopy objs b oldHead n freeEntries (i + 1)))
  -- `__rte_ring_update_tail`
  | .enqWait objs b oldHead n freeEntries =>
    if bits s.prod.tail = bits oldHead then
      some (.access, s.goto t (.enqStore objs b oldHead n freeEntries))
    else some (.spin, s)
  | .enqStore objs b oldHead n freeEntries =>
    some (.publish (objs.take n), { s with prod := ⟨s.prod.head, advance oldHead n⟩ }.goto t
      (.enqEnd objs b n freeEntries))
  | .enqEnd _ _ n freeEntries =>
    some (.enqueued n (freeEntries - BitVec.ofNat 32 n), s.goto t .idle)
  -- `__rte_ring_move_cons_head`
  | .deqHead max b => some (.access, s.goto t (.deqTail max b s.cons.head))
  | .deqTail max b oldHead =>
    let entries := bits s.prod.tail - bits oldHead
    let n := toMove b max entries
    if n = 0 then some (.empty, s.goto t (.deqEnd max b entries []))
    else some (.access, s.goto t (.deqCas max b oldHead n entries))
  | .deqCas max b oldHead n entries =>
    if bits s.cons.head = bits oldHead then
      some (.take n, { s with cons := ⟨advance s.cons.head n, s.cons.tail⟩ }.goto t
        (.deqCopy max b s.cons.head n entries []))
    else some (.access, s.goto t (.deqHead max b))
  -- `__rte_ring_dequeue_elems_64`
  | .deqCopy max b oldHead n entries got =>
    match (copyElems64 conf.size (conf.index oldHead) n)[got.length]? with
    | none => some (.access, s.goto t (.deqWait max b oldHead n entries got))
    | some (idx, _) =>
      some (.access, s.goto t (.deqCopy max b oldHead n entries (got ++ [s.cells idx])))
  -- `__rte_ring_update_tail`
  | .deqWait max b oldHead n entries got =>
    if bits s.cons.tail = bits oldHead then
      some (.access, s.goto t (.deqStore max b oldHead n entries got))
    else some (.spin, s)
  | .deqStore max b oldHead n entries got =>
    some (.access, { s with cons := ⟨s.cons.head, advance oldHead n⟩ }.goto t
      (.deqEnd max b entries got))
  | .deqEnd _ _ entries got =>
    some (.dequeued got (entries - BitVec.ofNat 32 got.length), s.goto t .idle)

/-- One event: a call of an idle thread, or the next step of a thread. -/
def RingState.step (conf : RingConf) (s : RingState ι C α) :
    RingEvent ι α → Option (RingState ι C α)
  | .call t op =>
    match s.thread t with
    | .idle => if op.Fits then some (s.goto t op.start) else none
    | _ => none
  | .act t a =>
    match s.next conf t with
    | none => none
    | some (a', s') => if a = a' then some s' else none

/-! ## What a step can be -/

/-- One case for each way a thread can go on. -/
inductive RingStep (conf : RingConf) (s : RingState ι C α) :
    RingEvent ι α → RingState ι C α → Prop where
  | call {t : ι} {op : RingOp α} (ht : s.thread t = .idle) (hfits : op.Fits) :
      RingStep conf s (.call t op) (s.goto t op.start)
  | enqHead {t : ι} {objs : List α} {b : Behavior} (ht : s.thread t = .enqHead objs b) :
      RingStep conf s (.act t .access) (s.goto t (.enqTail objs b s.prod.head))
  | enqRefuse {t : ι} {objs : List α} {b : Behavior} {oldHead : C} {free : BitVec 32}
      (ht : s.thread t = .enqTail objs b oldHead)
      (hfree : free = BitVec.ofNat 32 conf.capacity + bits s.cons.tail - bits oldHead)
      (hn : toMove b objs.length free = 0) :
      RingStep conf s (.act t .full) (s.goto t (.enqEnd objs b 0 free))
  | enqTail {t : ι} {objs : List α} {b : Behavior} {oldHead : C} {free : BitVec 32}
      (ht : s.thread t = .enqTail objs b oldHead)
      (hfree : free = BitVec.ofNat 32 conf.capacity + bits s.cons.tail - bits oldHead)
      (hn : toMove b objs.length free ≠ 0) :
      RingStep conf s (.act t .access)
        (s.goto t (.enqCas objs b oldHead (toMove b objs.length free) free))
  | enqCas {t : ι} {objs : List α} {b : Behavior} {oldHead : C} {n : Nat} {free : BitVec 32}
      (ht : s.thread t = .enqCas objs b oldHead n free) (hcas : bits s.prod.head = bits oldHead) :
      RingStep conf s (.act t .access)
        ({ s with prod := ⟨advance s.prod.head n, s.prod.tail⟩ }.goto t
          (.enqCopy objs b s.prod.head n free 0))
  | enqRetry {t : ι} {objs : List α} {b : Behavior} {oldHead : C} {n : Nat} {free : BitVec 32}
      (ht : s.thread t = .enqCas objs b oldHead n free) (hcas : bits s.prod.head ≠ bits oldHead) :
      RingStep conf s (.act t .access) (s.goto t (.enqHead objs b))
  | enqCopy {t : ι} {objs : List α} {b : Behavior} {oldHead : C} {n : Nat} {free : BitVec 32}
      {i idx j : Nat} {x : α} (ht : s.thread t = .enqCopy objs b oldHead n free i)
      (hat : (copyElems64 conf.size (conf.index oldHead) n)[i]? = some (idx, j))
      (hx : objs[j]? = some x) :
      RingStep conf s (.act t .access) ({ s with cells := Function.update s.cells idx x }.goto t
        (.enqCopy objs b oldHead n free (i + 1)))
  | enqCopied {t : ι} {objs : List α} {b : Behavior} {oldHead : C} {n : Nat} {free : BitVec 32}
      {i : Nat} (ht : s.thread t = .enqCopy objs b oldHead n free i)
      (hat : (copyElems64 conf.size (conf.index oldHead) n)[i]? = none) :
      RingStep conf s (.act t .access) (s.goto t (.enqWait objs b oldHead n free))
  | enqTurn {t : ι} {objs : List α} {b : Behavior} {oldHead : C} {n : Nat} {free : BitVec 32}
      (ht : s.thread t = .enqWait objs b oldHead n free) (htail : bits s.prod.tail = bits oldHead) :
      RingStep conf s (.act t .access) (s.goto t (.enqStore objs b oldHead n free))
  | enqSpin {t : ι} {objs : List α} {b : Behavior} {oldHead : C} {n : Nat} {free : BitVec 32}
      (ht : s.thread t = .enqWait objs b oldHead n free) : RingStep conf s (.act t .spin) s
  | enqStore {t : ι} {objs : List α} {b : Behavior} {oldHead : C} {n : Nat} {free : BitVec 32}
      (ht : s.thread t = .enqStore objs b oldHead n free) :
      RingStep conf s (.act t (.publish (objs.take n)))
        ({ s with prod := ⟨s.prod.head, advance oldHead n⟩ }.goto t (.enqEnd objs b n free))
  | enqEnd {t : ι} {objs : List α} {b : Behavior} {n : Nat} {free : BitVec 32}
      (ht : s.thread t = .enqEnd objs b n free) :
      RingStep conf s (.act t (.enqueued n (free - BitVec.ofNat 32 n))) (s.goto t .idle)
  | deqHead {t : ι} {max : Nat} {b : Behavior} (ht : s.thread t = .deqHead max b) :
      RingStep conf s (.act t .access) (s.goto t (.deqTail max b s.cons.head))
  | deqRefuse {t : ι} {max : Nat} {b : Behavior} {oldHead : C} {entries : BitVec 32}
      (ht : s.thread t = .deqTail max b oldHead)
      (hentries : entries = bits s.prod.tail - bits oldHead) (hn : toMove b max entries = 0) :
      RingStep conf s (.act t .empty) (s.goto t (.deqEnd max b entries []))
  | deqTail {t : ι} {max : Nat} {b : Behavior} {oldHead : C} {entries : BitVec 32}
      (ht : s.thread t = .deqTail max b oldHead)
      (hentries : entries = bits s.prod.tail - bits oldHead) (hn : toMove b max entries ≠ 0) :
      RingStep conf s (.act t .access)
        (s.goto t (.deqCas max b oldHead (toMove b max entries) entries))
  | deqCas {t : ι} {max : Nat} {b : Behavior} {oldHead : C} {n : Nat} {entries : BitVec 32}
      (ht : s.thread t = .deqCas max b oldHead n entries)
      (hcas : bits s.cons.head = bits oldHead) :
      RingStep conf s (.act t (.take n))
        ({ s with cons := ⟨advance s.cons.head n, s.cons.tail⟩ }.goto t
          (.deqCopy max b s.cons.head n entries []))
  | deqRetry {t : ι} {max : Nat} {b : Behavior} {oldHead : C} {n : Nat} {entries : BitVec 32}
      (ht : s.thread t = .deqCas max b oldHead n entries)
      (hcas : bits s.cons.head ≠ bits oldHead) :
      RingStep conf s (.act t .access) (s.goto t (.deqHead max b))
  | deqCopy {t : ι} {max : Nat} {b : Behavior} {oldHead : C} {n : Nat} {entries : BitVec 32}
      {got : List α} {idx j : Nat} (ht : s.thread t = .deqCopy max b oldHead n entries got)
      (hat : (copyElems64 conf.size (conf.index oldHead) n)[got.length]? = some (idx, j)) :
      RingStep conf s (.act t .access)
        (s.goto t (.deqCopy max b oldHead n entries (got ++ [s.cells idx])))
  | deqCopied {t : ι} {max : Nat} {b : Behavior} {oldHead : C} {n : Nat} {entries : BitVec 32}
      {got : List α} (ht : s.thread t = .deqCopy max b oldHead n entries got)
      (hat : (copyElems64 conf.size (conf.index oldHead) n)[got.length]? = none) :
      RingStep conf s (.act t .access) (s.goto t (.deqWait max b oldHead n entries got))
  | deqTurn {t : ι} {max : Nat} {b : Behavior} {oldHead : C} {n : Nat} {entries : BitVec 32}
      {got : List α} (ht : s.thread t = .deqWait max b oldHead n entries got)
      (htail : bits s.cons.tail = bits oldHead) :
      RingStep conf s (.act t .access) (s.goto t (.deqStore max b oldHead n entries got))
  | deqSpin {t : ι} {max : Nat} {b : Behavior} {oldHead : C} {n : Nat} {entries : BitVec 32}
      {got : List α} (ht : s.thread t = .deqWait max b oldHead n entries got) :
      RingStep conf s (.act t .spin) s
  | deqStore {t : ι} {max : Nat} {b : Behavior} {oldHead : C} {n : Nat} {entries : BitVec 32}
      {got : List α} (ht : s.thread t = .deqStore max b oldHead n entries got) :
      RingStep conf s (.act t .access)
        ({ s with cons := ⟨s.cons.head, advance oldHead n⟩ }.goto t (.deqEnd max b entries got))
  | deqEnd {t : ι} {max : Nat} {b : Behavior} {entries : BitVec 32} {got : List α}
      (ht : s.thread t = .deqEnd max b entries got) :
      RingStep conf s (.act t (.dequeued got (entries - BitVec.ofNat 32 got.length)))
        (s.goto t .idle)

omit [DecidableEq α] in
/-- What the next step of a thread is. -/
theorem RingStep.of_next {conf : RingConf} {s s' : RingState ι C α} {t : ι} {a : RingAction α}
    (h : s.next conf t = some (a, s')) : RingStep conf s (.act t a) s' := by
  unfold RingState.next at h
  split at h
  · cases h
  · rename_i ht
    cases h
    exact RingStep.enqHead ht
  · rename_i ht
    simp only at h
    split at h
    · cases h
      exact RingStep.enqRefuse ht rfl ‹_›
    · cases h
      exact RingStep.enqTail ht rfl ‹_›
  · rename_i ht
    split at h
    · cases h
      exact RingStep.enqCas ht ‹_›
    · cases h
      exact RingStep.enqRetry ht ‹_›
  · rename_i ht
    split at h
    · cases h
      exact RingStep.enqCopied ht ‹_›
    · rename_i hat
      split at h
      · cases h
      · cases h
        exact RingStep.enqCopy ht hat ‹_›
  · rename_i ht
    split at h
    · cases h
      exact RingStep.enqTurn ht ‹_›
    · cases h
      exact RingStep.enqSpin ht
  · rename_i ht
    cases h
    exact RingStep.enqStore ht
  · rename_i ht
    cases h
    exact RingStep.enqEnd ht
  · rename_i ht
    cases h
    exact RingStep.deqHead ht
  · rename_i ht
    simp only at h
    split at h
    · cases h
      exact RingStep.deqRefuse ht rfl ‹_›
    · cases h
      exact RingStep.deqTail ht rfl ‹_›
  · rename_i ht
    split at h
    · cases h
      exact RingStep.deqCas ht ‹_›
    · cases h
      exact RingStep.deqRetry ht ‹_›
  · rename_i ht
    split at h
    · cases h
      exact RingStep.deqCopied ht ‹_›
    · cases h
      exact RingStep.deqCopy ht ‹_›
  · rename_i ht
    split at h
    · cases h
      exact RingStep.deqTurn ht ‹_›
    · cases h
      exact RingStep.deqSpin ht
  · rename_i ht
    cases h
    exact RingStep.deqStore ht
  · rename_i ht
    cases h
    exact RingStep.deqEnd ht

/-- The inversion of `RingState.step`. -/
theorem RingState.step_inv {conf : RingConf} {s s' : RingState ι C α} {e : RingEvent ι α}
    (h : s.step conf e = some s') : RingStep conf s e s' := by
  cases e with
  | call t op =>
    simp only [RingState.step] at h
    split at h
    · split at h
      · cases h
        exact RingStep.call ‹_› ‹_›
      · cases h
    · cases h
  | act t a =>
    simp only [RingState.step] at h
    split at h
    · cases h
    · rename_i hnext
      split at h
      · rename_i ha
        cases h
        rw [ha]
        exact RingStep.of_next hnext
      · cases h

/-! ## Indices that are not cut off -/

/-- A thread with its index looked at as 32 bits. -/
def RingThread.erase : RingThread C α → RingThread (BitVec 32) α
  | .idle => .idle
  | .enqHead objs b => .enqHead objs b
  | .enqTail objs b oldHead => .enqTail objs b (bits oldHead)
  | .enqCas objs b oldHead n free => .enqCas objs b (bits oldHead) n free
  | .enqCopy objs b oldHead n free i => .enqCopy objs b (bits oldHead) n free i
  | .enqWait objs b oldHead n free => .enqWait objs b (bits oldHead) n free
  | .enqStore objs b oldHead n free => .enqStore objs b (bits oldHead) n free
  | .enqEnd objs b n free => .enqEnd objs b n free
  | .deqHead max b => .deqHead max b
  | .deqTail max b oldHead => .deqTail max b (bits oldHead)
  | .deqCas max b oldHead n entries => .deqCas max b (bits oldHead) n entries
  | .deqCopy max b oldHead n entries got => .deqCopy max b (bits oldHead) n entries got
  | .deqWait max b oldHead n entries got => .deqWait max b (bits oldHead) n entries got
  | .deqStore max b oldHead n entries got => .deqStore max b (bits oldHead) n entries got
  | .deqEnd max b entries got => .deqEnd max b entries got

omit [DecidableEq α] in
/-- Only an idle thread looks idle. -/
theorem erase_eq_idle {th : RingThread C α} (h : th.erase = .idle) : th = .idle := by
  cases th with
  | idle => rfl
  | _ => cases h

omit [DecidableEq α] in
/-- Nor is the end of an enqueue mistaken for anything else. -/
theorem erase_eq_enqEnd {th : RingThread C α} {objs : List α} {b : Behavior} {n : Nat}
    {free : BitVec 32} (h : th.erase = .enqEnd objs b n free) : th = .enqEnd objs b n free := by
  cases th with
  | enqEnd objs' b' n' free' =>
    cases h
    rfl
  | _ => cases h

/-- A pair of indices looked at as 32 bits. -/
def HeadTail.erase (ht : HeadTail C) : HeadTail (BitVec 32) := ⟨bits ht.head, bits ht.tail⟩

/-- A ring with its indices looked at as 32 bits. -/
def RingState.erase (s : RingState ι C α) : RingState ι (BitVec 32) α :=
  ⟨s.prod.erase, s.cons.erase, s.cells, fun t => (s.thread t).erase⟩

@[simp] theorem bits_bits (c : C) : bits (bits c) = bits c := rfl

/-! Looking at the indices afterwards is the same as moving them by 32 bits: for either index of a
pair, and for the ring after a step of thread `t`. -/

theorem erase_advance_head (a b : C) (n : Nat) :
    (HeadTail.mk (advance a n) b).erase = ⟨advance (bits a) n, bits b⟩ :=
  congrArg (HeadTail.mk · (bits b)) (bits_advance a n)

theorem erase_advance_tail (a b : C) (n : Nat) :
    (HeadTail.mk a (advance b n)).erase = ⟨bits a, advance (bits b) n⟩ :=
  congrArg (HeadTail.mk (bits a)) (bits_advance b n)

omit [DecidableEq ι] [DecidableEq α] in
theorem RingState.erase_mk (prod cons : HeadTail C) (cells : Nat → α)
    (thread : ι → RingThread C α) : (RingState.mk prod cons cells thread).erase
      = ⟨prod.erase, cons.erase, cells, fun t => (thread t).erase⟩ := rfl

omit [DecidableEq α] in
@[simp] theorem RingState.erase_goto (s : RingState ι C α) (t : ι) (th : RingThread C α) :
    (s.goto t th).erase = s.erase.goto t th.erase := by
  have hthread : (fun u => (Function.update s.thread t th u).erase)
      = Function.update (fun u => (s.thread u).erase) t th.erase := by
    funext u
    by_cases hu : u = t
    · subst hu
      rw [Function.update_self, Function.update_self]
    · rw [Function.update_of_ne hu, Function.update_of_ne hu]
  show RingState.mk s.prod.erase s.cons.erase s.cells
    (fun u => (Function.update s.thread t th u).erase) = _
  rw [hthread]
  rfl

omit [DecidableEq α] in
/-- **The program sees 32 bits of its indices**: what a step does with 32-bit indices is what it
    does with indices that are not cut off, looked at as 32 bits. -/
theorem RingState.erase_next (conf : RingConf) (s : RingState ι C α) (t : ι) :
    s.erase.next conf t = (s.next conf t).map fun p => (p.1, p.2.erase) := by
  have hthread : s.erase.thread t = (s.thread t).erase := rfl
  -- which cell is accessed depends on the 32 bits only
  have hindex : ∀ c : C, conf.index (bits c) = conf.index c := fun _ => rfl
  unfold RingState.next
  rw [hthread]
  cases s.thread t with
  | idle => rfl
  | enqTail objs b oldHead =>
    simp only [RingThread.erase, bits_bits, apply_ite (Option.map _), Option.map_some, erase_goto]
    rfl
  | enqCas objs b oldHead n free =>
    simp only [RingThread.erase, bits_bits, apply_ite (Option.map _), Option.map_some, erase_goto,
      erase_mk, erase_advance_head]
    rfl
  | enqCopy objs b oldHead n free i =>
    simp only [RingThread.erase, hindex]
    cases (copyElems64 conf.size (conf.index oldHead) n)[i]? with
    | none => simp only [Option.map_some, erase_goto, RingThread.erase]
    | some p =>
      cases hobj : objs[p.2]? with
      | none => simp only [hobj, Option.map_none]
      | some x =>
        simp only [hobj, Option.map_some, erase_goto]
        rfl
  | enqWait objs b oldHead n free =>
    simp only [RingThread.erase, bits_bits, apply_ite (Option.map _), Option.map_some, erase_goto]
    rfl
  | enqStore objs b oldHead n free =>
    simp only [RingThread.erase, Option.map_some, erase_goto, erase_mk, erase_advance_tail]
    rfl
  | deqTail max b oldHead =>
    simp only [RingThread.erase, bits_bits, apply_ite (Option.map _), Option.map_some, erase_goto]
    rfl
  | deqCas max b oldHead n entries =>
    simp only [RingThread.erase, bits_bits, apply_ite (Option.map _), Option.map_some, erase_goto,
      erase_mk, erase_advance_head]
    rfl
  | deqCopy max b oldHead n entries got =>
    simp only [RingThread.erase, hindex]
    cases (copyElems64 conf.size (conf.index oldHead) n)[got.length]? with
    | none => simp only [Option.map_some, erase_goto, RingThread.erase]
    | some p =>
      simp only [Option.map_some, erase_goto]
      rfl
  | deqWait max b oldHead n entries got =>
    simp only [RingThread.erase, bits_bits, apply_ite (Option.map _), Option.map_some, erase_goto]
    rfl
  | deqStore max b oldHead n entries got =>
    simp only [RingThread.erase, Option.map_some, erase_goto, erase_mk, erase_advance_tail]
    rfl
  | enqHead objs b =>
    simp only [RingThread.erase, Option.map_some, erase_goto]
    rfl
  | deqHead max b =>
    simp only [RingThread.erase, Option.map_some, erase_goto]
    rfl
  | enqEnd objs b n free => simp only [RingThread.erase, Option.map_some, erase_goto]
  | deqEnd max b entries got => simp only [RingThread.erase, Option.map_some, erase_goto]

/-- So for a whole event: a run of the ring with unbounded indices is, looked at as 32 bits, a run
    of the program. -/
theorem RingState.erase_step (conf : RingConf) (s : RingState ι C α) (e : RingEvent ι α) :
    s.erase.step conf e = (s.step conf e).map RingState.erase := by
  cases e with
  | call t op =>
    have hthread : s.erase.thread t = (s.thread t).erase := rfl
    simp only [RingState.step, hthread]
    cases s.thread t with
    | idle =>
      simp only [RingThread.erase, apply_ite (Option.map _), Option.map_some, Option.map_none,
        erase_goto]
      cases op <;> rfl
    | _ => rfl
  | act t a =>
    simp only [RingState.step, RingState.erase_next]
    cases s.next conf t with
    | none => rfl
    | some p =>
      simp only [Option.map_some, apply_ite (Option.map _), Option.map_none]

end Machine
end PacketSend
