/-
  A ring at rest is a first-in, first-out store.

  When no operation is under way, a thread that enqueues or dequeues in bulk, and is not disturbed
  until it returns, leaves the ring as `Magazine.fifo` says: what a mempool asks of the store it
  keeps its objects in (`Magazine.Depot`) is what `rte_ring` does.

  1. **The run.**  With all other threads idle the state is four values, the two pairs of indices,
     the cells and the place of the one thread (`RingState.solo`), and its steps can be written
     out one after the other: load the head, load the opposite tail and count, move the head, copy
     cell by cell, wait for the tail, store it, return (`Solo.enqueue`, `Solo.dequeue`; the two
     ways to be refused are `Solo.enqueueFull` and `Solo.dequeueEmpty`).  The compare-and-set
     cannot fail and the wait ends at once, because at rest the tail is the head.  For the copy
     the induction is on the cells that remain.

  2. **The answer.**  What the thread counts is what is there: at rest the difference of the
     indices is the length of the contents (`Resting`), although each index alone has wrapped any
     number of times.  So it is refused exactly when the store refuses.

  3. **The contents.**  Nothing is read off the cells.  By the law of the queue the contents are
     what has been published less what has been taken (`contents_of_run`), and the run of step 1
     shows which of the two it has added to (`serves_of_solo`).
-/
import PacketSend.RingQueue
import PacketSend.Lib.Magazine

namespace PacketSend

open Runs Counter BulkQueue

/-! ## A thread alone -/

section Alone

variable {ι C α : Type} [Counter C]

/-- Thread `t` is at `th` and all others are idle.  The lemmas below say what a step may change
    of it, so that none of the proofs on runs unfolds it. -/
def RingState.solo [DecidableEq ι] (t : ι) (prod cons : HeadTail C) (cells : Nat → α)
    (th : RingThread C α) : RingState ι C α :=
  ⟨prod, cons, cells, Function.update (fun _ => .idle) t th⟩

variable [DecidableEq ι] {conf : RingConf} {t : ι} {prod cons : HeadTail C} {cells : Nat → α}

section Fields

variable (prod' cons' : HeadTail C) (cells' : Nat → α) (th th' : RingThread C α)

omit [Counter C] in
@[simp] theorem RingState.solo_prod : (solo t prod cons cells th).prod = prod := rfl

omit [Counter C] in
@[simp] theorem RingState.solo_cons : (solo t prod cons cells th).cons = cons := rfl

omit [Counter C] in
@[simp] theorem RingState.solo_cells : (solo t prod cons cells th).cells = cells := rfl

omit [Counter C] in
@[simp] theorem RingState.solo_thread : (solo t prod cons cells th).thread t = th := by
  show Function.update (fun _ => RingThread.idle) t th t = th
  rw [Function.update_self]

omit [Counter C] in
@[simp] theorem RingState.goto_mk : (RingState.mk prod' cons' cells'
    (solo t prod cons cells th).thread).goto t th' = solo t prod' cons' cells' th' := by
  show RingState.mk prod' cons' cells' (Function.update (Function.update _ t th) t th') = _
  rw [Function.update_idem]
  rfl

omit [Counter C] in
@[simp] theorem RingState.goto_solo :
    (solo t prod cons cells th).goto t th' = solo t prod cons cells th' := by
  show (RingState.mk prod cons cells (solo t prod cons cells th).thread).goto t th' = _
  exact RingState.goto_mk prod cons cells th th'

end Fields

omit [Counter C] in
/-- All threads are idle. -/
theorem RingState.solo_idle {s : RingState ι C α} (hrest : ∀ w, s.thread w = .idle) :
    solo t s.prod s.cons s.cells .idle = s := by
  have hthread : s.thread = fun _ => .idle := funext hrest
  show RingState.mk s.prod s.cons s.cells (Function.update (fun _ => .idle) t .idle) = s
  rw [Function.update_eq_self (f := fun _ => (.idle : RingThread C α)), ← hthread]

/-- If the thread has loaded no head that has moved since, the state is timely: the others have
    loaded nothing. -/
theorem RingState.solo_timely {th : RingThread C α}
    (hlag : (solo t prod cons cells th).lag th = 0) :
    (solo t prod cons cells th).Timely := by
  intro w
  show ((solo t prod cons cells th).lag
    (Function.update (fun _ => RingThread.idle) t th w)).toNat < 2147483648
  by_cases hw : w = t
  · rw [hw, Function.update_self, hlag]
    exact Nat.zero_lt_succ _
  · rw [Function.update_of_ne hw]
    exact Nat.zero_lt_succ _

variable [Fintype ι] [DecidableEq α]

/-- The steps of thread `t` that show `acts` lead from `s` to `s'`. -/
def Solo (conf : RingConf) (t : ι) (s : RingState ι C α) (acts : List (RingAction α))
    (s' : RingState ι C α) : Prop :=
  Run (RingState.timelyStep conf) s (acts.map (.act t)) s'

/-- Runs of the thread are glued at the state between them. -/
theorem Solo.trans {s s' s'' : RingState ι C α} {acts acts' : List (RingAction α)}
    (h : Solo conf t s acts s') (h' : Solo conf t s' acts' s'') :
    Solo conf t s (acts ++ acts') s'' := by
  unfold Solo
  rw [List.map_append]
  exact Run.trans h h'

/-- A call of a thread, all others idle. -/
theorem solo_call {op : RingOp α} (hfits : op.Fits) :
    RingState.timelyStep conf (.solo t prod cons cells .idle) (.call t op)
      = some (.solo t prod cons cells op.start) := by
  refine restrict_eq_some.mpr ⟨RingState.solo_timely rfl, ?_⟩
  simp only [RingState.step, RingState.solo_thread, RingState.goto_solo, if_pos hfits]

/-- A step of a thread, all others idle: what it loads and stores next, as long as the head it
    holds (if it holds one) is still the head. -/
theorem Solo.act {th : RingThread C α} {a : RingAction α} {s' : RingState ι C α}
    (hlag : (RingState.solo t prod cons cells th).lag th = 0)
    (hnext : (RingState.solo t prod cons cells th).next conf t = some (a, s')) :
    Solo conf t (.solo t prod cons cells th) [a] s' := by
  have hstep : RingState.timelyStep conf (.solo t prod cons cells th) (.act t a) = some s' := by
    refine restrict_eq_some.mpr ⟨RingState.solo_timely hlag, ?_⟩
    simp only [RingState.step, hnext, if_true]
  exact Run.single hstep

/-! ## An enqueue -/

/-- The enqueue loads the head. -/
theorem Solo.loadProd (objs : List α) (b : Behavior) :
    Solo conf t (.solo t prod cons cells (.enqHead objs b)) [.access]
      (.solo t prod cons cells (.enqTail objs b prod.head)) :=
  Solo.act rfl (by simp only [RingState.next, RingState.solo_thread, RingState.solo_prod,
    RingState.goto_solo])

/-- The objects are copied in, one cell in each step.  Which cells they fill is not said: what
    the ring contains afterwards is read off the events. -/
theorem Solo.copyIn {objs : List α} {b : Behavior} {n : Nat} {free : BitVec 32}
    (hn : n ≤ objs.length) (hsize : n ≤ conf.size) (head : C) (k i : Nat) (hk : i + k = n)
    (cells : Nat → α) : ∃ cells',
      Solo conf t (.solo t prod cons cells (.enqCopy objs b head n free i))
        (List.replicate k .access)
        (.solo t prod cons cells' (.enqCopy objs b head n free n)) := by
  induction k generalizing i cells with
  | zero =>
    obtain rfl : i = n := hk
    exact ⟨cells, Run.nil⟩
  | succ k ih =>
    -- the access that is due: object `i` into the cell `i` behind the head
    have hat : (copyElems64 conf.size (conf.index head) n)[i]?
        = some ((conf.index head + i) % conf.size, i) := by
      rw [copyElems64, copyElems_eq (conf.index_lt head) hsize, if_pos (by omega)]
    obtain ⟨x, hx⟩ : ∃ x, objs[i]? = some x := ⟨objs[i], List.getElem?_eq_getElem (by omega)⟩
    obtain ⟨cells', hrest⟩ := ih (i + 1) (by omega)
      (Function.update cells ((conf.index head + i) % conf.size) x)
    refine ⟨cells', Solo.trans (Solo.act rfl ?_) hrest⟩
    simp only [RingState.next, RingState.solo_thread, hat, hx, RingState.solo_prod,
      RingState.solo_cons, RingState.solo_cells, RingState.goto_mk]

/-- An enqueue in bulk that finds room: the ring moves `prod` to the new head and shows one
    `publish`, with all the objects. -/
theorem Solo.enqueue {objs : List α} {free : BitVec 32}
    (hrest : prod.tail = prod.head)
    (hfree : BitVec.ofNat 32 conf.capacity + bits cons.tail - bits prod.head = free)
    (hroom : objs.length ≤ free.toNat) (hsize : objs.length ≤ conf.size) (hne : objs.length ≠ 0) :
    ∃ acts cells', Solo conf t (.solo t prod cons cells (.enqHead objs .queueFixed))
      (acts ++ [.enqueued objs.length (free - BitVec.ofNat 32 objs.length)])
      (.solo t ⟨advance prod.head objs.length, advance prod.head objs.length⟩ cons cells' .idle) ∧
      (acts.map (RingEvent.act t)).flatMap RingEvent.spec = [.add t objs] := by
  have hmove : toMove .queueFixed objs.length free = objs.length := if_neg (by omega)
  -- the head the thread holds is the head, so that it never lags
  have hself : bits prod.head - bits prod.head = 0 := BitVec.sub_self _
  have hhead : Solo conf t (.solo t prod cons cells (.enqHead objs .queueFixed)) [.access]
      (.solo t prod cons cells (.enqTail objs .queueFixed prod.head)) :=
    Solo.loadProd objs .queueFixed
  have htail : Solo conf t (.solo t prod cons cells (.enqTail objs .queueFixed prod.head))
      [.access]
      (.solo t prod cons cells (.enqCas objs .queueFixed prod.head objs.length free)) :=
    Solo.act hself (by simp only [RingState.next, RingState.solo_thread, RingState.solo_cons,
      RingState.goto_solo, hfree, hmove, if_neg hne])
  -- at rest nobody else moves the head: the first compare-and-set succeeds
  have hcas : Solo conf t
      (.solo t prod cons cells (.enqCas objs .queueFixed prod.head objs.length free))
      [.access]
      (.solo t ⟨advance prod.head objs.length, prod.tail⟩ cons cells
        (.enqCopy objs .queueFixed prod.head objs.length free 0)) :=
    Solo.act hself (by simp only [RingState.next, RingState.solo_thread, RingState.solo_prod,
      RingState.solo_cons, RingState.solo_cells, RingState.goto_mk, if_true])
  obtain ⟨cells', hcopy⟩ : ∃ cells', Solo conf t
      (.solo t ⟨advance prod.head objs.length, prod.tail⟩ cons cells
        (.enqCopy objs .queueFixed prod.head objs.length free 0))
      (List.replicate objs.length .access)
      (.solo t ⟨advance prod.head objs.length, prod.tail⟩ cons cells'
        (.enqCopy objs .queueFixed prod.head objs.length free objs.length)) :=
    Solo.copyIn (Nat.le_refl objs.length) hsize prod.head objs.length 0 (Nat.zero_add _) cells
  -- after the last object there is no access left, and the copy ends
  have hend : (copyElems64 conf.size (conf.index prod.head) objs.length)[objs.length]? = none := by
    rw [copyElems64, copyElems_eq (conf.index_lt prod.head) hsize, if_neg (Nat.lt_irrefl _)]
  have hcopied : Solo conf t
      (.solo t ⟨advance prod.head objs.length, prod.tail⟩ cons cells'
        (.enqCopy objs .queueFixed prod.head objs.length free objs.length)) [.access]
      (.solo t ⟨advance prod.head objs.length, prod.tail⟩ cons cells'
        (.enqWait objs .queueFixed prod.head objs.length free)) :=
    Solo.act rfl (by simp only [RingState.next, RingState.solo_thread, hend, RingState.goto_solo])
  -- and nobody has to release cells before these
  have hturn : Solo conf t
      (.solo t ⟨advance prod.head objs.length, prod.tail⟩ cons cells'
        (.enqWait objs .queueFixed prod.head objs.length free)) [.access]
      (.solo t ⟨advance prod.head objs.length, prod.tail⟩ cons cells'
        (.enqStore objs .queueFixed prod.head objs.length free)) :=
    Solo.act rfl (by simp only [RingState.next, RingState.solo_thread, RingState.solo_prod, hrest,
      if_true, RingState.goto_solo])
  have hstore : Solo conf t
      (.solo t ⟨advance prod.head objs.length, prod.tail⟩ cons cells'
        (.enqStore objs .queueFixed prod.head objs.length free)) [.publish objs]
      (.solo t ⟨advance prod.head objs.length, advance prod.head objs.length⟩ cons cells'
        (.enqEnd objs .queueFixed objs.length free)) :=
    Solo.act rfl (by simp only [RingState.next, RingState.solo_thread, RingState.solo_prod,
      RingState.solo_cons, RingState.solo_cells, RingState.goto_mk, List.take_length])
  have hreturn : Solo conf t
      (.solo t ⟨advance prod.head objs.length, advance prod.head objs.length⟩ cons cells'
        (.enqEnd objs .queueFixed objs.length free))
      [.enqueued objs.length (free - BitVec.ofNat 32 objs.length)]
      (.solo t ⟨advance prod.head objs.length, advance prod.head objs.length⟩ cons cells' .idle) :=
    Solo.act rfl (by simp only [RingState.next, RingState.solo_thread, RingState.goto_solo])
  have hwork := (((((hhead.trans htail).trans hcas).trans hcopy).trans hcopied).trans hturn)
  -- of all these steps the queue sees the store of the tail only
  refine ⟨_, cells', (hwork.trans hstore).trans hreturn, ?_⟩
  simp only [List.map_append, List.map_cons, List.map_nil, List.map_replicate,
    List.flatMap_append, List.flatMap_cons, List.flatMap_nil, RingEvent.spec,
    List.flatMap_replicate, List.append_nil, List.nil_append, List.flatten_replicate_nil]

/-- An enqueue in bulk that finds no room, or has nothing to enqueue. -/
theorem Solo.enqueueFull {objs : List α} {free : BitVec 32}
    (hfree : BitVec.ofNat 32 conf.capacity + bits cons.tail - bits prod.head = free)
    (hroom : toMove .queueFixed objs.length free = 0) :
    Solo conf t (.solo t prod cons cells (.enqHead objs .queueFixed))
      [.access, .full, .enqueued 0 free] (.solo t prod cons cells .idle) := by
  have hself : bits prod.head - bits prod.head = 0 := BitVec.sub_self _
  have hhead : Solo conf t (.solo t prod cons cells (.enqHead objs .queueFixed)) [.access]
      (.solo t prod cons cells (.enqTail objs .queueFixed prod.head)) :=
    Solo.loadProd objs .queueFixed
  have htail : Solo conf t (.solo t prod cons cells (.enqTail objs .queueFixed prod.head))
      [.full] (.solo t prod cons cells (.enqEnd objs .queueFixed 0 free)) :=
    Solo.act hself (by simp only [RingState.next, RingState.solo_thread, RingState.solo_cons,
      RingState.goto_solo, hfree, hroom, if_true])
  have hreturn : Solo conf t (.solo t prod cons cells (.enqEnd objs .queueFixed 0 free))
      [.enqueued 0 free] (.solo t prod cons cells .idle) :=
    Solo.act rfl (by simp only [RingState.next, RingState.solo_thread, RingState.goto_solo,
      BitVec.sub_zero])
  exact (hhead.trans htail).trans hreturn

/-! ## A dequeue -/

/-- The dequeue loads the head. -/
theorem Solo.loadCons (n : Nat) (b : Behavior) :
    Solo conf t (.solo t prod cons cells (.deqHead n b)) [.access]
      (.solo t prod cons cells (.deqTail n b cons.head)) :=
  Solo.act rfl (by simp only [RingState.next, RingState.solo_thread, RingState.solo_cons,
    RingState.goto_solo])

/-- The objects are copied out, one cell in each step.  Here it does matter which: the thread has
    read the first `i` of the `n` cells behind the head. -/
theorem Solo.copyOut {max : Nat} {b : Behavior} {n : Nat} {entries : BitVec 32}
    (hsize : n ≤ conf.size) (head : C) (k i : Nat) (hk : i + k = n) :
    Solo conf t (.solo t prod cons cells (.deqCopy max b head n entries
        ((List.range i).map fun j => cells (conf.index (advance head j)))))
      (List.replicate k .access)
      (.solo t prod cons cells (.deqCopy max b head n entries
        ((List.range n).map fun j => cells (conf.index (advance head j))))) := by
  induction k generalizing i with
  | zero =>
    obtain rfl : i = n := hk
    exact Run.nil
  | succ k ih =>
    -- the access that is due: out of the cell of the index `i` behind the head
    have hat : (copyElems64 conf.size (conf.index head) n)[i]?
        = some (conf.index (advance head i), i) := by
      rw [copyElems64, copyElems_eq (conf.index_lt head) hsize, if_pos (by omega),
        conf.index_advance]
    refine Solo.trans (Solo.act rfl ?_) (ih (i + 1) (by omega))
    simp only [RingState.next, RingState.solo_thread, List.length_map, List.length_range, hat,
      RingState.solo_cells, RingState.goto_solo, List.range_succ, List.map_append, List.map_cons,
      List.map_nil]

/-- A dequeue in bulk that finds what it wants: it returns the cells behind the head, and the ring
    moves `cons` past them and shows one `take`. -/
theorem Solo.dequeue {n : Nat} {entries : BitVec 32}
    (hrest : cons.tail = cons.head) (hentries : bits prod.tail - bits cons.head = entries)
    (hthere : n ≤ entries.toNat) (hsize : n ≤ conf.size) (hne : n ≠ 0) :
    ∃ acts, Solo conf t (.solo t prod cons cells (.deqHead n .queueFixed))
      (acts ++ [.dequeued ((List.range n).map fun j => cells (conf.index (advance cons.head j)))
        (entries - BitVec.ofNat 32 n)])
      (.solo t prod ⟨advance cons.head n, advance cons.head n⟩ cells .idle) ∧
      (acts.map (RingEvent.act t)).flatMap RingEvent.spec = [.take t n] := by
  have hmove : toMove .queueFixed n entries = n := if_neg (by omega)
  have hself : bits cons.head - bits cons.head = 0 := BitVec.sub_self _
  have hhead : Solo conf t (.solo t prod cons cells (.deqHead n .queueFixed)) [.access]
      (.solo t prod cons cells (.deqTail n .queueFixed cons.head)) :=
    Solo.loadCons n .queueFixed
  have htail : Solo conf t (.solo t prod cons cells (.deqTail n .queueFixed cons.head))
      [.access]
      (.solo t prod cons cells (.deqCas n .queueFixed cons.head n entries)) :=
    Solo.act hself (by simp only [RingState.next, RingState.solo_thread, RingState.solo_prod,
      RingState.goto_solo, hentries, hmove, if_neg hne])
  -- with the first compare-and-set, which succeeds, the objects are taken
  have hcas : Solo conf t (.solo t prod cons cells (.deqCas n .queueFixed cons.head n entries))
      [.take n]
      (.solo t prod ⟨advance cons.head n, cons.tail⟩ cells
        (.deqCopy n .queueFixed cons.head n entries [])) :=
    Solo.act hself (by simp only [RingState.next, RingState.solo_thread, RingState.solo_prod,
      RingState.solo_cons, RingState.solo_cells, RingState.goto_mk, if_true])
  have hcopy : Solo conf t
      (.solo t prod ⟨advance cons.head n, cons.tail⟩ cells
        (.deqCopy n .queueFixed cons.head n entries []))
      (List.replicate n .access)
      (.solo t prod ⟨advance cons.head n, cons.tail⟩ cells
        (.deqCopy n .queueFixed cons.head n entries
          ((List.range n).map fun j => cells (conf.index (advance cons.head j))))) :=
    Solo.copyOut hsize cons.head n 0 (Nat.zero_add _)
  -- from here on only the number of the objects matters
  generalize hgot : ((List.range n).map fun j => cells (conf.index (advance cons.head j))) = got
    at hcopy ⊢
  have hlen : got.length = n := by rw [← hgot, List.length_map, List.length_range]
  have hend : (copyElems64 conf.size (conf.index cons.head) n)[got.length]? = none := by
    rw [copyElems64, copyElems_eq (conf.index_lt cons.head) hsize, hlen,
      if_neg (Nat.lt_irrefl _)]
  have hcopied : Solo conf t
      (.solo t prod ⟨advance cons.head n, cons.tail⟩ cells
        (.deqCopy n .queueFixed cons.head n entries got)) [.access]
      (.solo t prod ⟨advance cons.head n, cons.tail⟩ cells
        (.deqWait n .queueFixed cons.head n entries got)) :=
    Solo.act rfl (by simp only [RingState.next, RingState.solo_thread, hend, RingState.goto_solo])
  -- nobody has to release cells before these
  have hturn : Solo conf t
      (.solo t prod ⟨advance cons.head n, cons.tail⟩ cells
        (.deqWait n .queueFixed cons.head n entries got)) [.access]
      (.solo t prod ⟨advance cons.head n, cons.tail⟩ cells
        (.deqStore n .queueFixed cons.head n entries got)) :=
    Solo.act rfl (by simp only [RingState.next, RingState.solo_thread, RingState.solo_cons, hrest,
      if_true, RingState.goto_solo])
  have hstore : Solo conf t
      (.solo t prod ⟨advance cons.head n, cons.tail⟩ cells
        (.deqStore n .queueFixed cons.head n entries got)) [.access]
      (.solo t prod ⟨advance cons.head n, advance cons.head n⟩ cells
        (.deqEnd n .queueFixed entries got)) :=
    Solo.act rfl (by simp only [RingState.next, RingState.solo_thread, RingState.solo_prod,
      RingState.solo_cons, RingState.solo_cells, RingState.goto_mk])
  have hreturn : Solo conf t
      (.solo t prod ⟨advance cons.head n, advance cons.head n⟩ cells
        (.deqEnd n .queueFixed entries got))
      [.dequeued got (entries - BitVec.ofNat 32 n)]
      (.solo t prod ⟨advance cons.head n, advance cons.head n⟩ cells .idle) :=
    Solo.act rfl (by simp only [RingState.next, RingState.solo_thread, RingState.goto_solo, hlen])
  have hwork := (((((hhead.trans htail).trans hcas).trans hcopy).trans hcopied).trans hturn)
  -- of all these steps the queue sees the move of the head only
  refine ⟨_, (hwork.trans hstore).trans hreturn, ?_⟩
  simp only [List.map_append, List.map_cons, List.map_nil, List.map_replicate,
    List.flatMap_append, List.flatMap_cons, List.flatMap_nil, RingEvent.spec,
    List.flatMap_replicate, List.append_nil, List.nil_append, List.flatten_replicate_nil]

/-- A dequeue in bulk that does not find what it wants, or wants nothing. -/
theorem Solo.dequeueEmpty {n : Nat} {entries : BitVec 32}
    (hentries : bits prod.tail - bits cons.head = entries)
    (hfew : toMove .queueFixed n entries = 0) :
    Solo conf t (.solo t prod cons cells (.deqHead n .queueFixed))
      [.access, .empty, .dequeued [] entries] (.solo t prod cons cells .idle) := by
  have hself : bits cons.head - bits cons.head = 0 := BitVec.sub_self _
  have hhead : Solo conf t (.solo t prod cons cells (.deqHead n .queueFixed)) [.access]
      (.solo t prod cons cells (.deqTail n .queueFixed cons.head)) :=
    Solo.loadCons n .queueFixed
  have htail : Solo conf t (.solo t prod cons cells (.deqTail n .queueFixed cons.head))
      [.empty] (.solo t prod cons cells (.deqEnd n .queueFixed entries [])) :=
    Solo.act hself (by simp only [RingState.next, RingState.solo_thread, RingState.solo_prod,
      RingState.goto_solo, hentries, hfew, if_true])
  have hreturn : Solo conf t (.solo t prod cons cells (.deqEnd n .queueFixed entries []))
      [.dequeued [] entries] (.solo t prod cons cells .idle) :=
    Solo.act rfl (by simp only [RingState.next, RingState.solo_thread, RingState.goto_solo,
      List.length_nil, BitVec.sub_zero])
  exact (hhead.trans htail).trans hreturn

end Alone

/-! ## The ring as a store -/

section Rest

variable {ι α : Type}

variable {conf : RingConf}

/-- What the indices of a ring at rest say: each tail is its head, and the two differences that
    an enqueue and a dequeue compute are the room and the number of the objects. -/
structure Resting (conf : RingConf) (s : RingState ι (BitVec 32) α) : Prop where
  prod : s.prod.tail = s.prod.head
  cons : s.cons.tail = s.cons.head
  entries : (s.prod.tail - s.cons.head).toNat = (s.contents conf).length
  free : (BitVec.ofNat 32 conf.capacity + s.cons.tail - s.prod.head).toNat
    = conf.capacity - (s.contents conf).length
  le : (s.contents conf).length ≤ conf.capacity

/-- With nobody inside an operation every reserved cell has been released, on both sides of the
    ring.  The lengths are those of the unbounded ring behind the 32-bit one. -/
theorem Implements.resting {s : RingState ι (BitVec 32) α} {q : Queue ι α}
    (h : Implements conf s q) (hrest : ∀ w, s.thread w = .idle) : Resting conf s := by
  have hcontents := h.contents_eq
  obtain ⟨u, rfl, hmatch, -⟩ := h
  have hidle : ∀ w, u.thread w = .idle := fun w => erase_eq_idle (hrest w)
  -- a thread that is idle has reserved nothing, and what nobody has reserved is released
  have hprod : u.prod.tail = u.prod.head :=
    hmatch.inv.prods.settled fun w => by rw [hidle w]; rfl
  have hcons : u.cons.tail = u.cons.head :=
    hmatch.inv.conss.settled fun w => by rw [hidle w]; rfl
  have horder := hmatch.inv.order
  have hroom := hmatch.inv.room
  have hlen : (u.erase.contents conf).length = u.prod.tail - u.cons.head := by
    rw [hcontents, hmatch.items_length]
  -- the room is counted as by a producer that has just loaded the head
  have hfree := free_eq hmatch.inv (Nat.le_refl u.prod.head)
    (by rw [Nat.sub_self]; exact Nat.zero_lt_succ _)
  constructor
  · exact congrArg bits hprod
  · exact congrArg bits hcons
  · show (bits u.prod.tail - bits u.cons.head).toNat = _
    rw [RingState.contents, List.length_map, List.length_range]
    rfl
  · rw [hlen]
    refine hfree.trans ?_
    omega
  · omega

variable [DecidableEq ι] [DecidableEq α] [Fintype ι]

/-- The contents of the ring, by what has been published and taken: this carries the third step,
    for it holds after every run and the events of a run of one thread are known. -/
theorem contents_of_run {cells : Nat → α} {es : List (RingEvent ι α)}
    {s : RingState ι (BitVec 32) α}
    (h : Run (RingState.timelyStep conf) (RingState.init 0 cells) es s) :
    s.contents conf = (adds (es.flatMap RingEvent.spec)).drop
        (tally Event.takes (es.flatMap RingEvent.spec)) ∧
      tally Event.takes (es.flatMap RingEvent.spec)
        ≤ (adds (es.flatMap RingEvent.spec)).length := by
  obtain ⟨q, hrun, himpl⟩ := implements_run h
  have hlaw := run_law hrun
  have hle := hlaw.out_le
  rw [hlaw.log, hlaw.out] at hle
  refine ⟨?_, hle⟩
  rw [himpl.contents_eq, Queue.items, hlaw.log, hlaw.out]

/-- From the ring at rest in `s`, thread `t` calls `op`, returns with `answer` (and a count), and
    leaves the ring at rest with the contents `xs`. -/
def RingState.Serves (conf : RingConf) (s : RingState ι (BitVec 32) α) (t : ι) (op : RingOp α)
    (answer : BitVec 32 → RingAction α) (xs : List α) : Prop :=
  ∃ acts count s', Run (RingState.timelyStep conf) s
      (.call t op :: (acts ++ [answer count]).map (.act t)) s' ∧
    (∀ w, s'.thread w = .idle) ∧ s'.contents conf = xs

/-- A run of a single thread, and the contents after it: `es` has led to `s`, and what the thread
    publishes and takes is appended to what `es` has. -/
theorem serves_of_solo {cells : Nat → α} {es : List (RingEvent ι α)}
    {s s' : RingState ι (BitVec 32) α}
    (h : Run (RingState.timelyStep conf) (RingState.init 0 cells) es s)
    (hrest : ∀ w, s.thread w = .idle) {t : ι} {op : RingOp α} (hfits : op.Fits)
    (acts : List (RingAction α)) (answer : BitVec 32 → RingAction α) (count : BitVec 32)
    (hsolo : Solo conf t (.solo t s.prod s.cons s.cells op.start) (acts ++ [answer count]) s')
    (hrest' : ∀ w, s'.thread w = .idle) {objs : List α} {n : Nat}
    (hadds : adds (((acts ++ [answer count]).map (RingEvent.act t)).flatMap RingEvent.spec) = objs)
    (htakes : tally Event.takes
      (((acts ++ [answer count]).map (RingEvent.act t)).flatMap RingEvent.spec) = n)
    (hn : n ≤ (s.contents conf).length) :
    s.Serves conf t op answer ((s.contents conf).drop n ++ objs) := by
  have hcall : RingState.timelyStep conf s (.call t op)
      = some (.solo t s.prod s.cons s.cells op.start) := by
    have hstep : RingState.timelyStep conf (.solo t s.prod s.cons s.cells .idle) (.call t op)
        = some (.solo t s.prod s.cons s.cells op.start) := solo_call hfits
    rw [RingState.solo_idle hrest] at hstep
    exact hstep
  have hrun := Run.cons hcall hsolo
  refine ⟨acts, count, s', hrun, hrest', ?_⟩
  obtain ⟨hbefore, hk⟩ := contents_of_run h
  obtain ⟨hafter, -⟩ := contents_of_run (h.trans hrun)
  rw [List.flatMap_append, adds_append, tally_append, List.flatMap_cons, adds_append, tally_append,
    hadds, htakes] at hafter
  -- the call itself changes nothing
  have hasked : adds (RingEvent.call t op : RingEvent ι α).spec = [] ∧
      tally Event.takes (RingEvent.call t op : RingEvent ι α).spec = 0 := by
    cases op <;> exact ⟨rfl, rfl⟩
  rw [hasked.1, hasked.2, List.nil_append, Nat.zero_add, ← List.drop_drop,
    List.drop_append_of_le_length hk, ← hbefore, List.drop_append_of_le_length hn] at hafter
  exact hafter

omit [DecidableEq α] [Fintype ι] in
/-- All threads of a solo state are idle if its thread is. -/
theorem solo_rest {C : Type} (t : ι) (prod cons : HeadTail C) (cells : Nat → α) (w : ι) :
    (RingState.solo t prod cons cells (.idle : RingThread C α)).thread w = .idle := by
  show Function.update (fun _ => RingThread.idle) t .idle w = .idle
  rw [Function.update_eq_self (f := fun _ => (.idle : RingThread C α))]

section Served

variable {cells : Nat → α} {es : List (RingEvent ι α)} {s : RingState ι (BitVec 32) α}

/-! The four ways a call can go.  In each the run of the thread is the one written out above, and
    the numbers it needs come from `Resting`. -/

/-- Too many objects, or none. -/
theorem enqueue_refused
    (h : Run (RingState.timelyStep conf) (RingState.init 0 cells) es s)
    (hrest : ∀ w, s.thread w = .idle) (t : ι) {objs : List α}
    (hfits : (RingOp.enqueue objs .queueFixed).Fits) {free : BitVec 32}
    (hfree : BitVec.ofNat 32 conf.capacity + s.cons.tail - s.prod.head = free)
    (hmove : toMove .queueFixed objs.length free = 0) :
    s.Serves conf t (.enqueue objs .queueFixed) (.enqueued 0) (s.contents conf) := by
  have hsolo : Solo conf t (.solo t s.prod s.cons s.cells (.enqHead objs .queueFixed))
      ([.access, .full] ++ [.enqueued 0 free]) (.solo t s.prod s.cons s.cells .idle) :=
    Solo.enqueueFull hfree hmove
  have hserved := serves_of_solo h hrest hfits [.access, .full] (.enqueued 0) free hsolo
    (solo_rest t _ _ _) rfl rfl (Nat.zero_le _)
  have hsame : (s.contents conf).drop 0 ++ [] = s.contents conf := List.append_nil _
  rw [← hsame]
  exact hserved

/-- Objects for which there is room. -/
theorem enqueue_served
    (h : Run (RingState.timelyStep conf) (RingState.init 0 cells) es s)
    (hrest : ∀ w, s.thread w = .idle) (hr : Resting conf s) (t : ι) {objs : List α}
    (hfits : (RingOp.enqueue objs .queueFixed).Fits) (hne : objs.length ≠ 0)
    (hroom : (s.contents conf).length + objs.length ≤ conf.capacity) :
    s.Serves conf t (.enqueue objs .queueFixed) (.enqueued objs.length)
      (s.contents conf ++ objs) := by
  have hcap := conf.capacity_lt
  obtain ⟨free, hfree⟩ : ∃ free, BitVec.ofNat 32 conf.capacity + s.cons.tail - s.prod.head = free :=
    ⟨_, rfl⟩
  have hcount := hr.free
  rw [hfree] at hcount
  obtain ⟨acts, cells', hsolo, hspec⟩ : ∃ acts cells',
      Solo conf t (.solo t s.prod s.cons s.cells (.enqHead objs .queueFixed))
        (acts ++ [.enqueued objs.length (free - BitVec.ofNat 32 objs.length)])
        (.solo t ⟨advance s.prod.head objs.length, advance s.prod.head objs.length⟩ s.cons cells'
          .idle) ∧
        (acts.map (RingEvent.act t)).flatMap RingEvent.spec = [.add t objs] :=
    Solo.enqueue hr.prod hfree (by omega) (by omega) hne
  -- what it publishes, and nothing is taken
  have hall : ((acts ++ [RingAction.enqueued objs.length (free - BitVec.ofNat 32 objs.length)]).map
      (RingEvent.act t)).flatMap RingEvent.spec = [.add t objs, .answerAdd t objs.length] := by
    rw [List.map_append, List.flatMap_append, hspec]
    rfl
  exact serves_of_solo h hrest hfits acts (.enqueued objs.length) _ hsolo (solo_rest t _ _ _)
    (by rw [hall]; exact List.append_nil objs) (by rw [hall]; rfl) (Nat.zero_le _)

/-- More objects than there are, or none. -/
theorem dequeue_refused
    (h : Run (RingState.timelyStep conf) (RingState.init 0 cells) es s)
    (hrest : ∀ w, s.thread w = .idle) (t : ι) {n : Nat}
    (hfits : (RingOp.dequeue n .queueFixed : RingOp α).Fits) {entries : BitVec 32}
    (hentries : s.prod.tail - s.cons.head = entries)
    (hmove : toMove .queueFixed n entries = 0) :
    s.Serves conf t (.dequeue n .queueFixed) (.dequeued []) (s.contents conf) := by
  have hsolo : Solo conf t (.solo t s.prod s.cons s.cells (.deqHead n .queueFixed))
      ([.access, .empty] ++ [.dequeued [] entries]) (.solo t s.prod s.cons s.cells .idle) :=
    Solo.dequeueEmpty hentries hmove
  have hserved := serves_of_solo h hrest hfits [.access, .empty] (.dequeued []) entries hsolo
    (solo_rest t _ _ _) rfl rfl (Nat.zero_le _)
  have hsame : (s.contents conf).drop 0 ++ [] = s.contents conf := List.append_nil _
  rw [← hsame]
  exact hserved

/-- As many objects as there are, or fewer: the oldest ones. -/
theorem dequeue_served
    (h : Run (RingState.timelyStep conf) (RingState.init 0 cells) es s)
    (hrest : ∀ w, s.thread w = .idle) (hr : Resting conf s) (t : ι) {n : Nat}
    (hfits : (RingOp.dequeue n .queueFixed : RingOp α).Fits) (hne : n ≠ 0)
    (hthere : n ≤ (s.contents conf).length) :
    s.Serves conf t (.dequeue n .queueFixed) (.dequeued ((s.contents conf).take n))
      ((s.contents conf).drop n) := by
  have hcap := conf.capacity_lt
  have hle := hr.le
  obtain ⟨entries, hentries⟩ : ∃ entries, s.prod.tail - s.cons.head = entries := ⟨_, rfl⟩
  have hcount := hr.entries
  rw [hentries] at hcount
  -- what is copied out is the front of the contents
  have hgot : (List.range n).map (fun j => s.cells (conf.index (advance s.cons.head j)))
      = (s.contents conf).take n := by
    have hn : n ≤ (bits s.prod.tail - bits s.cons.head).toNat := by
      rw [RingState.contents, List.length_map, List.length_range] at hthere
      exact hthere
    rw [RingState.contents, ← List.map_take, List.take_range, Nat.min_eq_left hn]
  obtain ⟨acts, hsolo, hspec⟩ : ∃ acts,
      Solo conf t (.solo t s.prod s.cons s.cells (.deqHead n .queueFixed))
        (acts ++ [.dequeued ((List.range n).map fun j =>
          s.cells (conf.index (advance s.cons.head j))) (entries - BitVec.ofNat 32 n)])
        (.solo t s.prod ⟨advance s.cons.head n, advance s.cons.head n⟩ s.cells .idle) ∧
        (acts.map (RingEvent.act t)).flatMap RingEvent.spec = [.take t n] :=
    Solo.dequeue hr.cons hentries (by omega) (by omega) hne
  rw [hgot] at hsolo
  -- nothing is published
  have hall : ((acts ++ [RingAction.dequeued ((s.contents conf).take n)
      (entries - BitVec.ofNat 32 n)]).map (RingEvent.act t)).flatMap RingEvent.spec
        = [.take t n, .answerTake t ((s.contents conf).take n)] := by
    rw [List.map_append, List.flatMap_append, hspec]
    rfl
  have hserved : s.Serves conf t (.dequeue n .queueFixed) (.dequeued ((s.contents conf).take n))
      ((s.contents conf).drop n ++ []) :=
    serves_of_solo h hrest hfits acts (.dequeued ((s.contents conf).take n)) _ hsolo
      (solo_rest t _ _ _) (by rw [hall]; rfl) (by rw [hall]; rfl) hthere
  rw [List.append_nil] at hserved
  exact hserved

end Served

/-- **A ring at rest is a first-in, first-out store**: after any run in which no thread has fallen
    behind, a thread that enqueues or dequeues in bulk while all others are idle is answered, and
    leaves the contents, as `Magazine.fifo` says. -/
theorem ring_at_rest {cells : Nat → α} {es : List (RingEvent ι α)}
    {s : RingState ι (BitVec 32) α}
    (h : Run (RingState.timelyStep conf) (RingState.init 0 cells) es s)
    (hrest : ∀ w, s.thread w = .idle) (t : ι) :
    (∀ objs : List α, objs.length < 4294967296 →
      match (Magazine.fifo conf.capacity).give (s.contents conf) objs with
      | some xs => s.Serves conf t (.enqueue objs .queueFixed) (.enqueued objs.length) xs
      | none => s.Serves conf t (.enqueue objs .queueFixed) (.enqueued 0) (s.contents conf)) ∧
    (∀ n, n < 4294967296 →
      match (Magazine.fifo conf.capacity).take (s.contents conf) n with
      | some (got, xs) => s.Serves conf t (.dequeue n .queueFixed) (.dequeued got) xs
      | none => s.Serves conf t (.dequeue n .queueFixed) (.dequeued []) (s.contents conf)) := by
  obtain ⟨q, -, himpl⟩ := implements_run h
  have hr := himpl.resting hrest
  have hfree := hr.free
  have hentries := hr.entries
  have hle := hr.le
  constructor
  · intro objs hfits
    have hgive : (Magazine.fifo conf.capacity).give (s.contents conf) objs
        = if (s.contents conf).length + objs.length ≤ conf.capacity then
            some (s.contents conf ++ objs) else none := rfl
    rw [hgive]
    by_cases hroom : (s.contents conf).length + objs.length ≤ conf.capacity
    · rw [if_pos hroom]
      by_cases hnil : objs.length = 0
      · -- nothing is enqueued, and the ring says so
        obtain rfl := List.eq_nil_of_length_eq_zero hnil
        have hserved := enqueue_refused h hrest t hfits rfl rfl
        rw [← List.append_nil (s.contents conf)] at hserved
        exact hserved
      · exact enqueue_served h hrest hr t hfits hnil hroom
    · rw [if_neg hroom]
      -- the count of free cells, which has not wrapped, is too small
      have hfew : objs.length
          > (BitVec.ofNat 32 conf.capacity + s.cons.tail - s.prod.head).toNat := by
        omega
      exact enqueue_refused h hrest t hfits rfl (if_pos hfew)
  · intro n hfits
    have htake : (Magazine.fifo conf.capacity).take (s.contents conf) n
        = if n ≤ (s.contents conf).length then
            some ((s.contents conf).take n, (s.contents conf).drop n) else none := rfl
    rw [htake]
    by_cases hthere : n ≤ (s.contents conf).length
    · rw [if_pos hthere]
      by_cases hnone : n = 0
      · -- nothing is wanted: a refusal, with the same result
        rw [hnone]
        exact dequeue_refused h hrest t (Nat.zero_lt_succ _) rfl rfl
      · exact dequeue_served h hrest hr t hfits hnone hthere
    · rw [if_neg hthere]
      have hfew : n > (s.prod.tail - s.cons.head).toNat := by
        omega
      exact dequeue_refused h hrest t hfits rfl (if_pos hfew)

end Rest

/-- After `race` the ring holds three objects and has room for no more. -/
theorem ring_at_rest_race : ∃ s : RingState (Fin 2) (BitVec 32) Nat,
    s.Serves fourCells 0 (.enqueue [4] .queueFixed) (.enqueued 0) [7, 8, 9] ∧
    s.Serves fourCells 1 (.dequeue 2 .queueFixed) (.dequeued [7, 8]) [9] := by
  obtain ⟨s, hs⟩ : ∃ s, s = (exec (RingState.timelyStep fourCells) noCells race).get race_runs :=
    ⟨_, rfl⟩
  have hrest : ∀ w, s.thread w = .idle := by
    rw [hs]
    decide +kernel
  have hcontents : s.contents fourCells = [7, 8, 9] := by
    rw [hs]
    decide +kernel
  have hreach : Run (RingState.timelyStep fourCells) noCells race s := by
    rw [hs]
    exact run_of_exec_isSome race_runs
  have hgive := (ring_at_rest hreach hrest 0).1 [4] (by decide)
  have htake := (ring_at_rest hreach hrest 1).2 2 (by decide)
  rw [hcontents] at hgive htake
  exact ⟨s, hgive, htake⟩

end PacketSend
