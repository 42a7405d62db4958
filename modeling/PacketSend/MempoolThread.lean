/-
  The threads of a mempool whose common pool is a ring.

  `rte_mempool_put_bulk` and `rte_mempool_get_bulk` once more, now as a program of `QueueClient`:
  a call runs up to the point where it calls the ring, stands there at its request, and goes on
  when it is answered.  There are four such points: the flush of a full cache and `ring_enqueue`
  in a put, the back-fill of the cache and `ring_dequeue` in a get.  What they call are the default
  ops, one `rte_ring_mp_enqueue_bulk` or one `rte_ring_mc_dequeue_bulk`.  Everything between them is
  done on objects of the thread's own, the cache of its lcore among them, in the order of the
  code: during a flush `cache->len` still counts the objects that are being flushed.

  A thread outside EAL has no cache.  The NIC is such a thread as well; one that never calls the
  mempool is a hand of `PoolUse`.

  What the ring answers to an enqueue is not looked at by the code (`rte_mempool_ops_enqueue_bulk`
  is asserted to succeed in a debug build only).  If the ring refused, the objects would be gone:
  they have left the hand or the cache, and nobody has them.  That this does not happen is a
  matter of counting, over all threads and the ring: a ring made for as many objects as the
  mempool has can hold all that are not elsewhere.  `weight` is what is counted.

  * `poolClient_frames`    — the steps of a thread do not touch threads that are in a call;
  * `poolClient_conserves` — no object is lost or made on the way, not even by a copy that leaves
                             the array of a cache: `weight` counts the objects of a thread at any
                             point of a call.
-/
import PacketSend.MempoolUse
import PacketSend.RingClient

namespace PacketSend

open Runs Ranking QueueClient

variable {ι α : Type}

/-! ## The program -/

/-- Where a thread is: outside the mempool, at one of the calls of the ring with what is passed to
    it, or past the array of its cache, with the objects it was about to copy. -/
inductive PoolPc (α : Type) where
  | idle
  | enqueue (objTable : List α)
  | flush (excess : List α)
  | backfill (n req : Nat)
  | ringDequeue (n : Nat)
  | outOfBounds (objs : List α)
  deriving DecidableEq

/-- A thread: the objects in its hand, the cache of its lcore if it has one, and where it is. -/
structure PoolThread (α : Type) where
  hand : List α
  cache : Option (MempoolCache α)
  pc : PoolPc α

/-- The cache part of `rte_mempool_do_generic_put`, up to the flush.  The objects are copied in
    first, above the threshold if need be, and what is above `cache->size` is flushed. -/
def PoolThread.putCached [DecidableEq α] (th : PoolThread α) (objTable : List α)
    (cache : MempoolCache α) : PoolThread α :=
  match copyIn cache.objs cache.len objTable with
  | none => { th with pc := .outOfBounds [] }
  | some objs =>
    let hand := th.hand.diff objTable
    let len := cache.len + objTable.length
    if cache.flushthresh ≤ len then
      match copyOut objs cache.size (len - cache.size) with
      | none => { th with pc := .outOfBounds [] }
      | some excess =>
        { hand := hand, cache := some { cache with objs := objs, len := len }, pc := .flush excess }
    else { hand := hand, cache := some { cache with objs := objs, len := len }, pc := .idle }

/-- `rte_mempool_do_generic_put`, up to the call of the ring: without a cache, or with more
    objects than a cache may have, all of them go to the ring. -/
def PoolThread.put [DecidableEq α] (th : PoolThread α) (objTable : List α) : PoolThread α :=
  match th.cache with
  | none => { th with hand := th.hand.diff objTable, pc := .enqueue objTable }
  | some cache =>
    if mempoolCacheMaxSize < objTable.length then
      { th with hand := th.hand.diff objTable, pc := .enqueue objTable }
    else th.putCached objTable cache

/-- Filling the response and `cache->len -= n`. -/
def PoolThread.respond (th : PoolThread α) (n : Nat) (cache : MempoolCache α) : PoolThread α :=
  match fillResponse cache.objs cache.len n with
  | none => { th with cache := some cache, pc := .outOfBounds [] }
  | some objTable =>
    { hand := th.hand ++ objTable, cache := some { cache with len := cache.len - n }, pc := .idle }

/-- `rte_mempool_do_generic_get`, up to the call of the ring. -/
def PoolThread.get (th : PoolThread α) (n : Nat) : PoolThread α :=
  match th.cache with
  | none => { th with pc := .ringDequeue n }
  | some cache =>
    if cache.size ≤ n then { th with pc := .ringDequeue n }
    else if cache.len < n then
      { th with pc := .backfill n (n + (cache.size - cache.len)) }
    else th.respond n cache

/-- The call of the ring at which a thread stands. -/
def PoolThread.request (th : PoolThread α) : Option (Request α) :=
  match th.pc with
  | .enqueue objTable => some (.give objTable)
  | .flush excess => some (.give excess)
  | .backfill _ req => some (.take req)
  | .ringDequeue n => some (.take n)
  | _ => none

/-- How it goes on, with the objects that a dequeue has brought.  What an enqueue has answered is
    not looked at; a back-fill that has brought nothing goes to `ring_dequeue`. -/
def PoolThread.reply (th : PoolThread α) (objs : List α) : PoolThread α :=
  match th.pc, th.cache with
  | .enqueue _, _ => { th with pc := .idle }
  | .flush _, cache => { th with cache := cache.map fun c => { c with len := c.size }, pc := .idle }
  | .backfill n req, some cache =>
    if objs.length = 0 then { th with pc := .ringDequeue n }
    else
      match copyIn cache.objs cache.len objs with
      | none => { th with pc := .outOfBounds objs }
      | some filled => th.respond n { cache with objs := filled, len := cache.len + req }
  | .backfill _ _, none => { th with pc := .outOfBounds objs }
  | .ringDequeue _, _ => { th with hand := th.hand ++ objs, pc := .idle }
  | _, _ => th

/-- What threads do on their own: put some of their objects, get a number of objects (at least
    one), pass objects from hand to hand. -/
inductive PoolEvent (ι α : Type) where
  | put (t : ι) (objTable : List α)
  | get (t : ι) (n : Nat)
  | pass (src dst : ι) (xs : List α)

/-- One such step, of threads that are not in a call. -/
def poolOwn [DecidableEq ι] [DecidableEq α] (loc : ι → PoolThread α) :
    PoolEvent ι α → Option (ι → PoolThread α)
  | .put t objTable =>
    if (loc t).pc = .idle ∧ objTable.Subperm (loc t).hand then
      some (Function.update loc t ((loc t).put objTable))
    else none
  | .get t n =>
    if (loc t).pc = .idle ∧ 0 < n then some (Function.update loc t ((loc t).get n)) else none
  | .pass src dst xs =>
    if src ≠ dst ∧ ((loc src).pc = .idle ∧ (loc dst).pc = .idle) ∧ xs.Subperm (loc src).hand then
      some (Function.update
        (Function.update loc src { loc src with hand := (loc src).hand.diff xs })
        dst { loc dst with hand := (loc dst).hand ++ xs })
    else none

/-- The threads as a program over the ring. -/
def poolClient (ι α : Type) [DecidableEq ι] [DecidableEq α] :
    Client ι α (PoolThread α) (PoolEvent ι α) where
  own := poolOwn
  request := PoolThread.request
  reply := PoolThread.reply

section Program

variable [DecidableEq ι] [DecidableEq α]

/-- What a step of threads on their own can be: all the threads it is about are idle. -/
inductive PoolOwn (loc : ι → PoolThread α) : PoolEvent ι α → (ι → PoolThread α) → Prop where
  | put {t : ι} {objTable : List α} (hidle : (loc t).pc = .idle)
      (hsub : objTable.Subperm (loc t).hand) :
      PoolOwn loc (.put t objTable) (Function.update loc t ((loc t).put objTable))
  | get {t : ι} {n : Nat} (hidle : (loc t).pc = .idle) (hpos : 0 < n) :
      PoolOwn loc (.get t n) (Function.update loc t ((loc t).get n))
  | pass {src dst : ι} {xs : List α} (hne : src ≠ dst) (hsrc : (loc src).pc = .idle)
      (hdst : (loc dst).pc = .idle) (hsub : xs.Subperm (loc src).hand) :
      PoolOwn loc (.pass src dst xs) (Function.update
        (Function.update loc src { loc src with hand := (loc src).hand.diff xs })
        dst { loc dst with hand := (loc dst).hand ++ xs })

/-- The inversion of `poolOwn`. -/
theorem poolOwn_inv {loc loc' : ι → PoolThread α} {e : PoolEvent ι α}
    (h : poolOwn loc e = some loc') : PoolOwn loc e loc' := by
  cases e with
  | put t objTable =>
    simp only [poolOwn] at h
    split at h
    · rename_i hok
      obtain rfl := Option.some.inj h
      exact PoolOwn.put hok.1 hok.2
    · cases h
  | get t n =>
    simp only [poolOwn] at h
    split at h
    · rename_i hok
      obtain rfl := Option.some.inj h
      exact PoolOwn.get hok.1 hok.2
    · cases h
  | pass src dst xs =>
    simp only [poolOwn] at h
    split at h
    · rename_i hok
      obtain rfl := Option.some.inj h
      exact PoolOwn.pass hok.1 hok.2.1.1 hok.2.1.2 hok.2.2
    · cases h

/-- Every `PoolOwn` is a step. -/
theorem PoolOwn.step_eq {loc loc' : ι → PoolThread α} {e : PoolEvent ι α}
    (h : PoolOwn loc e loc') : (poolClient ι α).own loc e = some loc' := by
  cases h with
  | put hidle hsub => exact if_pos ⟨hidle, hsub⟩
  | get hidle hpos => exact if_pos ⟨hidle, hpos⟩
  | pass hne hsrc hdst hsub => exact if_pos ⟨hne, ⟨hsrc, hdst⟩, hsub⟩

/-! ## Threads in a call are left alone -/

omit [DecidableEq α] in
/-- A thread outside the mempool asks the ring for nothing. -/
theorem PoolThread.request_of_idle {th : PoolThread α} (h : th.pc = .idle) :
    th.request = none := by
  rw [PoolThread.request, h]

/-- **Frame**: the threads' own steps neither look at those that are in a call of the ring nor
    move them.  So it makes no difference whether those still stand at their call or have gone on,
    which is what lets a call of the ring take effect at one moment. -/
theorem poolClient_frames : (poolClient ι α).Frames := by
  intro loc stay e loc' h hstay
  have hself : (poolClient ι α).merge loc stay loc = stay := Client.merge_self hstay
  cases poolOwn_inv h with
  | @put t objTable hidle hsub =>
    have hnone : (poolClient ι α).request (loc t) = none := PoolThread.request_of_idle hidle
    have hsame := hstay t hnone
    rw [Client.merge_update _ hnone, hself, ← hsame]
    exact (PoolOwn.put (by rw [hsame]; exact hidle) (by rw [hsame]; exact hsub)).step_eq
  | @get t n hidle hpos =>
    have hnone : (poolClient ι α).request (loc t) = none := PoolThread.request_of_idle hidle
    have hsame := hstay t hnone
    rw [Client.merge_update _ hnone, hself, ← hsame]
    exact (PoolOwn.get (by rw [hsame]; exact hidle) hpos).step_eq
  | @pass src dst xs hne hsrc hdst hsub =>
    have hsrcNone : (poolClient ι α).request (loc src) = none := PoolThread.request_of_idle hsrc
    have hdstNone : (poolClient ι α).request (loc dst) = none := PoolThread.request_of_idle hdst
    have hsrcSame := hstay src hsrcNone
    have hdstSame := hstay dst hdstNone
    rw [Client.merge_update _ hdstNone, Client.merge_update _ hsrcNone, hself, ← hsrcSame,
      ← hdstSame]
    exact (PoolOwn.pass hne (by rw [hsrcSame]; exact hsrc) (by rw [hdstSame]; exact hdst)
      (by rw [hsrcSame]; exact hsub)).step_eq

end Program

/-! ## What threads have -/

/-- The objects that a thread is about to pass to the ring, or has lost. -/
def PoolPc.passing : PoolPc α → Nat
  | .enqueue objTable => objTable.length
  | .flush excess => excess.length
  | .outOfBounds objs => objs.length
  | _ => 0

/-- The objects that stay in the cache of a thread: during a flush those below `cache->size`, for
    the others are counted as passing. -/
def PoolThread.cached (th : PoolThread α) : Nat :=
  match th.pc with
  | .flush _ => th.cache.elim 0 MempoolCache.size
  | _ => th.cache.elim 0 MempoolCache.len

/-- The objects of a thread, in its hand, in its cache and on the way to the ring.  What the ring
    has taken from it or is about to give to it is counted with the ring. -/
def PoolThread.weight (th : PoolThread α) : Nat := th.hand.length + th.cached + th.pc.passing

/-- A copy that stays inside the array is of as many objects as it should be. -/
theorem copyOut_length {k i n : Nat} {objs : Vector α k} {xs : List α}
    (h : copyOut objs i n = some xs) : xs.length = n := by
  unfold copyOut at h
  split at h
  · obtain rfl := Option.some.inj h
    rw [List.length_take, List.length_drop, Vector.length_toList]
    omega
  · cases h

/-- So is a response, and it is taken from below the top. -/
theorem fillResponse_length {k : Nat} {objs : Vector α k} : ∀ {top n : Nat} {xs : List α},
    fillResponse objs top n = some xs → xs.length = n ∧ n ≤ top
  | 0, 0, xs, h => by
    obtain rfl := Option.some.inj h
    exact ⟨rfl, Nat.le_refl 0⟩
  | top + 1, 0, xs, h => by
    obtain rfl := Option.some.inj h
    exact ⟨rfl, Nat.zero_le _⟩
  | 0, n + 1, xs, h => by cases h
  | top + 1, n + 1, xs, h => by
    rw [fillResponse] at h
    split at h
    · cases h
    · obtain ⟨ys, hys, rfl⟩ := Option.map_eq_some_iff.mp h
      obtain ⟨hlen, hle⟩ := fillResponse_length hys
      exact ⟨congrArg (· + 1) hlen, Nat.succ_le_succ hle⟩

/-- A response moves objects from the cache to the hand. -/
theorem PoolThread.weight_respond (th : PoolThread α) (n : Nat) (cache : MempoolCache α) :
    (th.respond n cache).weight = th.hand.length + cache.len := by
  unfold PoolThread.respond
  cases hfill : fillResponse cache.objs cache.len n with
  | none => rfl
  | some objTable =>
    obtain ⟨hlen, hle⟩ := fillResponse_length hfill
    show (th.hand ++ objTable).length + (cache.len - n) + 0 = th.hand.length + cache.len
    rw [List.length_append]
    omega

/-- Outside the mempool nothing is on the way. -/
theorem PoolThread.weight_of_idle {th : PoolThread α} (h : th.pc = .idle) :
    th.weight = th.hand.length + th.cache.elim 0 MempoolCache.len := by
  rw [PoolThread.weight, PoolThread.cached, h]
  rfl

/-! `get` and `put`, unfolded once. -/

theorem PoolThread.get_of_none {th : PoolThread α} (h : th.cache = none) (n : Nat) :
    th.get n = { th with pc := .ringDequeue n } := by
  simp only [PoolThread.get, h]

theorem PoolThread.get_of_some {th : PoolThread α} {cache : MempoolCache α}
    (h : th.cache = some cache) (n : Nat) :
    th.get n = if cache.size ≤ n then { th with pc := .ringDequeue n }
      else if cache.len < n then { th with pc := .backfill n (n + (cache.size - cache.len)) }
      else th.respond n cache := by
  simp only [PoolThread.get, h]

/-- A get that begins changes nothing yet, unless the cache can serve it. -/
theorem PoolThread.weight_get {th : PoolThread α} (hidle : th.pc = .idle) (n : Nat) :
    (th.get n).weight = th.weight := by
  rw [PoolThread.weight_of_idle hidle]
  cases hcache : th.cache with
  | none =>
    rw [PoolThread.get_of_none hcache]
    simp only [PoolThread.weight, PoolThread.cached, hcache, PoolPc.passing, Nat.add_zero]
  | some cache =>
    rw [PoolThread.get_of_some hcache]
    split
    · simp only [PoolThread.weight, PoolThread.cached, hcache, PoolPc.passing, Nat.add_zero]
    · split
      · simp only [PoolThread.weight, PoolThread.cached, hcache, PoolPc.passing, Nat.add_zero]
      · exact th.weight_respond n cache

section

variable [DecidableEq α]

/-- Objects that leave a hand: no more than were there. -/
theorem length_diff {xs hand : List α} (hsub : xs.Subperm hand) :
    (hand.diff xs).length + xs.length = hand.length := by
  have hperm := List.subperm_append_diff_self_of_count_le (List.subperm_ext_iff.mp hsub)
  rw [← hperm.length_eq, List.length_append, Nat.add_comm]

theorem PoolThread.put_of_none {th : PoolThread α} (h : th.cache = none) (objTable : List α) :
    th.put objTable = { th with hand := th.hand.diff objTable, pc := .enqueue objTable } := by
  simp only [PoolThread.put, h]

theorem PoolThread.put_of_some {th : PoolThread α} {cache : MempoolCache α}
    (h : th.cache = some cache) (objTable : List α) :
    th.put objTable = if mempoolCacheMaxSize < objTable.length then
        { th with hand := th.hand.diff objTable, pc := .enqueue objTable }
      else th.putCached objTable cache := by
  simp only [PoolThread.put, h]

/-- The cache has the objects, or the flush has some of them. -/
theorem PoolThread.weight_putCached {th : PoolThread α} {cache : MempoolCache α}
    (hcache : th.cache = some cache) {objTable : List α} (hsub : objTable.Subperm th.hand) :
    (th.putCached objTable cache).weight = th.hand.length + cache.len := by
  have hdiff := length_diff hsub
  unfold PoolThread.putCached
  cases copyIn cache.objs cache.len objTable with
  | none =>
    simp only [PoolThread.weight, PoolThread.cached, hcache, PoolPc.passing, List.length_nil,
      Nat.add_zero, Option.elim]
  | some objs =>
    simp only
    split
    · cases hout : copyOut objs cache.size (cache.len + objTable.length - cache.size) with
      | none =>
        simp only [PoolThread.weight, PoolThread.cached, hcache, PoolPc.passing, List.length_nil,
          Nat.add_zero, Option.elim]
      | some excess =>
        -- what stays in the cache and what is flushed are all that was there
        have hexcess := copyOut_length hout
        have hsize := cache.size_le
        simp only [PoolThread.weight, PoolThread.cached, PoolPc.passing, Option.elim]
        omega
    · simp only [PoolThread.weight, PoolThread.cached, PoolPc.passing, Option.elim]
      omega

/-- A put that begins moves objects from the hand to the cache or on their way. -/
theorem PoolThread.weight_put {th : PoolThread α} (hidle : th.pc = .idle) {objTable : List α}
    (hsub : objTable.Subperm th.hand) : (th.put objTable).weight = th.weight := by
  have hdiff := length_diff hsub
  rw [PoolThread.weight_of_idle hidle]
  cases hcache : th.cache with
  | none =>
    rw [PoolThread.put_of_none hcache]
    simp only [PoolThread.weight, PoolThread.cached, hcache, PoolPc.passing, Option.elim]
    omega
  | some cache =>
    rw [PoolThread.put_of_some hcache]
    split
    · simp only [PoolThread.weight, PoolThread.cached, hcache, PoolPc.passing, Option.elim]
      omega
    · exact PoolThread.weight_putCached hcache hsub

omit [DecidableEq α] in
/-- What a thread passes to the ring it has no more when it is answered.  At the end of a flush
    the cache counts `cache->size` objects, as `cached` has counted them all along. -/
theorem PoolThread.weight_give {th : PoolThread α} {objs : List α}
    (h : th.request = some (.give objs)) : (th.reply []).weight + objs.length = th.weight := by
  unfold PoolThread.request at h
  unfold PoolThread.reply
  cases hpc : th.pc with
  | enqueue objTable =>
    rw [hpc] at h
    obtain rfl := Request.give.inj (Option.some.inj h)
    simp only [PoolThread.weight, PoolThread.cached, hpc, PoolPc.passing, Nat.add_zero]
  | flush excess =>
    rw [hpc] at h
    obtain rfl := Request.give.inj (Option.some.inj h)
    simp only [PoolThread.weight, PoolThread.cached, hpc, PoolPc.passing, Option.elim_map,
      Nat.add_zero]
    rfl
  | _ =>
    rw [hpc] at h
    cases h

omit [DecidableEq α] in
/-- What the ring has given to a thread it has when it is answered, in its hand or in its cache.
    A bulk dequeue gives all that was asked for or nothing, and `len += req` relies on it. -/
theorem PoolThread.weight_take {th : PoolThread α} {n : Nat} {objs : List α}
    (h : th.request = some (.take n)) (hlen : objs = [] ∨ objs.length = n) :
    (th.reply objs).weight = th.weight + objs.length := by
  unfold PoolThread.request at h
  unfold PoolThread.reply
  cases hpc : th.pc with
  | ringDequeue n' =>
    simp only [PoolThread.weight, PoolThread.cached, hpc, PoolPc.passing, List.length_append]
    omega
  | backfill n' req =>
    rw [hpc] at h
    obtain rfl := Request.take.inj (Option.some.inj h)
    cases hcache : th.cache with
    | none =>
      simp only [PoolThread.weight, PoolThread.cached, hpc, hcache, PoolPc.passing]
      omega
    | some cache =>
      simp only
      split
      · rename_i hzero
        simp only [PoolThread.weight, PoolThread.cached, hpc, hcache, PoolPc.passing, hzero]
      · rename_i hne
        have hreq : objs.length = req := by
          rcases hlen with rfl | hlen
          · exact absurd rfl hne
          · exact hlen
        split
        · simp only [PoolThread.weight, PoolThread.cached, hpc, hcache, PoolPc.passing]
          omega
        · rw [PoolThread.weight_respond]
          simp only [PoolThread.weight, PoolThread.cached, hpc, hcache, PoolPc.passing, Option.elim]
          omega
  | _ =>
    rw [hpc] at h
    cases h

variable [DecidableEq ι] [Fintype ι]

/-- **No object is lost**, by a step of threads on their own or in a call.  A step of one thread
    keeps its weight; objects that are passed leave one hand and come to another. -/
theorem poolClient_conserves : (poolClient ι α).Conserves PoolThread.weight := by
  refine ⟨fun loc e loc' h => ?_, fun th objs => PoolThread.weight_give,
    fun th n objs => PoolThread.weight_take⟩
  cases poolOwn_inv h with
  | @put t objTable hidle hsub =>
    have hsum := sum_update PoolThread.weight loc t ((loc t).put objTable)
    rw [PoolThread.weight_put hidle hsub] at hsum
    omega
  | @get t n hidle hpos =>
    have hsum := sum_update PoolThread.weight loc t ((loc t).get n)
    rw [PoolThread.weight_get hidle] at hsum
    omega
  | @pass src dst xs hne hsrc hdst hsub =>
    -- the sum changes at `src` first and then at `dst`
    have hsum := sum_update PoolThread.weight loc src
      { loc src with hand := (loc src).hand.diff xs }
    have hsum' := sum_update PoolThread.weight
      (Function.update loc src { loc src with hand := (loc src).hand.diff xs }) dst
      { loc dst with hand := (loc dst).hand ++ xs }
    have hsrcLen := length_diff hsub
    have hgone : PoolThread.weight { loc src with hand := (loc src).hand.diff xs } + xs.length
        = (loc src).weight := by
      have hidle : PoolThread.pc { loc src with hand := (loc src).hand.diff xs } = .idle := hsrc
      rw [PoolThread.weight_of_idle hsrc, PoolThread.weight_of_idle hidle]
      simp only
      omega
    have hcome : PoolThread.weight { loc dst with hand := (loc dst).hand ++ xs }
        = (loc dst).weight + xs.length := by
      have hidle : PoolThread.pc { loc dst with hand := (loc dst).hand ++ xs } = .idle := hdst
      rw [PoolThread.weight_of_idle hdst, PoolThread.weight_of_idle hidle]
      simp only [List.length_append]
      omega
    rw [Function.update_of_ne (Ne.symm hne)] at hsum'
    omega

end

end PacketSend
