/-
  A mempool on an `rte_ring` is the mempool of `PoolUse`.

  `PoolUse` has a store that takes and gives in one piece.  The store of the source is a ring, and
  a call of the mempool is many accesses to memory, between which other threads make theirs.  Two
  steps lead from one to the other:

  * the ring is a queue and never refuses what threads put back, so that a run over the ring is a
    run of the same threads over a list (`RingClient.run_atomic`);
  * there a call of the mempool consists of what a thread does on its own and of one or two
    requests.  It becomes one or two steps of `PoolUse`, made when the request is answered, or
    right away if there is none (`View.step`).

  In between `PoolUse` has the thread as it was before the call (`InCall`).  That is sound because
  nobody else can see the difference: a cache is used by one thread only (`Separate`).

  Where the step of `PoolUse` is made:

      put, no request         when the thread runs, for the objects stay in the cache
      put, flush or enqueue   when the ring has taken them
      get, no request         when the thread runs
      get, back-fill          when the ring has answered: `get` if it gave, `miss` if it had too
                              little
      get, `ring_dequeue`     `miss` when the thread arrives there, `dequeue` at the answer

  A call in `PoolUse` computes the cache, the common pool and the hand at once, from the state at
  that moment.  For each kind of call a lemma says that the thread, going from request to answer,
  comes to the same cache and hand, and that the pool is changed by what it has passed to the ring
  and nothing else (`put_cases`, `get_cases`).

  So everything that holds in the runs of `PoolUse` over a first-in, first-out store holds of the
  mempool on the ring (`mempool_on_ring`).
-/
import PacketSend.MempoolThread

namespace PacketSend

open Runs Places Ranking QueueClient

variable {ι α : Type} [DecidableEq ι] [DecidableEq α]

/-! ## Threads of the two machines -/

/-- No two threads run on one lcore.  (Threads outside EAL do not run on any.) -/
def Separate (lcoreId : ι → Nat) : Prop :=
  ∀ t t', t ≠ t' → lcoreId t < rteMaxLcore → lcoreId t ≠ lcoreId t'

instance [Fintype ι] (lcoreId : ι → Nat) : Decidable (Separate lcoreId) :=
  inferInstanceAs (Decidable (∀ _ _, _ → _ → _))

/-- A thread as `PoolUse` has it: outside the mempool, or at `ring_dequeue`. -/
def PoolUse.thread (lcoreId : ι → Nat) (p : PoolUse ι ι (List α) α) (t : ι) : PoolThread α where
  hand := p.hand t
  cache := (p.mp.defaultCache (lcoreId t)).map p.mp.localCache
  pc := match p.wait t with
    | none => .idle
    | some (_, n) => .ringDequeue n

/-- A thread of `PoolUse` and the same thread over the list, which can be in a put or in a
    back-fill that `PoolUse` has not begun. -/
inductive InCall (th : PoolThread α) : PoolThread α → Prop where
  | rest : InCall th th
  -- the put has been computed, and waits for the ring to take objects
  | put {objTable ys : List α} (hidle : th.pc = .idle) (hsub : objTable.Subperm th.hand)
      (hreq : (th.put objTable).request = some (.give ys)) : InCall th (th.put objTable)
  -- the get is to be computed from the answer
  | get {n req : Nat} (hidle : th.pc = .idle) (hpos : 0 < n)
      (hpc : th.get n = { th with pc := .backfill n req }) :
      InCall th { th with pc := .backfill n req }

section Threads

variable {lcoreId : ι → Nat} {p p' : PoolUse ι ι (List α) α} {t : ι} {th l : PoolThread α}

omit [DecidableEq ι] in
/-- A thread that is not in a call of the ring is where `PoolUse` has it. -/
theorem InCall.of_idle (h : InCall th l) (hl : l.pc = .idle) : l = th := by
  cases h with
  | rest => rfl
  | put hidle hsub hreq =>
    rw [PoolThread.request_of_idle hl] at hreq
    cases hreq
  | get hidle hpos hpc => cases hl

/-- A thread outside the mempool, on the lcore `id`. -/
def Mempool.atRest {δ : Type} (mp : Mempool δ α) (id : Nat) (hand : List α) : PoolThread α :=
  ⟨hand, (mp.defaultCache id).map mp.localCache, .idle⟩

/-! A thread after a step of `PoolUse`: the step changes its hand, its cache or its `wait`. -/

omit [DecidableEq ι] [DecidableEq α] in
/-- It waits for nothing. -/
theorem PoolUse.thread_mk {mp : Mempool (List α) α} {hands : ι → List α}
    {wait : ι → Option (ι × Nat)} {hand : List α} (hwait : wait t = none) (hhand : hands t = hand) :
    PoolUse.thread lcoreId ⟨mp, hands, wait⟩ t = mp.atRest (lcoreId t) hand := by
  simp only [PoolUse.thread, hwait, Mempool.atRest, hhand]

omit [DecidableEq ι] [DecidableEq α] in
/-- It has come to `ring_dequeue`. -/
theorem PoolUse.thread_waiting {wait : ι → Option (ι × Nat)} {h : ι} {n : Nat}
    (hwait : wait t = some (h, n)) : PoolUse.thread lcoreId ⟨p.mp, p.hand, wait⟩ t
      = { p.thread lcoreId t with pc := .ringDequeue n } := by
  simp only [PoolUse.thread, hwait]

omit [DecidableEq ι] [DecidableEq α] in
/-- Objects have been passed. -/
theorem PoolUse.thread_hand (hands : ι → List α) : PoolUse.thread lcoreId ⟨p.mp, hands, p.wait⟩ t
    = { p.thread lcoreId t with hand := hands t } := rfl

omit [DecidableEq ι] [DecidableEq α] in
/-- It has been answered at `ring_dequeue`: the objects do not go through the cache. -/
theorem PoolUse.reply_waiting {h : ι} {n : Nat} (hwait : p.wait t = some (h, n)) (objs : List α) :
    (p.thread lcoreId t).reply objs = p.mp.atRest (lcoreId t) (p.hand t ++ objs) := by
  simp only [PoolThread.reply, PoolUse.thread, hwait, Mempool.atRest]

omit [DecidableEq ι] [DecidableEq α] in
/-- A thread outside the mempool waits for nothing. -/
theorem PoolUse.wait_of_idle (h : (p.thread lcoreId t).pc = .idle) : p.wait t = none := by
  cases hw : p.wait t with
  | none => rfl
  | some r =>
    simp only [PoolUse.thread, hw] at h
    cases h

omit [DecidableEq ι] [DecidableEq α] in
/-- The cache of an lcore is the one with its number. -/
theorem Mempool.defaultCache_val {δ : Type} {mp : Mempool δ α} {id : Nat} {c : Fin rteMaxLcore}
    (h : mp.defaultCache id = some c) : c.val = id := by
  unfold Mempool.defaultCache at h
  split at h
  · cases h
  · split at h
    · obtain rfl := Option.some.inj h
      rfl
    · cases h

omit [DecidableEq ι] [DecidableEq α] in
/-- Whether a lcore has a cache is decided when the mempool is created. -/
theorem Mempool.defaultCache_congr {δ : Type} {mp mp' : Mempool δ α}
    (h : mp'.cacheSize = mp.cacheSize) (id : Nat) : mp'.defaultCache id = mp.defaultCache id := by
  rw [Mempool.defaultCache, Mempool.defaultCache, h]

omit [DecidableEq ι] [DecidableEq α] in
/-- Other threads see nothing of a call that uses the cache of one lcore. -/
theorem PoolUse.thread_congr (hsep : Separate lcoreId) {t' : ι} (hne : t' ≠ t)
    (hframe : ∀ c, c ∉ p.mp.defaultCache (lcoreId t) → p'.mp.localCache c = p.mp.localCache c)
    (hsize : p'.mp.cacheSize = p.mp.cacheSize) (hhand : p'.hand t' = p.hand t')
    (hwait : p'.wait t' = p.wait t') : p'.thread lcoreId t' = p.thread lcoreId t' := by
  have hdefault := Mempool.defaultCache_congr hsize (lcoreId t')
  have hcache : (p.mp.defaultCache (lcoreId t')).map p'.mp.localCache
      = (p.mp.defaultCache (lcoreId t')).map p.mp.localCache := by
    refine Option.map_congr fun c hc => hframe c fun hc' => ?_
    -- one cache for both threads would be that of one lcore
    have hc₁ := Mempool.defaultCache_val hc
    have hc₂ := Mempool.defaultCache_val hc'
    exact hsep t' t hne (hc₁ ▸ c.isLt) (hc₁.symm.trans hc₂)
  unfold PoolUse.thread
  rw [hdefault, hcache, hhand, hwait]

omit [DecidableEq ι] in
/-- No thread that `PoolUse` has is past the array of its cache. -/
theorem InCall.inside (h : InCall (p.thread lcoreId t) l) (objs : List α) :
    l.pc ≠ .outOfBounds objs := by
  intro hout
  cases h with
  | rest =>
    cases hw : p.wait t with
    | none => simp only [PoolUse.thread, hw] at hout; cases hout
    | some r => simp only [PoolUse.thread, hw] at hout; cases hout
  | put hidle hsub hreq =>
    rw [PoolThread.request, hout] at hreq
    cases hreq
  | get hidle hpos hpc => cases hout

omit [DecidableEq ι] in
/-- What `PoolUse` has of a thread whose put stands at the ring. -/
theorem InCall.of_give {objs : List α} (h : InCall (p.thread lcoreId t) l)
    (hreq : l.request = some (.give objs)) : ∃ objTable,
      (p.thread lcoreId t).pc = .idle ∧ objTable.Subperm (p.thread lcoreId t).hand ∧
      l = (p.thread lcoreId t).put objTable := by
  cases h with
  | rest =>
    cases hw : p.wait t with
    | none =>
      simp only [PoolThread.request, PoolUse.thread, hw] at hreq
      cases hreq
    | some r =>
      simp only [PoolThread.request, PoolUse.thread, hw] at hreq
      cases hreq
  | put hidle hsub hreq' => exact ⟨_, hidle, hsub, rfl⟩
  | get hidle hpos hpc => cases hreq

omit [DecidableEq ι] in
/-- What `PoolUse` has of a thread whose get stands at the ring: it waits at `ring_dequeue`, or
    the get has not begun. -/
theorem InCall.of_take {n : Nat} (h : InCall (p.thread lcoreId t) l)
    (hreq : l.request = some (.take n)) :
    (l = p.thread lcoreId t ∧ ∃ h', p.wait t = some (h', n)) ∨
    ∃ m, 0 < m ∧ (p.thread lcoreId t).pc = .idle ∧
      l = { p.thread lcoreId t with pc := .backfill m n } ∧
      (p.thread lcoreId t).get m = { p.thread lcoreId t with pc := .backfill m n } := by
  cases h with
  | rest =>
    cases hw : p.wait t with
    | none =>
      simp only [PoolThread.request, PoolUse.thread, hw] at hreq
      cases hreq
    | some r =>
      obtain ⟨h', m⟩ := r
      simp only [PoolThread.request, PoolUse.thread, hw] at hreq
      obtain rfl := Request.take.inj (Option.some.inj hreq)
      exact Or.inl ⟨rfl, h', rfl⟩
  | put hidle hsub hreq' =>
    rw [hreq'] at hreq
    cases hreq
  | get hidle hpos hpc =>
    obtain rfl := Request.take.inj (Option.some.inj hreq)
    exact Or.inr ⟨_, hpos, hidle, rfl, hpc⟩

end Threads

/-! ## A call in one piece and in two -/

section Calls

variable {δ : Type} {ops : Magazine.Depot δ α} {mp mp' : Mempool δ α} {id n : Nat}
  {th : PoolThread α} {objTable : List α}

omit [DecidableEq ι] [DecidableEq α] in
/-- The thread whose cache has been written. -/
theorem Mempool.atRest_update {c : Fin rteMaxLcore} (hc : mp.defaultCache id = some c)
    (cache : MempoolCache α) (pool : δ) (hand : List α) :
    (mp.update c cache pool).atRest id hand = ⟨hand, some cache, .idle⟩ := by
  have hdefault : (mp.update c cache pool).defaultCache id = some c := hc
  rw [Mempool.atRest, hdefault, Option.map_some]
  show PoolThread.mk hand (some (Function.update mp.localCache c cache c)) .idle = _
  rw [Function.update_self]

omit [DecidableEq ι] in
/-- A put into a cache is done, or the flush is all that is missing.  In `cachePut` the flush is
    part of the call; the thread has copied its objects in, has `len` still at its full height,
    and cuts it back when the flush is over. -/
theorem PoolThread.putCached_cases {cache cache' : MempoolCache α} {pool pool' : δ}
    (hput : cachePut ops pool objTable cache = some (cache', pool')) :
    (th.putCached objTable cache = ⟨th.hand.diff objTable, some cache', .idle⟩ ∧ pool' = pool) ∨
    ∃ ys, (th.putCached objTable cache).request = some (.give ys) ∧
      (th.putCached objTable cache).reply [] = ⟨th.hand.diff objTable, some cache', .idle⟩ ∧
      pool' = enqueueBulk ops pool ys := by
  unfold cachePut at hput
  unfold PoolThread.putCached
  cases hcopy : copyIn cache.objs cache.len objTable with
  | none =>
    rw [hcopy] at hput
    cases hput
  | some objs =>
    simp only [hcopy] at hput ⊢
    by_cases hfull : cache.flushthresh ≤ cache.len + objTable.length
    · rw [if_pos hfull] at hput ⊢
      cases hout : copyOut objs cache.size (cache.len + objTable.length - cache.size) with
      | none =>
        rw [hout] at hput
        cases hput
      | some excess =>
        rw [hout, Option.map_some] at hput
        obtain ⟨rfl, rfl⟩ := Prod.mk.inj (Option.some.inj hput)
        exact Or.inr ⟨excess, rfl, rfl, rfl⟩
    · rw [if_neg hfull] at hput ⊢
      obtain ⟨rfl, rfl⟩ := Prod.mk.inj (Option.some.inj hput)
      exact Or.inl ⟨rfl, rfl⟩

omit [DecidableEq ι] in
/-- A put of a thread is done, or what it passes to the ring is all that is missing. -/
theorem PoolThread.put_cases (th : PoolThread α)
    (hcache : th.cache = (mp.defaultCache id).map mp.localCache)
    (hput : mp.putBulk ops id objTable = some mp') :
    (th.put objTable = mp'.atRest id (th.hand.diff objTable) ∧ mp'.pool = mp.pool) ∨
    ∃ ys, (th.put objTable).request = some (.give ys) ∧
      (th.put objTable).reply [] = mp'.atRest id (th.hand.diff objTable) ∧
      mp'.pool = enqueueBulk ops mp.pool ys := by
  -- a put that goes to the ring as a whole
  have hring : th.put objTable
      = { th with hand := th.hand.diff objTable, pc := .enqueue objTable } →
      mp' = { mp with pool := enqueueBulk ops mp.pool objTable } →
      ∃ ys, (th.put objTable).request = some (.give ys) ∧
        (th.put objTable).reply [] = mp'.atRest id (th.hand.diff objTable) ∧
        mp'.pool = enqueueBulk ops mp.pool ys := by
    rintro hth rfl
    refine ⟨objTable, by rw [hth]; rfl, ?_, rfl⟩
    rw [hth]
    show PoolThread.mk _ th.cache .idle = _
    rw [hcache]
    rfl
  -- no cache, more objects than fit between a full cache and its threshold, or the cache
  unfold Mempool.putBulk at hput
  cases hd : mp.defaultCache id with
  | none =>
    rw [hd] at hput hcache
    exact Or.inr (hring (PoolThread.put_of_none hcache objTable) (Option.some.inj hput).symm)
  | some c =>
    rw [hd] at hput hcache
    rw [Mempool.doGenericPut] at hput
    rw [PoolThread.put_of_some hcache] at hring ⊢
    split at hput
    · rename_i hbig
      rw [if_pos hbig] at hring ⊢
      exact Or.inr (hring rfl (Option.some.inj hput).symm)
    · rename_i hbig
      rw [if_neg hbig]
      obtain ⟨⟨cache, pool⟩, hcached, rfl⟩ := Option.map_eq_some_iff.mp hput
      rw [Mempool.atRest_update hd]
      exact PoolThread.putCached_cases hcached

omit [DecidableEq ι] [DecidableEq α] in
/-- The response of a thread, and that of the mempool. -/
theorem PoolThread.respond_cases (th : PoolThread α) {cache : MempoolCache α} {pool : δ}
    (h : cacheRespond cache pool n ≠ .outOfBounds) : ∃ xs cache',
      cacheRespond cache pool n = .served xs cache' pool ∧
      th.respond n cache = ⟨th.hand ++ xs, some cache', .idle⟩ := by
  unfold cacheRespond at h ⊢
  unfold PoolThread.respond
  cases hfill : fillResponse cache.objs cache.len n with
  | none =>
    rw [hfill] at h
    exact absurd rfl h
  | some objTable => exact ⟨objTable, _, rfl, rfl⟩

/-- How a get of a thread can go on: to `ring_dequeue`; it is served; or the back-fill decides,
    and the mempool is served or goes to `ring_dequeue` as it is answered. -/
inductive GetCases (ops : Magazine.Depot δ α) (mp : Mempool δ α) (id n : Nat)
    (th : PoolThread α) : Prop where
  | ring (hget : th.get n = { th with pc := .ringDequeue n })
      (hcached : mp.getCached ops n (mp.defaultCache id) = .ringDequeue)
  | served {xs : List α} {mp' : Mempool δ α} (hget : th.get n = mp'.atRest id (th.hand ++ xs))
      (hcached : mp.getCached ops n (mp.defaultCache id) = .served xs mp')
      (hpool : mp'.pool = mp.pool)
  | backfill {req : Nat} (hget : th.get n = { th with pc := .backfill n req })
      (hnone : ops.take mp.pool req = none →
        mp.getCached ops n (mp.defaultCache id) = .ringDequeue ∧
        PoolThread.reply { th with pc := .backfill n req } [] = { th with pc := .ringDequeue n })
      (hsome : ∀ objs pool, ops.take mp.pool req = some (objs, pool) → ∃ xs mp',
        mp.getCached ops n (mp.defaultCache id) = .served xs mp' ∧ mp'.pool = pool ∧
        PoolThread.reply { th with pc := .backfill n req } objs = mp'.atRest id (th.hand ++ xs))

omit [DecidableEq ι] [DecidableEq α] in
/-- **The ways of a get**, by the cases of the code: no cache, or more objects than it holds; too
    few objects in it, so that it is filled first; enough of them. -/
theorem PoolThread.get_cases (th : PoolThread α)
    (hcache : th.cache = (mp.defaultCache id).map mp.localCache)
    (hpos : 0 < n) (hinside : mp.getCached ops n (mp.defaultCache id) ≠ .outOfBounds) :
    GetCases ops mp id n th := by
  cases hd : mp.defaultCache id with
  | none =>
    rw [hd] at hcache
    exact .ring (PoolThread.get_of_none hcache n) (by rw [hd]; rfl)
  | some c =>
    rw [hd] at hcache hinside
    have hget := PoolThread.get_of_some hcache n
    have hcached : mp.getCached ops n (mp.defaultCache id)
        = mp.getCached ops n (some c) := by rw [hd]
    by_cases hbig : (mp.localCache c).size ≤ n
    · rw [if_pos hbig] at hget
      refine .ring hget (hcached.trans ?_)
      simp only [Mempool.getCached, cacheGet, if_pos hbig]
    rw [if_neg hbig] at hget
    by_cases hshort : (mp.localCache c).len < n
    · rw [if_pos hshort] at hget
      refine .backfill hget (fun hnone => ⟨hcached.trans ?_, ?_⟩) fun objs pool htake => ?_
      · simp only [Mempool.getCached, cacheGet, if_neg hbig, if_pos hshort, hnone]
      · simp only [PoolThread.reply, hcache, Option.map_some, List.length_nil, if_true]
      · -- the cache has been filled, and then holds enough
        have hlen := (ops.take_some _ _ _ _ htake).1
        have hne : objs.length ≠ 0 := by omega
        simp only [Mempool.getCached, cacheGet, if_neg hbig, if_pos hshort, htake] at hinside
        cases hcopy : copyIn (mp.localCache c).objs (mp.localCache c).len objs with
        | none =>
          simp only [hcopy] at hinside
          exact absurd rfl hinside
        | some filled =>
          simp only [hcopy] at hinside
          obtain ⟨xs, cache', hserved, hrespond⟩ := PoolThread.respond_cases
            { th with pc := .backfill n (n + ((mp.localCache c).size - (mp.localCache c).len)) }
            (fun hout => hinside (by rw [hout]))
          refine ⟨xs, mp.update c cache' pool, hcached.trans ?_, rfl, ?_⟩
          · simp only [Mempool.getCached, cacheGet, if_neg hbig, if_pos hshort, htake, hcopy,
              hserved]
          · rw [Mempool.atRest_update hd]
            simp only [PoolThread.reply, hcache, Option.map_some, if_neg hne, hcopy]
            exact hrespond
    · rw [if_neg hshort] at hget
      simp only [Mempool.getCached, cacheGet, if_neg hbig, if_neg hshort] at hinside
      obtain ⟨xs, cache', hserved, hrespond⟩ := th.respond_cases
        (fun hout => hinside (by rw [hout]))
      have hcached' : mp.getCached ops n (some c) = .served xs (mp.update c cache' mp.pool) := by
        simp only [Mempool.getCached, cacheGet, if_neg hbig, if_neg hshort, hserved]
      refine .served ?_ (hcached.trans hcached') rfl
      rw [hget, hrespond, Mempool.atRest_update hd]

omit [DecidableEq ι] [DecidableEq α] in
/-- A thread that stands at the back-fill: with nothing it goes to `ring_dequeue`, with all that
    is needed it is served. -/
theorem PoolThread.backfill_cases (th : PoolThread α) {req : Nat}
    (hcache : th.cache = (mp.defaultCache id).map mp.localCache) (hpos : 0 < n)
    (hinside : mp.getCached ops n (mp.defaultCache id) ≠ .outOfBounds)
    (hget : th.get n = { th with pc := .backfill n req }) :
    (ops.take mp.pool req = none → mp.getCached ops n (mp.defaultCache id) = .ringDequeue ∧
      PoolThread.reply { th with pc := .backfill n req } [] = { th with pc := .ringDequeue n }) ∧
    ∀ objs pool, ops.take mp.pool req = some (objs, pool) → ∃ xs mp',
      mp.getCached ops n (mp.defaultCache id) = .served xs mp' ∧ mp'.pool = pool ∧
      PoolThread.reply { th with pc := .backfill n req } objs = mp'.atRest id (th.hand ++ xs) := by
  cases th.get_cases hcache hpos hinside with
  | ring hget' hcached => cases congrArg PoolThread.pc (hget.symm.trans hget')
  | served hget' hcached hpool => cases congrArg PoolThread.pc (hget.symm.trans hget')
  | backfill hget' hnone hsome =>
    cases congrArg PoolThread.pc (hget.symm.trans hget')
    exact ⟨hnone, hsome⟩

end Calls

/-! ## The simulation -/

/-- What the program over the list, in `u`, and `PoolUse`, in `p`, have in common: the simulation
    relation.  `hand` says that a thread gets for itself. -/
structure View (lcoreId : ι → Nat) (capacity : Nat) (U : List α)
    (u : AtomicState ι α (PoolThread α)) (p : PoolUse ι ι (List α) α) : Prop where
  pool : p.mp.pool = u.items
  thread : ∀ t, InCall (p.thread lcoreId t) (u.loc t)
  hand : ∀ t h n, p.wait t = some (h, n) → h = t
  inv : p.Inv (Magazine.fifo capacity) U

/-- What a step of the thread `t` leaves alone: the caches other than its own, and the hands and
    the waiting of the other threads. -/
structure Apart (lcoreId : ι → Nat) (t : ι) (p p' : PoolUse ι ι (List α) α) : Prop where
  cache : ∀ c, c ∉ p.mp.defaultCache (lcoreId t) → p'.mp.localCache c = p.mp.localCache c
  size : p'.mp.cacheSize = p.mp.cacheSize
  hand : ∀ t', t' ≠ t → p'.hand t' = p.hand t'
  wait : ∀ t', t' ≠ t → p'.wait t' = p.wait t'

namespace View

variable {lcoreId : ι → Nat} {capacity : Nat} {U : List α} {u u' : AtomicState ι α (PoolThread α)}
  {p p' : PoolUse ι ι (List α) α} {t : ι} {l : PoolThread α}

/-- A thread begins a call; `PoolUse` waits. -/
theorem enter (h : View lcoreId capacity U u p) (hin : InCall (p.thread lcoreId t) l) :
    View lcoreId capacity U { u with loc := Function.update u.loc t l } p := by
  refine ⟨h.pool, fun t' => ?_, h.hand, h.inv⟩
  show InCall _ (Function.update u.loc t l t')
  by_cases ht : t' = t
  · rw [ht, Function.update_self]
    exact hin
  · rw [Function.update_of_ne ht]
    exact h.thread t'

/-- A step of `PoolUse`, made for one thread.  The thread itself has to be compared, the others
    are where they were because the step is apart from them. -/
theorem move (h : View lcoreId capacity U u p) (hsep : Separate lcoreId)
    (hU : U.length ≤ capacity) {e : UseEvent ι ι α}
    (hs : UseStep (Magazine.fifo capacity) lcoreId p e p') (hapart : Apart lcoreId t p p')
    (hwait : ∀ h n, p'.wait t = some (h, n) → h = t) (hpool : p'.mp.pool = u'.items)
    (hloc : u'.loc = Function.update u.loc t l) (hthread : InCall (p'.thread lcoreId t) l) :
    ∃ fs p', Run (PoolUse.step (Magazine.fifo capacity) lcoreId) p fs p' ∧
      View lcoreId capacity U u' p' := by
  refine ⟨[e], p', Run.single hs.step_eq, hpool, fun t' => ?_, fun t' h' n hw => ?_,
    PoolUse.step_keeps hU h.inv hs.step_eq⟩
  · rw [hloc]
    by_cases ht : t' = t
    · rw [ht, Function.update_self]
      exact hthread
    · rw [Function.update_of_ne ht, PoolUse.thread_congr hsep ht hapart.cache hapart.size
        (hapart.hand t' ht) (hapart.wait t' ht)]
      exact h.thread t'
  · by_cases ht : t' = t
    · subst ht
      exact hwait h' n hw
    · rw [hapart.wait t' ht] at hw
      exact h.hand t' h' n hw

omit [DecidableEq ι] in
/-- A get stays inside the arrays. -/
theorem inside (h : View lcoreId capacity U u p) (t : ι) (n : Nat) :
    p.mp.getCached (Magazine.fifo capacity) n (p.mp.defaultCache (lcoreId t)) ≠ .outOfBounds := by
  intro hout
  have hcached := Mempool.getCached_exchange (Magazine.fifo capacity) n
    (p.mp.defaultCache (lcoreId t)) h.inv.fit
  rw [hout] at hcached
  exact hcached

/-- A call is over: it has changed the hand of the thread, its cache and the common pool. -/
theorem finish (h : View lcoreId capacity U u p) (hsep : Separate lcoreId)
    (hU : U.length ≤ capacity) (hwait : p.wait t = none) {e : UseEvent ι ι α}
    {mp : Mempool (List α) α} {hand objs got items : List α}
    (hs : UseStep (Magazine.fifo capacity) lcoreId p e ⟨mp, Function.update p.hand t hand, p.wait⟩)
    (hx : Mempool.Exchange (Magazine.fifo capacity) (p.mp.defaultCache (lcoreId t)) p.mp mp objs
      got) (hpool : mp.pool = items) :
    ∃ fs p', Run (PoolUse.step (Magazine.fifo capacity) lcoreId) p fs p' ∧ View lcoreId capacity U
      ⟨Function.update u.loc t (mp.atRest (lcoreId t) hand), items⟩ p' := by
  refine h.move hsep hU hs ⟨hx.frame, hx.size, fun t' hne => Function.update_of_ne hne _ _,
    fun _ _ => rfl⟩ (h.hand t) hpool rfl ?_
  rw [PoolUse.thread_mk hwait (Function.update_self _ _ _)]
  exact .rest

/-- A get has not found enough in the cache, and could not fill it: it goes to `ring_dequeue`. -/
theorem miss (h : View lcoreId capacity U u p) (hsep : Separate lcoreId) (hU : U.length ≤ capacity)
    {n : Nat} (hwait : p.wait t = none)
    (hcached : p.mp.getCached (Magazine.fifo capacity) n (p.mp.defaultCache (lcoreId t))
      = .ringDequeue) :
    ∃ fs p', Run (PoolUse.step (Magazine.fifo capacity) lcoreId) p fs p' ∧ View lcoreId capacity U
      { u with loc := Function.update u.loc t { p.thread lcoreId t with pc := .ringDequeue n } }
      p' := by
  have hstep : UseStep (Magazine.fifo capacity) lcoreId p (.miss t t n) _ :=
    UseStep.miss hwait hcached
  refine h.move hsep hU hstep ⟨fun _ _ => rfl, rfl, fun _ _ => rfl,
    fun t' hne => Function.update_of_ne hne _ _⟩ (fun h' m hw => ?_) h.pool rfl ?_
  · have hw' := (Function.update_self t (some (t, n)) p.wait).symm.trans hw
    exact (congrArg Prod.fst (Option.some.inj hw')).symm
  · rw [PoolUse.thread_waiting (Function.update_self _ _ _)]
    exact .rest

/-- The wait at `ring_dequeue` is over, with the objects `objs` or with none. -/
theorem dequeue (h : View lcoreId capacity U u p) (hsep : Separate lcoreId)
    (hU : U.length ≤ capacity) {n : Nat} (hwait : p.wait t = some (t, n)) {e : UseEvent ι ι α}
    {objs items : List α}
    (hs : UseStep (Magazine.fifo capacity) lcoreId p e
      ⟨{ p.mp with pool := items }, Function.update p.hand t (p.hand t ++ objs),
        Function.update p.wait t none⟩) :
    ∃ fs p', Run (PoolUse.step (Magazine.fifo capacity) lcoreId) p fs p' ∧ View lcoreId capacity U
      ⟨Function.update u.loc t ((p.thread lcoreId t).reply objs), items⟩ p' := by
  refine h.move hsep hU hs ⟨fun _ _ => rfl, rfl, fun t' hne => Function.update_of_ne hne _ _,
    fun t' hne => Function.update_of_ne hne _ _⟩ (fun h' m hw => ?_) rfl rfl ?_
  · have hw' := (Function.update_self t none p.wait).symm.trans hw
    cases hw'
  · rw [PoolUse.reply_waiting hwait,
      PoolUse.thread_mk (Function.update_self _ _ _) (Function.update_self _ _ _)]
    exact .rest

/-- A thread puts some of its objects. -/
theorem put (h : View lcoreId capacity U u p) (hsep : Separate lcoreId)
    (hU : U.length ≤ capacity) {objTable : List α} (hidle : (u.loc t).pc = .idle)
    (hsub : objTable.Subperm (u.loc t).hand) :
    ∃ fs p', Run (PoolUse.step (Magazine.fifo capacity) lcoreId) p fs p' ∧ View lcoreId capacity U
      { u with loc := Function.update u.loc t ((u.loc t).put objTable) } p' := by
  have hth : u.loc t = p.thread lcoreId t := (h.thread t).of_idle hidle
  rw [hth] at hidle hsub ⊢
  have hwait := PoolUse.wait_of_idle hidle
  obtain ⟨mp', hput, hx⟩ := Mempool.doGenericPut_exchange (p.mp.defaultCache (lcoreId t))
    h.inv.fit (partition_room h.inv.partition hU hsub)
  have hstep : UseStep (Magazine.fifo capacity) lcoreId p (.put t t objTable) _ :=
    UseStep.put hwait hsub hput
  rcases (p.thread lcoreId t).put_cases rfl hput with ⟨hdone, hpool⟩ | ⟨ys, hreq, -, -⟩
  · rw [hdone]
    exact h.finish hsep hU hwait hstep hx (hpool.trans h.pool)
  · exact ⟨[], p, Run.nil, h.enter (.put hidle hsub hreq)⟩

/-- A thread gets some objects. -/
theorem get (h : View lcoreId capacity U u p) (hsep : Separate lcoreId)
    (hU : U.length ≤ capacity) {n : Nat} (hidle : (u.loc t).pc = .idle) (hpos : 0 < n) :
    ∃ fs p', Run (PoolUse.step (Magazine.fifo capacity) lcoreId) p fs p' ∧ View lcoreId capacity U
      { u with loc := Function.update u.loc t ((u.loc t).get n) } p' := by
  have hth : u.loc t = p.thread lcoreId t := (h.thread t).of_idle hidle
  rw [hth] at hidle ⊢
  have hwait := PoolUse.wait_of_idle hidle
  have hexchange := Mempool.getCached_exchange (Magazine.fifo capacity) n
    (p.mp.defaultCache (lcoreId t)) h.inv.fit
  cases (p.thread lcoreId t).get_cases rfl hpos (h.inside t n) with
  | ring hget hcached =>
    rw [hget]
    exact h.miss hsep hU hwait hcached
  | @served xs mp' hget hcached hpool =>
    rw [hcached] at hexchange
    have hstep : UseStep (Magazine.fifo capacity) lcoreId p (.get t t n xs) _ :=
      UseStep.get hwait hcached
    rw [hget]
    exact h.finish hsep hU hwait hstep hexchange.2 (hpool.trans h.pool)
  | backfill hget hnone hsome =>
    rw [hget]
    exact ⟨[], p, Run.nil, h.enter (.get hidle hpos hget)⟩

/-- Objects go from hand to hand. -/
theorem pass (h : View lcoreId capacity U u p) (hU : U.length ≤ capacity) {src dst : ι}
    {xs : List α} (hne : src ≠ dst) (hsrc : (u.loc src).pc = .idle)
    (hdst : (u.loc dst).pc = .idle) (hsub : xs.Subperm (u.loc src).hand) :
    ∃ fs p', Run (PoolUse.step (Magazine.fifo capacity) lcoreId) p fs p' ∧ View lcoreId capacity U
      ⟨Function.update
        (Function.update u.loc src { u.loc src with hand := (u.loc src).hand.diff xs })
        dst { u.loc dst with hand := (u.loc dst).hand ++ xs }, u.items⟩ p' := by
  have hthSrc : u.loc src = p.thread lcoreId src := (h.thread src).of_idle hsrc
  have hthDst : u.loc dst = p.thread lcoreId dst := (h.thread dst).of_idle hdst
  rw [hthSrc] at hsub
  have hstep : UseStep (Magazine.fifo capacity) lcoreId p (.pass src dst xs) _ :=
    UseStep.pass hne hsub
  refine ⟨_, _, Run.single hstep.step_eq, h.pool, fun t' => ?_, h.hand,
    PoolUse.step_keeps hU h.inv hstep.step_eq⟩
  rw [PoolUse.thread_hand, hthSrc, hthDst]
  show InCall _ (Function.update (Function.update u.loc src _) dst _ t')
  by_cases htDst : t' = dst
  · rw [htDst, Function.update_self, Function.update_self]
    exact .rest
  · rw [Function.update_of_ne htDst, Function.update_of_ne htDst]
    by_cases htSrc : t' = src
    · rw [htSrc, Function.update_self, Function.update_self]
      exact .rest
    · rw [Function.update_of_ne htSrc, Function.update_of_ne htSrc]
      exact h.thread t'

/-- The ring has taken what a thread has passed to it.  Now `PoolUse` makes the whole put; the
    hand of the thread there still has the objects, so that there is room for them. -/
theorem give (h : View lcoreId capacity U u p) (hsep : Separate lcoreId)
    (hU : U.length ≤ capacity) {objs : List α} (hreq : (u.loc t).request = some (.give objs))
    (hroom : u.items.length + objs.length ≤ capacity) :
    ∃ fs p', Run (PoolUse.step (Magazine.fifo capacity) lcoreId) p fs p' ∧ View lcoreId capacity U
      ⟨Function.update u.loc t ((u.loc t).reply []), u.items ++ objs⟩ p' := by
  obtain ⟨objTable, hidle, hsub, hth⟩ := (h.thread t).of_give hreq
  rw [hth] at hreq ⊢
  have hwait := PoolUse.wait_of_idle hidle
  obtain ⟨mp', hput, hx⟩ := Mempool.doGenericPut_exchange (p.mp.defaultCache (lcoreId t))
    h.inv.fit (partition_room h.inv.partition hU hsub)
  have hstep : UseStep (Magazine.fifo capacity) lcoreId p (.put t t objTable) _ :=
    UseStep.put hwait hsub hput
  rcases (p.thread lcoreId t).put_cases rfl hput with ⟨hdone, -⟩ | ⟨ys, hreq', hreply, hpool⟩
  · -- a put that is done does not stand at the ring
    rw [hdone] at hreq
    cases hreq
  · obtain rfl := Request.give.inj (Option.some.inj (hreq.symm.trans hreq'))
    have hitems : mp'.pool = u.items ++ objs := by
      rw [hpool, h.pool, enqueueBulk]
      show (if u.items.length + objs.length ≤ capacity then some (u.items ++ objs)
        else none).getD u.items = _
      rw [if_pos hroom, Option.getD_some]
    rw [hreply]
    exact h.finish hsep hU hwait hstep hx hitems

/-- The ring has given a thread what it has asked for, at `ring_dequeue` or for its cache. -/
theorem take (h : View lcoreId capacity U u p) (hsep : Separate lcoreId)
    (hU : U.length ≤ capacity) {n : Nat} (hreq : (u.loc t).request = some (.take n))
    (hthere : n ≤ u.items.length) :
    ∃ fs p', Run (PoolUse.step (Magazine.fifo capacity) lcoreId) p fs p' ∧ View lcoreId capacity U
      ⟨Function.update u.loc t ((u.loc t).reply (u.items.take n)), u.items.drop n⟩ p' := by
  have htake : (Magazine.fifo capacity).take p.mp.pool n
      = some (u.items.take n, u.items.drop n) := by
    rw [h.pool]
    exact if_pos hthere
  rcases (h.thread t).of_take hreq with ⟨hth, h', hwait⟩ | ⟨m, hpos, hidle, hth, hget⟩
  · rw [h.hand t h' n hwait] at hwait
    have hd : p.mp.ringDequeue (Magazine.fifo capacity) n
        = some (u.items.take n, { p.mp with pool := u.items.drop n }) := by
      rw [Mempool.ringDequeue, htake, Option.map_some]
    have hstep : UseStep (Magazine.fifo capacity) lcoreId p (.dequeue t (some _)) _ :=
      UseStep.dequeue hwait hd
    rw [hth]
    exact h.dequeue hsep hU hwait hstep
  · have hwait := PoolUse.wait_of_idle hidle
    obtain ⟨xs, mp', hcached, hpool, hreply⟩ := ((p.thread lcoreId t).backfill_cases rfl hpos
      (h.inside t m) hget).2 _ _ htake
    have hexchange := Mempool.getCached_exchange (Magazine.fifo capacity) m
      (p.mp.defaultCache (lcoreId t)) h.inv.fit
    rw [hcached] at hexchange
    have hstep : UseStep (Magazine.fifo capacity) lcoreId p (.get t t m xs) _ :=
      UseStep.get hwait hcached
    rw [hth, hreply]
    exact h.finish hsep hU hwait hstep hexchange.2 hpool

/-- The ring has too little for a thread: the get fails, or goes to `ring_dequeue` without having
    filled the cache. -/
theorem denied (h : View lcoreId capacity U u p) (hsep : Separate lcoreId)
    (hU : U.length ≤ capacity) {n : Nat} (hreq : (u.loc t).request = some (.take n))
    (hfew : u.items.length < n) :
    ∃ fs p', Run (PoolUse.step (Magazine.fifo capacity) lcoreId) p fs p' ∧ View lcoreId capacity U
      { u with loc := Function.update u.loc t ((u.loc t).reply []) } p' := by
  have hnone : (Magazine.fifo capacity).take p.mp.pool n = none := by
    rw [h.pool]
    exact if_neg (Nat.not_le_of_lt hfew)
  rcases (h.thread t).of_take hreq with ⟨hth, h', hwait⟩ | ⟨m, hpos, hidle, hth, hget⟩
  · rw [h.hand t h' n hwait] at hwait
    have hd : p.mp.ringDequeue (Magazine.fifo capacity) n = none := by
      rw [Mempool.ringDequeue, hnone, Option.map_none]
    have hstep : UseStep (Magazine.fifo capacity) lcoreId p (.dequeue t none) _ :=
      UseStep.dequeueFail hwait hd
    -- the hand is the old one with nothing added
    have hhand : Function.update p.hand t (p.hand t ++ []) = p.hand := by
      rw [List.append_nil, Function.update_eq_self]
    rw [← hhand] at hstep
    have hview := h.dequeue hsep hU hwait hstep
    rw [h.pool, ← hth] at hview
    exact hview
  · have hwait := PoolUse.wait_of_idle hidle
    obtain ⟨hcached, hreply⟩ := ((p.thread lcoreId t).backfill_cases rfl hpos (h.inside t m)
      hget).1 hnone
    rw [hth, hreply]
    exact h.miss hsep hU hwait hcached

/-- **The step lemma**: a step of the program over the list is at most one of `PoolUse`. -/
theorem step [Fintype ι] (h : View lcoreId capacity U u p) (hsep : Separate lcoreId)
    (hU : U.length ≤ capacity) {e : AtomicEvent ι (PoolEvent ι α)}
    (hs : (poolClient ι α).atomicStep capacity u e = some u') :
    ∃ fs p', Run (PoolUse.step (Magazine.fifo capacity) lcoreId) p fs p' ∧
      View lcoreId capacity U u' p' := by
  cases Client.atomicStep_inv hs with
  | own hown =>
    cases poolOwn_inv hown with
    | put hidle hsub => exact h.put hsep hU hidle hsub
    | get hidle hpos => exact h.get hsep hU hidle hpos
    | pass hne hsrc hdst hsub => exact h.pass hU hne hsrc hdst hsub
  | give hreq hroom => exact h.give hsep hU hreq hroom
  | take hreq hthere => exact h.take hsep hU hreq hthere
  | denied hreq hfew => exact h.denied hsep hU hreq hfew

end View

/-! ## From the creation of a mempool on -/

/-- A mempool that is being created: the thread that creates it has the objects, the ring and the
    caches are empty. -/
structure Unpopulated (ι α : Type) (capacity : Nat) where
  mp : Mempool (List α) α
  creator : ι
  objects : List α
  pool : mp.pool = []
  empty : ∀ c, (mp.localCache c).len = 0
  nodup : objects.Nodup
  room : objects.length ≤ capacity

namespace Unpopulated

variable {capacity : Nat} (new : Unpopulated ι α capacity) (lcoreId : ι → Nat)

/-- Nobody has put or asked for anything yet. -/
def init : PoolUse ι ι (List α) α :=
  ⟨new.mp, Function.update (fun _ => []) new.creator new.objects, fun _ => none⟩

omit [DecidableEq α] in
/-- All objects are in the hand of the creator. -/
theorem mem_owned {q : UsePlace ι} {x : α} :
    x ∈ new.init.owned (Magazine.fifo capacity) q ↔ q = .hand new.creator ∧ x ∈ new.objects := by
  cases q with
  | pool =>
    show x ∈ new.mp.pool ↔ _
    rw [new.pool]
    exact ⟨fun h => absurd h List.not_mem_nil, fun h => by cases h.1⟩
  | cache c =>
    show x ∈ (new.mp.localCache c).held ↔ _
    rw [MempoolCache.held, new.empty c, List.take_zero]
    exact ⟨fun h => absurd h List.not_mem_nil, fun h => by cases h.1⟩
  | hand t =>
    show x ∈ Function.update (fun _ => []) new.creator new.objects t ↔ _
    by_cases ht : t = new.creator
    · rw [ht, Function.update_self]
      exact ⟨fun h => ⟨rfl, h⟩, fun h => h.2⟩
    · rw [Function.update_of_ne ht]
      exact ⟨fun h => absurd h List.not_mem_nil, fun h => absurd (UsePlace.hand.inj h.1) ht⟩

omit [DecidableEq α] in
/-- Every object is in one place, that hand, and no cache has more than it may. -/
theorem inv_init : new.init.Inv (Magazine.fifo capacity) new.objects := by
  refine ⟨⟨fun q => ?_, fun hq hq' => ?_, fun x => ?_⟩, fun c => ?_⟩
  · by_cases hq : q = .hand new.creator
    · rw [hq]
      show (Function.update (fun _ => []) new.creator new.objects new.creator).Nodup
      rw [Function.update_self]
      exact new.nodup
    · have hnil : new.init.owned (Magazine.fifo capacity) q = [] :=
        List.eq_nil_iff_forall_not_mem.mpr fun x hx => hq (new.mem_owned.mp hx).1
      rw [hnil]
      exact List.nodup_nil
  · rw [(new.mem_owned.mp hq).1, (new.mem_owned.mp hq').1]
  · exact ⟨fun hx => ⟨_, new.mem_owned.mpr ⟨rfl, hx⟩⟩, fun ⟨q, hx⟩ => (new.mem_owned.mp hx).2⟩
  · show (new.mp.localCache c).len ≤ _
    rw [new.empty c]
    exact Nat.zero_le _

omit [DecidableEq α] in
/-- The threads have as many objects as there are. -/
theorem sum_weight [Fintype ι] :
    (∑ t, (new.init.thread lcoreId t).weight) = new.objects.length := by
  have hweight : ∀ t, (new.init.thread lcoreId t).weight = (new.init.hand t).length := by
    intro t
    rw [PoolThread.weight_of_idle rfl]
    show (new.init.hand t).length
      + ((new.mp.defaultCache (lcoreId t)).map new.mp.localCache).elim 0 MempoolCache.len = _
    cases new.mp.defaultCache (lcoreId t) with
    | none => rfl
    | some c => rw [Option.map_some, Option.elim_some, new.empty c, Nat.add_zero]
  have hsum := sum_update List.length (fun _ => []) new.creator new.objects
  simp only [List.length_nil, Finset.sum_const_zero, Nat.add_zero, Nat.zero_add] at hsum
  simp only [hweight]
  exact hsum

/-- The two machines begin alike. -/
theorem view_init : View lcoreId capacity new.objects
    ⟨new.init.thread lcoreId, []⟩ new.init :=
  ⟨new.pool, fun _ => .rest, fun _ _ _ h => (nomatch h), new.inv_init⟩

end Unpopulated

/-- What the mempool on the ring, in `s`, has in common with `PoolUse`, in `p`. -/
structure OnRing (conf : RingConf) (lcoreId : ι → Nat) (U : List α)
    (s : RingClient ι α (PoolThread α)) (p : PoolUse ι ι (List α) α) : Prop where
  /-- The common pool is what is in the ring. -/
  pool : s.ring.contents conf = p.mp.pool
  /-- A thread outside the mempool has the same objects and the same cache. -/
  thread : ∀ t, (s.loc t).pc = .idle →
    p.wait t = none ∧ s.loc t = p.mp.atRest (lcoreId t) (p.hand t)
  /-- No thread has left the array of its cache. -/
  inside : ∀ t objs, (s.loc t).pc ≠ .outOfBounds objs
  /-- An enqueue that is about to return has put in all that the thread has passed to it. -/
  accepted : ∀ t objs b n free, s.ring.thread t = .enqEnd objs b n free →
    ∃ objs', (s.loc t).request = some (.give objs') ∧ n = objs'.length
  /-- No object is lost, and what else is true of `PoolUse`. -/
  kept : PoolKept (Magazine.fifo conf.capacity) lcoreId U p

/-- Three objects, two threads: the first runs outside EAL and creates the mempool, the second has
    a cache of two. -/
def twoThreads : Unpopulated Bool Nat fourCells.capacity where
  mp :=
    { pool := []
      cacheSize := 2
      localCache := fun _ =>
        { size := 2
          flushthresh := 3
          len := 0
          objs := Vector.replicate _ 0
          size_le_max := by decide
          size_le := by decide
          flushthresh_le := by decide } }
  creator := false
  objects := [7, 8, 9]
  pool := rfl
  empty _ := rfl
  nodup := by decide
  room := by decide

/-- The lcores of the two threads. -/
def twoLcores (t : Bool) : Nat := if t then 0 else rteMaxLcore

/-- What the ring sees when the first thread populates the mempool, -/
def populate : List (RingEvent Bool Nat) :=
  .call false (.enqueue [7, 8, 9] .queueFixed) :: List.replicate 8 (.act false .access) ++
    [.act false (.publish [7, 8, 9]), .act false (.enqueued 3 0)]

/-- when the second thread gets an object, for which it fills its cache, -/
def fillCache : List (RingEvent Bool Nat) :=
  .call true (.dequeue 3 .queueFixed) :: List.replicate 2 (.act true .access) ++
    .act true (.take 3) :: List.replicate 6 (.act true .access) ++
    [.act true (.dequeued [7, 8, 9] 0)]

/-- and when it puts the object back, for which the cache is flushed, while the first thread calls
    the ring to get one. -/
def flushAndGet : List (RingEvent Bool Nat) :=
  .call true (.enqueue [9] .queueFixed) :: .call false (.dequeue 1 .queueFixed) ::
    List.replicate 6 (.act true .access) ++ .act false .access :: .act true (.publish [9]) ::
    .act false .access :: .act false (.take 1) :: .act true (.enqueued 1 2) ::
    List.replicate 4 (.act false .access) ++ [.act false (.dequeued [9] 0)]

/-- The run of the two threads. -/
def twoThreadsRun : List (RingClientEvent Bool Nat (PoolEvent Bool Nat)) :=
  .own (.put false [7, 8, 9]) :: populate.map .ring ++ .own (.get true 1) :: fillCache.map .ring ++
    .own (.put true [9]) :: .own (.get false 1) :: flushAndGet.map .ring

end PacketSend
