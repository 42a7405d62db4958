/-
  The mempool under `rte_pktmbuf_alloc` and `rte_pktmbuf_free`: `rte_mempool_get` and
  `rte_mempool_put` with the object caches of the lcores.

  Both are inline functions of `rte_mempool.h` and run inside the three programs.  Every lcore has
  an array of pointers, `mp->local_cache[lcore_id]`, in front of the common pool; the common pool
  itself is reached through the function pointers `ops->enqueue` and `ops->dequeue` and is a
  parameter here, a `Magazine.Depot`.

  The arrays are modelled as arrays: `copyIn` and `copyOut` are the accesses of the code, and one
  that leaves `objs` has no result.  The answer of `ops->enqueue` is thrown away, as the code does
  (`enqueueBulk`), so an object that the common pool refuses is lost.

  * `cachePut_held`, `cacheGet_held` — on a cache that holds at most `flushthresh` objects the code
                   stays inside the array and does to the filled part what the `put` and the `get`
                   of a magazine do to a list;
  * `doGenericGet_eq_none_iff` — when `rte_mempool_get_bulk` fails: the common pool is short, and
                   the cache of the calling lcore is, too, or is not looked at because its size is
                   at most what is asked for; the caches of the others do not count;
  * `getBulk_putBulk` — what an lcore has put back it gets again, last in first out, as long as it
                   is less than the size of the cache and the cache is not flushed.
-/
import PacketSend.Lcores
import PacketSend.Lib.Magazine
import Mathlib.Logic.Function.Basic

namespace PacketSend

variable {δ α : Type}

/-! ## The cache of an lcore -/

/-- `RTE_MEMPOOL_CACHE_MAX_SIZE`. -/
def mempoolCacheMaxSize : Nat := 512

/-- `struct rte_mempool_cache`, with what `rte_mempool_create` makes sure of: `size` is at most
    `RTE_MEMPOOL_CACHE_MAX_SIZE` and `flushthresh` is 1.5 times `size`, rounded. -/
structure MempoolCache (α : Type) where
  size : Nat
  flushthresh : Nat
  len : Nat
  objs : Vector α (mempoolCacheMaxSize * 3)
  size_le_max : size ≤ mempoolCacheMaxSize
  size_le : size ≤ flushthresh
  flushthresh_le : flushthresh ≤ 2 * size

/-- The objects in the cache, the oldest first. -/
def MempoolCache.held (c : MempoolCache α) : List α := c.objs.toList.take c.len

/-- The cache seen as a magazine. -/
def MempoolCache.limits (c : MempoolCache α) : Magazine.Limits := ⟨c.size, c.flushthresh, c.size_le⟩

/-- `rte_memcpy(&objs[i], xs, ...)`. -/
def copyIn {k : Nat} (objs : Vector α k) (i : Nat) (xs : List α) : Option (Vector α k) :=
  if h : i + xs.length ≤ k then
    some ⟨(objs.toList.take i ++ xs ++ objs.toList.drop (i + xs.length)).toArray, by
      simp only [List.size_toArray, List.length_append, List.length_take, List.length_drop,
        Vector.length_toList]
      omega⟩
  else none

/-- The `n` entries from `&objs[i]` on. -/
def copyOut {k : Nat} (objs : Vector α k) (i n : Nat) : Option (List α) :=
  if i + n ≤ k then some ((objs.toList.drop i).take n) else none

/-- `for (index = 0, len = cache->len - 1; index < n; ++index, len--) *obj_table++ = objs[len]`.
    `top` is `len + 1`; at `top = 0` the index has wrapped around. -/
def fillResponse {k : Nat} (objs : Vector α k) : (top n : Nat) → Option (List α)
  | _, 0 => some []
  | 0, _ + 1 => none
  | top + 1, n + 1 =>
    match objs[top]? with
    | none => none
    | some obj => (fillResponse objs top n).map (obj :: ·)

variable (ops : Magazine.Depot δ α)

/-- `rte_mempool_ops_enqueue_bulk`, by a caller that ignores its answer. -/
def enqueueBulk (pool : δ) (objTable : List α) : δ := (ops.give pool objTable).getD pool

/-- The cache part of `rte_mempool_do_generic_put`. -/
def cachePut (pool : δ) (objTable : List α) (cache : MempoolCache α) :
    Option (MempoolCache α × δ) :=
  match copyIn cache.objs cache.len objTable with
  | none => none
  | some objs =>
    let len := cache.len + objTable.length
    if cache.flushthresh ≤ len then
      (copyOut objs cache.size (len - cache.size)).map fun excess =>
        ({ cache with objs := objs, len := cache.size }, enqueueBulk ops pool excess)
    else some ({ cache with objs := objs, len := len }, pool)

/-- The ways the cache part of `rte_mempool_do_generic_get` can end. -/
inductive CacheGet (δ α : Type) where
  | served (objTable : List α) (cache : MempoolCache α) (pool : δ)
  | ringDequeue
  | outOfBounds

/-- Filling the response and `cache->len -= n`. -/
def cacheRespond (cache : MempoolCache α) (pool : δ) (n : Nat) : CacheGet δ α :=
  match fillResponse cache.objs cache.len n with
  | none => .outOfBounds
  | some objTable => .served objTable { cache with len := cache.len - n } pool

/-- The cache part of `rte_mempool_do_generic_get`, up to `goto ring_dequeue`. -/
def cacheGet (pool : δ) (n : Nat) (cache : MempoolCache α) : CacheGet δ α :=
  if cache.size ≤ n then .ringDequeue
  else if cache.len < n then
    let req := n + (cache.size - cache.len)
    match ops.take pool req with
    | none => .ringDequeue
    | some (backfill, pool) =>
      match copyIn cache.objs cache.len backfill with
      | none => .outOfBounds
      | some objs => cacheRespond { cache with objs := objs, len := cache.len + req } pool n
  else cacheRespond cache pool n

/-! ## The mempool -/

/-- `struct rte_mempool`: the common pool and the caches. -/
structure Mempool (δ α : Type) where
  pool : δ
  cacheSize : Nat
  localCache : Fin rteMaxLcore → MempoolCache α

namespace Mempool

/-- `rte_mempool_default_cache`: which of the caches, if any. -/
def defaultCache (mp : Mempool δ α) (lcoreId : Nat) : Option (Fin rteMaxLcore) :=
  if mp.cacheSize = 0 then none
  else if h : lcoreId < rteMaxLcore then some ⟨lcoreId, h⟩
  else none

/-- A cache and the common pool after a call. -/
def update (mp : Mempool δ α) (l : Fin rteMaxLcore) (cache : MempoolCache α) (pool : δ) :
    Mempool δ α :=
  { mp with pool := pool, localCache := Function.update mp.localCache l cache }

/-- `rte_mempool_do_generic_put`; `none` if it writes past the array of the cache. -/
def doGenericPut (mp : Mempool δ α) (objTable : List α) :
    Option (Fin rteMaxLcore) → Option (Mempool δ α)
  | none => some { mp with pool := enqueueBulk ops mp.pool objTable }
  | some l =>
    if mempoolCacheMaxSize < objTable.length then
      some { mp with pool := enqueueBulk ops mp.pool objTable }
    else
      (cachePut ops mp.pool objTable (mp.localCache l)).map fun r => mp.update l r.1 r.2

/-- `rte_mempool_put_bulk`, called on an lcore. -/
def putBulk (mp : Mempool δ α) (lcoreId : Nat) (objTable : List α) : Option (Mempool δ α) :=
  mp.doGenericPut ops objTable (mp.defaultCache lcoreId)

/-- The cache part of `rte_mempool_do_generic_get` on the mempool. -/
inductive Got (δ α : Type) where
  | served (objTable : List α) (mp : Mempool δ α)
  | ringDequeue
  | outOfBounds

/-- Everything of `rte_mempool_do_generic_get` before the label `ring_dequeue`. -/
def getCached (mp : Mempool δ α) (n : Nat) : Option (Fin rteMaxLcore) → Got δ α
  | none => .ringDequeue
  | some l =>
    match cacheGet ops mp.pool n (mp.localCache l) with
    | .served objTable cache pool => .served objTable (mp.update l cache pool)
    | .ringDequeue => .ringDequeue
    | .outOfBounds => .outOfBounds

/-- The label `ring_dequeue`: the objects, or `none` for the error of `ops->dequeue`. -/
def ringDequeue (mp : Mempool δ α) (n : Nat) : Option (List α × Mempool δ α) :=
  (ops.take mp.pool n).map fun r => (r.1, { mp with pool := r.2 })

/-- `rte_mempool_do_generic_get`: the outer `none` is an access past the array of the cache, the
    inner one the answer `-ENOENT`, after which the mempool is as it was. -/
def doGenericGet (mp : Mempool δ α) (n : Nat) (cache : Option (Fin rteMaxLcore)) :
    Option (Option (List α × Mempool δ α)) :=
  match mp.getCached ops n cache with
  | .served objTable mp => some (some (objTable, mp))
  | .ringDequeue => some (mp.ringDequeue ops n)
  | .outOfBounds => none

/-- `rte_mempool_get_bulk`, called on an lcore. -/
def getBulk (mp : Mempool δ α) (lcoreId n : Nat) : Option (Option (List α × Mempool δ α)) :=
  mp.doGenericGet ops n (mp.defaultCache lcoreId)

/-- No cache holds more than its threshold. -/
def CachesFit (mp : Mempool δ α) : Prop :=
  ∀ l, (mp.localCache l).len ≤ (mp.localCache l).flushthresh

end Mempool

/-! ## Arrays and lists -/

/-- A copy that stays inside the array leaves what was below and then the copied objects. -/
theorem exists_copyIn {k : Nat} (objs : Vector α k) (i : Nat) (xs : List α)
    (h : i + xs.length ≤ k) :
    ∃ objs', copyIn objs i xs = some objs' ∧
      objs'.toList.take (i + xs.length) = objs.toList.take i ++ xs := by
  refine ⟨_, dif_pos h, ?_⟩
  have hlen : (objs.toList.take i ++ xs).length = i + xs.length := by
    rw [List.length_append, List.length_take, Vector.length_toList]
    omega
  show (objs.toList.take i ++ xs ++ objs.toList.drop (i + xs.length)).take (i + xs.length) = _
  rw [List.take_left' hlen]

/-- The part read by a copy that stays inside the filled part. -/
theorem copyOut_eq {k : Nat} {objs : Vector α k} {i n : Nat} (h : i + n ≤ k) :
    copyOut objs i n = some ((objs.toList.take (i + n)).drop i) := by
  rw [copyOut, if_pos h, List.take_drop]

/-- The response is what a pop takes off the filled part. -/
theorem fillResponse_eq {k : Nat} (objs : Vector α k) : ∀ (n top : Nat), n ≤ top → top ≤ k →
    fillResponse objs top n = some ((objs.toList.take top).drop (top - n)).reverse
  | 0, top, _, htop => by
    have hlen : (objs.toList.take top).length = top := by
      rw [List.length_take, Vector.length_toList]
      omega
    rw [Nat.sub_zero, List.drop_of_length_le (Nat.le_of_eq hlen)]
    cases top <;> rfl
  | n + 1, 0, hn, _ => by omega
  | n + 1, top + 1, hn, htop => by
    have hget : objs[top]? = some objs[top] := Vector.getElem?_eq_getElem htop
    have hlast : objs.toList.take (top + 1) = objs.toList.take top ++ [objs[top]] := by
      rw [List.take_add_one, Vector.getElem?_toList, hget]
      rfl
    have hle : top - n ≤ (objs.toList.take top).length := by
      rw [List.length_take, Vector.length_toList]
      omega
    have ih := fillResponse_eq objs n top (by omega) (by omega)
    rw [fillResponse, hget, hlast, Nat.add_sub_add_right, List.drop_append_of_le_length hle,
      List.reverse_append]
    show (fillResponse objs top n).map (objs[top] :: ·) = _
    rw [ih]
    rfl

section
variable {c : MempoolCache α} {xs : List α} {n : Nat}

theorem MempoolCache.held_length (h : c.len ≤ c.flushthresh) : c.held.length = c.len := by
  have hflush := c.flushthresh_le
  have hmax := c.size_le_max
  have hval : mempoolCacheMaxSize = 512 := rfl
  rw [MempoolCache.held, List.length_take, Vector.length_toList]
  omega

/-- **A put into a cache** of at most `flushthresh` objects, of at most
    `RTE_MEMPOOL_CACHE_MAX_SIZE` objects, stays inside the array and is a put into a magazine. -/
theorem cachePut_held (ops : Magazine.Depot δ α) (pool : δ) (h : c.len ≤ c.flushthresh)
    (hxs : xs.length ≤ mempoolCacheMaxSize) :
    ∃ c', cachePut ops pool xs c = some (c', (Magazine.put c.limits ops c.held pool xs).2) ∧
      c'.held = (Magazine.put c.limits ops c.held pool xs).1 ∧ c'.limits = c.limits ∧
      c'.len ≤ c'.flushthresh := by
  have hsize := c.size_le
  have hflush := c.flushthresh_le
  have hmax := c.size_le_max
  have hval : mempoolCacheMaxSize = 512 := rfl
  obtain ⟨objs, hcopy, htake⟩ := exists_copyIn c.objs c.len xs (by omega)
  have hall : (c.held ++ xs).length = c.len + xs.length := by
    rw [List.length_append, MempoolCache.held_length h]
  by_cases hfull : c.flushthresh ≤ c.len + xs.length
  · refine ⟨{ c with objs := objs, len := c.size }, ?_, ?_, rfl, hsize⟩
    · have hsum : c.size + (c.len + xs.length - c.size) = c.len + xs.length := by omega
      have hout : copyOut objs c.size (c.len + xs.length - c.size)
          = some ((c.held ++ xs).drop c.size) := by
        rw [copyOut_eq (by omega), hsum, htake]
        rfl
      have hput : (Magazine.put c.limits ops c.held pool xs).2
          = enqueueBulk ops pool ((c.held ++ xs).drop c.size) := by
        rw [Magazine.put, if_pos (hall ▸ hfull)]
        rfl
      simp only [cachePut, hcopy, if_pos hfull, hout, hput, Option.map_some]
    · show objs.toList.take c.size = _
      have hput : (Magazine.put c.limits ops c.held pool xs).1 = (c.held ++ xs).take c.size := by
        rw [Magazine.put, if_pos (hall ▸ hfull)]
        rfl
      have hle : min c.size (c.len + xs.length) = c.size := by omega
      have hheld : objs.toList.take (c.len + xs.length) = c.held ++ xs := htake
      rw [hput, ← hheld, List.take_take, hle]
  · refine ⟨{ c with objs := objs, len := c.len + xs.length }, ?_, ?_, rfl, by
      show c.len + xs.length ≤ c.flushthresh
      omega⟩
    · have hput : (Magazine.put c.limits ops c.held pool xs).2 = pool := by
        rw [Magazine.put, if_neg (by rw [hall]; exact hfull)]
      simp only [cachePut, hcopy, if_neg hfull, hput]
    · show objs.toList.take (c.len + xs.length) = _
      rw [Magazine.put, if_neg (by rw [hall]; exact hfull)]
      exact htake

/-- Filling the response pops the filled part. -/
theorem cacheRespond_held (pool : δ) (hn : n ≤ c.len) (hlen : c.len ≤ mempoolCacheMaxSize * 3) :
    cacheRespond c pool n
      = .served (Magazine.pop c.held n).1 { c with len := c.len - n } pool ∧
    MempoolCache.held { c with len := c.len - n } = (Magazine.pop c.held n).2 := by
  have hheld : c.held.length = c.len := by
    rw [MempoolCache.held, List.length_take, Vector.length_toList]
    omega
  constructor
  · rw [cacheRespond, fillResponse_eq c.objs n c.len hn hlen, Magazine.pop, hheld]
    rfl
  · show c.objs.toList.take (c.len - n) = c.held.take (c.held.length - n)
    have hle : min (c.len - n) c.len = c.len - n := by omega
    rw [hheld, MempoolCache.held, List.take_take, hle]

/-- **A get from a cache** of at most `flushthresh` objects stays inside the array and is a get
    from a magazine. -/
theorem cacheGet_held (ops : Magazine.Depot δ α) (pool : δ) (n : Nat) (h : c.len ≤ c.flushthresh) :
    match Magazine.get c.limits ops c.held pool n with
    | none => cacheGet ops pool n c = .ringDequeue
    | some (ys, mag, pool') => ∃ c', cacheGet ops pool n c = .served ys c' pool' ∧
        c'.held = mag ∧ c'.limits = c.limits ∧ c'.len ≤ c'.flushthresh := by
  have hsize := c.size_le
  have hflush := c.flushthresh_le
  have hmax := c.size_le_max
  have hval : mempoolCacheMaxSize = 512 := rfl
  have hheld := MempoolCache.held_length h
  have hlim : c.limits.size = c.size := rfl
  unfold Magazine.get
  rw [hheld, hlim]
  by_cases hbig : c.size ≤ n
  · rw [if_pos hbig]
    show cacheGet ops pool n c = .ringDequeue
    rw [cacheGet, if_pos hbig]
  · rw [if_neg hbig]
    by_cases hle : n ≤ c.len
    · rw [if_pos hle]
      obtain ⟨hserved, hrest⟩ := cacheRespond_held pool hle (by omega)
      refine ⟨{ c with len := c.len - n }, ?_, hrest, rfl, ?_⟩
      · rw [cacheGet, if_neg hbig, if_neg (by omega)]
        exact hserved
      · show c.len - n ≤ c.flushthresh
        omega
    · rw [if_neg hle]
      cases htake : ops.take pool (n + (c.size - c.len)) with
      | none =>
        show cacheGet ops pool n c = .ringDequeue
        simp only [cacheGet, if_neg hbig, if_pos (Nat.lt_of_not_le hle), htake]
      | some r =>
        obtain ⟨ys, pool'⟩ := r
        have hys : ys.length = n + (c.size - c.len) := (ops.take_some _ _ _ _ htake).1
        obtain ⟨objs, hcopy, hobjs⟩ := exists_copyIn c.objs c.len ys (by omega)
        let c₁ : MempoolCache α :=
          { c with objs := objs, len := c.len + (n + (c.size - c.len)) }
        have hc₁ : c₁.held = c.held ++ ys := by
          show objs.toList.take (c.len + (n + (c.size - c.len))) = c.held ++ ys
          rw [← hys]
          exact hobjs
        have hlen₁ : c₁.len = n + c.size := by
          show c.len + (n + (c.size - c.len)) = n + c.size
          omega
        obtain ⟨hserved, hrest⟩ := cacheRespond_held (c := c₁) (n := n) pool' (by omega)
          (by omega)
        rw [hc₁] at hserved hrest
        refine ⟨{ c₁ with len := c₁.len - n }, ?_, hrest, rfl, ?_⟩
        · simp only [cacheGet, if_neg hbig, if_pos (Nat.lt_of_not_le hle), htake, hcopy]
          exact hserved
        · show c₁.len - n ≤ c.flushthresh
          omega

end

/-! ## What a call does to the mempool -/

namespace Mempool

/-- The objects in one of the caches, if one is meant. -/
def heldBy (mp : Mempool δ α) (cache : Option (Fin rteMaxLcore)) : List α :=
  cache.toList.flatMap fun l => (mp.localCache l).held

@[simp] theorem heldBy_none (mp : Mempool δ α) : mp.heldBy none = [] := rfl

@[simp] theorem heldBy_some (mp : Mempool δ α) (l : Fin rteMaxLcore) :
    mp.heldBy (some l) = (mp.localCache l).held := List.append_nil _

/-- From `mp` to `mp'`, the objects `inn` have come into the common pool and one of the caches,
    the objects `out` have left them, and nothing else has changed. -/
structure Exchange (ops : Magazine.Depot δ α) (cache : Option (Fin rteMaxLcore))
    (mp mp' : Mempool δ α) (inn out : List α) : Prop where
  perm : (inn ++ (mp.heldBy cache ++ ops.contents mp.pool)).Perm
    (out ++ (mp'.heldBy cache ++ ops.contents mp'.pool))
  frame : ∀ l, l ∉ cache → mp'.localCache l = mp.localCache l
  limits : ∀ l, (mp'.localCache l).limits = (mp.localCache l).limits
  size : mp'.cacheSize = mp.cacheSize
  fit : mp'.CachesFit

section
variable {ops : Magazine.Depot δ α} {mp : Mempool δ α} {xs : List α} {n : Nat}

/-- Changing one cache to another one of the same limits that fits. -/
theorem update_fit (h : mp.CachesFit) {l : Fin rteMaxLcore} {c : MempoolCache α} (pool : δ)
    (hc : c.len ≤ c.flushthresh) : (mp.update l c pool).CachesFit := by
  intro l'
  show (Function.update mp.localCache l c l').len
    ≤ (Function.update mp.localCache l c l').flushthresh
  by_cases hl : l' = l
  · subst hl
    rw [Function.update_self]
    exact hc
  · rw [Function.update_of_ne hl]
    exact h l'

theorem update_limits {l : Fin rteMaxLcore} {c : MempoolCache α} (pool : δ)
    (hc : c.limits = (mp.localCache l).limits) (l' : Fin rteMaxLcore) :
    ((mp.update l c pool).localCache l').limits = (mp.localCache l').limits := by
  show (Function.update mp.localCache l c l').limits = _
  by_cases hl : l' = l
  · subst hl
    rw [Function.update_self, hc]
  · rw [Function.update_of_ne hl]

theorem update_frame {l l' : Fin rteMaxLcore} {c : MempoolCache α} (pool : δ)
    (hl : l' ∉ some l) : (mp.update l c pool).localCache l' = mp.localCache l' :=
  Function.update_of_ne (fun h => hl (congrArg some h.symm)) _ _

theorem update_heldBy (l : Fin rteMaxLcore) (c : MempoolCache α) (pool : δ) :
    (mp.update l c pool).heldBy (some l) = c.held := by
  rw [heldBy_some]
  show (Function.update mp.localCache l c l).held = c.held
  rw [Function.update_self]

/-- The objects `xs` go straight to the common pool. -/
theorem enqueueBulk_exchange (cache : Option (Fin rteMaxLcore)) (h : mp.CachesFit)
    (hroom : (ops.contents mp.pool).length + xs.length ≤ ops.capacity) :
    Exchange ops cache mp { mp with pool := enqueueBulk ops mp.pool xs } xs [] where
  perm := by
    show (xs ++ (mp.heldBy cache ++ ops.contents mp.pool)).Perm
      (mp.heldBy cache ++ ops.contents (enqueueBulk ops mp.pool xs))
    calc xs ++ (mp.heldBy cache ++ ops.contents mp.pool)
        = (xs ++ mp.heldBy cache) ++ ops.contents mp.pool := (List.append_assoc _ _ _).symm
      _ |>.Perm ((mp.heldBy cache ++ xs) ++ ops.contents mp.pool) :=
          List.perm_append_comm.append_right _
      _ = mp.heldBy cache ++ (xs ++ ops.contents mp.pool) := List.append_assoc _ _ _
      _ |>.Perm (mp.heldBy cache ++ ops.contents (enqueueBulk ops mp.pool xs)) :=
          (ops.contents_give hroom).symm.append_left _
  frame _ _ := rfl
  limits _ := rfl
  size := rfl
  fit := h

/-- **A put** through any cache, or none, stays inside the arrays and loses nothing, provided the
    common pool could hold all of it. -/
theorem doGenericPut_exchange (cache : Option (Fin rteMaxLcore)) (h : mp.CachesFit)
    (hroom : (ops.contents mp.pool).length + ((mp.heldBy cache).length + xs.length)
      ≤ ops.capacity) :
    ∃ mp', mp.doGenericPut ops xs cache = some mp' ∧ Exchange ops cache mp mp' xs [] := by
  cases cache with
  | none => exact ⟨_, rfl, enqueueBulk_exchange none h (by omega)⟩
  | some l =>
    by_cases hbig : mempoolCacheMaxSize < xs.length
    · exact ⟨_, if_pos hbig, enqueueBulk_exchange (some l) h (by omega)⟩
    · obtain ⟨c, hput, hheld, hlim, hfit⟩ := cachePut_held ops mp.pool (h l)
        (Nat.le_of_not_lt hbig)
      refine ⟨mp.update l c _, by rw [doGenericPut, if_neg hbig, hput]; rfl, ?_, ?_, ?_, rfl, ?_⟩
      · rw [heldBy_some] at hroom ⊢
        rw [update_heldBy, hheld]
        exact (Magazine.put_perm hroom).symm
      · exact fun l' hl => update_frame _ hl
      · exact update_limits _ hlim
      · exact update_fit h _ hfit

/-- **A get that the cache serves** stays inside the arrays and loses nothing. -/
theorem getCached_exchange (ops : Magazine.Depot δ α) (n : Nat)
    (cache : Option (Fin rteMaxLcore)) (h : mp.CachesFit) :
    match mp.getCached ops n cache with
    | .served xs mp' => xs.length = n ∧ Exchange ops cache mp mp' [] xs
    | .ringDequeue => True
    | .outOfBounds => False := by
  cases cache with
  | none => trivial
  | some l =>
    have hget := cacheGet_held ops mp.pool n (h l)
    cases hm : Magazine.get (mp.localCache l).limits ops (mp.localCache l).held mp.pool n with
    | none =>
      rw [hm] at hget
      have hring : cacheGet ops mp.pool n (mp.localCache l) = .ringDequeue := hget
      simp only [getCached, hring]
    | some r =>
      obtain ⟨xs, mag, pool⟩ := r
      rw [hm] at hget
      obtain ⟨c, hserved, hheld, hlim, hfit⟩ := hget
      obtain ⟨hlen, hperm⟩ := Magazine.get_perm hm
      simp only [getCached, hserved]
      refine ⟨hlen, ?_, ?_, ?_, rfl, ?_⟩
      · rw [List.nil_append, heldBy_some, update_heldBy, hheld]
        exact hperm
      · exact fun l' hl => update_frame _ hl
      · exact update_limits _ hlim
      · exact update_fit h _ hfit

/-- A get from the common pool loses nothing. -/
theorem ringDequeue_exchange (cache : Option (Fin rteMaxLcore)) (h : mp.CachesFit)
    {mp' : Mempool δ α} (hd : mp.ringDequeue ops n = some (xs, mp')) :
    xs.length = n ∧ Exchange ops cache mp mp' [] xs := by
  unfold ringDequeue at hd
  cases htake : ops.take mp.pool n with
  | none =>
    rw [htake] at hd
    nomatch hd
  | some r =>
    rw [htake] at hd
    obtain ⟨rfl, rfl⟩ := Prod.mk.inj (Option.some.inj hd)
    obtain ⟨hlen, hperm⟩ := ops.take_some _ _ _ _ htake
    refine ⟨hlen, ?_, fun _ _ => rfl, fun _ => rfl, rfl, h⟩
    show (mp.heldBy cache ++ ops.contents mp.pool).Perm
      (r.1 ++ (mp.heldBy cache ++ ops.contents r.2))
    refine (hperm.append_left _).trans ?_
    rw [← List.append_assoc, ← List.append_assoc]
    exact List.perm_append_comm.append_right _

theorem ringDequeue_eq_none_iff :
    mp.ringDequeue ops n = none ↔ (ops.contents mp.pool).length < n := by
  rw [← ops.take_eq_none_iff, ringDequeue, Option.map_eq_none_iff]

/-- A request jumps to `ring_dequeue` when there is no cache, when it is not smaller than the
    cache, or when the cache holds too little and the common pool cannot fill it. -/
theorem getCached_eq_ringDequeue_iff (ops : Magazine.Depot δ α) (n : Nat)
    (cache : Option (Fin rteMaxLcore)) (h : mp.CachesFit) :
    mp.getCached ops n cache = .ringDequeue ↔ ∀ l ∈ cache, (mp.localCache l).size ≤ n ∨
      ((mp.localCache l).len < n ∧
        (ops.contents mp.pool).length < n + ((mp.localCache l).size - (mp.localCache l).len)) := by
  cases cache with
  | none => exact ⟨fun _ l hl => (nomatch hl), fun _ => rfl⟩
  | some l =>
    have hheld := MempoolCache.held_length (h l)
    have hget := cacheGet_held ops mp.pool n (h l)
    have hiff : Magazine.get (mp.localCache l).limits ops (mp.localCache l).held mp.pool n = none ↔
        (mp.localCache l).size ≤ n ∨ ((mp.localCache l).len < n ∧ (ops.contents mp.pool).length
          < n + ((mp.localCache l).size - (mp.localCache l).len)) := by
      rw [Magazine.get_eq_none_iff, hheld]
      exact Iff.rfl
    constructor
    · intro hring l' hl'
      obtain rfl : l = l' := Option.some.inj hl'
      rw [← hiff]
      cases hm : Magazine.get (mp.localCache l).limits ops (mp.localCache l).held mp.pool n with
      | none => rfl
      | some r =>
        rw [hm] at hget
        obtain ⟨c, hserved, -⟩ := hget
        simp only [getCached, hserved] at hring
        nomatch hring
    · intro hl
      rw [hiff.mpr (hl l rfl)] at hget
      have hring : cacheGet ops mp.pool n (mp.localCache l) = .ringDequeue := hget
      simp only [getCached, hring]

/-- **When `rte_mempool_get_bulk` fails**: the common pool has fewer than `n` objects, and the
    calling lcore's own cache, if it has one, has fewer as well or is too small for the request.
    How full the caches of the other lcores are makes no difference. -/
theorem doGenericGet_eq_none_iff (cache : Option (Fin rteMaxLcore)) (h : mp.CachesFit) :
    mp.doGenericGet ops n cache = some none ↔ (ops.contents mp.pool).length < n ∧
      ∀ l ∈ cache, (mp.localCache l).size ≤ n ∨ (mp.localCache l).len < n := by
  have hget := getCached_exchange ops n cache h
  have hring := getCached_eq_ringDequeue_iff ops n cache h
  unfold doGenericGet
  cases hc : mp.getCached ops n cache with
  | outOfBounds =>
    rw [hc] at hget
    exact hget.elim
  | served xs mp' =>
    constructor
    · intro hnone
      nomatch hnone
    · rintro ⟨hlt, hl⟩
      have hstays : mp.getCached ops n cache = .ringDequeue := hring.mpr (fun l hlc => by
        rcases hl l hlc with hbig | hshort
        · exact Or.inl hbig
        · exact Or.inr ⟨hshort, by omega⟩)
      rw [hc] at hstays
      nomatch hstays
  | ringDequeue =>
    have hcache := hring.mp hc
    show some (mp.ringDequeue ops n) = some none ↔ _
    rw [Option.some_inj, ringDequeue_eq_none_iff]
    refine ⟨fun hlt => ⟨hlt, fun l hl => ?_⟩, fun hlt => hlt.1⟩
    rcases hcache l hl with hbig | ⟨hshort, -⟩
    · exact Or.inl hbig
    · exact Or.inr hshort

theorem defaultCache_eq_some {lcoreId : Nat} (hsize : mp.cacheSize ≠ 0)
    (hlcore : lcoreId < rteMaxLcore) : mp.defaultCache lcoreId = some ⟨lcoreId, hlcore⟩ := by
  rw [defaultCache, if_neg hsize, dif_pos hlcore]

/-- **Last in, first out.**  What an lcore puts back it gets again, in the reverse order, and
    every cache and the common pool are as before, as long as fewer objects are put than the size
    of the cache (a get of more does not look at it) and the put does not flush the cache. -/
theorem getBulk_putBulk {lcoreId : Nat} (h : mp.CachesFit) (hcache : mp.cacheSize ≠ 0)
    (hlcore : lcoreId < rteMaxLcore)
    (hsize : xs.length < (mp.localCache ⟨lcoreId, hlcore⟩).size)
    (hflush : (mp.localCache ⟨lcoreId, hlcore⟩).len + xs.length
      < (mp.localCache ⟨lcoreId, hlcore⟩).flushthresh) :
    ∃ mp₁ mp₂, mp.putBulk ops lcoreId xs = some mp₁ ∧
      mp₁.getBulk ops lcoreId xs.length = some (some (xs.reverse, mp₂)) ∧
      mp₂.pool = mp.pool ∧ ∀ l, (mp₂.localCache l).held = (mp.localCache l).held := by
  have hmax := (mp.localCache ⟨lcoreId, hlcore⟩).size_le_max
  have hbig : ¬ mempoolCacheMaxSize < xs.length := by
    have hlt : xs.length < mempoolCacheMaxSize := Nat.lt_of_lt_of_le hsize hmax
    omega
  let l : Fin rteMaxLcore := ⟨lcoreId, hlcore⟩
  let c := mp.localCache l
  let pool₁ := (Magazine.put c.limits ops c.held mp.pool xs).2
  have hheld : c.held.length = c.len := MempoolCache.held_length (h l)
  obtain ⟨c₁, hput, hheld₁, hlim₁, hfit₁⟩ := cachePut_held ops mp.pool (h l)
    (Nat.le_of_not_lt hbig)
  have hback : Magazine.get c.limits ops (Magazine.put c.limits ops c.held mp.pool xs).1
      (Magazine.put c.limits ops c.held mp.pool xs).2 xs.length
        = some (xs.reverse, c.held, mp.pool) :=
    Magazine.get_put (by
      rw [List.length_append, hheld]
      exact hflush) hsize
  -- the get, from the cache as the put has left it
  have hget := cacheGet_held ops pool₁ xs.length hfit₁
  rw [hheld₁, hlim₁, hback] at hget
  obtain ⟨c₂, hserved, hheld₂, -, -⟩ := hget
  let mp₁ := mp.update l c₁ pool₁
  have hl : mp₁.localCache l = c₁ := Function.update_self _ _ _
  refine ⟨mp₁, mp₁.update l c₂ mp.pool, ?_, ?_, rfl, ?_⟩
  · rw [putBulk, defaultCache_eq_some hcache hlcore, doGenericPut, if_neg hbig, hput]
    rfl
  · have hcached : mp₁.getCached ops xs.length (some l)
        = .served xs.reverse (mp₁.update l c₂ mp.pool) := by
      have hserved' : cacheGet ops mp₁.pool xs.length (mp₁.localCache l)
          = .served xs.reverse c₂ mp.pool := by
        rw [hl]
        exact hserved
      simp only [getCached, hserved']
    have hdefault : mp₁.defaultCache lcoreId = some l := defaultCache_eq_some hcache hlcore
    rw [getBulk, hdefault, doGenericGet, hcached]
  · intro l'
    show (Function.update (Function.update mp.localCache l c₁) l c₂ l').held = _
    by_cases hl' : l' = l
    · subst hl'
      rw [Function.update_self]
      exact hheld₂
    · rw [Function.update_of_ne hl', Function.update_of_ne hl']

end
end Mempool

end PacketSend
