/-
  How far the mempool of `packet_send` reaches when every lcore keeps some of it in its cache.

  `PoolBound` counts on one free list.  With caches an allocation can fail while there are free
  mbufs, in the caches of the OTHER lcores, where `rte_mempool_get` does not look: up to
  `flushthresh` in each.  The answer is the same (`neverDryPooled_iff`): three cores never run
  dry, four can.

  * At most three: a failed allocation means that the common pool is empty, and then rx queues, tx
    rings, cores and caches together would have to hold all 8191 mbufs, which is more than they
    can (`failed_alloc_length`).
  * Four and more: if no allocation could ever fail, four cores could fill their tx rings, with
    4096 mbufs, beside four full rx queues, with as many (`burst_run`); the pool has 8191.

  An allocation is not answered by the environment here but by the model of the mempool; what is
  left to the environment is how many mbufs the NIC takes, at most as many as its ring has
  descriptors left.

  The counts, for each core: 500 mbufs in the cache of its lcore (`flushthresh` is at most twice
  `MBUF_CACHE_SIZE`), 64 in its array, 1024 in its tx ring, 1024 in its rx queue.  Three
  times that is 7836, less than 8191, so that something is left in the common pool.  For four
  cores the caches need not be counted: 4 * 1024 and 4 * 1024 are one more than 8191.

  The second direction is about a run that nobody writes down.  Whether an allocation is served by
  the cache, fills it, or goes to `ring_dequeue` depends on the caches and on what the others have
  done; but if no core is ever to return, it ends with an mbuf in every case
  (`pooled_alloc_one`), and that is all the run needs.
-/
import PacketSend.PooledKept
import PacketSend.PoolBound

namespace PacketSend

open Runs Places

/-! ## The machine -/

variable {ι κ δ : Type} [DecidableEq ι] [DecidableEq κ]

/-- `MBUF_CACHE_SIZE`. -/
def mbufCacheSize : Nat := 250

/-- The NIC takes no more mbufs than its ring has descriptors left. -/
def PooledSys.Allowed (P : Platform ι κ δ) (s : PooledSys ι κ δ) : PooledEvent ι κ → Prop
  | .call c (.txBurst _ nbTx) => (s.ring (P.queueId c)).length + nbTx ≤ txRingSize
  | _ => True

instance (P : Platform ι κ δ) (s : PooledSys ι κ δ) :
    (e : PooledEvent ι κ) → Decidable (s.Allowed P e)
  | .call c (.txBurst _ nbTx) =>
    inferInstanceAs (Decidable ((s.ring (P.queueId c)).length + nbTx ≤ txRingSize))
  | .call _ (.alloc _) => isTrue trivial
  | .call _ (.store _ _) => isTrue trivial
  | .call _ (.free _) => isTrue trivial
  | .call _ (.count _) => isTrue trivial
  | .get _ _ => isTrue trivial
  | .miss _ => isTrue trivial
  | .dequeue _ _ => isTrue trivial
  | .complete _ _ _ => isTrue trivial

/-- The machine of `SendPooled` with such a NIC. -/
def PooledSys.boundedStep (P : Platform ι κ δ) :
    PooledSys ι κ δ → PooledEvent ι κ → Option (PooledSys ι κ δ) :=
  restrict (PooledSys.Allowed P) (PooledSys.step P)

/-- The start of `n` cores, core `c` on tx queue `c`: the `NUM_MBUFS` mbufs of the mempool, less
    those the `n` rx queues have taken.  The caches have the size `main` asks for; those of lcores
    that run no core are empty. -/
structure PooledSetup (n : Nat) (δ : Type) where
  P : Platform (Fin n) (Fin n) δ
  start : PooledStart P
  queue : P.queueId = id
  pinned : Fin n → Nat
  pinned_le : ∀ r, pinned r ≤ rxRingSize
  total : start.mbufs.length + ∑ r, pinned r = numMbufs
  cacheSize : ∀ l, (start.mp.localCache l).size = mbufCacheSize
  idle : ∀ l : Fin rteMaxLcore, (∀ c, P.lcoreId c ≠ l) → (start.mp.localCache l).len = 0

/-- `n` cores never run dry: no core ever leaves its loop. -/
def NeverDryPooled (n : Nat) : Prop :=
  ∀ (δ : Type) (u : PooledSetup n δ) (es : List (PooledEvent (Fin n) (Fin n)))
    (s : PooledSys (Fin n) (Fin n) δ),
    Run (PooledSys.boundedStep u.P) u.start.init es s → ∀ c i, (s.core c).pc ≠ .returned i

namespace PooledSys

/-! ## What the caches and the rings hold -/

section
variable {P : Platform ι κ δ} {U : List Ptr} {s s' : PooledSys ι κ δ}

/-- An event leaves the mempool alone or exchanges mbufs through the cache of one core. -/
theorem step_exchange (hU : U.length ≤ P.ops.capacity) (h : s.Inv P U) {e : PooledEvent ι κ}
    (hs : s.step P e = some s') : s'.mp = s.mp ∨
      ∃ c inn out, Mempool.Exchange P.ops (s.cacheOf P c) s.mp s'.mp inn out := by
  have hfit : s.mp.CachesFit := h.use.fit
  -- what a put of mbufs from a hand does
  have hput : ∀ {c : ι} (hd : ι ⊕ κ) {xs : List Ptr} {mp : Mempool δ Ptr},
      xs.Subperm (s.use.hand hd) → s.mp.putBulk P.ops (P.lcoreId c) xs = some mp →
      Mempool.Exchange P.ops (s.cacheOf P c) s.mp mp xs [] := by
    intro c hd xs mp hsub hmp
    obtain ⟨mp', hmp', hx⟩ := Mempool.doGenericPut_exchange (s.cacheOf P c) hfit
      (partition_room h.use.partition hU hsub)
    obtain rfl : mp' = mp := Option.some.inj (hmp'.symm.trans hmp)
    exact hx
  cases step_inv hs with
  | @get c m k mp hwait hk hget =>
    have hx := Mempool.getCached_exchange P.ops 1 (s.cacheOf P c) hfit
    rw [hget] at hx
    exact Or.inr ⟨c, _, _, hx.2⟩
  | @dequeue c m k mp hwait hk hd =>
    exact Or.inr ⟨c, _, _, (Mempool.ringDequeue_exchange (s.cacheOf P c) hfit hd).2⟩
  | @free c m k hdr back mp hwait hk hfree hback =>
    obtain ⟨rfl, rfl⟩ := Prod.mk.inj (Option.some.inj ((h.clean.free_eq m).symm.trans hfree))
    have hmp := (putAll_single P.ops (P.lcoreId c) m s.mp).symm.trans hback
    have hsub : [m].Subperm (s.use.hand (.inl c)) := by
      show [m].Subperm (s.core c).live
      rw [Core.live_free hk]
      exact (List.sublist_append_left [m] _).subperm
    exact Or.inr ⟨c, _, _, hput (.inl c) hsub hmp⟩
  | @complete c q xs mp hwait hsub hmp => exact Or.inr ⟨c, _, _, hput (.inr q) hsub hmp⟩
  | _ => exact Or.inl rfl

/-- The caches have a fixed size, and those of lcores without a core are empty. -/
def CachesOf (P : Platform ι κ δ) (mp : Mempool δ Ptr) : Prop :=
  ∀ l, (mp.localCache l).size = mbufCacheSize ∧
    ((∀ c, P.lcoreId c ≠ l) → (mp.localCache l).len = 0)

/-- **What one event preserves**: an exchange goes through the cache of a core, and leaves the
    limits of that cache alone. -/
theorem CachesOf.step (hU : U.length ≤ P.ops.capacity) (h : s.Inv P U) (hc : CachesOf P s.mp)
    {e : PooledEvent ι κ} (hs : s.step P e = some s') : CachesOf P s'.mp := by
  intro l
  rcases step_exchange hU h hs with hsame | ⟨c, inn, out, hx⟩
  · rw [hsame]
    exact hc l
  · constructor
    · have hsize : (s'.mp.localCache l).limits.size = (s.mp.localCache l).limits.size := by
        rw [hx.limits l]
      exact hsize.trans (hc l).1
    · -- the cache of an lcore without a core is not the one of `c`
      intro hl
      have hframe : l ∉ s.cacheOf P c := by
        intro hmem
        have hdef : s.mp.defaultCache (P.lcoreId c) = some l := hmem
        unfold Mempool.defaultCache at hdef
        split at hdef
        · nomatch hdef
        · split at hdef
          · exact hl c (congrArg Fin.val (Option.some.inj hdef))
          · nomatch hdef
      rw [hx.frame l hframe]
      exact (hc l).2 hl

/-- A ring never holds more than its descriptors: a burst is allowed only into free ones, and a
    completion takes mbufs out. -/
theorem ring_length_le (hr : ∀ q, (s.ring q).length ≤ txRingSize) {e : PooledEvent ι κ}
    (hs : s.boundedStep P e = some s') : ∀ q, (s'.ring q).length ≤ txRingSize := by
  obtain ⟨hok, hstep⟩ := restrict_eq_some.mp hs
  intro q
  cases step_inv hstep with
  | @txBurst c bs nbTx k hwait hk =>
    show (Function.update s.ring (P.queueId c) _ q).length ≤ txRingSize
    by_cases hq : q = P.queueId c
    · subst hq
      have hroom : (s.ring (P.queueId c)).length + nbTx ≤ txRingSize := hok
      rw [Function.update_self, List.length_append, List.length_take]
      omega
    · rw [Function.update_of_ne hq]
      exact hr q
  | @complete c q' xs mp hwait hsub hput =>
    show (Function.update s.ring q' _ q).length ≤ txRingSize
    by_cases hq : q = q'
    · subst hq
      rw [Function.update_self]
      exact Nat.le_trans (List.diff_sublist _ _).length_le (hr q)
    · rw [Function.update_of_ne hq]
      exact hr q
  | _ => exact hr q

end
end PooledSys

/-! ## At most three cores -/

section
variable {n : Nat} {u : PooledSetup n δ} {es : List (PooledEvent (Fin n) (Fin n))}
  {s : PooledSys (Fin n) (Fin n) δ}

/-! What holds in every state that is reached: the invariant of the mempool, the caches and the
    rings. -/

theorem PooledSetup.inv (h : Run (PooledSys.boundedStep u.P) u.start.init es s) :
    s.Inv u.P u.start.mbufs := u.start.inv_init.run u.start.room h.of_restrict

theorem PooledSetup.caches (h : Run (PooledSys.boundedStep u.P) u.start.init es s) :
    PooledSys.CachesOf u.P s.mp := by
  refine (h.reachable (P := fun s => s.Inv u.P u.start.mbufs ∧ PooledSys.CachesOf u.P s.mp)
    ⟨u.start.inv_init, fun l => ⟨u.cacheSize l, u.idle l⟩⟩ (fun t e v ht hs => ?_)).2
  have hstep := (restrict_eq_some.mp hs).2
  exact ⟨ht.1.step u.start.room hstep, ht.2.step u.start.room ht.1 hstep⟩

theorem PooledSetup.rings (h : Run (PooledSys.boundedStep u.P) u.start.init es s) :
    ∀ q, (s.ring q).length ≤ txRingSize :=
  h.reachable (P := fun s => ∀ q, (s.ring q).length ≤ txRingSize) (fun _ => Nat.zero_le _)
    (fun _ _ _ hr hs => PooledSys.ring_length_le hr hs)

/-- The cache of the lcore of core `c`, as a place. -/
def cachePlace (P : Platform (Fin n) (Fin n) δ) (c : Fin n) :
    Option (UsePlace (Fin n ⊕ Fin n)) :=
  if h : P.lcoreId c < rteMaxLcore then some (.cache ⟨P.lcoreId c, h⟩) else none

/-- **What is away when the common pool is empty**: at most 1588 mbufs for each core.  The places
    are partitioned, so that the mbufs are no more than those in caches, hands and rings together,
    and each kind of place is counted by itself. -/
theorem failed_alloc_length (h : Run (PooledSys.boundedStep u.P) u.start.init es s)
    (hpool : u.P.ops.contents s.mp.pool = []) :
    u.start.mbufs.length ≤ n * (2 * mbufCacheSize + burstSize + txRingSize) := by
  have hinv := PooledSetup.inv h
  have hcaches := PooledSetup.caches h
  have hrings := PooledSetup.rings h
  have hfit : s.mp.CachesFit := hinv.use.fit
  let cores := List.finRange n
  let caches := cores.filterMap (cachePlace u.P)
  let hands := cores.map fun c => (.hand (.inl c) : UsePlace (Fin n ⊕ Fin n))
  let rings := cores.map fun q => (.hand (.inr q) : UsePlace (Fin n ⊕ Fin n))
  have hcores : cores.length = n := List.length_finRange
  -- a cache holds no more than its threshold, which is at most twice its size
  have hheld : ∀ l, (s.mp.localCache l).held.length ≤ 2 * mbufCacheSize := by
    intro l
    have hlen := MempoolCache.held_length (hfit l)
    have hflush := (s.mp.localCache l).flushthresh_le
    have hle := hfit l
    rw [(hcaches l).1] at hflush
    omega
  -- nothing is at the other places
  have hrest : ∀ p, p ∉ caches ++ (hands ++ rings) → s.use.owned u.P.ops p = [] := by
    rintro (_ | l | c | q) hp
    · exact hpool
    · have hl : ∀ c, u.P.lcoreId c ≠ l := by
        intro c hc
        have hlt : u.P.lcoreId c < rteMaxLcore := by
          rw [hc]
          exact l.isLt
        refine hp (List.mem_append_left _ (List.mem_filterMap.mpr ⟨c, List.mem_finRange c, ?_⟩))
        rw [cachePlace, dif_pos hlt]
        exact congrArg (fun l => some (UsePlace.cache l)) (Fin.ext hc)
      show (s.mp.localCache l).held = []
      rw [MempoolCache.held, (hcaches l).2 hl, List.take_zero]
    · exact absurd (List.mem_append_right _ (List.mem_append_left _
        (List.mem_map.mpr ⟨c, List.mem_finRange c, rfl⟩))) hp
    · exact absurd (List.mem_append_right _ (List.mem_append_right _
        (List.mem_map.mpr ⟨q, List.mem_finRange q, rfl⟩))) hp
  have hall := hinv.use.partition.length_ge u.start.nodup hrest
  have hcacheLen : (caches.flatMap (s.use.owned u.P.ops)).length ≤ n * (2 * mbufCacheSize) := by
    have hle : caches.length ≤ n :=
      Nat.le_trans (List.length_filterMap_le _ _) (Nat.le_of_eq hcores)
    refine Nat.le_trans (length_flatMap_le (fun p hp => ?_)) (Nat.mul_le_mul_right _ hle)
    obtain ⟨c, -, hc⟩ := List.mem_filterMap.mp hp
    unfold cachePlace at hc
    split at hc
    · obtain rfl := Option.some.inj hc
      exact hheld _
    · cases hc
  have hhandLen : (hands.flatMap (s.use.owned u.P.ops)).length ≤ n * burstSize := by
    have hle : hands.length ≤ n := Nat.le_of_eq ((List.length_map _).trans hcores)
    refine Nat.le_trans (length_flatMap_le (fun p hp => ?_)) (Nat.mul_le_mul_right _ hle)
    obtain ⟨c, -, rfl⟩ := List.mem_map.mp hp
    exact (s.core c).live_length_le
  have hringLen : (rings.flatMap (s.use.owned u.P.ops)).length ≤ n * txRingSize := by
    have hle : rings.length ≤ n := Nat.le_of_eq ((List.length_map _).trans hcores)
    refine Nat.le_trans (length_flatMap_le (fun p hp => ?_)) (Nat.mul_le_mul_right _ hle)
    obtain ⟨q, -, rfl⟩ := List.mem_map.mp hp
    exact hrings q
  rw [List.flatMap_append, List.flatMap_append, List.length_append, List.length_append] at hall
  rw [Nat.mul_add, Nat.mul_add]
  omega

end

/-- What an event is for core `d`: nothing, or one of its calls; an allocation fails only when the
    common pool has nothing. -/
theorem PooledSys.core_cases {P : Platform ι κ δ} {s s' : PooledSys ι κ δ} {e : PooledEvent ι κ}
    (h : s.step P e = some s') (d : ι) : s'.core d = s.core d ∨
      ∃ call, coreOf e = some d ∧ (s.core d).step call = some (s'.core d) ∧
        (call = .alloc none → s.mp.ringDequeue P.ops 1 = none) := by
  -- an event of core `c`, for which it makes `call`
  have hupd : ∀ {c : ι} {k : Core} {call : Call}, (s.core c).step call = some k →
      (call = .alloc none → s.mp.ringDequeue P.ops 1 = none) →
      Function.update s.core c k d = s.core d ∨
        ∃ call, some c = some d ∧ (s.core d).step call = some (Function.update s.core c k d) ∧
          (call = .alloc none → s.mp.ringDequeue P.ops 1 = none) := by
    intro c k call hk hcall
    by_cases hd : d = c
    · subst hd
      rw [Function.update_self]
      exact Or.inr ⟨call, rfl, hk, hcall⟩
    · rw [Function.update_of_ne hd]
      exact Or.inl rfl
  cases PooledSys.step_inv h with
  | miss hwait hk hget => exact Or.inl rfl
  | complete hwait hsub hput => exact Or.inl rfl
  | dequeueFail hwait hk hd => exact hupd hk (fun _ => hd)
  | get hwait hk hget => exact hupd hk (fun hc => nomatch hc)
  | dequeue hwait hk hd => exact hupd hk (fun hc => nomatch hc)
  | store hwait hk => exact hupd hk (fun hc => nomatch hc)
  | txBurst hwait hk => exact hupd hk (fun hc => nomatch hc)
  | free hwait hk hfree hput => exact hupd hk (fun hc => nomatch hc)
  | count hwait hk => exact hupd hk (fun hc => nomatch hc)

/-- With three cores an allocation never fails.  The induction is on the run; the last event is the
    one that makes the core return, and that is a failed allocation. -/
theorem neverDryPooled_of_le {n : Nat} (hn : n ≤ 3) : NeverDryPooled n := by
  intro δ u es s h c i
  induction h with
  | nil => exact fun hpc => nomatch hpc
  | @snoc es t v e hrun hs ih =>
    intro hpc
    have hstep := (restrict_eq_some.mp hs).2
    rcases PooledSys.core_cases hstep c with hsame | ⟨call, -, hcore, hfail⟩
    · exact ih (hsame ▸ hpc)
    · have hempty := Mempool.ringDequeue_eq_none_iff.mp (hfail (Core.step_returned hcore hpc))
      have hpool := List.eq_nil_of_length_eq_zero (Nat.lt_one_iff.mp hempty)
      have hlen := failed_alloc_length hrun hpool
      -- all mbufs are away then, and the rx queues have no more than their rings
      have hpin : ∑ r, u.pinned r ≤ n * rxRingSize := by
        calc ∑ r, u.pinned r ≤ Finset.univ.card • rxRingSize :=
              Finset.sum_le_card_nsmul _ _ _ (fun r _ => u.pinned_le r)
          _ = n * rxRingSize := by rw [Finset.card_univ, Fintype.card_fin, smul_eq_mul]
      have htotal := u.total
      have hle : n * (2 * mbufCacheSize + burstSize + txRingSize) + n * rxRingSize
          ≤ 3 * (2 * mbufCacheSize + burstSize + txRingSize) + 3 * rxRingSize :=
        Nat.add_le_add (Nat.mul_le_mul_right _ hn) (Nat.mul_le_mul_right _ hn)
      have hlt : 3 * (2 * mbufCacheSize + burstSize + txRingSize) + 3 * rxRingSize < numMbufs := by
        decide
      omega

/-! ## Four cores and more

  Suppose no core ever returns.  Then an allocation always ends with an mbuf, whatever the caches
  hold, and a NIC that takes every burst and completes nothing fills the tx rings. -/

/-- From `s`, core `c` alone has moved, and `sent` more mbufs are on its ring. -/
structure PooledAdvance (P : Platform ι κ δ) (c : ι) (s s' : PooledSys ι κ δ) (sent : Nat) :
    Prop where
  run : ∃ es, Run (PooledSys.boundedStep P) s es s'
  ring : (s'.ring (P.queueId c)).length = (s.ring (P.queueId c)).length + sent
  rings : ∀ q, q ≠ P.queueId c → s'.ring q = s.ring q
  cores : ∀ d, d ≠ c → s'.core d = s.core d

namespace PooledAdvance

variable {P : Platform ι κ δ} {c : ι} {s s' s'' : PooledSys ι κ δ} {sent sent' : Nat}

/-- Nothing has happened. -/
theorem refl (P : Platform ι κ δ) (c : ι) (s : PooledSys ι κ δ) : PooledAdvance P c s s 0 :=
  ⟨⟨[], Run.nil⟩, rfl, fun _ _ => rfl, fun _ _ => rfl⟩

/-- One after the other. -/
theorem trans (h : PooledAdvance P c s s' sent) (h' : PooledAdvance P c s' s'' sent') :
    PooledAdvance P c s s'' (sent + sent') where
  run := by
    obtain ⟨es, hrun⟩ := h.run
    obtain ⟨es', hrun'⟩ := h'.run
    exact ⟨es ++ es', hrun.trans hrun'⟩
  ring := by rw [h'.ring, h.ring, Nat.add_assoc]
  rings q hq := (h'.rings q hq).trans (h.rings q hq)
  cores d hd := (h'.cores d hd).trans (h.cores d hd)

/-- One event of core `c`. -/
theorem single {e : PooledEvent ι κ} (hstep : PooledStep P s e s')
    (he : PooledSys.coreOf e = some c) (hok : s.Allowed P e)
    (hring : (s'.ring (P.queueId c)).length = (s.ring (P.queueId c)).length + sent)
    (hrings : ∀ q, q ≠ P.queueId c → s'.ring q = s.ring q) : PooledAdvance P c s s' sent where
  run := ⟨_, Run.single (restrict_eq_some.mpr ⟨hok, hstep.step_eq⟩)⟩
  ring := hring
  rings := hrings
  cores := by
    intro d hd
    rcases PooledSys.core_cases hstep.step_eq d with hsame | ⟨call, hc, -⟩
    · exact hsame
    · exact absurd (Option.some.inj (hc.symm.trans he)) hd

end PooledAdvance

section Adversary

variable {n : Nat} {u : PooledSetup n δ} (c : Fin n) {s : PooledSys (Fin n) (Fin n) δ}

/-- The states that can be reached, if no core ever returns in any of them: the assumption that is
    going to be refuted, carried along the run. -/
structure Reach (u : PooledSetup n δ) (s : PooledSys (Fin n) (Fin n) δ) : Prop where
  run : ∃ es, Run (PooledSys.boundedStep u.P) u.start.init es s
  dry : ∀ es t, Run (PooledSys.boundedStep u.P) u.start.init es t →
    ∀ c i, (t.core c).pc ≠ .returned i

/-- The invariant holds there. -/
theorem Reach.inv (h : Reach u s) : s.Inv u.P u.start.mbufs := by
  obtain ⟨es, hrun⟩ := h.run
  exact PooledSetup.inv hrun

/-- A step further. -/
theorem Reach.advance (h : Reach u s) {s' : PooledSys (Fin n) (Fin n) δ} {sent : Nat}
    (ha : PooledAdvance u.P c s s' sent) : Reach u s' := by
  obtain ⟨es, hrun⟩ := h.run
  obtain ⟨es', hrun'⟩ := ha.run
  exact ⟨⟨es ++ es', hrun.trans hrun'⟩, h.dry⟩

/-- A core that is not about to allocate is not inside a get. -/
theorem Reach.idle (h : Reach u s) (hpc : ∀ i, (s.core c).pc ≠ .alloc i) : s.wait c = false := by
  cases hwait : s.wait c with
  | false => rfl
  | true =>
    obtain ⟨i, hi⟩ := h.inv.waiting c hwait
    exact absurd hi (hpc i)

/-- The common pool has an mbuf for a core that stands at `ring_dequeue`. -/
theorem dequeue_one (h : Reach u s) {i : Fin burstSize} (hpc : (s.core c).pc = .alloc i)
    (hwait : s.wait c = true) :
    ∃ s', PooledAdvance u.P c s s' 0 ∧ (s'.core c).pc = .store i := by
  have hfit : s.mp.CachesFit := h.inv.use.fit
  cases hd : s.mp.ringDequeue u.P.ops 1 with
  | none =>
    -- a failing allocation would make the core return
    have hfail := PooledStep.dequeueFail hwait (CoreStep.allocFail hpc).step_eq hd
    have hadv : PooledAdvance u.P c s _ 0 := PooledAdvance.single hfail rfl trivial rfl
      (fun _ _ => rfl)
    obtain ⟨es, hrun⟩ := (h.advance c hadv).run
    refine absurd ?_ (h.dry es _ hrun c i)
    show (Function.update s.core c _ c).pc = .returned i
    rw [Function.update_self]
  | some r =>
    obtain ⟨xs, mp⟩ := r
    obtain ⟨m, rfl⟩ := List.length_eq_one_iff.mp (Mempool.ringDequeue_exchange none hfit hd).1
    have hk := (CoreStep.alloc (k := s.core c) m hpc).step_eq
    refine ⟨_, PooledAdvance.single (PooledStep.dequeue hwait hk hd) rfl trivial rfl
      (fun _ _ => rfl), ?_⟩
    show (Function.update s.core c _ c).pc = _
    rw [Function.update_self]

/-- **An allocation ends with an mbuf**, from the cache, after a back-fill, or at `ring_dequeue`. -/
theorem pooled_alloc_one (h : Reach u s) {i : Fin burstSize} (hpc : (s.core c).pc = .alloc i) :
    ∃ s', PooledAdvance u.P c s s' 0 ∧ (s'.core c).pc = .store i := by
  have hfit : s.mp.CachesFit := h.inv.use.fit
  cases hwait : s.wait c with
  | true => exact dequeue_one c h hpc hwait
  | false =>
    have hget := Mempool.getCached_exchange u.P.ops 1 (s.cacheOf u.P c) hfit
    cases hc : s.mp.getCached u.P.ops 1 (s.cacheOf u.P c) with
    | outOfBounds =>
      rw [hc] at hget
      exact hget.elim
    | ringDequeue =>
      have hmiss := PooledStep.miss hwait (CoreStep.allocFail (k := s.core c) hpc).step_eq hc
      have hadv : PooledAdvance u.P c s _ 0 := PooledAdvance.single hmiss rfl trivial rfl
        (fun _ _ => rfl)
      obtain ⟨s', hadv', hpc'⟩ := dequeue_one c (h.advance c hadv) hpc
        (Function.update_self c true s.wait)
      exact ⟨s', hadv.trans hadv', hpc'⟩
    | served xs mp =>
      rw [hc] at hget
      obtain ⟨m, rfl⟩ := List.length_eq_one_iff.mp hget.1
      have hk := (CoreStep.alloc (k := s.core c) m hpc).step_eq
      refine ⟨_, PooledAdvance.single (PooledStep.get hwait hk hc) rfl trivial rfl
        (fun _ _ => rfl), ?_⟩
      show (Function.update s.core c _ c).pc = _
      rw [Function.update_self]

/-- The header and the packet are written. -/
theorem pooled_store_one (h : Reach u s) {i : Fin burstSize} (hpc : (s.core c).pc = .store i) :
    ∃ s', PooledAdvance u.P c s s' 0 ∧ (s'.core c).pc = allocFrom (i + 1) := by
  have hwait := h.idle c (fun j hj => nomatch hpc.symm.trans hj)
  refine ⟨_, PooledAdvance.single (PooledStep.store hwait (CoreStep.store hpc).step_eq) rfl trivial
    rfl (fun _ _ => rfl), ?_⟩
  show (Function.update s.core c _ c).pc = _
  rw [Function.update_self]

/-- A burst that the NIC accepts completely. -/
theorem pooled_txBurst_one (h : Reach u s) (hpc : (s.core c).pc = .txBurst)
    (hring : (s.ring (u.P.queueId c)).length + burstSize ≤ txRingSize) :
    ∃ s', PooledAdvance u.P c s s' burstSize ∧ (s'.core c).pc = .count burstSize := by
  have hwait := h.idle c (fun j hj => nomatch hpc.symm.trans hj)
  refine ⟨_, PooledAdvance.single (PooledStep.txBurst hwait
    (CoreStep.txBurst hpc (Nat.le_refl burstSize)).step_eq) rfl hring ?_ ?_, ?_⟩
  · show (Function.update s.ring (u.P.queueId c)
      (s.ring (u.P.queueId c) ++ (s.core c).bufs.toList.take burstSize) (u.P.queueId c)).length = _
    rw [Function.update_self, List.length_append, List.length_take, toList_length, Nat.min_self]
  · intro q hq
    exact Function.update_of_ne hq _ _
  · show (Function.update s.core c _ c).pc = _
    rw [Function.update_self]
    exact freeFrom_burstSize burstSize

/-- The burst is counted, and the next iteration begins. -/
theorem pooled_count_one (h : Reach u s) {nbTx : Nat} (hpc : (s.core c).pc = .count nbTx) :
    ∃ s', PooledAdvance u.P c s s' 0 ∧ (s'.core c).pc = allocFrom 0 := by
  have hwait := h.idle c (fun j hj => nomatch hpc.symm.trans hj)
  refine ⟨_, PooledAdvance.single (PooledStep.count hwait (CoreStep.count hpc).step_eq) rfl trivial
    rfl (fun _ _ => rfl), ?_⟩
  show (Function.update s.core c _ c).pc = _
  rw [Function.update_self]

/-- The allocation loop, for `j` entries. -/
theorem pooled_fill_run (hpc : (s.core c).pc = allocFrom 0) (h : Reach u s) : ∀ j, j ≤ burstSize →
    ∃ s', PooledAdvance u.P c s s' 0 ∧ (s'.core c).pc = allocFrom j
  | 0, _ => ⟨s, PooledAdvance.refl u.P c s, hpc⟩
  | j + 1, hj => by
    obtain ⟨s₁, h₁, hpc₁⟩ := pooled_fill_run hpc h j (Nat.le_of_succ_le hj)
    have hlt : j < burstSize := hj
    have hreach₁ := h.advance c h₁
    obtain ⟨s₂, h₂, hpc₂⟩ := pooled_alloc_one c hreach₁ (hpc₁.trans (allocFrom_of_lt hlt))
    obtain ⟨s₃, h₃, hpc₃⟩ := pooled_store_one c (hreach₁.advance c h₂) hpc₂
    exact ⟨s₃, (h₁.trans h₂).trans h₃, hpc₃⟩

/-- A whole iteration of the `while`, all 64 mbufs accepted. -/
theorem pooled_burst_run (h : Reach u s) (hpc : (s.core c).pc = allocFrom 0)
    (hring : (s.ring (u.P.queueId c)).length + burstSize ≤ txRingSize) :
    ∃ s', PooledAdvance u.P c s s' burstSize ∧ (s'.core c).pc = allocFrom 0 := by
  obtain ⟨s₁, h₁, hpc₁⟩ := pooled_fill_run c hpc h burstSize (Nat.le_refl _)
  have hreach₁ := h.advance c h₁
  have hring₁ : (s₁.ring (u.P.queueId c)).length + burstSize ≤ txRingSize := by
    have hr := h₁.ring
    omega
  obtain ⟨s₂, h₂, hpc₂⟩ := pooled_txBurst_one c hreach₁ (hpc₁.trans allocFrom_burstSize) hring₁
  obtain ⟨s₃, h₃, hpc₃⟩ := pooled_count_one c (hreach₁.advance c h₂) hpc₂
  exact ⟨s₃, by simpa using (h₁.trans h₂).trans h₃, hpc₃⟩

/-- `k` iterations of the `while`, all mbufs accepted. -/
theorem pooled_bursts_run (h : Reach u s) (hpc : (s.core c).pc = allocFrom 0) : ∀ k,
    (s.ring (u.P.queueId c)).length + k * burstSize ≤ txRingSize →
    ∃ s', PooledAdvance u.P c s s' (k * burstSize) ∧ (s'.core c).pc = allocFrom 0
  | 0, _ => ⟨s, by simpa using PooledAdvance.refl u.P c s, hpc⟩
  | k + 1, hring => by
    rw [Nat.succ_mul] at hring ⊢
    obtain ⟨s₁, h₁, hpc₁⟩ := pooled_bursts_run h hpc k (by omega)
    have hr := h₁.ring
    obtain ⟨s₂, h₂, hpc₂⟩ := pooled_burst_run c (h.advance c h₁) hpc₁ (by omega)
    exact ⟨s₂, h₁.trans h₂, hpc₂⟩

/-- The first `j` cores can fill their rings, one after the other: sixteen bursts each, with the
    cores that have not begun yet still where they were. -/
theorem pooled_rings_run (hdry : Reach u u.start.init) : ∀ j, j ≤ n →
    ∃ s, Reach u s ∧ (∀ q : Fin n, q.val < j → (s.ring q).length = txRingSize) ∧
      ∀ q : Fin n, j ≤ q.val → s.ring q = [] ∧ (s.core q).pc = allocFrom 0
  | 0, _ =>
    ⟨u.start.init, hdry, fun q hq => absurd hq (Nat.not_lt_zero _), fun q _ => ⟨rfl, rfl⟩⟩
  | j + 1, hj => by
    obtain ⟨s, hreach, hfull, hnew⟩ := pooled_rings_run hdry j (Nat.le_of_succ_le hj)
    -- it is the turn of core `j`
    let c : Fin n := ⟨j, hj⟩
    have hqueue : u.P.queueId c = c := congrFun u.queue c
    obtain ⟨hring, hpc⟩ := hnew c (Nat.le_refl j)
    have hroom : (s.ring (u.P.queueId c)).length + 16 * burstSize ≤ txRingSize := by
      rw [hqueue, hring]
      decide
    obtain ⟨s', hadv, -⟩ := pooled_bursts_run c hreach hpc 16 hroom
    have hrings : ∀ q, q ≠ c → s'.ring q = s.ring q := fun q hq =>
      hadv.rings q (fun h => hq (h.trans hqueue))
    refine ⟨s', hreach.advance c hadv, fun q hq => ?_, fun q hq => ?_⟩
    · by_cases hqc : q = c
      · have hlen := hadv.ring
        rw [hqueue, hring] at hlen
        rw [hqc, hlen]
        rfl
      · have hlt : q.val < j := by
          have hne : q.val ≠ j := fun h => hqc (Fin.ext h)
          omega
        rw [hrings q hqc]
        exact hfull q hlt
    · have hqc : q ≠ c := by
        rintro rfl
        exact absurd hq (Nat.not_succ_le_self j)
      obtain ⟨hring', hpc'⟩ := hnew q (Nat.le_of_succ_le hq)
      rw [hrings q hqc, hadv.cores q hqc]
      exact ⟨hring', hpc'⟩

/-- With `n` full tx rings there were `n` times `TX_RING_SIZE` mbufs. -/
theorem full_rings_length (h : Reach u s) (hfull : ∀ q, (s.ring q).length = txRingSize) :
    n * txRingSize ≤ u.start.mbufs.length := by
  let rings := (List.finRange n).map fun q => (.hand (.inr q) : UsePlace (Fin n ⊕ Fin n))
  have hnd : rings.Nodup := by
    refine (List.nodup_finRange n).map (fun q q' heq => ?_)
    exact Sum.inr.inj (UsePlace.hand.inj heq)
  have hlen : rings.length = n := (List.length_map _).trans List.length_finRange
  have hle : rings.length * txRingSize ≤ (rings.flatMap (s.use.owned u.P.ops)).length := by
    refine le_length_flatMap (fun p hp => ?_)
    obtain ⟨q, -, rfl⟩ := List.mem_map.mp hp
    exact Nat.le_of_eq (hfull q).symm
  rw [hlen] at hle
  exact Nat.le_trans hle (h.inv.use.partition.length_le hnd)

end Adversary

/-- Four full rx queues and an untouched mempool of the other mbufs. -/
def fullSetup (k : Nat) (mbufs : List Ptr) (nodup : mbufs.Nodup)
    (hlen : mbufs.length + 4 * rxRingSize = numMbufs) : PooledSetup (4 + k) (List Ptr) where
  P := plainPlatform (4 + k) mbufs.length
  start := NewMempool.pooledStart (P := plainPlatform (4 + k) mbufs.length)
    (newMempool mbufs nodup)
  queue := rfl
  pinned := (fullQueues k mbufs nodup hlen).pinned
  pinned_le := (fullQueues k mbufs nodup hlen).pinned_le
  total := (fullQueues k mbufs nodup hlen).total
  cacheSize _ := rfl
  idle _ _ := rfl

/-- From four cores on, a core can find neither the common pool nor its cache to have an mbuf:
    otherwise the rings could all be filled, with more mbufs than there are. -/
theorem not_neverDryPooled {n : Nat} (hn : 4 ≤ n) : ¬ NeverDryPooled n := by
  obtain ⟨k, rfl⟩ := Nat.exists_eq_add_of_le hn
  intro hdry
  obtain ⟨U, hU, hlen⟩ : ∃ U : List Ptr, U.Nodup ∧ U.length + 4 * rxRingSize = numMbufs :=
    ⟨List.range 4095, List.nodup_range, by rw [List.length_range]; decide⟩
  let u := fullSetup k U hU hlen
  have hreach : Reach u u.start.init := ⟨⟨[], Run.nil⟩, hdry _ u⟩
  obtain ⟨s, hs, hfull, -⟩ := pooled_rings_run hreach (4 + k) (Nat.le_refl _)
  have hge : (4 + k) * txRingSize ≤ U.length := full_rings_length hs (fun q => hfull q q.isLt)
  have hrx : rxRingSize = 1024 := rfl
  have htx : txRingSize = 1024 := rfl
  have hnum : numMbufs = 8191 := rfl
  rw [htx, Nat.add_mul] at hge
  omega

/-- **When the mempool of `packet_send` never runs dry**: exactly with at most three lcores, the
    caches of the lcores notwithstanding. -/
theorem neverDryPooled_iff (n : Nat) : NeverDryPooled n ↔ n ≤ 3 := by
  constructor
  · intro h
    by_contra hn
    exact not_neverDryPooled (by omega) h
  · exact neverDryPooled_of_le

end PacketSend
