/-
  The sending cores on the real mempool.

  `SendSystem` has one free list.  Here `rte_pktmbuf_alloc` is `rte_mempool_get` through the cache
  of the lcore, then `rte_pktmbuf_reset`; `rte_pktmbuf_free` walks the segments of the packet and
  puts them back through the same cache; and the NIC driver gives completed mbufs back in bulk,
  on whatever lcore it runs.  The state has the headers of the mbufs beside their packets.

  An allocation is not atomic.  If the cache is short, `rte_mempool_get` goes to the common pool
  after it, and the other cores and the driver come in between: what was there when the cache was
  looked at may be gone, and what was missing may be back.  So `get` and `dequeue` are two events
  with a flag `wait` between them; everything else a core does with the pool is one event.

  Three results about one event connect this machine to the others:

  * `PooledSys.use_step`   — what it does to the mempool is what some threads do to a mempool
                             (`MempoolUse`), with the cores and the tx rings as hands;
  * `PooledSys.Clean.step` — every mbuf keeps `refcnt = 1`, `next = NULL`, `nb_segs = 1` and no
                             attached buffer, so a free always gives back the mbuf itself;
  * `PooledSys.toSys_step` — it is some events of `SendSystem`, the caches and the common pool
                             together being the free list there.

  They need each other in this order.  That a free gives back one mbuf, and its own, is `Clean`,
  and without it neither of the other two could say what a `rte_pktmbuf_free` puts into the pool.
  That an mbuf which the mempool hands out is in the free list of `SendSystem` is no property of
  one event: both machines partition the same mbufs, the first by `use_step`, and what is on no
  core and in no ring of the one is on no core and in no ring of the other (`mem_pool_iff`).
-/
import PacketSend.SendSystem
import PacketSend.MempoolUse
import PacketSend.MbufHeader

namespace PacketSend

open Runs Places

/-! ## The system -/

variable {ι κ δ : Type} [DecidableEq ι] [DecidableEq κ]

/-- The state of the system.  `wait c` is set while core `c` is at the label `ring_dequeue`. -/
structure PooledSys (ι κ δ : Type) where
  mp : Mempool δ Ptr
  wait : ι → Bool
  core : ι → Core
  ring : κ → List Ptr
  hdr : Ptr → RteMbuf
  pkt : Ptr → MyPkt

/-- An allocation is a `get` from the cache, or a `miss` and later a `dequeue` from the common
    pool; the other calls are as in `SendSystem`; `complete c q xs` is the driver, running on core
    `c`, giving mbufs of ring `q` back. -/
inductive PooledEvent (ι κ : Type) where
  | get (c : ι) (m : Ptr)
  | miss (c : ι)
  | dequeue (c : ι) (m : Option Ptr)
  | call (c : ι) (call : Call)
  | complete (c : ι) (q : κ) (xs : List Ptr)
  deriving DecidableEq, Repr

/-- What is outside the model of the senders. -/
structure Platform (ι κ δ : Type) where
  ops : Magazine.Depot δ Ptr
  lcoreId : ι → Nat
  queueId : ι → κ

namespace PooledSys

variable (P : Platform ι κ δ)

/-- The cache of core `c`. -/
def cacheOf (s : PooledSys ι κ δ) (c : ι) : Option (Fin rteMaxLcore) :=
  s.mp.defaultCache (P.lcoreId c)

/-- Core `c` has obtained `m`: `rte_pktmbuf_alloc` resets the header. -/
def obtain (s : PooledSys ι κ δ) (c : ι) (k : Core) (m : Ptr) (mp : Mempool δ Ptr) :
    PooledSys ι κ δ :=
  { s with
    mp := mp
    wait := Function.update s.wait c false
    core := Function.update s.core c k
    hdr := Function.update s.hdr m (s.hdr m).reset }

/-- `rte_mempool_put`, one mbuf after the other. -/
def putAll (ops : Magazine.Depot δ Ptr) (lcoreId : Nat) :
    List Ptr → Mempool δ Ptr → Option (Mempool δ Ptr)
  | [], mp => some mp
  | p :: ps, mp =>
    match mp.putBulk ops lcoreId [p] with
    | none => none
    | some mp' => putAll ops lcoreId ps mp'

theorem putAll_single (ops : Magazine.Depot δ Ptr) (lcoreId : Nat) (m : Ptr)
    (mp : Mempool δ Ptr) : putAll ops lcoreId [m] mp = mp.putBulk ops lcoreId [m] := by
  unfold putAll
  cases mp.putBulk ops lcoreId [m] <;> rfl

/-- What a call other than an allocation does outside the core that makes it. -/
def effect (s : PooledSys ι κ δ) (c : ι) : Call → Option (PooledSys ι κ δ)
  | .alloc _ => none
  | .store m f =>
    some { s with
      hdr := Function.update s.hdr m { s.hdr m with pktLen := f.pktLen, dataLen := f.dataLen }
      pkt := Function.update s.pkt m f.pkt }
  | .txBurst bs nbTx =>
    some { s with
      ring := Function.update s.ring (P.queueId c) (s.ring (P.queueId c) ++ bs.take nbTx) }
  | .free m =>
    match pktmbufFree rteMbufMaxNbSegs s.hdr (some m) with
    | none => none
    | some (hdr, back) =>
      (putAll P.ops (P.lcoreId c) back s.mp).map fun mp => { s with mp := mp, hdr := hdr }
  | .count _ => some s

/-- One event. -/
def step (s : PooledSys ι κ δ) : PooledEvent ι κ → Option (PooledSys ι κ δ)
  -- an mbuf from the cache, which has been back-filled first if it was empty
  | .get c m =>
    match s.wait c, (s.core c).step (.alloc (some m)), s.mp.getCached P.ops 1 (s.cacheOf P c) with
    | false, some k, .served xs mp => if xs = [m] then some (s.obtain c k m mp) else none
    | _, _, _ => none
  -- nothing in the cache and too little in the common pool for a back-fill: `goto ring_dequeue`
  | .miss c =>
    match s.wait c, (s.core c).step (.alloc none), s.mp.getCached P.ops 1 (s.cacheOf P c) with
    | false, some _, .ringDequeue => some { s with wait := Function.update s.wait c true }
    | _, _, _ => none
  -- at `ring_dequeue`, where one mbuf is enough; without it `rte_pktmbuf_alloc` returns NULL
  | .dequeue c (some m) =>
    match s.wait c, (s.core c).step (.alloc (some m)), s.mp.ringDequeue P.ops 1 with
    | true, some k, some (xs, mp) => if xs = [m] then some (s.obtain c k m mp) else none
    | _, _, _ => none
  | .dequeue c none =>
    match s.wait c, (s.core c).step (.alloc none), s.mp.ringDequeue P.ops 1 with
    | true, some k, none =>
      some { s with
        wait := Function.update s.wait c false
        core := Function.update s.core c k }
    | _, _, _ => none
  -- the other calls, by a core that is in no allocation
  | .call c call =>
    match s.wait c, (s.core c).step call with
    | false, some k =>
      (s.effect P c call).map fun s' => { s' with core := Function.update s.core c k }
    | _, _ => none
  -- the driver, on the lcore of `c`, whose cache takes the mbufs
  | .complete c q xs =>
    if s.wait c = false ∧ xs.Subperm (s.ring q) then
      (s.mp.putBulk P.ops (P.lcoreId c) xs).map fun mp =>
        { s with mp := mp, ring := Function.update s.ring q ((s.ring q).diff xs) }
    else none

end PooledSys

/-- What an event can be: the branches of `PooledSys.step` that have a result, each with all the
    conditions it checks.  The proofs below split on this and never unfold the step. -/
inductive PooledStep (P : Platform ι κ δ) (s : PooledSys ι κ δ) :
    PooledEvent ι κ → PooledSys ι κ δ → Prop where
  | get {c : ι} {m : Ptr} {k : Core} {mp : Mempool δ Ptr} (hwait : s.wait c = false)
      (hk : (s.core c).step (.alloc (some m)) = some k)
      (hget : s.mp.getCached P.ops 1 (s.cacheOf P c) = .served [m] mp) :
      PooledStep P s (.get c m) (s.obtain c k m mp)
  | miss {c : ι} {k : Core} (hwait : s.wait c = false)
      (hk : (s.core c).step (.alloc none) = some k)
      (hget : s.mp.getCached P.ops 1 (s.cacheOf P c) = .ringDequeue) :
      PooledStep P s (.miss c) { s with wait := Function.update s.wait c true }
  | dequeue {c : ι} {m : Ptr} {k : Core} {mp : Mempool δ Ptr} (hwait : s.wait c = true)
      (hk : (s.core c).step (.alloc (some m)) = some k)
      (hd : s.mp.ringDequeue P.ops 1 = some ([m], mp)) :
      PooledStep P s (.dequeue c (some m)) (s.obtain c k m mp)
  | dequeueFail {c : ι} {k : Core} (hwait : s.wait c = true)
      (hk : (s.core c).step (.alloc none) = some k) (hd : s.mp.ringDequeue P.ops 1 = none) :
      PooledStep P s (.dequeue c none) { s with
        wait := Function.update s.wait c false
        core := Function.update s.core c k }
  | store {c : ι} {m : Ptr} {f : TxFields} {k : Core} (hwait : s.wait c = false)
      (hk : (s.core c).step (.store m f) = some k) :
      PooledStep P s (.call c (.store m f)) { s with
        hdr := Function.update s.hdr m { s.hdr m with pktLen := f.pktLen, dataLen := f.dataLen }
        pkt := Function.update s.pkt m f.pkt
        core := Function.update s.core c k }
  | txBurst {c : ι} {bs : List Ptr} {nbTx : Nat} {k : Core} (hwait : s.wait c = false)
      (hk : (s.core c).step (.txBurst bs nbTx) = some k) :
      PooledStep P s (.call c (.txBurst bs nbTx)) { s with
        ring := Function.update s.ring (P.queueId c) (s.ring (P.queueId c) ++ bs.take nbTx)
        core := Function.update s.core c k }
  | free {c : ι} {m : Ptr} {k : Core} {hdr : Ptr → RteMbuf} {back : List Ptr}
      {mp : Mempool δ Ptr} (hwait : s.wait c = false) (hk : (s.core c).step (.free m) = some k)
      (hfree : pktmbufFree rteMbufMaxNbSegs s.hdr (some m) = some (hdr, back))
      (hput : PooledSys.putAll P.ops (P.lcoreId c) back s.mp = some mp) :
      PooledStep P s (.call c (.free m)) { s with
        mp := mp
        hdr := hdr
        core := Function.update s.core c k }
  | count {c : ι} {nbTx : Nat} {k : Core} (hwait : s.wait c = false)
      (hk : (s.core c).step (.count nbTx) = some k) :
      PooledStep P s (.call c (.count nbTx)) { s with core := Function.update s.core c k }
  | complete {c : ι} {q : κ} {xs : List Ptr} {mp : Mempool δ Ptr} (hwait : s.wait c = false)
      (hsub : xs.Subperm (s.ring q)) (hput : s.mp.putBulk P.ops (P.lcoreId c) xs = some mp) :
      PooledStep P s (.complete c q xs) { s with
        mp := mp
        ring := Function.update s.ring q ((s.ring q).diff xs) }

/-- The inversion of `PooledSys.step`. -/
theorem PooledSys.step_inv {P : Platform ι κ δ} {s s' : PooledSys ι κ δ} {e : PooledEvent ι κ}
    (h : s.step P e = some s') : PooledStep P s e s' := by
  cases e with
  | get c m =>
    simp only [PooledSys.step] at h
    split at h
    · split at h
      · rename_i hxs
        subst hxs
        obtain rfl := Option.some.inj h
        exact PooledStep.get ‹_› ‹_› ‹_›
      · nomatch h
    · nomatch h
  | miss c =>
    simp only [PooledSys.step] at h
    split at h
    · obtain rfl := Option.some.inj h
      exact PooledStep.miss ‹_› ‹_› ‹_›
    · nomatch h
  | dequeue c m =>
    cases m with
    | none =>
      simp only [PooledSys.step] at h
      split at h
      · obtain rfl := Option.some.inj h
        exact PooledStep.dequeueFail ‹_› ‹_› ‹_›
      · nomatch h
    | some m =>
      simp only [PooledSys.step] at h
      split at h
      · split at h
        · rename_i hxs
          subst hxs
          obtain rfl := Option.some.inj h
          exact PooledStep.dequeue ‹_› ‹_› ‹_›
        · nomatch h
      · nomatch h
  | call c call =>
    simp only [PooledSys.step] at h
    split at h
    · rename_i k hwait hk
      cases call with
      | alloc m => nomatch h
      | store m f =>
        obtain rfl := Option.some.inj h
        exact PooledStep.store hwait hk
      | txBurst bs nbTx =>
        obtain rfl := Option.some.inj h
        exact PooledStep.txBurst hwait hk
      | count nbTx =>
        obtain rfl := Option.some.inj h
        exact PooledStep.count hwait hk
      | free m =>
        simp only [PooledSys.effect] at h
        split at h
        · nomatch h
        · rename_i hdr back hfree
          cases hput : PooledSys.putAll P.ops (P.lcoreId c) back s.mp with
          | none =>
            rw [hput] at h
            nomatch h
          | some mp =>
            rw [hput] at h
            obtain rfl := Option.some.inj h
            exact PooledStep.free hwait hk hfree hput
    · nomatch h
  | complete c q xs =>
    simp only [PooledSys.step] at h
    split at h
    · rename_i hok
      cases hput : s.mp.putBulk P.ops (P.lcoreId c) xs with
      | none =>
        rw [hput] at h
        nomatch h
      | some mp =>
        rw [hput] at h
        obtain rfl := Option.some.inj h
        exact PooledStep.complete hok.1 hok.2 hput
    · nomatch h

/-- Every `PooledStep` is a step. -/
theorem PooledStep.step_eq {P : Platform ι κ δ} {s s' : PooledSys ι κ δ} {e : PooledEvent ι κ}
    (h : PooledStep P s e s') : s.step P e = some s' := by
  cases h with
  | get hwait hk hget => simp only [PooledSys.step, hwait, hk, hget, if_true]
  | miss hwait hk hget => simp only [PooledSys.step, hwait, hk, hget]
  | dequeue hwait hk hd => simp only [PooledSys.step, hwait, hk, hd, if_true]
  | dequeueFail hwait hk hd => simp only [PooledSys.step, hwait, hk, hd]
  | free hwait hk hfree hput =>
    simp only [PooledSys.step, hwait, hk, PooledSys.effect, hfree, hput, Option.map_some]
  | complete hwait hsub hput =>
    simp only [PooledSys.step, hwait, hsub, hput, and_self, if_true, Option.map_some]
  | _ hwait hk => simp only [PooledSys.step, hwait, hk, PooledSys.effect, Option.map_some]

/-! ## The headers -/

/-- The senders' mbufs never leave the state in which the mempool was made with them. -/
def PooledSys.Clean (s : PooledSys ι κ δ) : Prop := ∀ m, (s.hdr m).Clean

/-- One header is written, with a clean one. -/
theorem clean_update {hdr : Ptr → RteMbuf} (h : ∀ m, (hdr m).Clean) (p : Ptr) {m : RteMbuf}
    (hm : m.Clean) : ∀ q, (Function.update hdr p m q).Clean := by
  intro q
  by_cases hq : q = p
  · subst hq
    rw [Function.update_self]
    exact hm
  · rw [Function.update_of_ne hq]
    exact h q

omit [DecidableEq ι] [DecidableEq κ] in
/-- From a clean state, a free gives back the mbuf itself and changes no header. -/
theorem PooledSys.Clean.free_eq {s : PooledSys ι κ δ} (h : s.Clean) (m : Ptr) :
    pktmbufFree rteMbufMaxNbSegs s.hdr (some m) = some (s.hdr, [m]) := pktmbufFree_clean (h m)

/-- **What one event preserves**: the reset of an allocation keeps a header clean, a store writes
    the two lengths only, and a free finds the header as `rte_mbuf_raw_free` wants to leave it. -/
theorem PooledSys.Clean.step {P : Platform ι κ δ} {s s' : PooledSys ι κ δ} {e : PooledEvent ι κ}
    (h : s.Clean) (hs : s.step P e = some s') : s'.Clean := by
  cases PooledSys.step_inv hs with
  | @get c m k mp hwait hk hget => exact clean_update h m (h m).reset
  | @dequeue c m k mp hwait hk hd => exact clean_update h m (h m).reset
  | @store c m f k hwait hk =>
    exact clean_update h m ⟨⟨(h m).refcnt, (h m).next, (h m).nbSegs⟩, (h m).direct⟩
  | @free c m k hdr back mp hwait hk hfree hput =>
    obtain ⟨rfl, rfl⟩ := Prod.mk.inj (Option.some.inj ((h.free_eq m).symm.trans hfree))
    exact h
  | _ => exact h

/-! ## The mempool in use -/

namespace PooledSys

/-- The system seen from the mempool: the cores and the rings are hands.  A core has in its hand
    what it has obtained and neither given to the NIC nor freed, wherever in its array that is. -/
def use (s : PooledSys ι κ δ) : PoolUse (ι ⊕ κ) ι δ Ptr where
  mp := s.mp
  hand := Sum.elim (fun c => (s.core c).live) s.ring
  wait c := if s.wait c then some (.inl c, 1) else none

/-- What an event is for the mempool.  A burst passes mbufs to the hand of a ring, and a completion
    is a put by the ring, on the lcore the driver runs on. -/
def useEvents (P : Platform ι κ δ) : PooledEvent ι κ → List (UseEvent (ι ⊕ κ) ι Ptr)
  | .get c m => [.get c (.inl c) 1 [m]]
  | .miss c => [.miss c (.inl c) 1]
  | .dequeue c m => [.dequeue c (m.map ([·]))]
  | .call c (.free m) => [.put c (.inl c) [m]]
  | .call c (.txBurst bs nbTx) => [.pass (.inl c) (.inr (P.queueId c)) (bs.take nbTx)]
  | .call _ _ => []
  | .complete c q xs => [.put c (.inr q) xs]

omit [DecidableEq ι] [DecidableEq κ] in
/-- When the system is seen as `u`: what has to be compared after an event, part by part. -/
theorem use_eq {s : PooledSys ι κ δ} {u : PoolUse (ι ⊕ κ) ι δ Ptr} (hmp : s.mp = u.mp)
    (hcore : ∀ c, (s.core c).live = u.hand (.inl c)) (hring : ∀ q, s.ring q = u.hand (.inr q))
    (hwait : ∀ c, (if s.wait c then some (.inl c, 1) else none) = u.wait c) : s.use = u := by
  have hhand : Sum.elim (fun c => (s.core c).live) s.ring = u.hand := by
    funext h
    cases h with
    | inl c => exact hcore c
    | inr q => exact hring q
  show PoolUse.mk _ _ _ = PoolUse.mk _ _ _
  rw [hmp, hhand, funext hwait]

/-- One event of `MempoolUse`, seen in the system after it. -/
theorem use_run {P : Platform ι κ δ} {s s' : PooledSys ι κ δ} {u : PoolUse (ι ⊕ κ) ι δ Ptr}
    {e : UseEvent (ι ⊕ κ) ι Ptr} (h : UseStep P.ops P.lcoreId s.use e u) (hmp : s'.mp = u.mp)
    (hcore : ∀ c, (s'.core c).live = u.hand (.inl c))
    (hring : ∀ q, s'.ring q = u.hand (.inr q))
    (hwait : ∀ c, (if s'.wait c then some (.inl c, 1) else none) = u.wait c) :
    Run (PoolUse.step P.ops P.lcoreId) s.use [e] s'.use := by
  rw [use_eq hmp hcore hring hwait]
  exact Run.single h.step_eq

omit [DecidableEq κ] in
/-- The live parts after core `c` has become `k`. -/
theorem live_update (s : PooledSys ι κ δ) (c : ι) {k : Core} {xs : List Ptr} (hk : k.live = xs)
    (d : ι) :
    (Function.update s.core c k d).live = if d = c then xs else s.use.hand (.inl d) := by
  by_cases hd : d = c
  · subst hd
    rw [Function.update_self, if_pos rfl, hk]
  · rw [Function.update_of_ne hd, if_neg hd]
    rfl

/-- The hands of the cores after the one of `c` has changed. -/
theorem hand_update_core (s : PooledSys ι κ δ) (c : ι) (xs : List Ptr) (d : ι) :
    Function.update s.use.hand (.inl c) xs (.inl d)
      = if d = c then xs else s.use.hand (.inl d) := by
  by_cases hd : d = c
  · subst hd
    rw [Function.update_self, if_pos rfl]
  · rw [Function.update_of_ne (fun h => hd (Sum.inl.inj h)), if_neg hd]

/-- The hands of the rings after the one of `q` has changed. -/
theorem hand_update_ring (s : PooledSys ι κ δ) (q : κ) (xs : List Ptr) (q' : κ) :
    Function.update s.use.hand (.inr q) xs (.inr q') = Function.update s.ring q xs q' := by
  by_cases hq : q' = q
  · subst hq
    rw [Function.update_self, Function.update_self]
  · rw [Function.update_of_ne hq, Function.update_of_ne (fun h => hq (Sum.inr.inj h))]
    rfl

omit [DecidableEq κ] in
/-- The flag `wait` of core `c`, before and after. -/
theorem wait_update (s : PooledSys ι κ δ) (c : ι) (b : Bool) (d : ι) :
    (if Function.update s.wait c b d then some ((.inl d : ι ⊕ κ), 1) else none)
      = Function.update s.use.wait c (if b then some (.inl c, 1) else none) d := by
  by_cases hd : d = c
  · subst hd
    rw [Function.update_self, Function.update_self]
  · rw [Function.update_of_ne hd, Function.update_of_ne hd]
    rfl

/-- What is left of a hand when its first part is gone. -/
theorem append_diff_left (xs ys : List Ptr) : (xs ++ ys).diff xs = ys := by
  induction xs with
  | nil => rfl
  | cons x xs ih => rw [List.cons_append, List.diff_cons, List.erase_cons_head, ih]

/-- **What one event does to the mempool** is something a thread of `MempoolUse` does. -/
theorem use_step {P : Platform ι κ δ} {s s' : PooledSys ι κ δ} {e : PooledEvent ι κ}
    (hclean : s.Clean) (h : s.step P e = some s') :
    Run (PoolUse.step P.ops P.lcoreId) s.use (useEvents P e) s'.use := by
  -- what the flag of a core means to the mempool
  have hfree : ∀ {c : ι}, s.wait c = false → s.use.wait c = none := by
    intro c hwait
    show (if s.wait c then some _ else none) = none
    rw [hwait]
    rfl
  have hbusy : ∀ {c : ι}, s.wait c = true → s.use.wait c = some (.inl c, 1) := by
    intro c hwait
    show (if s.wait c then some _ else none) = _
    rw [hwait]
    rfl
  -- the hands, after core `c` has become `k` and its hand `xs`
  have hcore : ∀ {c : ι} {k : Core} {xs : List Ptr}, k.live = xs → ∀ d,
      (Function.update s.core c k d).live = Function.update s.use.hand (.inl c) xs (.inl d) :=
    fun hk d => (live_update s _ hk d).trans (hand_update_core s _ _ d).symm
  have hring : ∀ (c : ι) (xs : List Ptr) (q : κ),
      s.ring q = Function.update s.use.hand (.inl c) xs (.inr q) := by
    intro c xs q
    rw [Function.update_of_ne Sum.inr_ne_inl]
    rfl
  -- the live part does not change, and nothing happens to the mempool
  have hquiet : ∀ {c : ι} {k : Core} {s' : PooledSys ι κ δ}, k.live = (s.core c).live →
      s'.mp = s.mp → s'.core = Function.update s.core c k → s'.ring = s.ring →
      s'.wait = s.wait → Run (PoolUse.step P.ops P.lcoreId) s.use [] s'.use := by
    intro c k s' hk hmp hc hr hw
    have huse : s'.use = s.use := by
      refine use_eq hmp (fun d => ?_) (fun q => ?_) (fun d => ?_)
      · rw [hc, live_update s c hk d]
        by_cases hd : d = c
        · subst hd
          rw [if_pos rfl]
          rfl
        · rw [if_neg hd]
      · rw [hr]
        rfl
      · rw [hw]
        rfl
    rw [huse]
    exact Run.nil
  cases PooledSys.step_inv h with
  -- an allocation adds the mbuf at the end of the hand of its core
  | @get c m k mp hwait hk hget =>
    refine use_run (UseStep.get (hfree hwait) hget) rfl (hcore (Core.live_alloc hk))
      (hring c ((s.core c).live ++ [m])) (fun d => ?_)
    show (if Function.update s.wait c false d then some _ else none) = s.use.wait d
    rw [← hwait, Function.update_eq_self]
    rfl
  | @miss c k hwait hk hget =>
    exact use_run (UseStep.miss (hfree hwait) hget) rfl (fun _ => rfl) (fun _ => rfl)
      (wait_update s c true)
  | @dequeue c m k mp hwait hk hd =>
    exact use_run (UseStep.dequeue (hbusy hwait) hd) rfl (hcore (Core.live_alloc hk))
      (hring c ((s.core c).live ++ [m])) (wait_update s c false)
  | @dequeueFail c k hwait hk hd =>
    refine use_run (UseStep.dequeueFail (hbusy hwait) hd) rfl (fun d => ?_) (fun _ => rfl)
      (wait_update s c false)
    rw [live_update s c (Core.live_quiet hk rfl rfl rfl) d]
    by_cases hd : d = c
    · subst hd
      rw [if_pos rfl]
      rfl
    · rw [if_neg hd]
  | @store c m f k hwait hk =>
    exact hquiet (Core.live_quiet hk rfl rfl rfl) rfl rfl rfl rfl
  | @count c nbTx k hwait hk =>
    exact hquiet (Core.live_quiet hk rfl rfl rfl) rfl rfl rfl rfl
  | @txBurst c bs nbTx k hwait hk =>
    -- the accepted mbufs are the first part of the live ones, and go to the hand of the ring
    obtain ⟨-, hsplit⟩ := Core.live_txBurst hk
    have hhand : s.use.hand (.inl c) = bs.take nbTx ++ k.live := hsplit
    have hsub : (bs.take nbTx).Subperm (s.use.hand (.inl c)) := by
      rw [hhand]
      exact (List.sublist_append_left _ _).subperm
    have hdiff : (s.use.hand (.inl c)).diff (bs.take nbTx) = k.live := by
      rw [hhand, append_diff_left]
    refine use_run (UseStep.pass Sum.inl_ne_inr hsub) rfl (fun d => ?_) (fun q => ?_)
      (fun _ => rfl)
    · show _ = Function.update (Function.update s.use.hand (.inl c)
        ((s.use.hand (.inl c)).diff (bs.take nbTx))) (.inr (P.queueId c))
        (s.use.hand (.inr (P.queueId c)) ++ bs.take nbTx) (.inl d)
      rw [Function.update_of_ne Sum.inl_ne_inr, hdiff]
      exact hcore rfl d
    · show Function.update s.ring (P.queueId c) (s.ring (P.queueId c) ++ bs.take nbTx) q
        = Function.update (Function.update s.use.hand (.inl c)
          ((s.use.hand (.inl c)).diff (bs.take nbTx))) (.inr (P.queueId c))
          (s.use.hand (.inr (P.queueId c)) ++ bs.take nbTx) (.inr q)
      by_cases hq : q = P.queueId c
      · subst hq
        rw [Function.update_self, Function.update_self]
        rfl
      · rw [Function.update_of_ne hq, Function.update_of_ne (fun h => hq (Sum.inr.inj h))]
        exact hring c _ q
  | @free c m k hdr back mp hwait hk hfree' hput =>
    -- the walk over the segments has found the one mbuf
    obtain ⟨rfl, rfl⟩ := Prod.mk.inj (Option.some.inj ((hclean.free_eq m).symm.trans hfree'))
    have hhand : s.use.hand (.inl c) = [m] ++ k.live := Core.live_free hk
    have hsub : [m].Subperm (s.use.hand (.inl c)) := by
      rw [hhand]
      exact (List.sublist_append_left _ _).subperm
    have hput' := (putAll_single P.ops (P.lcoreId c) m s.mp).symm.trans hput
    have hdiff : (s.use.hand (.inl c)).diff [m] = k.live := by rw [hhand, append_diff_left]
    exact use_run (UseStep.put (hfree hwait) hsub hput') rfl (hcore hdiff.symm)
      (hring c ((s.use.hand (.inl c)).diff [m])) (fun _ => rfl)
  -- the bulk of the driver is one put by the hand of the ring
  | @complete c q xs mp hwait hsub hput =>
    refine use_run (UseStep.put (hfree hwait) hsub hput) rfl (fun d => ?_) (fun q' => ?_)
      (fun _ => rfl)
    · show _ = Function.update s.use.hand (.inr q) ((s.ring q).diff xs) (.inl d)
      rw [Function.update_of_ne Sum.inl_ne_inr]
      rfl
    · exact (hand_update_ring s q _ q').symm

/-! ## The system of `SendSystem` -/

/-- What is written in an mbuf, as `SendSystem` has it. -/
def fields (s : PooledSys ι κ δ) (m : Ptr) : TxFields :=
  ⟨(s.hdr m).pktLen, (s.hdr m).dataLen, s.pkt m⟩

/-- The system with one free list in place of the mempool. -/
def toSys (s : PooledSys ι κ δ) (pool : List Ptr) : Sys ι κ := ⟨pool, s.core, s.ring, s.fields⟩

/-- The events of `SendSystem` that an event stands for. -/
def events : PooledEvent ι κ → List (Event ι κ)
  | .get c m => [.core c (.alloc (some m))]
  | .miss _ => []
  | .dequeue c m => [.core c (.alloc m)]
  | .call c call => [.core c call]
  | .complete _ q xs => xs.map (.complete q)

/-- The objects of the mempool: in the common pool or in the cache of some lcore. -/
def Free (ops : Magazine.Depot δ Ptr) (s : PooledSys ι κ δ) (m : Ptr) : Prop :=
  m ∈ ops.contents s.mp.pool ∨ ∃ l, m ∈ (s.mp.localCache l).held

omit [DecidableEq ι] [DecidableEq κ] in
/-- With the mbufs partitioned in both systems, the free list is the mempool: an mbuf has one place
    in each, and the hands of the one are the cores and the rings of the other. -/
theorem mem_pool_iff {ops : Magazine.Depot δ Ptr} {U : List Ptr} {s : PooledSys ι κ δ}
    {pool : List Ptr} (hu : Partition U (s.use.owned ops))
    (ha : Partition U (s.toSys pool).owned) (m : Ptr) : m ∈ pool ↔ s.Free ops m := by
  constructor
  · intro hm
    obtain ⟨p, hp⟩ := (hu.cover m).mp ((ha.cover m).mpr ⟨.pool, hm⟩)
    -- in the hand of a core or a ring it would be there in `SendSystem` too, and not free
    rcases p with _ | l | c | q
    · exact Or.inl hp
    · exact Or.inr ⟨l, hp⟩
    · nomatch ha.apart (p := .pool) (q := .core c) hm hp
    · nomatch ha.apart (p := .pool) (q := .ring q) hm hp
  · intro hfree
    obtain ⟨p, hp, hhand⟩ : ∃ p, m ∈ s.use.owned ops p ∧ ∀ h, p ≠ .hand h := by
      rcases hfree with hpool | ⟨l, hl⟩
      · exact ⟨.pool, hpool, fun h hp => nomatch hp⟩
      · exact ⟨.cache l, hl, fun h hp => nomatch hp⟩
    obtain ⟨p', hp'⟩ := (ha.cover m).mp ((hu.cover m).mpr ⟨p, hp⟩)
    -- and on a core or in a ring of `SendSystem` it would be in a hand, and not in the mempool
    rcases p' with _ | c | q
    · exact hp'
    · exact absurd (hu.apart (q := .hand (.inl c)) hp hp') (hhand _)
    · exact absurd (hu.apart (q := .hand (.inr q)) hp hp') (hhand _)

omit [DecidableEq ι] [DecidableEq κ] in
/-- What the mempool has handed out was free: an exchange in which nothing is put in. -/
theorem free_of_exchange {ops : Magazine.Depot δ Ptr} {s : PooledSys ι κ δ}
    {cache : Option (Fin rteMaxLcore)} {mp : Mempool δ Ptr} {m : Ptr}
    (hx : Mempool.Exchange ops cache s.mp mp [] [m]) : s.Free ops m := by
  have hmem : m ∈ s.mp.heldBy cache ++ ops.contents s.mp.pool :=
    hx.perm.mem_iff.mpr List.mem_cons_self
  rcases List.mem_append.mp hmem with hheld | hpool
  · obtain ⟨l, -, hl⟩ := List.mem_flatMap.mp hheld
    exact Or.inr ⟨l, hl⟩
  · exact Or.inl hpool

end PooledSys

/-- The driver's bulk, one completion after the other.  The induction is on the bulk, in any state,
    since each completion changes the ring. -/
theorem Sys.complete_run (queueId : ι → κ) (q : κ) : ∀ (xs : List Ptr) {s : Sys ι κ},
    xs.Subperm (s.ring q) → ∃ pool, Run (Sys.step queueId) s (xs.map (.complete q))
      { s with pool := pool, ring := Function.update s.ring q ((s.ring q).diff xs) }
  | [], s, _ => by
    refine ⟨s.pool, ?_⟩
    rw [List.diff_nil, Function.update_eq_self]
    exact Run.nil
  | x :: xs, s, hsub => by
    have hx : x ∈ s.ring q := hsub.subset List.mem_cons_self
    let t : Sys ι κ := { s with
      ring := Function.update s.ring q ((s.ring q).erase x)
      pool := x :: s.pool }
    have hring : t.ring q = (s.ring q).erase x := Function.update_self _ _ _
    have hrest : xs.Subperm (t.ring q) := by
      have herase := hsub.erase x
      rw [List.erase_cons_head] at herase
      rw [hring]
      exact herase
    obtain ⟨pool, hrun⟩ := Sys.complete_run queueId q xs hrest
    refine ⟨pool, Run.cons (t := t) (SysStep.complete hx).step_eq ?_⟩
    have hupd : Function.update t.ring q ((t.ring q).diff xs)
        = Function.update s.ring q ((s.ring q).diff (x :: xs)) := by
      rw [hring, List.diff_cons]
      exact Function.update_idem _ _ _
    rw [← hupd]
    exact hrun

/-- Ownership is kept from any state on, not only from the first: a state of `SendSystem` that is
    read off this machine need not be one of its own runs yet. -/
theorem Sys.partition_run {queueId : ι → κ} {U : List Ptr} {s s' : Sys ι κ}
    {es : List (Event ι κ)} (hp : Partition U s.owned) (h : Run (Sys.step queueId) s es s') :
    Partition U s'.owned := by
  refine h.reachable (P := fun s => Partition U s.owned) hp (fun t e u hpart hstep => ?_)
  rcases Sys.step_moves hstep with hsame | ⟨src, dst, xs, ht⟩
  · rw [hsame]
    exact hpart
  · exact hpart.transfer ht

namespace PooledSys

/-- A step of `SendSystem`, seen in the system after it. -/
theorem toSys_run {queueId : ι → κ} {s s' : PooledSys ι κ δ} {pool : List Ptr} {e : Event ι κ}
    {t : Sys ι κ} (h : SysStep queueId (s.toSys pool) e t) (hcore : t.core = s'.core)
    (hring : t.ring = s'.ring) (hmem : t.mem = s'.fields) :
    ∃ pool', Run (Sys.step queueId) (s.toSys pool) [e] (s'.toSys pool') := by
  refine ⟨t.pool, ?_⟩
  have ht : s'.toSys t.pool = t := by rw [toSys, ← hcore, ← hring, ← hmem]
  rw [ht]
  exact Run.single h.step_eq

/-- **One event, seen in `SendSystem`.**  Only an allocation says something about the free list, and
    only for it the two partitions are needed; the other events are the same in both machines, up
    to the bulk of the driver. -/
theorem toSys_step {P : Platform ι κ δ} {U : List Ptr} {s s' : PooledSys ι κ δ}
    {e : PooledEvent ι κ} {pool : List Ptr} (hinv : s.use.Inv P.ops U) (hclean : s.Clean)
    (hpart : Partition U (s.toSys pool).owned) (h : s.step P e = some s') :
    ∃ pool', Run (Sys.step P.queueId) (s.toSys pool) (events e) (s'.toSys pool') := by
  have hfit : s.mp.CachesFit := hinv.fit
  -- an allocation in `SendSystem`, of an mbuf that is free here
  have halloc : ∀ {c : ι} {m : Ptr} {k : Core} {mp : Mempool δ Ptr}
      {cache : Option (Fin rteMaxLcore)}, (s.core c).step (.alloc (some m)) = some k →
      Mempool.Exchange P.ops cache s.mp mp [] [m] →
      ∃ pool', Run (Sys.step P.queueId) (s.toSys pool) [.core c (.alloc (some m))]
        ((s.obtain c k m mp).toSys pool') := by
    intro c m k mp cache hk hx
    have hm : m ∈ pool := (mem_pool_iff hinv.partition hpart m).mpr (free_of_exchange hx)
    refine toSys_run (SysStep.alloc (s := s.toSys pool) hk hm) rfl rfl (funext fun x => ?_)
    -- the reset writes the lengths, which is what an allocation of `SendSystem` writes as well
    show Function.update s.fields m _ x = (s.obtain c k m mp).fields x
    by_cases hx : x = m
    · subst hx
      simp only [fields, obtain, Function.update_self]
      rfl
    · simp only [fields, obtain, Function.update_of_ne hx]
  cases PooledSys.step_inv h with
  | @get c m k mp hwait hk hget =>
    have hx := Mempool.getCached_exchange P.ops 1 (s.cacheOf P c) hfit
    rw [hget] at hx
    exact halloc hk hx.2
  | miss hwait hk hget =>
    -- the core has looked at its cache; in `SendSystem` nothing has happened yet
    exact ⟨pool, Run.nil⟩
  | @dequeue c m k mp hwait hk hd =>
    exact halloc hk (Mempool.ringDequeue_exchange none hfit hd).2
  | @dequeueFail c k hwait hk hd =>
    exact toSys_run (SysStep.allocFail (s := s.toSys pool) hk) rfl rfl rfl
  | @store c m f k hwait hk =>
    refine toSys_run (SysStep.store (s := s.toSys pool) hk) rfl rfl (funext fun x => ?_)
    show Function.update s.fields m f x = fields _ x
    by_cases hx : x = m
    · subst hx
      simp only [fields, Function.update_self]
    · simp only [fields, Function.update_of_ne hx]
  | @txBurst c bs nbTx k hwait hk =>
    exact toSys_run (SysStep.txBurst (s := s.toSys pool) hk) rfl rfl rfl
  | @free c m k hdr back mp hwait hk hfree hput =>
    obtain ⟨rfl, rfl⟩ := Prod.mk.inj (Option.some.inj ((hclean.free_eq m).symm.trans hfree))
    exact toSys_run (SysStep.free (s := s.toSys pool) hk) rfl rfl rfl
  | @count c nbTx k hwait hk =>
    exact toSys_run (SysStep.count (s := s.toSys pool) hk) rfl rfl rfl
  | @complete c q xs mp hwait hsub hput =>
    exact Sys.complete_run P.queueId q xs (s := s.toSys pool) hsub

end PooledSys

end PacketSend
