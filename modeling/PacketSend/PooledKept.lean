/-
  What the senders keep on the real mempool.

  `PooledSys.Inv` is the invariant of the runs of `SendPooled`; from it, over every run:

  * `pooled_refines` — the run is a run of `SendSystem` with the same calls of every core, so that
                       everything said there about the calls of a core, and about which mbufs it
                       and the NIC own, is true on the real mempool;
  * `pooled_kept`    — every mbuf is in the common pool, in one cache, with one core or on one
                       ring; no core is ever stuck; every packet is written inside its buffer; and
                       every mbuf on a ring is as `RTE_ETH_TX_OFFLOAD_MBUF_FAST_FREE`, which
                       `init_port` asks for, wants it, so that the driver may put it back without
                       looking at it.

  The invariant has five parts.  The first two are the partition of the mbufs and the clean
  headers, each kept for its own reason (`PoolUse.run_keeps`, `Clean.step`).  `bufLen` and
  `dataOff` together say that a packet fits: the reset of an allocation sets `dataOff` to the
  headroom only if the buffer is no shorter than that, and until then the offset can be anything,
  so that it is stated for the mbufs of the cores alone.  `waiting` says that a core which stands
  at `ring_dequeue` is about to allocate; without it a core could be stuck, with the flag set and
  its next call another one.

  A core that has not returned has a next step because each thing it may have to do is possible:
  an allocation ends in one of two ways, and a free finds room in the cache or the common pool,
  for the mbuf it gives back is one of those the pool was made with.
-/
import PacketSend.SendPooled

namespace PacketSend

open Runs Places

variable {ι κ δ : Type} [DecidableEq ι] [DecidableEq κ]

namespace PooledSys

/-! ## The invariant of a run -/

/-- What holds of every state a run can reach, for the mbufs `U`. -/
structure Inv (P : Platform ι κ δ) (U : List Ptr) (s : PooledSys ι κ δ) : Prop where
  use : s.use.Inv P.ops U
  clean : s.Clean
  bufLen : ∀ m, (s.hdr m).bufLen = rteMbufDefaultBufSize
  dataOff : ∀ c, ∀ m ∈ (s.core c).live, (s.hdr m).dataOff = rtePktmbufHeadroom
  waiting : ∀ c, s.wait c = true → ∃ i, (s.core c).pc = .alloc i

/-- After a call that obtains nothing, a core has nothing new: the ledger of the calls says so. -/
theorem live_subset {k k' : Core} {call : Call} (h : k.step call = some k')
    (ho : obtained [call] = []) {m : Ptr} (hm : m ∈ k'.live) : m ∈ k.live := by
  have hlive := Core.step_live h
  rw [ho, List.append_nil] at hlive
  rw [hlive]
  exact List.mem_append_right _ hm

/-- A core whose next call is an allocation. -/
theorem pc_of_alloc {k k' : Core} {m : Option Ptr} (h : k.step (.alloc m) = some k') :
    ∃ i, k.pc = .alloc i := by
  cases Core.step_inv h with
  | alloc m hpc => exact ⟨_, hpc⟩
  | allocFail hpc => exact ⟨_, hpc⟩

section
variable {P : Platform ι κ δ} {U : List Ptr} {s : PooledSys ι κ δ}

omit [DecidableEq κ] in
/-- An allocation that succeeds: the header of the new mbuf is reset, the others stay. -/
theorem Inv.obtain (h : s.Inv P U) {c : ι} {m : Ptr} {k : Core} {mp : Mempool δ Ptr}
    (hk : (s.core c).step (.alloc (some m)) = some k)
    (huse : (s.obtain c k m mp).use.Inv P.ops U) (hclean : (s.obtain c k m mp).Clean) :
    (s.obtain c k m mp).Inv P U where
  use := huse
  clean := hclean
  bufLen := by
    intro x
    show (Function.update s.hdr m (s.hdr m).reset x).bufLen = _
    by_cases hx : x = m
    · subst hx
      rw [Function.update_self]
      exact h.bufLen x
    · rw [Function.update_of_ne hx]
      exact h.bufLen x
  dataOff := by
    intro d x hx
    show (Function.update s.hdr m (s.hdr m).reset x).dataOff = _
    by_cases hxm : x = m
    · subst hxm
      rw [Function.update_self]
      exact RteMbuf.reset_dataOff (by rw [h.bufLen]; decide)
    · rw [Function.update_of_ne hxm]
      have hx' : x ∈ (Function.update s.core c k d).live := hx
      by_cases hd : d = c
      · subst hd
        rw [Function.update_self, Core.live_alloc hk] at hx'
        rcases List.mem_append.mp hx' with hold | hnew
        · exact h.dataOff d x hold
        · exact absurd (List.mem_singleton.mp hnew) hxm
      · rw [Function.update_of_ne hd] at hx'
        exact h.dataOff d x hx'
  waiting := by
    intro d hd
    have hd' : Function.update s.wait c false d = true := hd
    show ∃ i, (Function.update s.core c k d).pc = .alloc i
    by_cases hdc : d = c
    · subst hdc
      rw [Function.update_self] at hd'
      nomatch hd'
    · rw [Function.update_of_ne hdc] at hd' ⊢
      exact h.waiting d hd'

omit [DecidableEq κ] in
/-- A call of core `c` that obtains nothing and leaves the data offsets alone: all calls but the
    allocation. -/
theorem Inv.call (h : s.Inv P U) {s' : PooledSys ι κ δ} {c : ι} {k : Core} {call : Call}
    (hwait : s.wait c = false) (hk : (s.core c).step call = some k)
    (ho : obtained [call] = []) (hcore : s'.core = Function.update s.core c k)
    (hwait' : s'.wait = s.wait) (hoff : ∀ m, (s'.hdr m).dataOff = (s.hdr m).dataOff)
    (hlen : ∀ m, (s'.hdr m).bufLen = (s.hdr m).bufLen) (huse : s'.use.Inv P.ops U)
    (hclean : s'.Clean) : s'.Inv P U where
  use := huse
  clean := hclean
  bufLen m := (hlen m).trans (h.bufLen m)
  dataOff := by
    intro d m hm
    rw [hoff]
    rw [hcore] at hm
    by_cases hd : d = c
    · subst hd
      rw [Function.update_self] at hm
      exact h.dataOff d m (live_subset hk ho hm)
    · rw [Function.update_of_ne hd] at hm
      exact h.dataOff d m hm
  waiting := by
    intro d hd
    rw [hwait'] at hd
    have hdc : d ≠ c := by
      rintro rfl
      rw [hwait] at hd
      nomatch hd
    rw [hcore, Function.update_of_ne hdc]
    exact h.waiting d hd

/-- **What one event preserves.**  The mempool and the headers are dealt with for all events at
    once; the cases are about offsets and waiting. -/
theorem Inv.step (hU : U.length ≤ P.ops.capacity) (h : s.Inv P U) {s' : PooledSys ι κ δ}
    {e : PooledEvent ι κ} (hs : s.step P e = some s') : s'.Inv P U := by
  have huse := PoolUse.run_keeps hU h.use (use_step h.clean hs)
  have hclean := h.clean.step hs
  cases PooledSys.step_inv hs with
  | get hwait hk hget => exact h.obtain hk huse hclean
  | dequeue hwait hk hd => exact h.obtain hk huse hclean
  | @miss c k hwait hk hget =>
    refine ⟨huse, hclean, h.bufLen, h.dataOff, fun d hd => ?_⟩
    have hd' : Function.update s.wait c true d = true := hd
    by_cases hdc : d = c
    · subst hdc
      exact pc_of_alloc hk
    · rw [Function.update_of_ne hdc] at hd'
      exact h.waiting d hd'
  | @dequeueFail c k hwait hk hd =>
    refine ⟨huse, hclean, h.bufLen, fun d m hm => ?_, fun d hd => ?_⟩
    · have hm' : m ∈ (Function.update s.core c k d).live := hm
      by_cases hdc : d = c
      · subst hdc
        rw [Function.update_self, Core.live_quiet hk rfl rfl rfl] at hm'
        exact h.dataOff d m hm'
      · rw [Function.update_of_ne hdc] at hm'
        exact h.dataOff d m hm'
    · have hd' : Function.update s.wait c false d = true := hd
      show ∃ i, (Function.update s.core c k d).pc = .alloc i
      by_cases hdc : d = c
      · subst hdc
        rw [Function.update_self] at hd'
        nomatch hd'
      · rw [Function.update_of_ne hdc] at hd' ⊢
        exact h.waiting d hd'
  | @store c m f k hwait hk =>
    -- the store writes two lengths of the header and no other field
    have hkeep : ∀ {β : Type} (g : RteMbuf → β),
        g { s.hdr m with pktLen := f.pktLen, dataLen := f.dataLen } = g (s.hdr m) →
        ∀ x, g (Function.update s.hdr m
          { s.hdr m with pktLen := f.pktLen, dataLen := f.dataLen } x) = g (s.hdr x) := by
      intro β g hg x
      by_cases hx : x = m
      · subst hx
        rw [Function.update_self, hg]
      · rw [Function.update_of_ne hx]
    exact h.call hwait hk rfl rfl rfl (hkeep RteMbuf.dataOff rfl) (hkeep RteMbuf.bufLen rfl)
      huse hclean
  | @txBurst c bs nbTx k hwait hk =>
    exact h.call hwait hk rfl rfl rfl (fun _ => rfl) (fun _ => rfl) huse hclean
  | @free c m k hdr back mp hwait hk hfree hput =>
    obtain ⟨rfl, rfl⟩ := Prod.mk.inj (Option.some.inj ((h.clean.free_eq m).symm.trans hfree))
    exact h.call hwait hk rfl rfl rfl (fun _ => rfl) (fun _ => rfl) huse hclean
  | @count c nbTx k hwait hk =>
    exact h.call hwait hk rfl rfl rfl (fun _ => rfl) (fun _ => rfl) huse hclean
  | complete hwait hsub hput => exact ⟨huse, hclean, h.bufLen, h.dataOff, h.waiting⟩

/-- What one event preserves, any number of events preserve. -/
theorem Inv.run (hU : U.length ≤ P.ops.capacity) (h : s.Inv P U) {s' : PooledSys ι κ δ}
    {es : List (PooledEvent ι κ)} (hrun : Run (PooledSys.step P) s es s') : s'.Inv P U :=
  hrun.reachable (P := fun s => s.Inv P U) h (fun _ _ _ hinv hs => hinv.step hU hs)

/-! ## No core is stuck -/

/-- The core an event is a step of; a completion is nobody's. -/
def coreOf : PooledEvent ι κ → Option ι
  | .get c _ => some c
  | .miss c => some c
  | .dequeue c _ => some c
  | .call c _ => some c
  | .complete _ _ _ => none

/-- A core about to allocate can: the cache serves it, or it goes to the common pool, which has
    an mbuf or has none. -/
theorem Inv.alloc_possible (h : s.Inv P U) {c : ι} {i : Fin burstSize}
    (hpc : (s.core c).pc = .alloc i) :
    ∃ e s', coreOf e = some c ∧ s.step P e = some s' := by
  have hfit : s.mp.CachesFit := h.use.fit
  have hsome := fun m => (CoreStep.alloc (k := s.core c) m hpc).step_eq
  have hnone := (CoreStep.allocFail (k := s.core c) hpc).step_eq
  cases hwait : s.wait c with
  | false =>
    have hget := Mempool.getCached_exchange P.ops 1 (s.cacheOf P c) hfit
    cases hc : s.mp.getCached P.ops 1 (s.cacheOf P c) with
    | outOfBounds =>
      rw [hc] at hget
      exact hget.elim
    | ringDequeue => exact ⟨.miss c, _, rfl, (PooledStep.miss hwait hnone hc).step_eq⟩
    | served xs mp =>
      rw [hc] at hget
      obtain ⟨m, rfl⟩ := List.length_eq_one_iff.mp hget.1
      exact ⟨.get c m, _, rfl, (PooledStep.get hwait (hsome m) hc).step_eq⟩
  | true =>
    cases hd : s.mp.ringDequeue P.ops 1 with
    | none => exact ⟨.dequeue c none, _, rfl, (PooledStep.dequeueFail hwait hnone hd).step_eq⟩
    | some r =>
      obtain ⟨xs, mp⟩ := r
      have hlen := (Mempool.ringDequeue_exchange none hfit hd).1
      obtain ⟨m, rfl⟩ := List.length_eq_one_iff.mp hlen
      exact ⟨.dequeue c (some m), _, rfl, (PooledStep.dequeue hwait (hsome m) hd).step_eq⟩

omit [DecidableEq ι] [DecidableEq κ] in
/-- Mbufs from a hand can be put back through any cache. -/
theorem Inv.put_possible (hU : U.length ≤ P.ops.capacity) (h : s.Inv P U) (c : ι)
    (hd : ι ⊕ κ) {xs : List Ptr} (hsub : xs.Subperm (s.use.hand hd)) :
    ∃ mp, s.mp.putBulk P.ops (P.lcoreId c) xs = some mp := by
  obtain ⟨mp, hput, -⟩ := Mempool.doGenericPut_exchange (s.cacheOf P c) h.use.fit
    (partition_room h.use.partition hU hsub)
  exact ⟨mp, hput⟩

/-- **No core is stuck**: one that has not returned has a next step. -/
theorem Inv.progress (hU : U.length ≤ P.ops.capacity) (h : s.Inv P U) {c : ι}
    (hrun : ∀ i, (s.core c).pc ≠ .returned i) :
    ∃ e s', coreOf e = some c ∧ s.step P e = some s' := by
  -- only a core that is about to allocate can be waiting
  have hidle : (∀ i, (s.core c).pc ≠ .alloc i) → s.wait c = false := by
    intro hpc
    cases hwait : s.wait c with
    | false => rfl
    | true =>
      obtain ⟨i, hi⟩ := h.waiting c hwait
      exact absurd hi (hpc i)
  cases hpc : (s.core c).pc with
  | alloc i => exact h.alloc_possible hpc
  | returned i => exact absurd hpc (hrun i)
  | store i =>
    have hwait := hidle (fun j hj => nomatch hpc.symm.trans hj)
    exact ⟨_, _, rfl, (PooledStep.store hwait (CoreStep.store hpc).step_eq).step_eq⟩
  | txBurst =>
    have hwait := hidle (fun j hj => nomatch hpc.symm.trans hj)
    exact ⟨_, _, rfl,
      (PooledStep.txBurst hwait (CoreStep.txBurst hpc (Nat.zero_le _)).step_eq).step_eq⟩
  | count nbTx =>
    have hwait := hidle (fun j hj => nomatch hpc.symm.trans hj)
    exact ⟨_, _, rfl, (PooledStep.count hwait (CoreStep.count hpc).step_eq).step_eq⟩
  | free nbTx i =>
    have hwait := hidle (fun j hj => nomatch hpc.symm.trans hj)
    have hk := (CoreStep.free (k := s.core c) hpc).step_eq
    -- the mbuf is in the core's hand, and so has a place to go
    have hsub : [(s.core c).bufs[i]].Subperm (s.use.hand (.inl c)) := by
      show [(s.core c).bufs[i]].Subperm (s.core c).live
      rw [Core.live_free hk]
      exact (List.sublist_append_left [(s.core c).bufs[i]] _).subperm
    obtain ⟨mp, hput⟩ := h.put_possible hU c (.inl c) hsub
    have hall := (putAll_single P.ops (P.lcoreId c) (s.core c).bufs[i] s.mp).trans hput
    exact ⟨_, _, rfl, (PooledStep.free hwait hk (h.clean.free_eq _) hall).step_eq⟩

end
end PooledSys

/-! ## Runs -/

/-- The mempool and the mbufs when the cores start: what the rx queues have taken is gone, the
    rest is in the common pool and in the caches, and every mbuf is as it was made. -/
structure PooledStart (P : Platform ι κ δ) where
  mp : Mempool δ Ptr
  mbufs : List Ptr
  hdr : Ptr → RteMbuf
  pkt : Ptr → MyPkt
  stack : ι → Vector Ptr burstSize
  nodup : mbufs.Nodup
  room : mbufs.length ≤ P.ops.capacity
  inv : (⟨mp, fun _ => [], fun _ => none⟩ : PoolUse (ι ⊕ κ) ι δ Ptr).Inv P.ops mbufs
  clean : ∀ m, (hdr m).Clean
  bufLen : ∀ m, (hdr m).bufLen = rteMbufDefaultBufSize

namespace PooledStart

variable {P : Platform ι κ δ} (start : PooledStart P)

/-- Every core is before its first call, the rings are empty. -/
def init : PooledSys ι κ δ :=
  ⟨start.mp, fun _ => false, fun c => Core.init (start.stack c), fun _ => [], start.hdr, start.pkt⟩

omit [DecidableEq ι] [DecidableEq κ] in
/-- The invariant holds at the start: no core has an mbuf and none is waiting. -/
theorem inv_init : start.init.Inv P start.mbufs := by
  have huse : start.init.use = ⟨start.mp, fun _ => [], fun _ => none⟩ :=
    PooledSys.use_eq rfl (fun c => Core.live_init (start.stack c)) (fun _ => rfl) (fun _ => rfl)
  refine ⟨huse ▸ start.inv, start.clean, start.bufLen, fun c m hm => ?_, fun c hc => nomatch hc⟩
  have hm' : m ∈ (Core.init (start.stack c)).live := hm
  rw [Core.live_init] at hm'
  nomatch hm'

end PooledStart

/-- The start on a mempool from which nothing has been taken yet. -/
def NewMempool.pooledStart {P : Platform ι κ δ} (new : NewMempool P.ops) : PooledStart P where
  mp := new.mp
  mbufs := new.objects
  hdr _ := RteMbuf.new
  pkt _ := ⟨0, 0⟩
  stack _ := Vector.replicate burstSize 0
  nodup := new.nodup
  room := new.room
  inv := new.inv_init
  clean _ := RteMbuf.new_clean
  bufLen _ := rfl

/-- Core `c` on lcore `c` and tx queue `c`. -/
def plainPlatform (n capacity : Nat) : Platform (Fin n) (Fin n) (List Ptr) :=
  ⟨Magazine.fifo capacity, fun c => c.val, id⟩

/-- The state of `SendSystem` that the system is seen as. -/
structure Matches (ops : Magazine.Depot δ Ptr) (s : PooledSys ι κ δ) (a : Sys ι κ) : Prop where
  core : a.core = s.core
  ring : a.ring = s.ring
  mem : a.mem = s.fields
  pool : ∀ m, m ∈ a.pool ↔ s.Free ops m

/-- **The real mempool refines the free list.**  Every run of the senders on the mempool, its
    caches and the headers is a run of `SendSystem`, with the same calls of every core, the
    completions of a bulk one after the other, and the free list in place of the mempool. -/
theorem pooled_refines {P : Platform ι κ δ} (start : PooledStart P)
    {es : List (PooledEvent ι κ)} {s : PooledSys ι κ δ}
    (h : Run (PooledSys.step P) start.init es s) :
    ∃ a, Run (Sys.step P.queueId) (Sys.init start.mbufs start.stack start.init.fields)
      (es.flatMap PooledSys.events) a ∧ Matches P.ops s a := by
  -- the simulation relation: both machines have partitioned the mbufs, and the states agree
  let R : PooledSys ι κ δ → Sys ι κ → Prop := fun s a =>
    s.Inv P start.mbufs ∧ Partition start.mbufs a.owned ∧ ∃ pool, a = s.toSys pool
  have hnil : Run (Sys.step P.queueId) (Sys.init start.mbufs start.stack start.init.fields) [] _ :=
    Run.nil
  have hinit : R start.init (Sys.init start.mbufs start.stack start.init.fields) :=
    ⟨start.inv_init, Sys.partition start.nodup hnil, start.mbufs, rfl⟩
  obtain ⟨a, hrun, hinv, hpart, pool, rfl⟩ := h.simulate (R := R) (ρ := PooledSys.events)
    (fun t e u a hR hs => by
      obtain ⟨hinv, hpart, pool, rfl⟩ := hR
      obtain ⟨pool', hstep⟩ := PooledSys.toSys_step hinv.use hinv.clean hpart hs
      exact ⟨_, hstep, hinv.step start.room hs, Sys.partition_run hpart hstep, pool', rfl⟩) hinit
  exact ⟨_, hrun, rfl, rfl, rfl, PooledSys.mem_pool_iff hinv.use.partition hpart⟩

/-- One core on a mempool of two mbufs: the first allocation goes to the common pool. -/
theorem pooled_refines_one : ∃ (s : PooledSys (Fin 1) (Fin 1) (List Ptr)) (a : Sys (Fin 1) (Fin 1)),
    Run (Sys.step id) (Sys.init [5, 6] (fun _ => Vector.replicate burstSize 0)
      (fun _ => ⟨0, 0, ⟨0, 0⟩⟩)) [.core 0 (.alloc (some 5)), .core 0 (.store 5 sentFields)] a ∧
    Matches (Magazine.fifo 2) s a := by
  let new := newMempool [5, 6] (by decide)
  let start := NewMempool.pooledStart (P := plainPlatform 1 2) new
  have hrun := @run_of_exec_isSome _ _ (PooledSys.step (plainPlatform 1 2)) start.init
    [.miss 0, .dequeue 0 (some 5), .call 0 (.store 5 sentFields)] rfl
  exact ⟨_, pooled_refines start hrun⟩

/-- What is true of the mbufs `U` in the state `s`. -/
structure PooledKept (P : Platform ι κ δ) (U : List Ptr) (s : PooledSys ι κ δ) : Prop where
  /-- Every mbuf is in the common pool, in one cache, with one core or on one ring, once. -/
  owner : ∀ m ∈ U, ∃ p, (s.use.owned P.ops p).count m = 1 ∧
    ∀ q, q ≠ p → m ∉ s.use.owned P.ops q
  /-- There is nothing else anywhere. -/
  only : ∀ p, ∀ m ∈ s.use.owned P.ops p, m ∈ U
  /-- What the NIC holds, and everything else, may be put back without a look at it. -/
  fastFree : ∀ m, (s.hdr m).refcnt = 1 ∧ (s.hdr m).next = none ∧ (s.hdr m).nbSegs = 1 ∧
    (s.hdr m).direct
  /-- A packet is written inside the buffer of its mbuf. -/
  inside : ∀ c m f k, (s.core c).step (.store m f) = some k →
    (s.hdr m).dataOff.toNat + sizeofMyPkt ≤ (s.hdr m).bufLen.toNat
  /-- A core that has not returned can go on. -/
  progress : ∀ c, (∀ i, (s.core c).pc ≠ .returned i) →
    ∃ e s', PooledSys.coreOf e = some c ∧ s.step P e = some s'
  /-- The driver can give back any mbufs of a ring, on any lcore that is not inside a get. -/
  complete : ∀ c q xs, s.wait c = false → xs.Subperm (s.ring q) →
    ∃ s', s.step P (.complete c q xs) = some s'

/-- **What the senders keep**, for any depot, any lcores, any tx queues and any interleaving of
    the cores, of the two parts of an allocation and of the driver. -/
theorem pooled_kept {P : Platform ι κ δ} (start : PooledStart P)
    {es : List (PooledEvent ι κ)} {s : PooledSys ι κ δ}
    (h : Run (PooledSys.step P) start.init es s) : PooledKept P start.mbufs s := by
  have hinv := start.inv_init.run start.room h
  constructor
  · intro m hm
    exact hinv.use.partition.exactly_one hm
  · intro p m hm
    exact (hinv.use.partition.cover m).mpr ⟨p, hm⟩
  · intro m
    have hclean := hinv.clean m
    exact ⟨hclean.refcnt, hclean.next, hclean.nbSegs, hclean.direct⟩
  · intro c m f k hk
    -- the mbuf a core writes is its own, so that its offset is the headroom
    have hlive : m ∈ (s.core c).live := by
      cases Core.step_inv hk with
      | @store i hpc =>
        have hi : i.val < (s.core c).bufs.toList.length := by
          rw [toList_length]
          exact i.isLt
        rw [Core.live, hpc]
        show (s.core c).bufs[i] ∈ (s.core c).bufs.toList.take (i + 1)
        rw [List.take_add_one, List.getElem?_eq_getElem hi]
        exact List.mem_append_right _ List.mem_cons_self
    rw [hinv.dataOff c m hlive, hinv.bufLen m]
    decide
  · intro c hc
    exact hinv.progress start.room hc
  · intro c q xs hwait hsub
    obtain ⟨mp, hput⟩ := hinv.put_possible start.room c (.inr q) hsub
    exact ⟨_, (PooledStep.complete hwait hsub hput).step_eq⟩

/-- Two cores on a mempool of one mbuf: the second core finds the common pool empty. -/
theorem pooled_kept_two : ∃ s : PooledSys (Fin 2) (Fin 2) (List Ptr),
    PooledKept (plainPlatform 2 1) [5] s :=
  ⟨_, pooled_kept (NewMempool.pooledStart (P := plainPlatform 2 1) (newMempool [5] (by decide)))
    (run_of_exec_isSome rfl : Run _ _ [.miss 0, .miss 1, .dequeue 0 (some 5), .dequeue 1 none,
      .call 0 (.store 5 sentFields)] _)⟩

end PacketSend
