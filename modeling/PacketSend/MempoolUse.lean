/-
  The mempool shared by several threads.

  A state is the mempool, the objects in every HAND (a hand is whatever holds objects outside the
  mempool: the array of a core, a ring of the NIC) and, for every thread, the request with which
  it stands at the label `ring_dequeue`, if it stands there.  The last part is there because
  `rte_mempool_do_generic_get` looks at the common pool twice, once to fill the cache and once
  more when that has failed, and anything can happen between the two.  The cache of an lcore is
  touched by the thread that runs on it only, so the rest of a call is one step.

  Which lcore a thread runs on is `lcoreId`; a thread outside EAL has an id of `RTE_MAX_LCORE` or
  more and no cache.

  Whatever the threads ask for, in whatever order, every object is at exactly one place, in the
  common pool, in one cache or in one hand; no call leaves the array of a cache; and the common
  pool never refuses what is put back (`pool_kept`).

  The invariant is that the objects are partitioned among the places and that the caches fit their
  arrays.  A call touches three places at most, the hand, the common pool and one cache, and what
  it does to them is an `Exchange` of the module before; so one lemma about an exchange
  (`partition_exchange`) serves all calls.  That there is room for a put is not checked by the
  code: it follows from the partition, since the objects in the hand are not in the pool
  (`partition_room`).
-/
import PacketSend.Mempool
import PacketSend.Lib.Runs
import PacketSend.Lib.Places

namespace PacketSend

open Runs Places

variable {η θ δ α : Type} [DecidableEq η] [DecidableEq θ] [DecidableEq α]

/-! ## The machine -/

/-- The state, for hands `η` and threads `θ`. -/
structure PoolUse (η θ δ α : Type) where
  mp : Mempool δ α
  hand : η → List α
  wait : θ → Option (η × Nat)

/-- What a thread does: a get that is served from its cache, a get that jumps to `ring_dequeue`,
    the end of such a get, a put of objects from a hand; or objects go from one hand to another. -/
inductive UseEvent (η θ α : Type) where
  | get (t : θ) (h : η) (n : Nat) (xs : List α)
  | miss (t : θ) (h : η) (n : Nat)
  | dequeue (t : θ) (res : Option (List α))
  | put (t : θ) (h : η) (xs : List α)
  | pass (src dst : η) (xs : List α)
  deriving DecidableEq, Repr

/-- One event. -/
def PoolUse.step (ops : Magazine.Depot δ α) (lcoreId : θ → Nat) (s : PoolUse η θ δ α) :
    UseEvent η θ α → Option (PoolUse η θ δ α)
  | .get t h n xs =>
    if s.wait t = none then
      match s.mp.getCached ops n (s.mp.defaultCache (lcoreId t)) with
      | .served ys mp =>
        if ys = xs then
          some { s with mp := mp, hand := Function.update s.hand h (s.hand h ++ xs) }
        else none
      | _ => none
    else none
  | .miss t h n =>
    if s.wait t = none then
      match s.mp.getCached ops n (s.mp.defaultCache (lcoreId t)) with
      | .ringDequeue => some { s with wait := Function.update s.wait t (some (h, n)) }
      | _ => none
    else none
  | .dequeue t res =>
    match s.wait t with
    | none => none
    | some (h, n) =>
      match s.mp.ringDequeue ops n with
      | none =>
        if res = none then some { s with wait := Function.update s.wait t none } else none
      | some (xs, mp) =>
        if res = some xs then
          some { mp := mp
                 hand := Function.update s.hand h (s.hand h ++ xs)
                 wait := Function.update s.wait t none }
        else none
  | .put t h xs =>
    if s.wait t = none ∧ xs.Subperm (s.hand h) then
      (s.mp.putBulk ops (lcoreId t) xs).map fun mp =>
        { s with mp := mp, hand := Function.update s.hand h ((s.hand h).diff xs) }
    else none
  | .pass src dst xs =>
    if src ≠ dst ∧ xs.Subperm (s.hand src) then
      some { s with
        hand := Function.update (Function.update s.hand src ((s.hand src).diff xs)) dst
          (s.hand dst ++ xs) }
    else none

/-- What an event can be: the branches of `PoolUse.step` that have a result. -/
inductive UseStep (ops : Magazine.Depot δ α) (lcoreId : θ → Nat) (s : PoolUse η θ δ α) :
    UseEvent η θ α → PoolUse η θ δ α → Prop where
  | get {t : θ} {h : η} {n : Nat} {xs : List α} {mp : Mempool δ α} (hwait : s.wait t = none)
      (hget : s.mp.getCached ops n (s.mp.defaultCache (lcoreId t)) = .served xs mp) :
      UseStep ops lcoreId s (.get t h n xs)
        { s with mp := mp, hand := Function.update s.hand h (s.hand h ++ xs) }
  | miss {t : θ} {h : η} {n : Nat} (hwait : s.wait t = none)
      (hget : s.mp.getCached ops n (s.mp.defaultCache (lcoreId t)) = .ringDequeue) :
      UseStep ops lcoreId s (.miss t h n)
        { s with wait := Function.update s.wait t (some (h, n)) }
  | dequeueFail {t : θ} {h : η} {n : Nat} (hwait : s.wait t = some (h, n))
      (hd : s.mp.ringDequeue ops n = none) :
      UseStep ops lcoreId s (.dequeue t none) { s with wait := Function.update s.wait t none }
  | dequeue {t : θ} {h : η} {n : Nat} {xs : List α} {mp : Mempool δ α}
      (hwait : s.wait t = some (h, n)) (hd : s.mp.ringDequeue ops n = some (xs, mp)) :
      UseStep ops lcoreId s (.dequeue t (some xs))
        { mp := mp
          hand := Function.update s.hand h (s.hand h ++ xs)
          wait := Function.update s.wait t none }
  | put {t : θ} {h : η} {xs : List α} {mp : Mempool δ α} (hwait : s.wait t = none)
      (hsub : xs.Subperm (s.hand h)) (hput : s.mp.putBulk ops (lcoreId t) xs = some mp) :
      UseStep ops lcoreId s (.put t h xs)
        { s with mp := mp, hand := Function.update s.hand h ((s.hand h).diff xs) }
  | pass {src dst : η} {xs : List α} (hne : src ≠ dst) (hsub : xs.Subperm (s.hand src)) :
      UseStep ops lcoreId s (.pass src dst xs)
        { s with
          hand := Function.update (Function.update s.hand src ((s.hand src).diff xs)) dst
            (s.hand dst ++ xs) }

/-- The inversion of `PoolUse.step`. -/
theorem PoolUse.step_inv {ops : Magazine.Depot δ α} {lcoreId : θ → Nat} {s s' : PoolUse η θ δ α}
    {e : UseEvent η θ α} (h : s.step ops lcoreId e = some s') : UseStep ops lcoreId s e s' := by
  cases e with
  | get t hd n xs =>
    simp only [PoolUse.step] at h
    split at h
    · split at h
      · split at h
        · obtain rfl := Option.some.inj h
          rename_i hwait _ _ _ hget hxs
          subst hxs
          exact UseStep.get hwait hget
        · nomatch h
      · nomatch h
    · nomatch h
  | miss t hd n =>
    simp only [PoolUse.step] at h
    split at h
    · split at h
      · obtain rfl := Option.some.inj h
        exact UseStep.miss ‹_› ‹_›
      · nomatch h
    · nomatch h
  | dequeue t res =>
    simp only [PoolUse.step] at h
    split at h
    · nomatch h
    · split at h
      · split at h
        · obtain rfl := Option.some.inj h
          rename_i hres
          subst hres
          exact UseStep.dequeueFail ‹_› ‹_›
        · nomatch h
      · split at h
        · obtain rfl := Option.some.inj h
          rename_i hres
          subst hres
          exact UseStep.dequeue ‹_› ‹_›
        · nomatch h
  | put t hd xs =>
    simp only [PoolUse.step] at h
    split at h
    · rename_i hok
      cases hput : s.mp.putBulk ops (lcoreId t) xs with
      | none =>
        rw [hput] at h
        nomatch h
      | some mp =>
        rw [hput] at h
        obtain rfl := Option.some.inj h
        exact UseStep.put hok.1 hok.2 hput
    · nomatch h
  | pass src dst xs =>
    simp only [PoolUse.step] at h
    split at h
    · rename_i hok
      obtain rfl := Option.some.inj h
      exact UseStep.pass hok.1 hok.2
    · nomatch h

/-- Every `UseStep` is a step. -/
theorem UseStep.step_eq {ops : Magazine.Depot δ α} {lcoreId : θ → Nat} {s s' : PoolUse η θ δ α}
    {e : UseEvent η θ α} (h : UseStep ops lcoreId s e s') : s.step ops lcoreId e = some s' := by
  cases h with
  | get hwait hget => simp only [PoolUse.step, hwait, hget, if_true]
  | miss hwait hget => simp only [PoolUse.step, hwait, hget, if_true]
  | dequeueFail hwait hd => simp only [PoolUse.step, hwait, hd, if_true]
  | dequeue hwait hd => simp only [PoolUse.step, hwait, hd, if_true]
  | put hwait hsub hput =>
    simp only [PoolUse.step, hwait, hsub, hput, and_self, if_true, Option.map_some]
  | pass hne hsub => simp only [PoolUse.step, if_pos (And.intro hne hsub)]

/-! ## Where an object is -/

/-- The places an object can be at. -/
inductive UsePlace (η : Type) where
  | pool
  | cache (l : Fin rteMaxLcore)
  | hand (h : η)
  deriving DecidableEq, Repr

/-- The objects at a place. -/
def PoolUse.owned (ops : Magazine.Depot δ α) (s : PoolUse η θ δ α) : UsePlace η → List α
  | .pool => ops.contents s.mp.pool
  | .cache l => (s.mp.localCache l).held
  | .hand h => s.hand h

/-- The common pool, one of the caches if one is meant, and a hand. -/
def callPlaces (cache : Option (Fin rteMaxLcore)) (h : η) : List (UsePlace η) :=
  .hand h :: .pool :: cache.toList.map .cache

omit [DecidableEq η] in
/-- They are different places, -/
theorem callPlaces_nodup (cache : Option (Fin rteMaxLcore)) (h : η) :
    (callPlaces cache h).Nodup := by
  cases cache <;> simp [callPlaces]

omit [DecidableEq η] [DecidableEq θ] [DecidableEq α] in
/-- and hold together what an exchange is about. -/
theorem flatMap_callPlaces (ops : Magazine.Depot δ α) (s : PoolUse η θ δ α)
    (cache : Option (Fin rteMaxLcore)) (h : η) :
    (callPlaces cache h).flatMap (s.owned ops)
      = s.hand h ++ (ops.contents s.mp.pool ++ s.mp.heldBy cache) := by
  cases cache <;> rfl

section
variable {ops : Magazine.Depot δ α} {s s' : PoolUse η θ δ α} {U : List α}
  {cache : Option (Fin rteMaxLcore)} {h : η} {inn out : List α}

omit [DecidableEq η] [DecidableEq θ] in
/-- A call that exchanges objects between the mempool and a hand keeps the partition. -/
theorem partition_exchange (hp : Partition U (s.owned ops))
    (hx : Mempool.Exchange ops cache s.mp s'.mp inn out)
    (hhand : (s.hand h ++ out).Perm (inn ++ s'.hand h))
    (frame : ∀ h', h' ≠ h → s'.hand h' = s.hand h') : Partition U (s'.owned ops) := by
  -- the three places hold the same objects before and after, the others are not touched
  refine hp.redistribute (callPlaces_nodup cache h) ?_ ?_
  · rw [flatMap_callPlaces, flatMap_callPlaces, List.perm_iff_count]
    intro x
    have hin := hx.perm.count_eq x
    have hout := hhand.count_eq x
    simp only [List.count_append] at hin hout ⊢
    omega
  · rintro (_ | l | h') hmem
    · exact absurd (List.mem_cons_of_mem _ List.mem_cons_self) hmem
    · have hl : l ∉ cache := by
        intro hl
        refine hmem (List.mem_cons_of_mem _
          (List.mem_cons_of_mem _ (List.mem_map.mpr ⟨l, ?_, rfl⟩)))
        exact Option.mem_toList.mpr hl
      exact congrArg MempoolCache.held (hx.frame l hl)
    · exact frame h' (fun heq => hmem (heq ▸ List.mem_cons_self))

omit [DecidableEq η] [DecidableEq θ] [DecidableEq α] in
/-- The common pool has room for the objects of a hand and of a cache: they are at different
    places, and all objects together have room there. -/
theorem partition_room (hp : Partition U (s.owned ops)) (hU : U.length ≤ ops.capacity)
    {xs : List α} (hsub : xs.Subperm (s.hand h)) :
    (ops.contents s.mp.pool).length + ((s.mp.heldBy cache).length + xs.length)
      ≤ ops.capacity := by
  have hle := hp.length_le (callPlaces_nodup cache h)
  have hxs := hsub.length_le
  rw [flatMap_callPlaces, List.length_append, List.length_append] at hle
  omega

omit [DecidableEq θ] in
/-- Objects that go from one hand to another keep the partition. -/
theorem partition_pass (hp : Partition U (s.owned ops)) {src dst : η} {xs : List α}
    (hne : src ≠ dst) (hsub : xs.Subperm (s.hand src)) (hmp : s'.mp = s.mp)
    (hhand : s'.hand = Function.update (Function.update s.hand src ((s.hand src).diff xs)) dst
      (s.hand dst ++ xs)) : Partition U (s'.owned ops) := by
  have ht : Transfer (s.owned ops) (s'.owned ops) (.hand src) (.hand dst) xs := by
    refine ⟨by simp [hne], ?_, ?_, ?_⟩
    · show (s.hand src).Perm (xs ++ s'.hand src)
      rw [hhand, Function.update_of_ne hne, Function.update_self]
      exact (List.subperm_append_diff_self_of_count_le (List.subperm_ext_iff.mp hsub)).symm
    · show (s'.hand dst).Perm (xs ++ s.hand dst)
      rw [hhand, Function.update_self]
      exact List.perm_append_comm
    · rintro (_ | l | h') hsrc hdst
      · show ops.contents s'.mp.pool = ops.contents s.mp.pool
        rw [hmp]
      · show (s'.mp.localCache l).held = (s.mp.localCache l).held
        rw [hmp]
      · show s'.hand h' = s.hand h'
        rw [hhand, Function.update_of_ne (fun heq => hdst (congrArg UsePlace.hand heq)),
          Function.update_of_ne (fun heq => hsrc (congrArg UsePlace.hand heq))]
  exact hp.transfer ht

end

/-! ## Runs -/

/-- A mempool as `rte_mempool_create` leaves it: different objects, all in the common pool, which
    has room for them, and empty caches. -/
structure NewMempool (ops : Magazine.Depot δ α) where
  mp : Mempool δ α
  nodup : (ops.contents mp.pool).Nodup
  room : (ops.contents mp.pool).length ≤ ops.capacity
  empty : ∀ l, (mp.localCache l).len = 0

/-- The objects of the mempool. -/
def NewMempool.objects {ops : Magazine.Depot δ α} (new : NewMempool ops) : List α :=
  ops.contents new.mp.pool

/-- Nobody has asked for anything yet. -/
def NewMempool.init {ops : Magazine.Depot δ α} (new : NewMempool ops) : PoolUse η θ δ α :=
  ⟨new.mp, fun _ => [], fun _ => none⟩

/-- The invariant of a run, for the objects `U`. -/
structure PoolUse.Inv (ops : Magazine.Depot δ α) (U : List α) (s : PoolUse η θ δ α) : Prop where
  partition : Partition U (s.owned ops)
  fit : s.mp.CachesFit

section
variable {ops : Magazine.Depot δ α} {lcoreId : θ → Nat} {U : List α}

omit [DecidableEq η] [DecidableEq θ] [DecidableEq α] in
/-- It holds of a new mempool, whose objects are all in the common pool. -/
theorem NewMempool.inv_init (new : NewMempool ops) :
    PoolUse.Inv ops new.objects (new.init : PoolUse η θ δ α) := by
  have hcache : ∀ l, (new.mp.localCache l).held = [] := by
    intro l
    rw [MempoolCache.held, new.empty l, List.take_zero]
  refine ⟨⟨?_, ?_, ?_⟩, fun l => ?_⟩
  · rintro (_ | l | h)
    · exact new.nodup
    · show (new.mp.localCache l).held.Nodup
      rw [hcache]
      exact List.nodup_nil
    · exact List.nodup_nil
  · have hpool : ∀ {p : UsePlace η} {x : α},
        x ∈ (new.init : PoolUse η θ δ α).owned ops p → p = .pool := by
      rintro (_ | l | h) x hx
      · rfl
      · have hx' : x ∈ (new.mp.localCache l).held := hx
        rw [hcache] at hx'
        exact absurd hx' List.not_mem_nil
      · exact absurd hx List.not_mem_nil
    intro p q x hp hq
    rw [hpool hp, hpool hq]
  · intro x
    refine ⟨fun hx => ⟨.pool, hx⟩, ?_⟩
    rintro ⟨_ | l | h, hx⟩
    · exact hx
    · have hx' : x ∈ (new.mp.localCache l).held := hx
      rw [hcache] at hx'
      exact absurd hx' List.not_mem_nil
    · exact absurd hx List.not_mem_nil
  · show (new.mp.localCache l).len ≤ (new.mp.localCache l).flushthresh
    rw [new.empty l]
    exact Nat.zero_le _

/-- **What one event preserves**: each call is an exchange with one hand, and a hand-over has its
    own lemma. -/
theorem PoolUse.step_keeps (hU : U.length ≤ ops.capacity) {s s' : PoolUse η θ δ α}
    {e : UseEvent η θ α} (hinv : s.Inv ops U) (h : s.step ops lcoreId e = some s') :
    s'.Inv ops U := by
  cases PoolUse.step_inv h with
  | @get t hd n xs mp hwait hget =>
    have hcached := Mempool.getCached_exchange ops n (s.mp.defaultCache (lcoreId t)) hinv.fit
    rw [hget] at hcached
    refine ⟨partition_exchange (h := hd) hinv.partition hcached.2 ?_ ?_, hcached.2.fit⟩
    · show (s.hand hd ++ xs).Perm ([] ++ Function.update s.hand hd (s.hand hd ++ xs) hd)
      rw [Function.update_self]
      exact List.Perm.refl _
    · exact fun h' hne => Function.update_of_ne hne _ _
  | miss hwait hget => exact ⟨hinv.partition, hinv.fit⟩
  | dequeueFail hwait hd => exact ⟨hinv.partition, hinv.fit⟩
  | @dequeue t hd n xs mp hwait hdeq =>
    have hx := (Mempool.ringDequeue_exchange none hinv.fit hdeq).2
    refine ⟨partition_exchange (h := hd) hinv.partition hx ?_ ?_, hx.fit⟩
    · show (s.hand hd ++ xs).Perm ([] ++ Function.update s.hand hd (s.hand hd ++ xs) hd)
      rw [Function.update_self]
      exact List.Perm.refl _
    · exact fun h' hne => Function.update_of_ne hne _ _
  | @put t hd xs mp hwait hsub hput =>
    -- the flush, if there is one, is not refused
    obtain ⟨mp', hput', hx⟩ := Mempool.doGenericPut_exchange (s.mp.defaultCache (lcoreId t))
      hinv.fit (partition_room hinv.partition hU hsub)
    obtain rfl : mp' = mp := Option.some.inj (hput'.symm.trans hput)
    refine ⟨partition_exchange (h := hd) hinv.partition hx ?_ ?_, hx.fit⟩
    · show (s.hand hd ++ []).Perm (xs ++ Function.update s.hand hd ((s.hand hd).diff xs) hd)
      rw [Function.update_self, List.append_nil]
      exact (List.subperm_append_diff_self_of_count_le (List.subperm_ext_iff.mp hsub)).symm
    · exact fun h' hne => Function.update_of_ne hne _ _
  | pass hne hsub => exact ⟨partition_pass hinv.partition hne hsub rfl rfl, hinv.fit⟩

/-- What one event preserves, any number of events preserve. -/
theorem PoolUse.run_keeps (hU : U.length ≤ ops.capacity) {s s' : PoolUse η θ δ α}
    {es : List (UseEvent η θ α)} (hinv : s.Inv ops U)
    (h : Run (PoolUse.step ops lcoreId) s es s') : s'.Inv ops U :=
  h.reachable (P := fun s => s.Inv ops U) hinv
    (fun _ _ _ hinv hs => PoolUse.step_keeps hU hinv hs)

/-! ## What a mempool keeps -/

/-- What is true of the objects `U` of a mempool in the state `s`. -/
structure PoolKept (ops : Magazine.Depot δ α) (lcoreId : θ → Nat) (U : List α)
    (s : PoolUse η θ δ α) : Prop where
  /-- Every object is at one place, once, and at no other. -/
  owner : ∀ x ∈ U, ∃ p, (s.owned ops p).count x = 1 ∧ ∀ q, q ≠ p → x ∉ s.owned ops q
  /-- There is nothing else anywhere. -/
  only : ∀ p, ∀ x ∈ s.owned ops p, x ∈ U
  /-- No cache holds more than its threshold. -/
  cache_le : ∀ l, (s.mp.localCache l).len ≤ (s.mp.localCache l).flushthresh
  /-- No get, by any thread and of any number of objects, leaves the array of a cache. -/
  get_inside : ∀ t n, s.mp.getCached ops n (s.mp.defaultCache (lcoreId t)) ≠ .outOfBounds
  /-- No put of objects from a hand does either, and the common pool refuses none of them. -/
  put_inside : ∀ t h xs, xs.Subperm (s.hand h) →
    ∃ mp, s.mp.putBulk ops (lcoreId t) xs = some mp ∧
      Mempool.Exchange ops (s.mp.defaultCache (lcoreId t)) s.mp mp xs []
  /-- A get of `n` fails exactly when the common pool holds fewer than `n` and the caller's own
      cache, if it has one, holds fewer too or is not looked at, as its size is at most `n`. -/
  get_fails : ∀ t n, s.mp.getBulk ops (lcoreId t) n = some none ↔
    (ops.contents s.mp.pool).length < n ∧ ∀ l ∈ s.mp.defaultCache (lcoreId t),
      (s.mp.localCache l).size ≤ n ∨ (s.mp.localCache l).len < n

omit [DecidableEq η] [DecidableEq θ] in
/-- The invariant says all of it. -/
theorem PoolUse.Inv.kept (lcoreId : θ → Nat) (hU : U.length ≤ ops.capacity)
    {s : PoolUse η θ δ α} (hinv : s.Inv ops U) : PoolKept ops lcoreId U s := by
  constructor
  · intro x hx
    exact hinv.partition.exactly_one hx
  · intro p x hx
    exact (hinv.partition.cover x).mpr ⟨p, hx⟩
  · exact hinv.fit
  · intro t n hout
    have hcached := Mempool.getCached_exchange ops n (s.mp.defaultCache (lcoreId t)) hinv.fit
    rw [hout] at hcached
    exact hcached
  · intro t hd xs hsub
    exact Mempool.doGenericPut_exchange (s.mp.defaultCache (lcoreId t)) hinv.fit
      (partition_room hinv.partition hU hsub)
  · intro t n
    exact Mempool.doGenericGet_eq_none_iff (s.mp.defaultCache (lcoreId t)) hinv.fit

/-- **A mempool keeps its objects**: for any depot behind it, any threads on any lcores, any hands
    and any interleaving of gets, puts and hand-overs of any size. -/
theorem pool_kept (lcoreId : θ → Nat) (new : NewMempool ops) {es : List (UseEvent η θ α)}
    {s : PoolUse η θ δ α} (h : Run (PoolUse.step ops lcoreId) new.init es s) :
    PoolKept ops lcoreId new.objects s :=
  (PoolUse.run_keeps new.room new.inv_init h).kept lcoreId new.room

end

/-- A mempool of the objects `U` behind caches of 250. -/
def newMempool (U : List Nat) (hU : U.Nodup) :
    NewMempool (Magazine.fifo U.length : Magazine.Depot (List Nat) Nat) where
  mp :=
    { pool := U
      cacheSize := 250
      localCache := fun _ =>
        { size := 250
          flushthresh := 375
          len := 0
          objs := Vector.replicate _ 0
          size_le_max := by decide
          size_le := by decide
          flushthresh_le := by decide } }
  nodup := hU
  room := Nat.le_refl _
  empty _ := rfl

/-- Two objects, a thread on lcore 0 and one outside EAL: the first get cannot fill the cache and
    goes to the common pool, the object that is put back stays in the cache of lcore 0. -/
theorem pool_kept_two : ∃ s : PoolUse Bool Bool (List Nat) Nat,
    PoolKept (Magazine.fifo 2) (fun t => if t then 0 else 200) [5, 6] s :=
  ⟨_, pool_kept (fun t => if t then 0 else 200) (newMempool [5, 6] (by decide))
    (run_of_exec_isSome rfl : Run _ _ [.miss true true 1, .miss false false 1,
      .dequeue true (some [5]), .put true true [5], .dequeue false (some [6]),
      .get true true 1 [5]] _)⟩

/-- Lcore 0 puts back two objects and gets them again, the last one first. -/
theorem getBulk_putBulk_two : ∃ mp₁ mp₂ : Mempool (List Nat) Nat,
    (newMempool [7] (by decide)).mp.putBulk (Magazine.fifo 1) 0 [5, 6] = some mp₁ ∧
    mp₁.getBulk (Magazine.fifo 1) 0 2 = some (some ([6, 5], mp₂)) ∧ mp₂.pool = [7] ∧
    ∀ l, (mp₂.localCache l).held = ((newMempool [7] (by decide)).mp.localCache l).held :=
  Mempool.getBulk_putBulk (fun _ => Nat.zero_le _) (by decide) (by decide) (by decide) (by decide)

end PacketSend
