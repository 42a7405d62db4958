/-
  The sending cores together: one mbuf pool, one tx ring per queue.

  A state of the system is the free pool, the machine of every core (`SendCore`), the mbufs the
  NIC has accepted on every tx ring, and what has been written through the mbuf pointers.  An
  event is a call of one core, or the NIC completing one mbuf of one ring; a run of the system is
  therefore any interleaving of any number of cores with any answers of DPDK.  What is assumed of
  DPDK is what `Sys.step` allows:

  * `rte_pktmbuf_alloc` answers with an mbuf that is free, or NULL (at any time);
  * `rte_eth_tx_burst` takes ownership of the first `nb_tx` entries, for any `nb_tx <= 64`;
  * a completion gives an mbuf of a ring back to the pool, in any order.

  Which ring a core sends on is `queueId`; nothing here needs different cores to have different
  rings.

  Ownership is a `Places.Partition`: the places are the pool, the cores (their live parts) and the
  rings, and every event is a `Transfer` between two of them or moves nothing (`step_moves`).
  From the partition follow the facts about single calls, and with the shape of a core's calls
  (`Core.shape`) those about whole iterations.  `exactly_once` collects them.
-/
import PacketSend.SendCore
import PacketSend.Lib.Places
import Mathlib.Logic.Function.Basic
import Mathlib.Data.List.Perm.Basic

namespace PacketSend

open Runs Places

/-! ## The system -/

/-- The state of the system, for cores `ι` and tx queues `κ`. -/
structure Sys (ι κ : Type) where
  pool : List Ptr
  core : ι → Core
  ring : κ → List Ptr
  mem : Ptr → TxFields

/-- A call of a core, or the completion of an mbuf of a tx ring. -/
inductive Event (ι κ : Type) where
  | core (c : ι) (call : Call)
  | complete (q : κ) (m : Ptr)
  deriving DecidableEq, Repr

variable {ι κ : Type} [DecidableEq ι] [DecidableEq κ]

/-- Every core is before its first call, the mbufs `pool` are free, the rings are empty. -/
def Sys.init (pool : List Ptr) (stack : ι → Vector Ptr burstSize) (mem : Ptr → TxFields) :
    Sys ι κ :=
  ⟨pool, fun c => Core.init (stack c), fun _ => [], mem⟩

/-- What a call does outside the core that makes it.  `rte_pktmbuf_alloc` resets the lengths of
    the mbuf and leaves its data alone. -/
def Sys.effect (queueId : ι → κ) (s : Sys ι κ) (c : ι) : Call → Option (Sys ι κ)
  | .alloc (some m) =>
    if m ∈ s.pool then
      some { s with
        pool := s.pool.erase m
        mem := Function.update s.mem m { s.mem m with pktLen := 0, dataLen := 0 } }
    else none
  | .alloc none => some s
  | .store m f => some { s with mem := Function.update s.mem m f }
  | .txBurst bs nbTx =>
    some { s with
      ring := Function.update s.ring (queueId c) (s.ring (queueId c) ++ bs.take nbTx) }
  | .free m => some { s with pool := m :: s.pool }
  | .count _ => some s

/-- One event. -/
def Sys.step (queueId : ι → κ) (s : Sys ι κ) : Event ι κ → Option (Sys ι κ)
  | .core c call =>
    match (s.core c).step call with
    | none => none
    | some k => (s.effect queueId c call).map fun s' =>
        { s' with core := Function.update s.core c k }
  | .complete q m =>
    if m ∈ s.ring q then
      some { s with
        ring := Function.update s.ring q ((s.ring q).erase m)
        pool := m :: s.pool }
    else none

/-- What an event can be: a call the core can make, with its effect on the pool, the rings and
    the memory, or a completion. -/
inductive SysStep (queueId : ι → κ) (s : Sys ι κ) : Event ι κ → Sys ι κ → Prop where
  | alloc {c : ι} {m : Ptr} {k : Core} (hk : (s.core c).step (.alloc (some m)) = some k)
      (hm : m ∈ s.pool) :
      SysStep queueId s (.core c (.alloc (some m))) { s with
        pool := s.pool.erase m
        mem := Function.update s.mem m { s.mem m with pktLen := 0, dataLen := 0 }
        core := Function.update s.core c k }
  | allocFail {c : ι} {k : Core} (hk : (s.core c).step (.alloc none) = some k) :
      SysStep queueId s (.core c (.alloc none)) { s with core := Function.update s.core c k }
  | store {c : ι} {m : Ptr} {f : TxFields} {k : Core} (hk : (s.core c).step (.store m f) = some k) :
      SysStep queueId s (.core c (.store m f)) { s with
        mem := Function.update s.mem m f
        core := Function.update s.core c k }
  | txBurst {c : ι} {bs : List Ptr} {nbTx : Nat} {k : Core}
      (hk : (s.core c).step (.txBurst bs nbTx) = some k) :
      SysStep queueId s (.core c (.txBurst bs nbTx)) { s with
        ring := Function.update s.ring (queueId c) (s.ring (queueId c) ++ bs.take nbTx)
        core := Function.update s.core c k }
  | free {c : ι} {m : Ptr} {k : Core} (hk : (s.core c).step (.free m) = some k) :
      SysStep queueId s (.core c (.free m)) { s with
        pool := m :: s.pool
        core := Function.update s.core c k }
  | count {c : ι} {nbTx : Nat} {k : Core} (hk : (s.core c).step (.count nbTx) = some k) :
      SysStep queueId s (.core c (.count nbTx)) { s with core := Function.update s.core c k }
  | complete {q : κ} {m : Ptr} (hm : m ∈ s.ring q) :
      SysStep queueId s (.complete q m) { s with
        ring := Function.update s.ring q ((s.ring q).erase m)
        pool := m :: s.pool }

/-- The inversion of `Sys.step`. -/
theorem Sys.step_inv {queueId : ι → κ} {s s' : Sys ι κ} {e : Event ι κ}
    (h : s.step queueId e = some s') : SysStep queueId s e s' := by
  cases e with
  | complete q m =>
    simp only [Sys.step] at h
    split at h
    · obtain rfl := Option.some.inj h
      exact SysStep.complete ‹_›
    · nomatch h
  | core c call =>
    simp only [Sys.step] at h
    split at h
    · nomatch h
    · rename_i k hk
      cases call with
      | alloc m =>
        cases m with
        | none =>
          obtain rfl := Option.some.inj h
          exact SysStep.allocFail hk
        | some m =>
          simp only [Sys.effect] at h
          split at h
          · obtain rfl := Option.some.inj h
            exact SysStep.alloc hk ‹_›
          · nomatch h
      | store m f =>
        obtain rfl := Option.some.inj h
        exact SysStep.store hk
      | txBurst bs nbTx =>
        obtain rfl := Option.some.inj h
        exact SysStep.txBurst hk
      | free m =>
        obtain rfl := Option.some.inj h
        exact SysStep.free hk
      | count nbTx =>
        obtain rfl := Option.some.inj h
        exact SysStep.count hk

/-- Every `SysStep` is a step. -/
theorem SysStep.step_eq {queueId : ι → κ} {s s' : Sys ι κ} {e : Event ι κ}
    (h : SysStep queueId s e s') : s.step queueId e = some s' := by
  cases h with
  | alloc hk hm => simp only [Sys.step, hk, Sys.effect, if_pos hm, Option.map_some]
  | complete hm => simp only [Sys.step, if_pos hm]
  | _ hk => simp only [Sys.step, hk, Sys.effect, Option.map_some]

/-! ## Who owns an mbuf -/

/-- The places an mbuf can be at. -/
inductive Place (ι κ : Type) where
  | pool
  | core (c : ι)
  | ring (q : κ)
  deriving DecidableEq, Repr

/-- The mbufs at a place; at a core, its live part. -/
def Sys.owned (s : Sys ι κ) : Place ι κ → List Ptr
  | .pool => s.pool
  | .core c => (s.core c).live
  | .ring q => s.ring q

/-- A core that obtains an mbuf has it at the end of its live part. -/
theorem Core.live_alloc {k k' : Core} {m : Ptr} (h : k.step (.alloc (some m)) = some k') :
    k'.live = k.live ++ [m] := (Core.step_live h).symm

/-- A core that offers a burst offers its whole live part. -/
theorem Core.live_txBurst {k k' : Core} {bs : List Ptr} {nbTx : Nat}
    (h : k.step (.txBurst bs nbTx) = some k') : k.live = bs ∧ k.live = bs.take nbTx ++ k'.live := by
  constructor
  · cases Core.step_inv h with
    | txBurst hpc hle => rw [Core.live, hpc]
  · have hlive := Core.step_live h
    have hacc : accepted [.txBurst bs nbTx] = bs.take nbTx := List.append_nil _
    rw [hacc] at hlive
    calc k.live = k.live ++ obtained [.txBurst bs nbTx] := (List.append_nil _).symm
      _ = bs.take nbTx ++ freed [.txBurst bs nbTx] ++ k'.live := hlive
      _ = bs.take nbTx ++ k'.live := by rw [show freed [.txBurst bs nbTx] = [] from rfl,
          List.append_nil]

/-- A core frees the first mbuf of its live part. -/
theorem Core.live_free {k k' : Core} {m : Ptr} (h : k.step (.free m) = some k') :
    k.live = m :: k'.live := (List.append_nil _).symm.trans (Core.step_live h)

/-- The other calls leave the live part as it is. -/
theorem Core.live_quiet {k k' : Core} {c : Call} (h : k.step c = some k')
    (ho : obtained [c] = []) (ha : accepted [c] = []) (hf : freed [c] = []) :
    k'.live = k.live := by
  have hlive := Core.step_live h
  rw [ho, ha, hf, List.append_nil, List.nil_append] at hlive
  exact hlive.symm

omit [DecidableEq κ] in
/-- A change of core `c` to a core with the same live part moves nothing. -/
theorem owned_update_core (s : Sys ι κ) (c : ι) {k : Core} (h : k.live = (s.core c).live) :
    ({ s with core := Function.update s.core c k } : Sys ι κ).owned = s.owned := by
  funext p
  cases p with
  | pool => rfl
  | ring q => rfl
  | core d =>
    show (Function.update s.core c k d).live = (s.core d).live
    by_cases hd : d = c
    · subst hd
      rw [Function.update_self, h]
    · rw [Function.update_of_ne hd]

/-- The live part of a core after one core has been changed. -/
theorem live_update (core : ι → Core) (c d : ι) (k : Core) (h : d ≠ c) :
    (Function.update core c k d).live = (core d).live := by
  rw [Function.update_of_ne h]

/-- **What an event moves**: nothing, or some mbufs from one place to another.  An allocation
    moves one mbuf from the pool to the core, a burst the first `nb_tx` from the core to its ring,
    a free one from the core to the pool and a completion one from a ring to the pool.  In each
    case the goals are the source, the destination and the places in between. -/
theorem Sys.step_moves {queueId : ι → κ} {s s' : Sys ι κ} {e : Event ι κ}
    (h : s.step queueId e = some s') :
    s'.owned = s.owned ∨ ∃ src dst xs, Transfer s.owned s'.owned src dst xs := by
  cases Sys.step_inv h with
  | @alloc c m k hk hm =>
    refine Or.inr ⟨.pool, .core c, [m], by simp, List.perm_cons_erase hm, ?_, ?_⟩
    · show ((Function.update s.core c k) c).live.Perm ([m] ++ (s.core c).live)
      rw [Function.update_self, Core.live_alloc hk]
      exact List.perm_append_comm
    · rintro (_ | d | q) hsrc hdst
      · exact absurd rfl hsrc
      · exact live_update s.core c d k (fun hd => hdst (congrArg Place.core hd))
      · rfl
  | allocFail hk => exact Or.inl (owned_update_core s _ (Core.live_quiet hk rfl rfl rfl))
  | store hk => exact Or.inl (owned_update_core s _ (Core.live_quiet hk rfl rfl rfl))
  | count hk => exact Or.inl (owned_update_core s _ (Core.live_quiet hk rfl rfl rfl))
  | @txBurst c bs nbTx k hk =>
    refine Or.inr ⟨.core c, .ring (queueId c), bs.take nbTx, by simp, ?_, ?_, ?_⟩
    · show (s.core c).live.Perm (bs.take nbTx ++ ((Function.update s.core c k) c).live)
      rw [Function.update_self, (Core.live_txBurst hk).2]
    · show (Function.update s.ring (queueId c) _ (queueId c)).Perm _
      rw [Function.update_self]
      exact List.perm_append_comm
    · rintro (_ | d | q) hsrc hdst
      · rfl
      · exact live_update s.core c d k (fun hd => hsrc (congrArg Place.core hd))
      · exact Function.update_of_ne (fun hq => hdst (congrArg Place.ring hq)) _ _
  | @free c m k hk =>
    refine Or.inr ⟨.core c, .pool, [m], by simp, ?_, List.Perm.refl _, ?_⟩
    · show (s.core c).live.Perm ([m] ++ ((Function.update s.core c k) c).live)
      rw [Function.update_self, Core.live_free hk]
      exact List.Perm.refl _
    · rintro (_ | d | q) hsrc hdst
      · exact absurd rfl hdst
      · exact live_update s.core c d k (fun hd => hsrc (congrArg Place.core hd))
      · rfl
  | @complete q m hm =>
    refine Or.inr ⟨.ring q, .pool, [m], by simp, ?_, List.Perm.refl _, ?_⟩
    · show (s.ring q).Perm ([m] ++ Function.update s.ring q _ q)
      rw [Function.update_self]
      exact List.perm_cons_erase hm
    · rintro (_ | d | q') hsrc hdst
      · exact absurd rfl hdst
      · rfl
      · exact Function.update_of_ne (fun hq => hsrc (congrArg Place.ring hq)) _ _

/-- **Ownership.**  In every reachable state the mbufs of the pool the system started with are
    partitioned among the places. -/
theorem Sys.partition {queueId : ι → κ} {U : List Ptr} (hU : U.Nodup)
    {stack : ι → Vector Ptr burstSize} {mem : Ptr → TxFields} {es : List (Event ι κ)}
    {s : Sys ι κ} (h : Run (Sys.step queueId) (Sys.init U stack mem) es s) :
    Partition U s.owned := by
  refine h.reachable (P := fun s => Partition U s.owned) ?_ ?_
  -- at the start everything is in the pool: no core has a live part, the rings are empty
  · have hcore : ∀ c : ι, (Sys.init U stack mem : Sys ι κ).owned (.core c) = [] := fun c =>
      Core.live_init (stack c)
    constructor
    · rintro (_ | c | q)
      · exact hU
      · rw [hcore]
        exact List.nodup_nil
      · exact List.nodup_nil
    · rintro (_ | c | q) p x hx hp
      · rcases p with _ | d | q'
        · rfl
        · rw [hcore] at hp
          nomatch hp
        · nomatch hp
      · rw [hcore] at hx
        nomatch hx
      · nomatch hx
    · intro x
      refine ⟨fun hx => ⟨.pool, hx⟩, ?_⟩
      rintro ⟨_ | c | q, hx⟩
      · exact hx
      · rw [hcore] at hx
        nomatch hx
      · nomatch hx
  · intro s e s' hpart hstep
    rcases Sys.step_moves hstep with hsame | ⟨src, dst, xs, ht⟩
    · rw [hsame]
      exact hpart
    · exact hpart.transfer ht

/-! ## One core of the system -/

/-- The call of core `c` that an event is, if it is one. -/
def callOf (c : ι) : Event ι κ → Option Call
  | .core d call => if d = c then some call else none
  | .complete _ _ => none

/-- The calls of core `c` in a run. -/
def calls (c : ι) (es : List (Event ι κ)) : List Call := es.filterMap (callOf c)

omit [DecidableEq κ] in
/-- `callOf c` finds the calls of core `c` and nothing else. -/
theorem callOf_eq_some {c : ι} {e : Event ι κ} {call : Call} :
    callOf c e = some call ↔ e = .core c call := by
  cases e with
  | complete q m => exact ⟨fun h => (nomatch h), fun h => (nomatch h)⟩
  | core d call' =>
    show (if d = c then some call' else none) = some call ↔ _
    by_cases hd : d = c
    · rw [if_pos hd, hd]
      exact ⟨fun h => congrArg (Event.core c) (Option.some.inj h),
        fun h => congrArg some (Event.core.inj h).2⟩
    · rw [if_neg hd]
      exact ⟨fun h => (nomatch h), fun h => absurd (Event.core.inj h).1 hd⟩

/-- An event is a step of core `c`, or does not touch it. -/
theorem Sys.core_step {queueId : ι → κ} {s s' : Sys ι κ} {e : Event ι κ}
    (h : s.step queueId e = some s') (c : ι) :
    match callOf c e with
    | none => s'.core c = s.core c
    | some call => (s.core c).step call = some (s'.core c) := by
  cases e with
  | complete q m =>
    simp only [Sys.step] at h
    split at h
    · obtain rfl := Option.some.inj h
      rfl
    · nomatch h
  | core d call =>
    simp only [Sys.step] at h
    split at h
    · nomatch h
    · rename_i k hk
      obtain ⟨s'', -, rfl⟩ := Option.map_eq_some_iff.mp h
      unfold callOf
      by_cases hd : d = c
      · subst hd
        simp only [if_true, Function.update_self]
        exact hk
      · simp only [if_neg hd]
        exact Function.update_of_ne (Ne.symm hd) _ _

/-- The two cases of an event, seen from core `c`. -/
theorem Sys.core_cases {queueId : ι → κ} {s s' : Sys ι κ} {e : Event ι κ}
    (h : s.step queueId e = some s') (c : ι) : s'.core c = s.core c ∨
      ∃ call, e = .core c call ∧ (s.core c).step call = some (s'.core c) := by
  have hcore := Sys.core_step h c
  cases hcall : callOf c e with
  | none =>
    rw [hcall] at hcore
    exact Or.inl hcore
  | some call =>
    rw [hcall] at hcore
    exact Or.inr ⟨call, callOf_eq_some.mp hcall, hcore⟩

/-- A call of core `c` is a step of core `c`. -/
theorem Sys.core_call {queueId : ι → κ} {s s' : Sys ι κ} {c : ι} {call : Call}
    (h : s.step queueId (.core c call) = some s') : (s.core c).step call = some (s'.core c) := by
  have hcore := Sys.core_step h c
  rw [callOf_eq_some.mpr rfl] at hcore
  exact hcore

/-- In a run of the system every core makes a run of its own. -/
theorem Sys.core_run {queueId : ι → κ} {U : List Ptr} {stack : ι → Vector Ptr burstSize}
    {mem : Ptr → TxFields} {es : List (Event ι κ)} {s : Sys ι κ}
    (h : Run (Sys.step queueId) (Sys.init U stack mem) es s) (c : ι) :
    Run Core.step (Core.init (stack c)) (calls c es) (s.core c) := by
  refine h.project (f := fun s => s.core c) (ρ := callOf c) (fun t e u hs => ?_)
  have hcore := Sys.core_step hs c
  cases hcall : callOf c e with
  | none =>
    rw [hcall] at hcore
    exact hcore
  | some call =>
    rw [hcall] at hcore
    exact hcore

/-! ## What is written in the mbufs -/

/-- The entries of `bufs` the core has written in the iteration in progress and not yet
    offered. -/
def Core.filled (k : Core) : List Ptr :=
  match k.pc with
  | .alloc i => k.bufs.toList.take i
  | .store i => k.bufs.toList.take i
  | .txBurst => k.bufs.toList
  | _ => []

/-- A core that has come to index `i` of the allocation loop has filled the entries below `i`;
    past the last index that is the whole burst. -/
theorem Core.filled_of_allocFrom {k : Core} {i : Nat} (hpc : k.pc = allocFrom i)
    (h : i ≤ burstSize) : k.filled = k.bufs.toList.take i := by
  rw [Core.filled, hpc, allocFrom]
  by_cases hi : i < burstSize
  · rw [dif_pos hi]
  · rw [dif_neg hi, List.take_of_length_le (by rw [toList_length]; omega)]

/-- Once the burst has been offered, nothing is filled and not offered. -/
theorem Core.filled_of_freeFrom {k : Core} {nbTx i : Nat} (hpc : k.pc = freeFrom nbTx i) :
    k.filled = [] := by
  rw [Core.filled, hpc, freeFrom]
  by_cases hi : i < burstSize
  · rw [dif_pos hi]
  · rw [dif_neg hi]

/-- What is filled is live, so the other places do not have it. -/
theorem Core.filled_sub_live {k : Core} {x : Ptr} (h : x ∈ k.filled) : x ∈ k.live := by
  unfold Core.filled at h
  unfold Core.live
  cases hpc : k.pc with
  | alloc i =>
    rw [hpc] at h
    exact h
  | store i =>
    rw [hpc] at h
    -- the entry obtained last is live and not written yet
    exact (List.take_sublist_take_left (Nat.le_succ i.val)).mem h
  | txBurst =>
    rw [hpc] at h
    exact h
  | _ =>
    rw [hpc] at h
    nomatch h

/-- An entry that is filled after a call was filled before it, or the call has just written
    it. -/
theorem Core.filled_step {k k' : Core} {c : Call} (h : k.step c = some k') {x : Ptr}
    (hx : x ∈ k'.filled) : x ∈ k.filled ∨ c = .store x sentFields := by
  cases Core.step_inv h with
  | @alloc i m hpc =>
    have hset : (k.bufs.set i m).toList.take i = k.bufs.toList.take i := by
      rw [Vector.toList_set, List.take_set_of_le (Nat.le_refl _)]
    have hx' : x ∈ (k.bufs.set i m).toList.take i := hx
    rw [hset] at hx'
    rw [Core.filled, hpc]
    exact Or.inl hx'
  | allocFail hpc => exact absurd hx List.not_mem_nil
  | @store i hpc =>
    have hi : i.val < k.bufs.toList.length := by rw [toList_length]; exact i.isLt
    rw [Core.filled_of_allocFrom rfl i.isLt, List.take_add_one, List.getElem?_eq_getElem hi] at hx
    rcases List.mem_append.mp hx with hold | hnew
    · rw [Core.filled, hpc]
      exact Or.inl hold
    · rw [List.mem_singleton.mp hnew]
      exact Or.inr rfl
  | txBurst hpc hle =>
    rw [Core.filled_of_freeFrom rfl] at hx
    exact absurd hx List.not_mem_nil
  | free hpc =>
    rw [Core.filled_of_freeFrom rfl] at hx
    exact absurd hx List.not_mem_nil
  | count hpc =>
    rw [Core.filled_of_allocFrom rfl (Nat.zero_le _)] at hx
    exact absurd hx List.not_mem_nil

/-- A store leaves its fields in the mbuf. -/
theorem Sys.mem_store {queueId : ι → κ} {s s' : Sys ι κ} {c : ι} {x : Ptr} {f : TxFields}
    (h : s.step queueId (.core c (.store x f)) = some s') : s'.mem x = f := by
  cases Sys.step_inv h with
  | store hk => exact Function.update_self _ _ _

/-- An mbuf that is not free and holds the fields of the sender keeps them: the only calls that
    write are an allocation, which takes a free mbuf, and a store of the same fields. -/
theorem Sys.mem_kept {queueId : ι → κ} {s s' : Sys ι κ} {e : Event ι κ}
    (h : s.step queueId e = some s') {x : Ptr} (hx : x ∉ s.pool) (hsent : s.mem x = sentFields) :
    s'.mem x = sentFields := by
  cases Sys.step_inv h with
  | @alloc c m k hk hm =>
    have hne : x ≠ m := fun hxm => hx (hxm ▸ hm)
    exact (Function.update_of_ne hne _ _).trans hsent
  | @store c m f k hk =>
    show Function.update s.mem m f x = sentFields
    by_cases hxm : x = m
    · rw [hxm, Function.update_self]
      cases Core.step_inv hk with
      | store hpc => rfl
    · rw [Function.update_of_ne hxm, hsent]
  | _ => exact hsent

/-- **Nothing unwritten is offered**: in every reachable state the filled entries of every core
    hold the fields of the sender.  The induction is on the run; what carries it is the partition,
    since an mbuf another core allocates comes out of the pool, where no filled entry is. -/
theorem Sys.filled_written {queueId : ι → κ} {U : List Ptr} (hU : U.Nodup)
    {stack : ι → Vector Ptr burstSize} {mem : Ptr → TxFields} {es : List (Event ι κ)}
    {s : Sys ι κ} (h : Run (Sys.step queueId) (Sys.init U stack mem) es s) :
    ∀ (c : ι) (x : Ptr), x ∈ (s.core c).filled → s.mem x = sentFields := by
  induction h with
  | nil =>
    intro c x hx
    have hempty : ((Sys.init U stack mem : Sys ι κ).core c).filled = [] :=
      Core.filled_of_allocFrom rfl (Nat.zero_le _)
    rw [hempty] at hx
    nomatch hx
  | @snoc es t u e hrun hs ih =>
    intro c x hx
    have hpart := Sys.partition hU hrun
    -- an entry filled before the event keeps its contents
    have hold : x ∈ (t.core c).filled → u.mem x = sentFields := by
      intro hx'
      refine Sys.mem_kept hs (fun hpool => ?_) (ih c x hx')
      have hlive : x ∈ t.owned (.core c) := Core.filled_sub_live hx'
      nomatch hpart.apart (p := .pool) hpool hlive
    rcases Sys.core_cases hs c with hsame | ⟨call, rfl, hcore⟩
    · rw [hsame] at hx
      exact hold hx
    · rcases Core.filled_step hcore hx with hx' | rfl
      · exact hold hx'
      · exact Sys.mem_store hs

/-! ## Whole iterations -/

/-
  What an iteration allocates, offers and frees, read off the lists of its calls: filling a burst
  accepts and frees nothing, the burst accepts its first `nb_tx` entries, the frees are the rest.
-/

theorem accepted_append (cs ds : List Call) : accepted (cs ++ ds) = accepted cs ++ accepted ds :=
  List.flatMap_append

theorem freed_append (cs ds : List Call) : freed (cs ++ ds) = freed cs ++ freed ds :=
  List.flatMap_append

@[simp] theorem accepted_fillCalls : ∀ ms : List Ptr, accepted (fillCalls ms) = []
  | [] => rfl
  | _ :: ms => accepted_fillCalls ms

@[simp] theorem freed_fillCalls : ∀ ms : List Ptr, freed (fillCalls ms) = []
  | [] => rfl
  | _ :: ms => freed_fillCalls ms

@[simp] theorem accepted_map_free : ∀ ms : List Ptr, accepted (ms.map Call.free) = []
  | [] => rfl
  | _ :: ms => accepted_map_free ms

@[simp] theorem freed_map_free : ∀ ms : List Ptr, freed (ms.map Call.free) = ms
  | [] => rfl
  | m :: ms => congrArg (m :: ·) (freed_map_free ms)

theorem accepted_offerCalls (bs : List Ptr) (nbTx : Nat) :
    accepted (offerCalls bs nbTx) = bs.take nbTx := by
  rw [offerCalls, accepted_append, accepted_fillCalls]
  exact List.append_nil _

theorem freed_offerCalls (bs : List Ptr) (nbTx : Nat) : freed (offerCalls bs nbTx) = [] := by
  rw [offerCalls, freed_append, freed_fillCalls]
  rfl

/-- What an iteration frees: the entries from `nb_tx` on. -/
theorem Burst.freed_calls (b : Burst) : freed b.calls = b.bufs.drop b.nbTx := by
  rw [Burst.calls, freed_append, freed_append, freed_offerCalls, freed_map_free]
  exact List.append_nil _

/-- In an iteration over distinct mbufs, an accepted entry is not freed and every other entry is
    freed once. -/
theorem Burst.count_freed (b : Burst) (hnd : b.bufs.Nodup) {j : Nat} {x : Ptr}
    (hx : b.bufs[j]? = some x) : (freed b.calls).count x = if j < b.nbTx then 0 else 1 := by
  rw [Burst.freed_calls]
  have hsplit : (b.bufs.take b.nbTx ++ b.bufs.drop b.nbTx).Nodup := by
    rw [List.take_append_drop]
    exact hnd
  obtain ⟨-, hdrop, hapart⟩ := List.nodup_append.mp hsplit
  by_cases hj : j < b.nbTx
  · rw [if_pos hj]
    have hmem : x ∈ b.bufs.take b.nbTx := by
      rw [← List.getElem?_take_of_lt hj] at hx
      exact List.mem_of_getElem? hx
    exact List.count_eq_zero.mpr (fun h => hapart x hmem x h rfl)
  · rw [if_neg hj]
    have hmem : x ∈ b.bufs.drop b.nbTx := by
      have hx' : (b.bufs.drop b.nbTx)[j - b.nbTx]? = some x := by
        rw [List.getElem?_drop, Nat.add_sub_cancel' (Nat.le_of_not_lt hj)]
        exact hx
      exact List.mem_of_getElem? hx'
    exact List.count_eq_one_of_mem hdrop hmem

/-- In the iteration in progress, what was accepted and what has been freed are different
    entries. -/
theorem Core.pending_sublist (k : Core) :
    accepted k.pending ++ freed k.pending = [] ∨
    ((accepted k.pending ++ freed k.pending).Sublist k.bufs.toList ∧
      ∃ nbTx, Call.txBurst k.bufs.toList nbTx ∈ k.pending) := by
  have hoffer : ∀ nbTx, Call.txBurst k.bufs.toList nbTx ∈ offerCalls k.bufs.toList nbTx :=
    fun nbTx => List.mem_append_right _ List.mem_cons_self
  unfold Core.pending
  cases k.pc with
  | alloc i => exact Or.inl (by simp)
  | store i =>
    refine Or.inl ?_
    simp only [accepted_append, freed_append, accepted_fillCalls, freed_fillCalls]
    rfl
  | txBurst => exact Or.inl (by simp)
  | free nbTx i =>
    refine Or.inr ⟨?_, nbTx, List.mem_append_left _ (hoffer nbTx)⟩
    simp only [accepted_append, freed_append, accepted_offerCalls, freed_offerCalls,
      accepted_map_free, freed_map_free, List.append_nil, List.nil_append]
    calc (k.bufs.toList.take nbTx ++ (k.bufs.toList.drop nbTx).take (i - nbTx)).Sublist
          (k.bufs.toList.take nbTx ++ k.bufs.toList.drop nbTx) :=
        (List.take_sublist _ _).append_left _
      _ = k.bufs.toList := List.take_append_drop _ _
  | count nbTx =>
    refine Or.inr ⟨?_, nbTx, List.mem_append_left _ (hoffer nbTx)⟩
    simp only [accepted_append, freed_append, accepted_offerCalls, freed_offerCalls,
      accepted_map_free, freed_map_free, List.append_nil, List.nil_append,
      List.take_append_drop]
    exact List.Sublist.refl _
  | returned i =>
    refine Or.inl ?_
    simp only [accepted_append, freed_append, accepted_fillCalls, freed_fillCalls]
    rfl

/-- Every burst ever offered consisted of different mbufs. -/
theorem Sys.offered_nodup {queueId : ι → κ} {U : List Ptr} (hU : U.Nodup)
    {stack : ι → Vector Ptr burstSize} {mem : Ptr → TxFields} {es : List (Event ι κ)}
    {s : Sys ι κ} (h : Run (Sys.step queueId) (Sys.init U stack mem) es s) :
    ∀ (c : ι) (bs : List Ptr) (nbTx : Nat), Call.txBurst bs nbTx ∈ calls c es → bs.Nodup := by
  induction h with
  | nil =>
    intro c bs nbTx hmem
    nomatch hmem
  | @snoc es t u e hrun hs ih =>
    intro c bs nbTx hmem
    obtain ⟨e', he', hcall⟩ := List.mem_filterMap.mp hmem
    rcases List.mem_append.mp he' with hold | hnew
    · exact ih c bs nbTx (List.mem_filterMap.mpr ⟨e', hold, hcall⟩)
    · rw [List.mem_singleton.mp hnew] at hcall
      obtain rfl := callOf_eq_some.mp hcall
      rw [← (Core.live_txBurst (Sys.core_call hs)).1]
      exact (Sys.partition hU hrun).nodup (.core c)

/-! ## Exactly-once ownership -/

/-- What is true of the mbufs `U` after the events `es` have led to `s`. -/
structure ExactlyOnce (queueId : ι → κ) (U : List Ptr) (es : List (Event ι κ)) (s : Sys ι κ) :
    Prop where
  /-- Every mbuf is at one place, once, and at no other. -/
  owner : ∀ m ∈ U, ∃ p, (s.owned p).count m = 1 ∧ ∀ q, q ≠ p → m ∉ s.owned q
  /-- There is nothing else anywhere. -/
  only : ∀ p, ∀ m ∈ s.owned p, m ∈ U
  /-- In every completed iteration of a core, the accepted entries were not freed and the others
      were freed once. -/
  iterations : ∀ c, ∃ done : List Burst,
    calls c es = done.flatMap Burst.calls ++ (s.core c).pending ∧
    ∀ b ∈ done, ∀ j x, b.bufs[j]? = some x →
      (freed b.calls).count x = if j < b.nbTx then 0 else 1
  /-- In the iteration in progress nothing was freed twice, and nothing that was accepted. -/
  unfinished : ∀ c, (accepted (s.core c).pending ++ freed (s.core c).pending).Nodup
  /-- A core frees only what it owns. -/
  free : ∀ c m s', s.step queueId (.core c (.free m)) = some s' →
    m ∈ (s.core c).live ∧ ∀ q, q ≠ .core c → m ∉ s.owned q
  /-- A core offers only what it owns, no mbuf twice, and every mbuf has been obtained and written
      in this iteration and still holds what was written. -/
  offer : ∀ c bs nbTx s', s.step queueId (.core c (.txBurst bs nbTx)) = some s' →
    (s.core c).pending = fillCalls bs ∧
    ∀ m ∈ bs, s.mem m = sentFields ∧ bs.count m = 1 ∧ ∀ q, q ≠ .core c → m ∉ s.owned q

/-- The calls of a burst that is offered next are those that filled it. -/
theorem Core.pending_txBurst {k k' : Core} {bs : List Ptr} {nbTx : Nat}
    (h : k.step (.txBurst bs nbTx) = some k') : k.pending = fillCalls bs ∧ k.filled = bs := by
  cases Core.step_inv h with
  | txBurst hpc hle => exact ⟨by rw [Core.pending, hpc], by rw [Core.filled, hpc]⟩

/-- **Exactly-once ownership of mbufs.**  For any cores, tx queues, initial pool and any
    interleaving of the calls of the cores with the completions of the NIC. -/
theorem exactly_once (queueId : ι → κ) {U : List Ptr} (hU : U.Nodup)
    (stack : ι → Vector Ptr burstSize) (mem : Ptr → TxFields) {es : List (Event ι κ)}
    {s : Sys ι κ} (h : Run (Sys.step queueId) (Sys.init U stack mem) es s) :
    ExactlyOnce queueId U es s := by
  have hpart := Sys.partition hU h
  -- what a core has, nobody else has
  have halone : ∀ {c m}, m ∈ (s.core c).live → ∀ q, q ≠ .core c → m ∉ s.owned q :=
    fun hm q hq hmq => hq (hpart.apart hmq hm)
  have hoffered := Sys.offered_nodup hU h
  constructor
  · intro m hm
    exact hpart.exactly_one hm
  · intro p m hm
    exact (hpart.cover m).mpr ⟨p, hm⟩
  -- a completed iteration offered a burst of different mbufs, so its frees are counted by index
  · intro c
    obtain ⟨done, hdone⟩ := Core.shape (Sys.core_run h c)
    refine ⟨done, hdone, fun b hb j x hx => b.count_freed ?_ hx⟩
    apply hoffered c b.bufs b.nbTx
    rw [hdone]
    refine List.mem_append_left _ (List.mem_flatMap.mpr ⟨b, hb, ?_⟩)
    exact List.mem_append_left _ (List.mem_append_left _
      (List.mem_append_right _ List.mem_cons_self))
  -- the iteration in progress has offered nothing yet, or one such burst
  · intro c
    rcases Core.pending_sublist (s.core c) with hnone | ⟨hsub, nbTx, hmem⟩
    · rw [hnone]
      exact List.nodup_nil
    · obtain ⟨done, hdone⟩ := Core.shape (Sys.core_run h c)
      refine hsub.nodup (hoffered c _ nbTx ?_)
      rw [hdone]
      exact List.mem_append_right _ hmem
  -- a free and a burst are of live mbufs, and those nobody else has
  · intro c m s' hs
    have hlive : m ∈ (s.core c).live := by
      rw [Core.live_free (Sys.core_call hs)]
      exact List.mem_cons_self
    exact ⟨hlive, halone hlive⟩
  · intro c bs nbTx s' hs
    obtain ⟨hpending, hfilled⟩ := Core.pending_txBurst (Sys.core_call hs)
    have hlive := (Core.live_txBurst (Sys.core_call hs)).1
    have hnd : bs.Nodup := hlive ▸ hpart.nodup (.core c)
    refine ⟨hpending, fun m hm => ⟨?_, List.count_eq_one_of_mem hnd hm, ?_⟩⟩
    · exact Sys.filled_written hU h c m (by rw [hfilled]; exact hm)
    · exact halone (by rw [hlive]; exact hm)

/-- Two cores on one pool: while the second has one mbuf, the first sends a burst of which the NIC
    accepts 62 mbufs, frees the other two, the NIC completes one, and the second obtains it. -/
def twoCores : List (Event Bool Bool) :=
  .core true (.alloc (some 64)) :: .core true (.store 64 sentFields) ::
    (partialBurst.calls.map (Event.core false) ++ [.complete false 5, .core true (.alloc (some 5))])

/-- Each mbuf is at one place after it. -/
theorem exactly_once_two :
    ∃ s : Sys Bool Bool, ExactlyOnce id (List.range 65) twoCores s :=
  ⟨_, exactly_once id List.nodup_range (fun _ => Vector.replicate burstSize 0)
    (fun _ => sentFields) (run_of_exec_isSome (by decide +kernel))⟩

end PacketSend
