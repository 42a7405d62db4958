/-
  The lcores `packet_send` runs on, and the tx queue each of them sends on.

  The user picks a set of lcore ids with `-l`; EAL reports its size (`rte_lcore_count`) and tells
  every core its own id (`rte_lcore_id`).  `main` builds

      for (int i = 0; i < num_tx_queues; ++i)
          config.queues.push_back(i % num_tx_queues);

  a vector indexed by the POSITION of a core, `0 .. n - 1`, and `packet_send_process` reads it at
  the ID of the core:

      uint32_t core_id = rte_lcore_id();
      queue_id = config->queues[core_id];

  and it uses the id again as the index into `total_num` and `burst_num`, which have `MAX_CORES`
  elements whatever the number of cores.  Ids and positions agree only for the lcores
  `0 .. n - 1`, and the counters hold only 40 of them (`assignmentOk_iff`).
-/
import PacketSend.PacketUtils
import Mathlib.Data.List.Perm.Subperm
import Mathlib.Data.List.Nodup

namespace PacketSend

/-! ## The lcores -/

/-- `RTE_MAX_LCORE`. -/
def rteMaxLcore : Nat := 128

/-- `MAX_CORES`. -/
def maxCores : Nat := 40

/-- The enabled lcores, in the order in which `RTE_LCORE_FOREACH` visits them, with the main
    lcore among them. -/
structure Lcores where
  ids : List Nat
  sorted : ids.Pairwise (· < ·)
  bound : ∀ c ∈ ids, c < rteMaxLcore
  main : Nat
  main_mem : main ∈ ids

namespace Lcores

/-- `rte_lcore_count()`. -/
def count (L : Lcores) : Nat := L.ids.length

theorem nodup (L : Lcores) : L.ids.Nodup := L.sorted.imp Nat.ne_of_lt

/-- There are at most `RTE_MAX_LCORE` lcores. -/
theorem count_le (L : Lcores) : L.count ≤ rteMaxLcore := by
  have hsub : L.ids.Subperm (List.range rteMaxLcore) :=
    L.nodup.subperm (fun c hc => List.mem_range.mpr (L.bound c hc))
  calc L.ids.length ≤ (List.range rteMaxLcore).length := hsub.length_le
    _ = rteMaxLcore := List.length_range

end Lcores

/-! ## What `main` builds -/

/-- `struct send_config`. -/
structure SendConfig where
  portId : Nat
  queues : List Nat
  cores : List Nat
  deriving DecidableEq, Repr

/-- The two `push_back` loops of `main`, for `num_cores` cores and `num_tx_queues` queues. -/
def buildConfig (portId numCores numTxQueues : Nat) : SendConfig where
  portId := portId
  queues := (List.range numTxQueues).map (fun i => i % numTxQueues)
  cores := List.range numCores

/-- The configuration the cores are launched with: `num_cores = num_tx_queues =
    rte_lcore_count()`, on port 0. -/
def sendConfig (L : Lcores) : SendConfig := buildConfig 0 L.count L.count

/-- The tx queues `init_port` is asked to set up: it takes their number as a `uint16_t`. -/
def requestedTxQueues (L : Lcores) : List Nat := List.range (uint16 L.count)

/-! ## What a core uses -/

/-- `config->queues[core_id]`; `none` if the vector has no such element. -/
def queueOf (config : SendConfig) (coreId : Nat) : Option Nat := config.queues[coreId]?

/-- The globals `total_num[MAX_CORES]` and `burst_num[MAX_CORES]`. -/
structure Counters where
  totalNum : Vector (BitVec 32) maxCores
  burstNum : Vector (BitVec 32) maxCores

/-- `total_num[core_id] += nb_tx; burst_num[core_id]++`; `none` if the arrays have no such
    element. -/
def countBurst (k : Counters) (coreId nbTx : Nat) : Option Counters :=
  if h : coreId < maxCores then
    some ⟨k.totalNum.set coreId (k.totalNum.get ⟨coreId, h⟩ + BitVec.ofNat 32 nbTx),
      k.burstNum.set coreId (k.burstNum.get ⟨coreId, h⟩ + 1)⟩
  else none

theorem countBurst_isSome_iff (k : Counters) (coreId nbTx : Nat) :
    (countBurst k coreId nbTx).isSome = true ↔ coreId < maxCores := by
  unfold countBurst
  by_cases h : coreId < maxCores
  · rw [dif_pos h]
    exact ⟨fun _ => h, fun _ => rfl⟩
  · rw [dif_neg h]
    exact ⟨fun hs => (nomatch hs), fun hc => absurd hc h⟩

/-- The vector holds its own positions. -/
theorem queueOf_sendConfig (L : Lcores) (c : Nat) :
    queueOf (sendConfig L) c = if c < L.count then some c else none := by
  show ((List.range L.count).map (fun i => i % L.count))[c]? = _
  rw [List.getElem?_map]
  by_cases h : c < L.count
  · rw [if_pos h, List.getElem?_range h]
    exact congrArg some (Nat.mod_eq_of_lt h)
  · rw [if_neg h, List.getElem?_eq_none (by rw [List.length_range]; omega)]
    rfl

/-! ## One core, one queue -/

/-- Every lcore finds its queue and its counters inside their containers, the queue is one that
    `init_port` was asked for, and no two lcores get the same. -/
structure AssignmentOk (L : Lcores) : Prop where
  queue : ∀ c ∈ L.ids, (queueOf (sendConfig L) c).isSome = true
  counters : ∀ c ∈ L.ids, ∀ k nbTx, (countBurst k c nbTx).isSome = true
  requested : ∀ c ∈ L.ids, ∀ q, queueOf (sendConfig L) c = some q → q ∈ requestedTxQueues L
  exclusive : ∀ c ∈ L.ids, ∀ c' ∈ L.ids, ∀ q, queueOf (sendConfig L) c = some q →
    queueOf (sendConfig L) c' = some q → c = c'

/-- An increasing list of numbers below its own length is `0, 1, 2, …`. -/
theorem eq_range_of_lt_length {l : List Nat} (hs : l.Pairwise (· < ·))
    (hb : ∀ x ∈ l, x < l.length) : l = List.range l.length := by
  have hnd : l.Nodup := hs.imp Nat.ne_of_lt
  have hsub : l.Subperm (List.range l.length) :=
    hnd.subperm (fun x hx => List.mem_range.mpr (hb x hx))
  have hperm : l.Perm (List.range l.length) :=
    hsub.perm_of_length_le (Nat.le_of_eq List.length_range)
  exact hperm.eq_of_pairwise (fun a b _ _ hab hba => absurd hab (Nat.lt_asymm hba)) hs
    List.pairwise_lt_range

/-- **When every lcore has a queue of its own**: exactly when the lcores are `0 .. n - 1` and at
    most `MAX_CORES`. -/
theorem assignmentOk_iff (L : Lcores) :
    AssignmentOk L ↔ L.ids = List.range L.ids.length ∧ L.ids.length ≤ maxCores := by
  constructor
  · intro h
    have hlt : ∀ c ∈ L.ids, c < L.count := by
      intro c hc
      have hsome := h.queue c hc
      rw [queueOf_sendConfig] at hsome
      by_contra hge
      rw [if_neg hge] at hsome
      nomatch hsome
    have hrange := eq_range_of_lt_length L.sorted hlt
    refine ⟨hrange, ?_⟩
    -- the largest id is `n - 1`
    have hpos : 0 < L.ids.length := List.length_pos_of_mem L.main_mem
    have hlast : L.ids.length - 1 ∈ L.ids := by
      rw [hrange, List.length_range]
      exact List.mem_range.mpr (by omega)
    have hmax := (countBurst_isSome_iff ⟨Vector.replicate maxCores 0, Vector.replicate maxCores 0⟩
      _ 0).mp (h.counters _ hlast _ 0)
    omega
  · rintro ⟨hrange, hle⟩
    have hlt : ∀ c ∈ L.ids, c < L.count := by
      intro c hc
      rw [hrange] at hc
      exact List.mem_range.mp hc
    have hqueue : ∀ c ∈ L.ids, queueOf (sendConfig L) c = some c := by
      intro c hc
      rw [queueOf_sendConfig, if_pos (hlt c hc)]
    have hsmall : uint16 L.count = L.count :=
      uint16_of_lt (Nat.lt_of_le_of_lt L.count_le (by decide))
    constructor
    · intro c hc
      rw [hqueue c hc]
      rfl
    · intro c hc k nbTx
      have hlt' : c < L.ids.length := hlt c hc
      exact (countBurst_isSome_iff k c nbTx).mpr (by omega)
    · intro c hc q hq
      obtain rfl := Option.some.inj ((hqueue c hc).symm.trans hq)
      rw [requestedTxQueues, hsmall]
      exact List.mem_range.mpr (hlt c hc)
    · intro c hc c' hc' q hq hq'
      exact Option.some.inj ((hqueue c hc).symm.trans (hq.trans (hq'.symm.trans (hqueue c' hc'))))

/-- The single lcore 1 (`-l 1`). -/
def lcoreOne : Lcores := ⟨[1], by decide, by decide, 1, by decide⟩

/-- Started on lcore 1 alone, the program reads `queues[1]` of a vector with one element. -/
theorem assignmentOk_not_one : ¬ AssignmentOk lcoreOne := by
  intro h
  nomatch h.queue 1 List.mem_cons_self

end PacketSend
