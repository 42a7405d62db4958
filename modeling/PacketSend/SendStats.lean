/-
  The statistics of a sending core.

      uint16_t nb_tx = rte_eth_tx_burst(config->port_id, queue_id, bufs, BURST_SIZE);
      ...
      total_num[core_id] += nb_tx;
      burst_num[core_id]++;

  `total_num` and `burst_num` are to be the numbers of packets the NIC accepted on the core and of
  bursts it was offered.  They are arrays of `uint32_t`, while the receivers keep the same figures
  in `uint64_t`, and `total_num` grows by up to 64 in each iteration: after 2^26 full bursts it is
  back at 0.

  `Core.tally` is the invariant of a run: the counters are the figures modulo 2^32, up to the burst
  that has been issued and not yet counted.  So the counters are exact, and never go down, exactly
  as long as both figures stay below 2^32 (`statsLaw_iff`).
-/
import PacketSend.SendSystem
import PacketSend.Lcores
import Mathlib.Algebra.GroupWithZero.Nat
import Mathlib.Algebra.Order.BigOperators.Group.List

namespace PacketSend

open Runs

/-! ## The figures -/

/-- The answers to the bursts, in order. -/
def issued (cs : List Call) : List Nat :=
  cs.flatMap fun c => match c with
    | .txBurst _ nbTx => [nbTx]
    | _ => []

/-- The answers that have been counted, in order. -/
def counted (cs : List Call) : List Nat :=
  cs.flatMap fun c => match c with
    | .count nbTx => [nbTx]
    | _ => []

/-- The answer to the burst that has been issued and not yet counted, if there is one. -/
def Core.uncounted (k : Core) : List Nat :=
  match k.pc with
  | .free nbTx _ => [nbTx]
  | .count nbTx => [nbTx]
  | _ => []

/-- Every burst issued has been counted: the core is anywhere but between a burst and the two
    statements that count it. -/
def Core.Settled (k : Core) : Prop := k.uncounted = []

theorem issued_append (cs ds : List Call) : issued (cs ++ ds) = issued cs ++ issued ds :=
  List.flatMap_append

theorem counted_append (cs ds : List Call) : counted (cs ++ ds) = counted cs ++ counted ds :=
  List.flatMap_append

/-! ## The arrays -/

/-- `uint32_t total_num[MAX_CORES] = {}; uint32_t burst_num[MAX_CORES] = {};`. -/
def zeroCounters : Counters := ⟨Vector.replicate maxCores 0, Vector.replicate maxCores 0⟩

/-- The arrays after the calls of core `coreId`. -/
def countersAfter (coreId : Nat) (cs : List Call) : Option Counters :=
  (counted cs).foldlM (fun c nbTx => countBurst c coreId nbTx) zeroCounters

/-- After the calls `cs` of core `coreId`, its elements of the arrays are `total` and `bursts`. -/
def Shows (coreId : Fin maxCores) (cs : List Call) (total bursts : Nat) : Prop :=
  ∃ c, countersAfter coreId cs = some c ∧ (c.totalNum.get coreId).toNat = total ∧
    (c.burstNum.get coreId).toNat = bursts

/-- What the statistics are for.  In every state of the execution `cs` of a core in which no burst
    is being counted, its counters are the number of packets the NIC has accepted and the number
    of bursts; there are at most 64 packets a burst; and the counters never decrease. -/
structure StatsLaw (coreId : Fin maxCores) (bufs : Vector Ptr burstSize) (cs : List Call) :
    Prop where
  figures : ∀ ds k, ds <+: cs → Run Core.step (Core.init bufs) ds k → k.Settled →
    Shows coreId ds (accepted ds).length (issued ds).length
  bounded : ∀ ds k, ds <+: cs → Run Core.step (Core.init bufs) ds k → k.Settled →
    ∀ total bursts, Shows coreId ds total bursts → total ≤ burstSize * bursts
  monotone : ∀ ds ds' k k', ds <+: ds' → ds' <+: cs → Run Core.step (Core.init bufs) ds k →
    Run Core.step (Core.init bufs) ds' k' →
    ∀ total bursts total' bursts', Shows coreId ds total bursts → Shows coreId ds' total' bursts' →
      total ≤ total' ∧ bursts ≤ bursts'

/-! ## The invariant of a run -/

theorem Core.uncounted_of_allocFrom {k : Core} (i : Nat) (hpc : k.pc = allocFrom i) :
    k.uncounted = [] := by
  rw [Core.uncounted, hpc, allocFrom]
  by_cases hi : i < burstSize
  · rw [dif_pos hi]
  · rw [dif_neg hi]

theorem Core.uncounted_of_freeFrom {k : Core} {nbTx : Nat} (i : Nat)
    (hpc : k.pc = freeFrom nbTx i) : k.uncounted = [nbTx] := by
  rw [Core.uncounted, hpc, freeFrom]
  by_cases hi : i < burstSize
  · rw [dif_pos hi]
  · rw [dif_neg hi]

/-- What the calls of a run and the state of the core have to do with each other. -/
structure Tally (cs : List Call) (k : Core) : Prop where
  issued : issued cs = counted cs ++ k.uncounted
  sent : ∀ nbTx ∈ PacketSend.issued cs, nbTx ≤ burstSize
  accepted : (accepted cs).length = (PacketSend.issued cs).sum
  total : k.totalNum = BitVec.ofNat 32 (counted cs).sum
  bursts : k.burstNum = BitVec.ofNat 32 (counted cs).length

/-- A call that neither issues nor counts a burst changes none of this. -/
theorem Tally.quiet {cs : List Call} {k k' : Core} {c : Call} (h : Tally cs k)
    (hissued : PacketSend.issued [c] = []) (hcounted : counted [c] = [])
    (haccepted : PacketSend.accepted [c] = []) (hk : k'.uncounted = k.uncounted)
    (htotal : k'.totalNum = k.totalNum) (hbursts : k'.burstNum = k.burstNum) :
    Tally (cs ++ [c]) k' := by
  have hissued' : PacketSend.issued (cs ++ [c]) = PacketSend.issued cs := by
    rw [issued_append, hissued, List.append_nil]
  have hcounted' : counted (cs ++ [c]) = counted cs := by
    rw [counted_append, hcounted, List.append_nil]
  constructor
  · rw [hissued', hcounted', hk]
    exact h.issued
  · rw [hissued']
    exact h.sent
  · rw [hissued', accepted_snoc, haccepted, List.append_nil]
    exact h.accepted
  · rw [hcounted', htotal]
    exact h.total
  · rw [hcounted', hbursts]
    exact h.bursts

/-- **The tally of a run.** -/
theorem Core.tally {bufs : Vector Ptr burstSize} {cs : List Call} {k : Core}
    (h : Run Core.step (Core.init bufs) cs k) : Tally cs k := by
  refine h.history (P := Tally) ?_ ?_
  · have hnone := Core.uncounted_of_allocFrom (k := Core.init bufs) 0 rfl
    exact ⟨hnone.symm, fun _ hmem => absurd hmem List.not_mem_nil, rfl, rfl, rfl⟩
  · intro cs k c k' ih hstep
    cases Core.step_inv hstep with
    | alloc m hpc =>
      refine ih.quiet rfl rfl rfl ?_ rfl rfl
      rw [Core.uncounted, Core.uncounted, hpc]
    | allocFail hpc =>
      refine ih.quiet rfl rfl rfl ?_ rfl rfl
      rw [Core.uncounted, Core.uncounted, hpc]
    | @store i hpc =>
      refine ih.quiet rfl rfl rfl ?_ rfl rfl
      rw [Core.uncounted_of_allocFrom (i + 1) rfl, Core.uncounted, hpc]
    | @free nbTx i hpc =>
      refine ih.quiet rfl rfl rfl ?_ rfl rfl
      rw [Core.uncounted_of_freeFrom (i + 1) rfl, Core.uncounted, hpc]
    | @txBurst nbTx hpc hle =>
      have hbefore : k.uncounted = [] := by rw [Core.uncounted, hpc]
      have hissued := ih.issued
      rw [hbefore, List.append_nil] at hissued
      constructor
      · rw [issued_append, counted_append, Core.uncounted_of_freeFrom nbTx rfl, hissued]
        show _ = counted cs ++ [] ++ [nbTx]
        rw [List.append_nil]
        rfl
      · intro nb hmem
        rw [issued_append] at hmem
        rcases List.mem_append.mp hmem with hmem | hmem
        · exact ih.sent nb hmem
        · rw [List.mem_singleton.mp hmem]
          exact hle
      · have htake : PacketSend.accepted [.txBurst k.bufs.toList nbTx] = k.bufs.toList.take nbTx :=
          List.append_nil _
        rw [accepted_snoc, issued_append, List.length_append, List.sum_append, ih.accepted, htake,
          List.length_take, toList_length, Nat.min_eq_left hle]
        rfl
      · rw [counted_append]
        show k.totalNum = BitVec.ofNat 32 (counted cs ++ []).sum
        rw [List.append_nil]
        exact ih.total
      · rw [counted_append]
        show k.burstNum = BitVec.ofNat 32 (counted cs ++ []).length
        rw [List.append_nil]
        exact ih.bursts
    | @count nbTx hpc =>
      have hbefore : k.uncounted = [nbTx] := by rw [Core.uncounted, hpc]
      have hissued := ih.issued
      rw [hbefore] at hissued
      have hsame : PacketSend.issued (cs ++ [.count nbTx]) = PacketSend.issued cs := by
        rw [issued_append]
        exact List.append_nil _
      have hgrow : counted (cs ++ [.count nbTx]) = counted cs ++ [nbTx] := counted_append _ _
      constructor
      · rw [hsame, hgrow, Core.uncounted_of_allocFrom 0 rfl, List.append_nil]
        exact hissued
      · rw [hsame]
        exact ih.sent
      · rw [hsame, accepted_snoc]
        show (PacketSend.accepted cs ++ []).length = _
        rw [List.append_nil]
        exact ih.accepted
      · rw [hgrow, List.sum_append, BitVec.ofNat_add, ← ih.total]
        rfl
      · rw [hgrow, List.length_append, BitVec.ofNat_add, ← ih.bursts]
        rfl

/-! ## The arrays show the counters of the core -/

theorem countersAfter_snoc (coreId : Fin maxCores) (cs : List Call) (c : Call) :
    countersAfter coreId (cs ++ [c]) = (countersAfter coreId cs).bind fun k =>
      (counted [c]).foldlM (fun k nbTx => countBurst k coreId nbTx) k := by
  unfold countersAfter
  rw [counted_append, List.foldlM_append]
  rfl

/-- A core with an id below `MAX_CORES` finds its elements, and changes them. -/
theorem countBurst_get (a : Counters) (coreId : Fin maxCores) (nbTx : Nat) :
    ∃ a', countBurst a coreId nbTx = some a' ∧
      a'.totalNum.get coreId = a.totalNum.get coreId + BitVec.ofNat 32 nbTx ∧
      a'.burstNum.get coreId = a.burstNum.get coreId + 1 :=
  ⟨_, dif_pos coreId.isLt, Vector.getElem_set_self _, Vector.getElem_set_self _⟩

/-- The elements of the core in the arrays are the counters of `Core`. -/
theorem Core.countersAfter {bufs : Vector Ptr burstSize} {cs : List Call} {k : Core}
    (coreId : Fin maxCores) (h : Run Core.step (Core.init bufs) cs k) :
    ∃ c, PacketSend.countersAfter coreId cs = some c ∧ c.totalNum.get coreId = k.totalNum ∧
      c.burstNum.get coreId = k.burstNum := by
  refine h.history (P := fun cs k => ∃ c, PacketSend.countersAfter coreId cs = some c ∧
    c.totalNum.get coreId = k.totalNum ∧ c.burstNum.get coreId = k.burstNum) ?_ ?_
  · refine ⟨zeroCounters, rfl, ?_, ?_⟩
    · exact Vector.getElem_replicate _
    · exact Vector.getElem_replicate _
  · rintro cs k c k' ⟨a, ha, htotal, hbursts⟩ hstep
    rw [countersAfter_snoc, ha]
    cases Core.step_inv hstep with
    | alloc m hpc => exact ⟨a, rfl, htotal, hbursts⟩
    | allocFail hpc => exact ⟨a, rfl, htotal, hbursts⟩
    | store hpc => exact ⟨a, rfl, htotal, hbursts⟩
    | txBurst hpc hle => exact ⟨a, rfl, htotal, hbursts⟩
    | free hpc => exact ⟨a, rfl, htotal, hbursts⟩
    | @count nbTx hpc =>
      obtain ⟨a', hcount, htotal', hbursts'⟩ := countBurst_get a coreId nbTx
      refine ⟨a', ?_, by rw [htotal', htotal], by rw [hbursts', hbursts]⟩
      show (countBurst a coreId nbTx).bind some = some a'
      rw [hcount]
      rfl

/-- What the arrays show is what the core has counted. -/
theorem Core.shows_iff {bufs : Vector Ptr burstSize} {cs : List Call} {k : Core}
    (coreId : Fin maxCores) (h : Run Core.step (Core.init bufs) cs k) (total bursts : Nat) :
    Shows coreId cs total bursts ↔ k.totalNum.toNat = total ∧ k.burstNum.toNat = bursts := by
  obtain ⟨c, hc, htotal, hbursts⟩ := Core.countersAfter coreId h
  unfold Shows
  rw [hc, ← htotal, ← hbursts]
  constructor
  · rintro ⟨c', hc', hshows⟩
    obtain rfl := Option.some.inj hc'
    exact hshows
  · exact fun hshows => ⟨c, rfl, hshows⟩

/-! ## Exactly when the statistics are right -/

/-- In a run that has counted so little, the counters are exact. -/
theorem Tally.figures {cs : List Call} {k : Core} (h : Tally cs k)
    (htotal : (counted cs).sum < 4294967296) (hbursts : (counted cs).length < 4294967296) :
    k.totalNum.toNat = (counted cs).sum ∧ k.burstNum.toNat = (counted cs).length := by
  rw [h.total, h.bursts, BitVec.toNat_ofNat, BitVec.toNat_ofNat]
  exact ⟨Nat.mod_eq_of_lt htotal, Nat.mod_eq_of_lt hbursts⟩

/-- A settled core has counted every burst it has issued. -/
theorem Tally.settled {cs : List Call} {k : Core} (h : Tally cs k) (hk : k.Settled) :
    counted cs = PacketSend.issued cs := by
  rw [h.issued, hk, List.append_nil]

/-- At most 64 packets are counted for a burst. -/
theorem Tally.sum_le {cs : List Call} {k : Core} (h : Tally cs k) :
    (PacketSend.issued cs).sum ≤ burstSize * (PacketSend.issued cs).length := by
  rw [Nat.mul_comm]
  exact List.sum_le_card_nsmul _ burstSize h.sent

/-- What has been counted only grows. -/
theorem counted_le {ds cs : List Call} (h : ds <+: cs) :
    (counted ds).sum ≤ (counted cs).sum ∧ (counted ds).length ≤ (counted cs).length := by
  obtain ⟨es, rfl⟩ := h
  rw [counted_append, List.sum_append, List.length_append]
  exact ⟨Nat.le_add_right _ _, Nat.le_add_right _ _⟩

/-- In every run there is a settled state in which as much has been counted as at the end: the one
    after the last count. -/
theorem Core.exists_settled {bufs : Vector Ptr burstSize} {cs : List Call} {k : Core}
    (h : Run Core.step (Core.init bufs) cs k) : ∃ ds k', ds <+: cs ∧
      Run Core.step (Core.init bufs) ds k' ∧ k'.Settled ∧ counted ds = counted cs := by
  have hboth : Run Core.step (Core.init bufs) cs k ∧ ∃ ds k', ds <+: cs ∧
      Run Core.step (Core.init bufs) ds k' ∧ k'.Settled ∧ counted ds = counted cs := by
    refine h.history (P := fun cs k => Run Core.step (Core.init bufs) cs k ∧ ∃ ds k', ds <+: cs ∧
      Run Core.step (Core.init bufs) ds k' ∧ k'.Settled ∧ counted ds = counted cs) ?_ ?_
    · exact ⟨Run.nil, [], _, List.prefix_refl _, Run.nil,
        Core.uncounted_of_allocFrom (k := Core.init bufs) 0 rfl, rfl⟩
    · rintro cs k c k' ⟨hrun, ds, k₀, hpre, hds, hsettled, hcounted⟩ hstep
      refine ⟨hrun.snoc hstep, ?_⟩
      have hearlier : counted [c] = [] → ∃ ds k', ds <+: cs ++ [c] ∧
          Run Core.step (Core.init bufs) ds k' ∧ k'.Settled ∧ counted ds = counted (cs ++ [c]) := by
        intro hnone
        refine ⟨ds, k₀, hpre.trans (List.prefix_append cs [c]), hds, hsettled, ?_⟩
        rw [counted_append, hnone, List.append_nil]
        exact hcounted
      cases Core.step_inv hstep with
      | alloc m hpc => exact hearlier rfl
      | allocFail hpc => exact hearlier rfl
      | store hpc => exact hearlier rfl
      | txBurst hpc hle => exact hearlier rfl
      | free hpc => exact hearlier rfl
      | count hpc =>
        exact ⟨_, _, List.prefix_refl _, hrun.snoc hstep, Core.uncounted_of_allocFrom 0 rfl, rfl⟩
  exact hboth.2

/-- Where the statistics are exact, the figures fit the counters. -/
theorem StatsLaw.fits {coreId : Fin maxCores} {bufs : Vector Ptr burstSize} {cs : List Call}
    {k : Core} (h : StatsLaw coreId bufs cs) (hrun : Run Core.step (Core.init bufs) cs k) :
    (counted cs).sum < 4294967296 ∧ (counted cs).length < 4294967296 := by
  obtain ⟨ds, k', hpre, hds, hsettled, hcounted⟩ := Core.exists_settled hrun
  have htally := Core.tally hds
  obtain ⟨htotal, hbursts⟩ := (Core.shows_iff coreId hds _ _).mp (h.figures ds k' hpre hds hsettled)
  rw [htally.accepted, ← htally.settled hsettled, hcounted] at htotal
  rw [← htally.settled hsettled, hcounted] at hbursts
  exact ⟨htotal ▸ k'.totalNum.isLt, hbursts ▸ k'.burstNum.isLt⟩

/-- **When the statistics of a core are exact.**  For every execution of a core with an id below
    `MAX_CORES`, of any length and with any answers of the NIC, the counters are the exact figures
    at every point and never decrease exactly when fewer than 2^32 packets and fewer than 2^32
    bursts have been counted. -/
theorem statsLaw_iff (coreId : Fin maxCores) (bufs : Vector Ptr burstSize) (cs : List Call)
    (k : Core) (h : Run Core.step (Core.init bufs) cs k) : StatsLaw coreId bufs cs ↔
      (counted cs).sum < 4294967296 ∧ (counted cs).length < 4294967296 := by
  constructor
  · intro hlaw
    exact hlaw.fits h
  · rintro ⟨hsum, hlen⟩
    -- the counters of every prefix are exact, as it has counted less
    have hexact : ∀ ds k, ds <+: cs → Run Core.step (Core.init bufs) ds k →
        k.totalNum.toNat = (counted ds).sum ∧ k.burstNum.toNat = (counted ds).length := by
      intro ds k hpre hds
      obtain ⟨hsum', hlen'⟩ := counted_le hpre
      exact (Core.tally hds).figures (by omega) (by omega)
    constructor
    · intro ds k hpre hds hsettled
      have htally := Core.tally hds
      rw [Core.shows_iff coreId hds, htally.accepted, ← htally.settled hsettled]
      exact hexact ds k hpre hds
    · intro ds k hpre hds hsettled total bursts hshows
      have htally := Core.tally hds
      obtain ⟨htotal, hbursts⟩ := (Core.shows_iff coreId hds _ _).mp hshows
      obtain ⟨htotal', hbursts'⟩ := hexact ds k hpre hds
      have hle := htally.sum_le
      rw [← htally.settled hsettled] at hle
      rw [← htotal, ← hbursts, htotal', hbursts']
      exact hle
    · intro ds ds' k k' hpre hpre' hds hds' total bursts total' bursts' hshows hshows'
      obtain ⟨rfl, rfl⟩ := (Core.shows_iff coreId hds _ _).mp hshows
      obtain ⟨rfl, rfl⟩ := (Core.shows_iff coreId hds' _ _).mp hshows'
      obtain ⟨htotal, hbursts⟩ := hexact ds k (hpre.trans hpre') hds
      obtain ⟨htotal', hbursts'⟩ := hexact ds' k' hpre' hds'
      rw [htotal, hbursts, htotal', hbursts']
      exact counted_le hpre

/-- The statistics of a core that stops after two bursts of which the NIC has accepted 62 mbufs
    each are exact. -/
theorem statsLaw_iff_two : StatsLaw ⟨0, by decide⟩ (Vector.replicate burstSize 0)
    (partialBurst.calls ++ (partialBurst.calls ++ [.alloc none])) :=
  (statsLaw_iff ⟨0, by decide⟩ (Vector.replicate burstSize 0) _ _
    (run_of_exec_isSome (by decide +kernel))).mpr (by decide +kernel)

/-! ## A run that wraps -/

theorem counted_fillCalls (ms : List Ptr) : counted (fillCalls ms) = [] := by
  induction ms with
  | nil => rfl
  | cons m ms ih =>
    have hcons : fillCalls (m :: ms) = fillCalls [m] ++ fillCalls ms := fillCalls_append [m] ms
    rw [hcons, counted_append, ih]
    rfl

/-- A core can send a full burst, all of which the NIC accepts. -/
theorem Core.fullBurst_run (m : Ptr) {k : Core} (hpc : k.pc = allocFrom 0) :
    ∃ cs k', Run Core.step k cs k' ∧ k'.pc = allocFrom 0 ∧ counted cs = [burstSize] := by
  obtain ⟨k₁, hfill, hpc₁⟩ := Core.fill_run m hpc burstSize (Nat.le_refl _)
  have hburst := (CoreStep.txBurst (hpc₁.trans allocFrom_burstSize) (Nat.le_refl _)).step_eq
  have hcount := (CoreStep.count (k := { k₁ with pc := freeFrom burstSize burstSize })
    (freeFrom_burstSize burstSize)).step_eq
  refine ⟨_, _, (hfill.snoc hburst).snoc hcount, rfl, ?_⟩
  rw [counted_append, counted_append, counted_fillCalls]
  rfl

/-- And any number of them. -/
theorem Core.fullBursts_run (m : Ptr) {k : Core} (hpc : k.pc = allocFrom 0) (n : Nat) :
    ∃ cs k', Run Core.step k cs k' ∧ k'.pc = allocFrom 0 ∧
      (counted cs).sum = n * burstSize ∧ (counted cs).length = n := by
  induction n with
  | zero => exact ⟨[], k, Run.nil, hpc, (Nat.zero_mul _).symm, rfl⟩
  | succ n ih =>
    obtain ⟨cs, k₁, hrun, hpc₁, hsum, hlen⟩ := ih
    obtain ⟨ds, k₂, hone, hpc₂, hcounted⟩ := Core.fullBurst_run m hpc₁
    refine ⟨cs ++ ds, k₂, hrun.trans hone, hpc₂, ?_, ?_⟩
    · rw [counted_append, hcounted, List.sum_append, hsum, Nat.succ_mul]
      rfl
    · rw [counted_append, hcounted, List.length_append, hlen]
      rfl

/-- After 67108864 full bursts, that is 2^32 packets, `total_num` is wrong. -/
theorem statsLaw_not_wrap : ∃ cs k,
    Run Core.step (Core.init (Vector.replicate burstSize 0)) cs k ∧
      (counted cs).length = 67108864 ∧ (counted cs).sum = 4294967296 ∧
      ¬ StatsLaw ⟨0, by decide⟩ (Vector.replicate burstSize 0) cs := by
  obtain ⟨cs, k, hrun, -, hsum, hlen⟩ :=
    Core.fullBursts_run 5 (k := Core.init (Vector.replicate burstSize 0)) rfl 67108864
  have htotal : (counted cs).sum = 4294967296 := hsum
  refine ⟨cs, k, hrun, hlen, htotal, fun hlaw => ?_⟩
  have hfits := (hlaw.fits hrun).1
  omega

end PacketSend
