/-
  What `init_port` reports.

  The plan of `init_port` is the list of its DPDK calls in the order in which they would all be
  made (`initPlan`).  For any numbers of queues and any answers of DPDK the calls made are a
  prefix of the plan which ends with the first call that fails; the value returned is the answer
  of that call, -1 for an invalid port, and 0 exactly when all succeed.  A return value of 0 then
  means that every queue was set up once before the port was started, with the descriptor counts
  `rte_eth_dev_adjust_nb_rx_tx_desc` left, and the tx queues with the offloads of the port, which
  the device has.

  All of it is read off `initPort_follows`, once for the three programs.
-/
import PacketSend.InitPort

namespace PacketSend

open FirstFailure

/-! ## The plan -/

/-- The calls before the port is started, in order. -/
def setupPlan (d : Driver) (port rx tx : Nat) : List EthCall :=
  ⟨port, .isValidPort⟩ :: ⟨port, .devInfoGet⟩ :: ⟨port, .devConfigure rx tx (portConf d.devInfo)⟩ ::
  ⟨port, .adjustNbRxTxDesc rxRingSize txRingSize⟩ ::
  ((List.range rx).map (fun q => ⟨port, .rxQueueSetup q d.nbRxd d.socketId⟩) ++
    (List.range tx).map (fun q => ⟨port, .txQueueSetup q d.nbTxd d.socketId (txConf d.devInfo)⟩))

/-- The calls of `init_port` in order, if none fails. -/
def initPlan (d : Driver) (port rx tx : Nat) : List EthCall :=
  setupPlan d port rx tx ++
    [⟨port, .devStart⟩, ⟨port, .macaddrGet⟩, ⟨port, .promiscuousEnable⟩]

/-- The rx queues set up by some calls, each with its number of descriptors. -/
def rxSetups (calls : List EthCall) : List (Nat × Nat) :=
  calls.filterMap fun c => match c.op with
    | .rxQueueSetup q nbRxd _ => some (q, nbRxd)
    | _ => none

/-- The tx queues set up by some calls, each with its number of descriptors. -/
def txSetups (calls : List EthCall) : List (Nat × Nat) :=
  calls.filterMap fun c => match c.op with
    | .txQueueSetup q nbTxd _ _ => some (q, nbTxd)
    | _ => none

/-- Every queue was set up exactly once, before the start and with the descriptor counts of the
    adjust call; the offloads of the tx queues are those of the port, and offloads the device
    has. -/
structure SetUp (d : Driver) (port rx tx : Nat) (calls : List EthCall) : Prop where
  queues : ∃ before after, calls = before ++ ⟨port, .devStart⟩ :: after ∧
    rxSetups before = (List.range rx).map (fun q => (q, d.nbRxd)) ∧
    txSetups before = (List.range tx).map (fun q => (q, d.nbTxd)) ∧
    rxSetups after = [] ∧ txSetups after = []
  offloads : ∀ q nbTxd socket conf, ⟨port, .txQueueSetup q nbTxd socket conf⟩ ∈ calls →
    ∃ pc, ⟨port, .devConfigure rx tx pc⟩ ∈ calls ∧ conf.offloads = pc.txOffloads ∧
      pc.txOffloads &&& d.devInfo.txOffloadCapa = pc.txOffloads

/-- A run of `init_port` reports what happened.  `initCalls` pairs each call of the plan with what
    DPDK answers. -/
structure Reports (d : Driver) (port rx tx : Nat) (k : InitRun) : Prop where
  inOrder : k.calls.map Prod.fst <+: initPlan d port rx tx
  answers : k.calls <+: initCalls d port rx tx
  stops : (k.ret = 0 ∧ k.calls.map Prod.fst = initPlan d port rx tx ∧ ∀ c ∈ k.calls, c.2 = 0) ∨
    (k.ret ≠ 0 ∧ ∃ ok e, k.calls = ok ++ [(e, k.ret)] ∧ ∀ c ∈ ok, c.2 = 0)
  invalid : d.isValidPort = false → k.calls = [(⟨port, .isValidPort⟩, -1)] ∧ k.ret = -1
  success : k.ret = 0 ↔ d.AllSucceed rx tx
  setUp : k.ret = 0 → SetUp d port rx tx (k.calls.map Prod.fst)

/-! ## The plan and the calls with their answers -/

theorem initCalls_map_fst (d : Driver) (port rxQueues txQueues : Nat) :
    (initCalls d port rxQueues txQueues).map Prod.fst
      = initPlan d port (uint16 rxQueues) (uint16 txQueues) := by
  unfold initCalls initPlan setupPlan
  simp only [List.map_cons, List.map_append, List.map_map, List.range_eq_range', List.cons_append,
    List.append_assoc]
  rfl

theorem uint16_toNat (n : BitVec 16) : uint16 n.toNat = n.toNat := uint16_of_lt n.isLt

/-! ## The queues -/

theorem rxSetups_append (calls calls' : List EthCall) :
    rxSetups (calls ++ calls') = rxSetups calls ++ rxSetups calls' := List.filterMap_append

theorem txSetups_append (calls calls' : List EthCall) :
    txSetups (calls ++ calls') = txSetups calls ++ txSetups calls' := List.filterMap_append

/-- Setting up some rx queues sets up these and no tx queue. -/
theorem setups_rx (port nbRxd : Nat) (socket : Int) (qs : List Nat) :
    rxSetups (qs.map fun q => ⟨port, .rxQueueSetup q nbRxd socket⟩) = qs.map (fun q => (q, nbRxd)) ∧
      txSetups (qs.map fun q => ⟨port, .rxQueueSetup q nbRxd socket⟩) = [] := by
  induction qs with
  | nil => exact ⟨rfl, rfl⟩
  | cons q qs ih => exact ⟨congrArg ((q, nbRxd) :: ·) ih.1, ih.2⟩

/-- Setting up some tx queues sets up these and no rx queue. -/
theorem setups_tx (port nbTxd : Nat) (socket : Int) (conf : TxConf) (qs : List Nat) :
    rxSetups (qs.map fun q => ⟨port, .txQueueSetup q nbTxd socket conf⟩) = [] ∧
      txSetups (qs.map fun q => ⟨port, .txQueueSetup q nbTxd socket conf⟩)
        = qs.map (fun q => (q, nbTxd)) := by
  induction qs with
  | nil => exact ⟨rfl, rfl⟩
  | cons q qs ih => exact ⟨ih.1, congrArg ((q, nbTxd) :: ·) ih.2⟩

/-- The plan sets up every queue once before the start. -/
theorem setups_setupPlan (d : Driver) (port rx tx : Nat) :
    rxSetups (setupPlan d port rx tx) = (List.range rx).map (fun q => (q, d.nbRxd)) ∧
      txSetups (setupPlan d port rx tx) = (List.range tx).map (fun q => (q, d.nbTxd)) := by
  obtain ⟨hrx, htx⟩ := setups_rx port d.nbRxd d.socketId (List.range rx)
  obtain ⟨hrx', htx'⟩ := setups_tx port d.nbTxd d.socketId (txConf d.devInfo) (List.range tx)
  constructor
  · show rxSetups (_ ++ _) = _
    rw [rxSetups_append, hrx, hrx', List.append_nil]
  · show txSetups (_ ++ _) = _
    rw [txSetups_append, htx, htx', List.nil_append]

/-! ## The offloads -/

/-- The offloads `init_port` asks for are among those of the device. -/
theorem portConf_offloads (info : DevInfo) :
    (portConf info).txOffloads &&& info.txOffloadCapa = (portConf info).txOffloads := by
  have hpow : mbufFastFree = BitVec.twoPow 64 16 := rfl
  unfold portConf
  by_cases h : info.txOffloadCapa &&& mbufFastFree ≠ 0
  · have hfast : mbufFastFree &&& info.txOffloadCapa = mbufFastFree := by
      rw [BitVec.and_comm]
      rw [hpow, BitVec.and_twoPow] at h ⊢
      split at h
      · rename_i hbit
        rw [if_pos hbit]
      · exact absurd rfl h
    rw [if_pos h]
    show (0#64 ||| mbufFastFree) &&& info.txOffloadCapa = 0#64 ||| mbufFastFree
    rw [BitVec.zero_or, hfast]
  · rw [if_neg h]
    exact BitVec.zero_and

/-- The only tx configuration of the plan is `txConf`. -/
theorem txConf_of_mem {d : Driver} {port rx tx q nbTxd : Nat} {socket : Int} {conf : TxConf}
    (h : ⟨port, .txQueueSetup q nbTxd socket conf⟩ ∈ initPlan d port rx tx) :
    conf = txConf d.devInfo := by
  simp only [initPlan, setupPlan, List.mem_append, List.mem_cons, List.mem_map, EthCall.mk.injEq,
    true_and, reduceCtorEq, List.not_mem_nil, false_or, or_false, and_false, exists_false,
    EthOp.txQueueSetup.injEq] at h
  obtain ⟨q', -, -, -, -, rfl⟩ := h
  rfl

/-- Carrying out the whole plan sets the port up. -/
theorem setUp_initPlan (d : Driver) (port rx tx : Nat) :
    SetUp d port rx tx (initPlan d port rx tx) := by
  obtain ⟨hrx, htx⟩ := setups_setupPlan d port rx tx
  refine ⟨⟨_, _, rfl, hrx, htx, rfl, rfl⟩, fun q nbTxd socket conf hmem => ?_⟩
  have hconf := txConf_of_mem hmem
  refine ⟨portConf d.devInfo, ?_, congrArg TxConf.offloads hconf, portConf_offloads _⟩
  exact List.mem_append_left _ (List.mem_cons_of_mem _ (List.mem_cons_of_mem _ List.mem_cons_self))

/-! ## The report -/

/-- The calls of a run and the value it returns, as a `FirstFailure.run`. -/
theorem initPort_run (d : Driver) (port rxQueues txQueues : Nat) :
    (initPort d port rxQueues txQueues).calls
        = (run (initCalls d port rxQueues txQueues)).calls ∧
      (initPort d port rxQueues txQueues).ret = (run (initCalls d port rxQueues txQueues)).ret := by
  have hfollows := initPort_follows d port rxQueues txQueues
  exact ⟨congrArg Outcome.calls hfollows, congrArg Outcome.ret hfollows⟩

/-- An invalid port is reported before any other call. -/
theorem initPort_invalid {d : Driver} (h : d.isValidPort = false) (port rxQueues txQueues : Nat) :
    (initPort d port rxQueues txQueues).calls = [(⟨port, .isValidPort⟩, -1)] ∧
      (initPort d port rxQueues txQueues).ret = -1 := by
  unfold initPort
  rw [h]
  exact ⟨rfl, rfl⟩

/-- **`init_port` reports what happened**, for any numbers of queues. -/
theorem Reports.initPort (d : Driver) (port : Nat) (rx tx : BitVec 16) :
    Reports d port rx.toNat tx.toNat (initPort d port rx.toNat tx.toNat) := by
  obtain ⟨hcalls, hret⟩ := initPort_run d port rx.toNat tx.toNat
  have hplan := initCalls_map_fst d port rx.toNat tx.toNat
  rw [uint16_toNat, uint16_toNat] at hplan
  have hpre : (PacketSend.initPort d port rx.toNat tx.toNat).calls
      <+: initCalls d port rx.toNat tx.toNat := by
    rw [hcalls]
    exact run_calls _
  have hdone : (PacketSend.initPort d port rx.toNat tx.toNat).ret = 0 →
      (PacketSend.initPort d port rx.toNat tx.toNat).calls.map Prod.fst
        = initPlan d port rx.toNat tx.toNat := by
    intro hzero
    rw [initPort_calls_of_ret hzero, hplan]
  constructor
  · rw [← hplan]
    exact hpre.map Prod.fst
  · exact hpre
  · rcases run_cases (initCalls d port rx.toNat tx.toNat) with
      hall | ⟨ok, e, r, rest, -, hok, hr, hrun⟩
    · have hzero : (PacketSend.initPort d port rx.toNat tx.toNat).ret = 0 := by
        rw [hret, run_of_all _ hall]
      exact Or.inl ⟨hzero, hdone hzero, fun c hc => hall c (hpre.subset hc)⟩
    · rw [hrun] at hcalls hret
      exact Or.inr ⟨by rw [hret]; exact hr, ok, e, by rw [hcalls, hret], hok⟩
  · exact fun hinvalid => initPort_invalid hinvalid port _ _
  · exact initPort_ret_eq_zero_iff d port rx.toNat tx.toNat
  · intro hzero
    rw [hdone hzero]
    exact setUp_initPlan d port rx.toNat tx.toNat

/-- **The three copies of `init_port`.**  Each reports what happened, for every answer of DPDK and,
    where the numbers of queues are parameters, for all of them; with equal numbers of queues the
    copies do the same. -/
theorem initPort_reports (d : Driver) (port : Nat) :
    (∀ rx tx : BitVec 16, Reports d port rx.toNat tx.toNat (initPort d port rx.toNat tx.toNat)) ∧
    Reports d port 4 1 (initPortMain d port) ∧ Reports d port 1 1 (initPortRecv d port) ∧
    initPortMain d port = initPort d port 4 1 ∧ initPortRecv d port = initPort d port 1 1 :=
  ⟨Reports.initPort d port, Reports.initPort d port 4 1, Reports.initPort d port 1 1, rfl, rfl⟩

end PacketSend
