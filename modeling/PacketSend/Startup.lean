/-
  From `main` to the first burst, in the three programs.

  The three `main`s start alike:

      ret = rte_eal_init(argc, argv);       if (ret < 0)          rte_exit(...);
      argc -= ret; ...                      if (argc < 1)         rte_exit(...);
      nb_sys_ports = ...;                   if (nb_sys_ports < 1) rte_exit(...);
      mbuf_pool = ...;                      if (mbuf_pool == NULL) rte_exit(...);
      ret = init_port(portid, ...);         if (ret != 0)         printf("port init error!\n");

  Every failure ends the program, except the last: a failing `init_port` is reported and the
  program goes on, the receivers into their polling loop, the sender to launch its cores.  So the
  port is ready at the first burst of a receiver exactly when no call inside `init_port` fails, or
  the program does not get that far.

  A core of the sender bursts on the queue it finds at `config->queues[core_id]`, a vector with
  one element for each lcore, indexed by the id of the lcore.  The read is not checked: past the
  end it gives any word at all (`MayRead`), and the core bursts on that queue.  The sender
  therefore needs more, that every lcore id is below the number of lcores (`burstOnPort_iff`).
-/
import PacketSend.InitPort
import PacketSend.Lcores
import PacketSend.PacketRecv
import PacketSend.SendCore

namespace PacketSend

open Runs

/-! ## Starting up -/

/-- What the calls before `init_port` answer. -/
structure Boot where
  ealInit : Int
  argc : Int
  nbSysPorts : BitVec 16
  mbufPool : Bool

/-- Where a program is after `init_port`: gone, or on its way into the packet loop. -/
inductive Started where
  | exit (text : String)
  | on (init : InitRun) (out : List String)
  deriving DecidableEq, Repr

/-- The common part of the three `main`s. -/
def startUp (b : Boot) (init : InitRun) : Started :=
  if b.ealInit < 0 then .exit "Failed to initialize EAL.\n"
  else if b.argc - b.ealInit < 1 then .exit "Invalid number of arguments.\n"
  else if b.nbSysPorts < 1 then .exit "No Supported eth found\n"
  else if b.mbufPool = false then .exit "Could not create mbuf pool\n"
  else .on init (if init.ret ≠ 0 then ["port init error!\n"] else [])

/-- `portid`. -/
def portid : Nat := 0

/-- `main.cpp`. -/
def startMain (b : Boot) (d : Driver) : Started := startUp b (initPortMain d portid)

/-- `main_pkt_recv.cpp`. -/
def startRecv (b : Boot) (d : Driver) : Started := startUp b (initPortRecv d portid)

/-- `main_pkt_send.cpp`: one rx and one tx queue for each lcore. -/
def startSend (b : Boot) (d : Driver) (L : Lcores) : Started :=
  startUp b (initPort d portid L.count L.count)

/-- The calls before `init_port` all succeed. -/
structure Boot.Passes (b : Boot) : Prop where
  ealInit : 0 ≤ b.ealInit
  argc : 1 ≤ b.argc - b.ealInit
  nbSysPorts : ¬ b.nbSysPorts < 1
  mbufPool : b.mbufPool = true

/-- A program goes on after `init_port`, whatever that has returned, exactly when the calls
    before it succeed. -/
theorem startUp_eq_on_iff (b : Boot) (init init' : InitRun) (out : List String) :
    startUp b init = .on init' out ↔
      b.Passes ∧ init' = init ∧ out = if init.ret ≠ 0 then ["port init error!\n"] else [] := by
  unfold startUp
  constructor
  · intro h
    split at h
    · nomatch h
    split at h
    · nomatch h
    split at h
    · nomatch h
    split at h
    · nomatch h
    rename_i heal hargc hports hpool
    obtain ⟨hinit, hout⟩ := Started.on.inj h
    exact ⟨⟨by omega, by omega, hports, Bool.eq_true_of_not_eq_false hpool⟩, hinit.symm,
      hout.symm⟩
  · rintro ⟨⟨heal, hargc, hports, hpool⟩, rfl, rfl⟩
    rw [if_neg (by omega), if_neg (by omega), if_neg hports,
      if_neg (by rw [hpool]; exact Bool.noConfusion)]

/-! ## The first burst -/

/-- A receiver that goes on polls `polled` in every pass: then `init_port` has succeeded, and the
    port and these queues are ready. -/
def PollsReady (s : Started) (polled : List Nat) : Prop :=
  ∀ init out, s = .on init out →
    init.ret = 0 ∧ (portAfter portid init.calls).Ready polled []

/-- What the unchecked `config->queues[core_id]` may give: the element, or any word at all if the
    vector has no such element.  The core goes on with it in either case. -/
def MayRead (config : SendConfig) (coreId : Nat) (queueId : BitVec 32) : Prop :=
  ∀ q, queueOf config coreId = some q → queueId.toNat = q

/-- Whenever a core of the sender comes to its burst, on the queue it has read (its
    `queue_id` becomes a `uint16_t`): then `init_port` has succeeded, and the port and the queue
    are ready. -/
def SendsReady (s : Started) (L : Lcores) : Prop :=
  ∀ init out, s = .on init out → ∀ c ∈ L.ids, ∀ queueId, MayRead (sendConfig L) c queueId →
    ∀ stack cs k, Run Core.step (Core.init stack) cs k → k.pc = .txBurst →
      init.ret = 0 ∧ (portAfter portid init.calls).Ready [] [uint16 queueId.toNat]

/-- A core can come to its burst. -/
theorem Core.run_to_txBurst (stack : Vector Ptr burstSize) (m : Ptr) :
    ∃ cs k, Run Core.step (Core.init stack) cs k ∧ k.pc = .txBurst := by
  obtain ⟨k, hrun, hpc⟩ := Core.fill_run m (k := Core.init stack) rfl burstSize (Nat.le_refl _)
  exact ⟨_, k, hrun, hpc.trans allocFrom_burstSize⟩

/-- A receiver that polls the rx queues it has asked for. -/
theorem pollsReady_iff (b : Boot) (d : Driver) {rx tx : Nat} (polled : List Nat)
    (hpolled : ∀ q ∈ polled, q < uint16 rx) :
    PollsReady (startUp b (initPort d portid rx tx)) polled ↔
      (b.Passes → d.AllSucceed rx tx) := by
  constructor
  · intro h hb
    have hon := (startUp_eq_on_iff b (initPort d portid rx tx) _ _).mpr ⟨hb, rfl, rfl⟩
    exact (initPort_ret_eq_zero_iff d portid rx tx).mp (h _ _ hon).1
  · intro h init out hon
    obtain ⟨hb, rfl, -⟩ := (startUp_eq_on_iff _ _ _ _).mp hon
    have hret := (initPort_ret_eq_zero_iff d portid rx tx).mpr (h hb)
    have hready := initPort_ready hret
    exact ⟨hret, hready.configured, hready.started,
      fun q hq => hready.rx q (List.mem_range.mpr (hpolled q hq)), fun q hq => (nomatch hq)⟩

/-- What core `c` may read: for a core among the first `n`, its own number; for any other core
    the number `n`, which is no queue of the port. -/
theorem mayRead_min (L : Lcores) (c : Nat) :
    MayRead (sendConfig L) c (BitVec.ofNat 32 (min c L.count)) := by
  intro q hq
  have hcount := L.count_le
  have hmax : rteMaxLcore = 128 := rfl
  rw [queueOf_sendConfig] at hq
  split at hq
  · rename_i hc
    obtain rfl := Option.some.inj hq
    rw [BitVec.toNat_ofNat, Nat.min_eq_left (Nat.le_of_lt hc), Nat.mod_eq_of_lt (by omega)]
  · nomatch hq

/-- A core among the first `n` reads its own number. -/
theorem MayRead.eq {L : Lcores} {c : Nat} {queueId : BitVec 32} (hc : c < L.count)
    (h : MayRead (sendConfig L) c queueId) : uint16 queueId.toNat = c := by
  have hcount := L.count_le
  have hmax : rteMaxLcore = 128 := rfl
  have hq : queueOf (sendConfig L) c = some c := by rw [queueOf_sendConfig, if_pos hc]
  rw [h c hq, uint16_of_lt (by omega)]

/-- The sender: the port must come up, and no core may read past the end of the vector of queues,
    where it can find the number of a queue that nobody has set up. -/
theorem sendsReady_iff (b : Boot) (d : Driver) (L : Lcores) :
    SendsReady (startSend b d L) L ↔
      (b.Passes → d.AllSucceed L.count L.count ∧ ∀ c ∈ L.ids, c < L.count) := by
  have hcount := L.count_le
  have hmax : rteMaxLcore = 128 := rfl
  have huint : uint16 L.count = L.count := uint16_of_lt (by omega)
  constructor
  · intro h hb
    have hon := (startUp_eq_on_iff b (initPort d portid L.count L.count) _ _).mpr ⟨hb, rfl, rfl⟩
    obtain ⟨cs, k, hrun, hpc⟩ := Core.run_to_txBurst (Vector.replicate burstSize 0) 0
    have hcore : ∀ c ∈ L.ids, _ := fun c hc =>
      h _ _ hon c hc _ (mayRead_min L c) _ cs k hrun hpc
    have hret := (hcore L.main L.main_mem).1
    refine ⟨(initPort_ret_eq_zero_iff d portid _ _).mp hret, fun c hc => ?_⟩
    by_contra hge
    -- the queue `n`, which this core may find, is none that `init_port` has set up
    have hready := (hcore c hc).2.tx _ List.mem_cons_self
    have hlt := initPort_txQueues hret hready
    rw [Nat.min_eq_right (by omega), BitVec.toNat_ofNat, Nat.mod_eq_of_lt (by omega)] at hlt
    exact Nat.lt_irrefl _ hlt
  · intro h init out hon c hc queueId hread stack cs k hrun hpc
    obtain ⟨hb, rfl, -⟩ := (startUp_eq_on_iff _ _ _ _).mp hon
    obtain ⟨hall, hids⟩ := h hb
    have hret := (initPort_ret_eq_zero_iff d portid _ _).mpr hall
    have hready := initPort_ready hret
    refine ⟨hret, hready.configured, hready.started, fun q hq => (nomatch hq), fun q hq => ?_⟩
    rw [List.mem_singleton.mp hq, hread.eq (hids c hc)]
    exact hready.tx c (List.mem_range.mpr (by rw [huint]; exact hids c hc))

/-- **When a program comes to its first burst only with a ready port**: exactly when no call of
    `init_port` fails, or the program ends before it; for the sender it is also needed that every
    lcore id is below the number of lcores. -/
theorem burstOnPort_iff (b : Boot) (d : Driver) :
    (PollsReady (startMain b d) (List.range numRxQueues) ↔ (b.Passes → d.AllSucceed 4 1)) ∧
    (PollsReady (startRecv b d) (List.range numRxQueuesRecv) ↔ (b.Passes → d.AllSucceed 1 1)) ∧
    (∀ L : Lcores, SendsReady (startSend b d L) L ↔
      (b.Passes → d.AllSucceed L.count L.count ∧ ∀ c ∈ L.ids, c < L.count)) :=
  ⟨pollsReady_iff b d _ (fun _ hq => List.mem_range.mp hq),
    pollsReady_iff b d _ (fun _ hq => List.mem_range.mp hq),
    sendsReady_iff b d⟩

/-- Everything before `init_port` succeeds. -/
def goodBoot : Boot := ⟨0, 1, 1, true⟩

/-- Everything in `init_port` succeeds up to `rte_eth_dev_start`, which does not. -/
def startFails : Driver where
  isValidPort := true
  devInfoGet := Ret.ok
  devInfo := ⟨0, ⟨0, 0, 0, 0, 0, 0, 0⟩⟩
  devConfigure := Ret.ok
  adjustNbRxTxDesc := Ret.ok
  nbRxd := rxRingSize
  nbTxd := txRingSize
  socketId := 0
  rxQueueSetup _ := Ret.ok
  txQueueSetup _ := Ret.ok
  devStart := ⟨-5, by decide⟩
  macaddrGet := Ret.ok
  macaddr := Vector.replicate 6 0
  promiscuousEnable := Ret.ok

/-- Everything in `init_port` succeeds. -/
def portStarts : Driver := { startFails with devStart := Ret.ok }

/-- The lcore 0 alone (`-l 0`). -/
def lcoreZero : Lcores := ⟨[0], by decide, by decide, 0, by decide⟩

/-- When the port cannot be started, each of the programs prints a line and sends or polls.  And
    when all goes well on lcore 1 alone (`-l 1`), the core sends on whatever queue it finds behind
    a vector of one element, for instance on queue 1 of a port that has only queue 0. -/
theorem burstOnPort_not_started :
    ¬ PollsReady (startMain goodBoot startFails) (List.range numRxQueues) ∧
    ¬ PollsReady (startRecv goodBoot startFails) (List.range numRxQueuesRecv) ∧
    ¬ SendsReady (startSend goodBoot startFails lcoreZero) lcoreZero ∧
    ¬ SendsReady (startSend goodBoot portStarts lcoreOne) lcoreOne := by
  obtain ⟨cs, k, hrun, hpc⟩ := Core.run_to_txBurst (Vector.replicate burstSize 0) 0
  refine ⟨fun h => ?_, fun h => ?_, fun h => ?_, fun h => ?_⟩
  · have hret : (-5 : Int) = 0 := (h _ _ rfl).1
    nomatch hret
  · have hret : (-5 : Int) = 0 := (h _ _ rfl).1
    nomatch hret
  · have hret : (-5 : Int) = 0 :=
      (h _ _ rfl 0 List.mem_cons_self _ (mayRead_min lcoreZero 0) _ cs k hrun hpc).1
    nomatch hret
  · have hready : (portAfter portid (initPort portStarts portid 1 1).calls).Ready [] [1] :=
      (h _ _ rfl 1 List.mem_cons_self _ (mayRead_min lcoreOne 1) _ cs k hrun hpc).2
    exact absurd (hready.tx 1 List.mem_cons_self) (by decide)

end PacketSend
