/-
  `init_port`: bringing a port up.

  The three programs have a copy each, alike but for the numbers of queues: 4 and 1 in
  `main.cpp`, 1 and 1 in `main_pkt_recv.cpp`, the number of lcores for both in
  `main_pkt_send.cpp`, which takes them as parameters.  The function makes its DPDK calls one
  after another and returns at the first that fails.

  The model takes the answers of DPDK as its input (a `Driver`) and gives the calls made, in
  order, with their arguments and answers, the lines printed and the value returned.  Answers
  follow the convention of DPDK, 0 or a negative error code (`Ret`), so that the two tests the
  code uses, `retval != 0` and `retval < 0`, agree; `initPort_follows` then reads the function as
  a `FirstFailure.run` of the whole list of calls.

  What the calls do to the port is `Port.apply`: a call has the effect of its name exactly when
  it reports success.
-/
import PacketSend.PacketUtils
import PacketSend.Lib.FirstFailure

namespace PacketSend

open Words FirstFailure

/-! ## DPDK calls and their answers -/

/-- The value of a DPDK call: 0, or a negative error code. -/
abbrev Ret := { r : Int // r ≤ 0 }

/-- Success. -/
def Ret.ok : Ret := ⟨0, Int.le_refl 0⟩

/-- What `init_port` sets in `struct rte_eth_conf`. -/
structure EthConf where
  maxLroPktSize : BitVec 32
  txOffloads : BitVec 64
  deriving DecidableEq, Repr

/-- `struct rte_eth_txconf`, less its reserved fields. -/
structure TxConf where
  pthresh : BitVec 8
  hthresh : BitVec 8
  wthresh : BitVec 8
  txRsThresh : BitVec 16
  txFreeThresh : BitVec 16
  txDeferredStart : BitVec 8
  offloads : BitVec 64
  deriving DecidableEq, Repr

/-- What `init_port` reads of `struct rte_eth_dev_info`. -/
structure DevInfo where
  txOffloadCapa : BitVec 64
  defaultTxconf : TxConf
  deriving DecidableEq, Repr

/-- The calls, with their arguments other than the port and the pool. -/
inductive EthOp where
  | isValidPort
  | devInfoGet
  | devConfigure (rxRings txRings : Nat) (conf : EthConf)
  | adjustNbRxTxDesc (nbRxd nbTxd : Nat)
  | rxQueueSetup (q nbRxd : Nat) (socket : Int)
  | txQueueSetup (q nbTxd : Nat) (socket : Int) (conf : TxConf)
  | devStart
  | macaddrGet
  | promiscuousEnable
  deriving DecidableEq, Repr

/-- A call on a port. -/
structure EthCall where
  port : Nat
  op : EthOp
  deriving DecidableEq, Repr

/-- The answers of DPDK, with what it writes through pointers. -/
structure Driver where
  isValidPort : Bool
  devInfoGet : Ret
  devInfo : DevInfo
  devConfigure : Ret
  adjustNbRxTxDesc : Ret
  nbRxd : Nat
  nbTxd : Nat
  socketId : Int
  rxQueueSetup : Nat → Ret
  txQueueSetup : Nat → Ret
  devStart : Ret
  macaddrGet : Ret
  macaddr : Vector Byte 6
  promiscuousEnable : Ret

/-! ## The function -/

/-- The lines `init_port` prints. -/
inductive InitLine where
  | infoError (port : Nat) (errno : Int)
  | mac (port : Nat) (addr : Vector Byte 6)
  deriving DecidableEq, Repr

/-- What a call of `init_port` does: its DPDK calls with their answers, what it prints, what it
    returns. -/
structure InitRun where
  calls : List (EthCall × Int)
  out : List InitLine
  ret : Int
  deriving DecidableEq, Repr

/-- `return ret;` -/
def returns (ret : Int) : InitRun := ⟨[], [], ret⟩

/-- `printf(line);` and on. -/
def prints (line : InitLine) (next : InitRun) : InitRun := { next with out := line :: next.out }

/-- `retval = call; if (fails retval) failed else next`. -/
def orElse (fails : Int → Bool) (call : EthCall) (ret : Int) (failed next : InitRun) : InitRun :=
  let rest := if fails ret then failed else next
  { rest with calls := (call, ret) :: rest.calls }

/-- `retval != 0`. -/
def nonZero (retval : Int) : Bool := retval != 0

/-- `retval < 0`. -/
def negative (retval : Int) : Bool := retval < 0

/-- `retval = call; if (fails retval) return retval;` and on. -/
def orReturn (fails : Int → Bool) (call : EthCall) (ret : Ret) (next : InitRun) : InitRun :=
  orElse fails call ret.val (returns ret.val) next

/-- `for (q = …; …; q++) { retval = setup(q); if (retval < 0) return retval; }`, with `todo`
    queues left. -/
def queueLoop (setup : Nat → EthCall) (ret : Nat → Ret) (next : InitRun) : Nat → Nat → InitRun
  | 0, _ => next
  | todo + 1, q => orReturn negative (setup q) (ret q) (queueLoop setup ret next todo (q + 1))

/-- `RTE_ETH_TX_OFFLOAD_MBUF_FAST_FREE`. -/
def mbufFastFree : BitVec 64 := 1#64 <<< 16

/-- `port_conf_default`. -/
def portConfDefault : EthConf := ⟨1518, 0⟩

/-- `port_conf`: the default, with fast free if the device has it. -/
def portConf (info : DevInfo) : EthConf :=
  if info.txOffloadCapa &&& mbufFastFree ≠ 0 then
    { portConfDefault with txOffloads := portConfDefault.txOffloads ||| mbufFastFree }
  else portConfDefault

/-- `txconf`: the default of the device, with the offloads of the port. -/
def txConf (info : DevInfo) : TxConf :=
  { info.defaultTxconf with offloads := (portConf info).txOffloads }

/-- `init_port(port, mbuf_pool, rx_queues, tx_queues)`; the numbers of queues become
    `uint16_t`. -/
def initPort (d : Driver) (port rxQueues txQueues : Nat) : InitRun :=
  let rxRings := uint16 rxQueues
  let txRings := uint16 txQueues
  orElse nonZero ⟨port, .isValidPort⟩ (if d.isValidPort then 0 else -1) (returns (-1)) <|
  orElse nonZero ⟨port, .devInfoGet⟩ d.devInfoGet.val
    (prints (.infoError port (-d.devInfoGet.val)) (returns d.devInfoGet.val)) <|
  orReturn nonZero ⟨port, .devConfigure rxRings txRings (portConf d.devInfo)⟩ d.devConfigure <|
  orReturn nonZero ⟨port, .adjustNbRxTxDesc rxRingSize txRingSize⟩ d.adjustNbRxTxDesc <|
  queueLoop (fun q => ⟨port, .rxQueueSetup q d.nbRxd d.socketId⟩) d.rxQueueSetup
    (queueLoop (fun q => ⟨port, .txQueueSetup q d.nbTxd d.socketId (txConf d.devInfo)⟩)
      d.txQueueSetup
      (orReturn negative ⟨port, .devStart⟩ d.devStart <|
       orReturn nonZero ⟨port, .macaddrGet⟩ d.macaddrGet <|
       prints (.mac port d.macaddr) <|
       orReturn nonZero ⟨port, .promiscuousEnable⟩ d.promiscuousEnable <|
       returns 0)
      txRings 0)
    rxRings 0

/-- `init_port` of `main.cpp`. -/
def initPortMain (d : Driver) (port : Nat) : InitRun := initPort d port 4 1

/-- `init_port` of `main_pkt_recv.cpp`. -/
def initPortRecv (d : Driver) (port : Nat) : InitRun := initPort d port 1 1

/-! ## The calls as one sequence -/

/-- All calls of `init_port`, each with its answer. -/
def initCalls (d : Driver) (port rxQueues txQueues : Nat) : List (EthCall × Int) :=
  (⟨port, .isValidPort⟩, if d.isValidPort then 0 else -1) ::
  (⟨port, .devInfoGet⟩, d.devInfoGet.val) ::
  (⟨port, .devConfigure (uint16 rxQueues) (uint16 txQueues) (portConf d.devInfo)⟩,
    d.devConfigure.val) ::
  (⟨port, .adjustNbRxTxDesc rxRingSize txRingSize⟩, d.adjustNbRxTxDesc.val) ::
  ((List.range' 0 (uint16 rxQueues)).map (fun q =>
      (⟨port, .rxQueueSetup q d.nbRxd d.socketId⟩, (d.rxQueueSetup q).val)) ++
    ((List.range' 0 (uint16 txQueues)).map (fun q =>
        (⟨port, .txQueueSetup q d.nbTxd d.socketId (txConf d.devInfo)⟩,
          (d.txQueueSetup q).val)) ++
      [(⟨port, .devStart⟩, d.devStart.val),
        (⟨port, .macaddrGet⟩, d.macaddrGet.val),
        (⟨port, .promiscuousEnable⟩, d.promiscuousEnable.val)]))

/-- A run makes the calls of a sequence until the first that fails, and returns its answer. -/
def Follows (k : InitRun) (steps : List (EthCall × Int)) : Prop :=
  (⟨k.calls, k.ret⟩ : Outcome EthCall) = run steps

theorem Follows.orElse {fails : Int → Bool} {call : EthCall} {ret : Int} {failed next : InitRun}
    {rest : List (EthCall × Int)} (hfails : fails ret = true ↔ ret ≠ 0)
    (hcalls : failed.calls = []) (hret : ret ≠ 0 → failed.ret = ret) (h : Follows next rest) :
    Follows (orElse fails call ret failed next) ((call, ret) :: rest) := by
  unfold Follows PacketSend.orElse run
  by_cases hr : ret = 0
  · have hok : ¬ fails ret = true := fun hf => hfails.mp hf hr
    rw [if_pos hr, ← h]
    simp only [if_neg hok]
  · have hbad : fails ret = true := hfails.mpr hr
    rw [if_neg hr]
    simp only [if_pos hbad, hcalls, hret hr]

theorem nonZero_iff (ret : Int) : nonZero ret = true ↔ ret ≠ 0 := bne_iff_ne

theorem negative_iff (ret : Ret) : negative ret.val = true ↔ ret.val ≠ 0 := by
  have hle := ret.property
  unfold negative
  rw [decide_eq_true_iff]
  omega

theorem Follows.nonZero {call : EthCall} {ret : Ret} {next : InitRun}
    {rest : List (EthCall × Int)} (h : Follows next rest) :
    Follows (orReturn nonZero call ret next) ((call, ret.val) :: rest) :=
  Follows.orElse (nonZero_iff _) rfl (fun _ => rfl) h

theorem Follows.negative {call : EthCall} {ret : Ret} {next : InitRun}
    {rest : List (EthCall × Int)} (h : Follows next rest) :
    Follows (orReturn negative call ret next) ((call, ret.val) :: rest) :=
  Follows.orElse (negative_iff ret) rfl (fun _ => rfl) h

theorem Follows.queueLoop {setup : Nat → EthCall} {ret : Nat → Ret} {next : InitRun}
    {rest : List (EthCall × Int)} (h : Follows next rest) : ∀ (todo q : Nat),
    Follows (queueLoop setup ret next todo q)
      ((List.range' q todo).map (fun q => (setup q, (ret q).val)) ++ rest)
  | 0, _ => h
  | todo + 1, q => Follows.negative (Follows.queueLoop h todo (q + 1))

/-- **`init_port` makes its calls in order until the first that fails.** -/
theorem initPort_follows (d : Driver) (port rxQueues txQueues : Nat) :
    Follows (initPort d port rxQueues txQueues) (initCalls d port rxQueues txQueues) := by
  unfold initPort initCalls
  refine Follows.orElse (nonZero_iff _) rfl (fun hr => ?_) ?_
  · show (-1 : Int) = if d.isValidPort then 0 else -1
    cases hvalid : d.isValidPort with
    | true => exact absurd (if_pos hvalid) hr
    | false => rfl
  refine Follows.orElse (nonZero_iff _) rfl (fun _ => rfl) ?_
  refine Follows.nonZero (Follows.nonZero ?_)
  refine Follows.queueLoop (Follows.queueLoop ?_ _ 0) _ 0
  refine Follows.negative (Follows.nonZero ?_)
  -- printing the address is not a call
  have hlast : Follows (orReturn nonZero ⟨port, .promiscuousEnable⟩ d.promiscuousEnable (returns 0))
      [(⟨port, .promiscuousEnable⟩, d.promiscuousEnable.val)] := Follows.nonZero rfl
  exact hlast

/-! ## Success -/

/-- Every call of `init_port` would succeed. -/
structure Driver.AllSucceed (d : Driver) (rxQueues txQueues : Nat) : Prop where
  isValidPort : d.isValidPort = true
  devInfoGet : d.devInfoGet.val = 0
  devConfigure : d.devConfigure.val = 0
  adjustNbRxTxDesc : d.adjustNbRxTxDesc.val = 0
  rxQueueSetup : ∀ q, q < uint16 rxQueues → (d.rxQueueSetup q).val = 0
  txQueueSetup : ∀ q, q < uint16 txQueues → (d.txQueueSetup q).val = 0
  devStart : d.devStart.val = 0
  macaddrGet : d.macaddrGet.val = 0
  promiscuousEnable : d.promiscuousEnable.val = 0

theorem allSucceed_iff (d : Driver) (port rxQueues txQueues : Nat) :
    d.AllSucceed rxQueues txQueues ↔ ∀ s ∈ initCalls d port rxQueues txQueues, s.2 = 0 := by
  have hvalid : (if d.isValidPort then (0 : Int) else -1) = 0 ↔ d.isValidPort = true := by
    cases d.isValidPort <;> simp
  have hqueues : ∀ (f : Nat → EthCall) (r : Nat → Ret) (n : Nat),
      (∀ s ∈ (List.range' 0 n).map (fun q => (f q, (r q).val)), s.2 = 0) ↔
        ∀ q, q < n → (r q).val = 0 := by
    intro f r n
    rw [List.forall_mem_map]
    refine forall_congr' fun q => ?_
    rw [List.mem_range'_1]
    exact ⟨fun h hq => h ⟨Nat.zero_le q, by omega⟩, fun h hq => h (by omega)⟩
  unfold initCalls
  rw [List.forall_mem_cons, List.forall_mem_cons, List.forall_mem_cons, List.forall_mem_cons,
    List.forall_mem_append, List.forall_mem_append, List.forall_mem_cons, List.forall_mem_cons,
    List.forall_mem_cons, hqueues, hqueues, hvalid]
  constructor
  · intro h
    exact ⟨h.1, h.2, h.3, h.4, h.5, h.6, h.7, h.8, h.9, fun s hs => (nomatch hs)⟩
  · rintro ⟨h₁, h₂, h₃, h₄, h₅, h₆, h₇, h₈, h₉, -⟩
    exact ⟨h₁, h₂, h₃, h₄, h₅, h₆, h₇, h₈, h₉⟩

/-- `init_port` returns 0 exactly when every call succeeds. -/
theorem initPort_ret_eq_zero_iff (d : Driver) (port rxQueues txQueues : Nat) :
    (initPort d port rxQueues txQueues).ret = 0 ↔ d.AllSucceed rxQueues txQueues := by
  have hret := congrArg Outcome.ret (initPort_follows d port rxQueues txQueues)
  rw [allSucceed_iff d port, ← ret_eq_zero_iff, ← hret]

/-- And then it has made them all. -/
theorem initPort_calls_of_ret {d : Driver} {port rxQueues txQueues : Nat}
    (h : (initPort d port rxQueues txQueues).ret = 0) :
    (initPort d port rxQueues txQueues).calls = initCalls d port rxQueues txQueues := by
  have hcalls := congrArg Outcome.calls (initPort_follows d port rxQueues txQueues)
  have hall := (allSucceed_iff d port _ _).mp ((initPort_ret_eq_zero_iff d port _ _).mp h)
  rw [run_of_all _ hall] at hcalls
  exact hcalls

/-- The calls start with four calls for the whole port. -/
theorem mem_initCalls_of_rest {d : Driver} {port rxQueues txQueues : Nat} {s : EthCall × Int}
    (h : s ∈ (initCalls d port rxQueues txQueues).drop 4) :
    s ∈ initCalls d port rxQueues txQueues := List.mem_of_mem_drop h

theorem rxQueueSetup_mem (d : Driver) (port txQueues : Nat) {rxQueues q : Nat}
    (hq : q < uint16 rxQueues) :
    (⟨port, .rxQueueSetup q d.nbRxd d.socketId⟩, (d.rxQueueSetup q).val)
      ∈ initCalls d port rxQueues txQueues := by
  apply mem_initCalls_of_rest
  apply List.mem_append_left
  exact List.mem_map.mpr ⟨q, List.mem_range'_1.mpr ⟨Nat.zero_le q, by omega⟩, rfl⟩

theorem txQueueSetup_mem (d : Driver) (port rxQueues : Nat) {txQueues q : Nat}
    (hq : q < uint16 txQueues) :
    (⟨port, .txQueueSetup q d.nbTxd d.socketId (txConf d.devInfo)⟩, (d.txQueueSetup q).val)
      ∈ initCalls d port rxQueues txQueues := by
  apply mem_initCalls_of_rest
  apply List.mem_append_right
  apply List.mem_append_left
  exact List.mem_map.mpr ⟨q, List.mem_range'_1.mpr ⟨Nat.zero_le q, by omega⟩, rfl⟩

/-! ## The port -/

/-- What a port has been through. -/
structure Port where
  configured : Bool
  rxQueues : List Nat
  txQueues : List Nat
  started : Bool
  deriving DecidableEq, Repr

/-- A port nobody has touched. -/
def Port.fresh : Port := ⟨false, [], [], false⟩

/-- The effect of a call on port `port`: that of its name if it succeeded, none if not. -/
def Port.apply (port : Nat) (p : Port) (c : EthCall × Int) : Port :=
  if c.1.port = port ∧ c.2 = 0 then
    match c.1.op with
    | .devConfigure _ _ _ => { p with configured := true }
    | .rxQueueSetup q _ _ => { p with rxQueues := q :: p.rxQueues }
    | .txQueueSetup q _ _ _ => { p with txQueues := q :: p.txQueues }
    | .devStart => { p with started := true }
    | _ => p
  else p

/-- The port after some calls. -/
def portAfter (port : Nat) (calls : List (EthCall × Int)) : Port :=
  calls.foldl (Port.apply port) Port.fresh

/-- The port is up, and the queues `rxQueues` and `txQueues` are set up. -/
structure Port.Ready (p : Port) (rxQueues txQueues : List Nat) : Prop where
  configured : p.configured = true
  started : p.started = true
  rx : ∀ q ∈ rxQueues, q ∈ p.rxQueues
  tx : ∀ q ∈ txQueues, q ∈ p.txQueues

/-- No call undoes what an earlier one has done. -/
structure Port.Le (p p' : Port) : Prop where
  configured : p.configured = true → p'.configured = true
  started : p.started = true → p'.started = true
  rx : ∀ q ∈ p.rxQueues, q ∈ p'.rxQueues
  tx : ∀ q ∈ p.txQueues, q ∈ p'.txQueues

theorem Port.le_apply (port : Nat) (p : Port) (c : EthCall × Int) : p.Le (p.apply port c) := by
  unfold Port.apply
  split
  · split
    · exact ⟨fun _ => rfl, id, fun _ => id, fun _ => id⟩
    · exact ⟨id, id, fun _ hq => List.mem_cons_of_mem _ hq, fun _ => id⟩
    · exact ⟨id, id, fun _ => id, fun _ hq => List.mem_cons_of_mem _ hq⟩
    · exact ⟨id, fun _ => rfl, fun _ => id, fun _ => id⟩
    · exact ⟨id, id, fun _ => id, fun _ => id⟩
  · exact ⟨id, id, fun _ => id, fun _ => id⟩

/-- What one of the calls establishes and no call undoes, holds after them. -/
theorem foldl_of_mem {σ ε : Type} {f : σ → ε → σ} {Q : σ → Prop} {c : ε}
    (hkeep : ∀ s e, Q s → Q (f s e)) (hset : ∀ s, Q (f s c)) :
    ∀ (es : List ε) (s : σ), c ∈ es → Q (es.foldl f s)
  | e :: es, s, hc => by
    have hlater : ∀ (es : List ε) (s : σ), Q s → Q (es.foldl f s) := by
      intro es
      induction es with
      | nil => exact fun _ h => h
      | cons e es ih => exact fun s h => ih _ (hkeep s e h)
    rcases List.mem_cons.mp hc with rfl | hc'
    · exact hlater es _ (hset s)
    · exact foldl_of_mem hkeep hset es _ hc'

/-- **A successful `init_port` leaves the port ready**, with every queue it was asked for. -/
theorem initPort_ready {d : Driver} {port rxQueues txQueues : Nat}
    (h : (initPort d port rxQueues txQueues).ret = 0) :
    (portAfter port (initPort d port rxQueues txQueues).calls).Ready
      (List.range (uint16 rxQueues)) (List.range (uint16 txQueues)) := by
  rw [initPort_calls_of_ret h]
  have hall := (initPort_ret_eq_zero_iff d port rxQueues txQueues).mp h
  constructor
  · refine foldl_of_mem (Q := fun p => p.configured = true)
      (c := (⟨port, .devConfigure (uint16 rxQueues) (uint16 txQueues) (portConf d.devInfo)⟩,
        d.devConfigure.val)) (fun p c => (Port.le_apply port p c).configured) ?_ _ _ ?_
    · intro p
      unfold Port.apply
      rw [if_pos ⟨rfl, hall.devConfigure⟩]
    · simp [initCalls]
  · refine foldl_of_mem (Q := fun p => p.started = true)
      (c := (⟨port, .devStart⟩, d.devStart.val))
      (fun p c => (Port.le_apply port p c).started) ?_ _ _ ?_
    · intro p
      unfold Port.apply
      rw [if_pos ⟨rfl, hall.devStart⟩]
    · simp [initCalls]
  · intro q hq
    have hlt := List.mem_range.mp hq
    refine foldl_of_mem (Q := fun p => q ∈ p.rxQueues)
      (c := (⟨port, .rxQueueSetup q d.nbRxd d.socketId⟩, (d.rxQueueSetup q).val))
      (fun p c => (Port.le_apply port p c).rx q) ?_ _ _ ?_
    · intro p
      unfold Port.apply
      rw [if_pos ⟨rfl, hall.rxQueueSetup q hlt⟩]
      exact List.mem_cons_self
    · exact rxQueueSetup_mem d port txQueues hlt
  · intro q hq
    have hlt := List.mem_range.mp hq
    refine foldl_of_mem (Q := fun p => q ∈ p.txQueues)
      (c := (⟨port, .txQueueSetup q d.nbTxd d.socketId (txConf d.devInfo)⟩,
        (d.txQueueSetup q).val))
      (fun p c => (Port.le_apply port p c).tx q) ?_ _ _ ?_
    · intro p
      unfold Port.apply
      rw [if_pos ⟨rfl, hall.txQueueSetup q hlt⟩]
      exact List.mem_cons_self
    · exact txQueueSetup_mem d port rxQueues hlt

/-- A tx queue that is set up has been set up by one of the calls. -/
theorem Port.txQueues_apply {port : Nat} {p : Port} {c : EthCall × Int} {q : Nat}
    (hq : q ∈ (p.apply port c).txQueues) :
    q ∈ p.txQueues ∨ ∃ nbTxd socket conf, c.1.op = .txQueueSetup q nbTxd socket conf := by
  unfold Port.apply at hq
  split at hq
  · split at hq
    · exact Or.inl hq
    · exact Or.inl hq
    · rename_i q' nbTxd socket conf hop
      rcases List.mem_cons.mp hq with rfl | hq
      · exact Or.inr ⟨nbTxd, socket, conf, hop⟩
      · exact Or.inl hq
    · exact Or.inl hq
    · exact Or.inl hq
  · exact Or.inl hq

/-- **A successful `init_port` sets up no tx queue but those it was asked for.** -/
theorem initPort_txQueues {d : Driver} {port rxQueues txQueues q : Nat}
    (h : (initPort d port rxQueues txQueues).ret = 0)
    (hq : q ∈ (portAfter port (initPort d port rxQueues txQueues).calls).txQueues) :
    q < uint16 txQueues := by
  rw [initPort_calls_of_ret h] at hq
  have hall : ∀ q ∈ (portAfter port (initCalls d port rxQueues txQueues)).txQueues,
      q < uint16 txQueues := by
    unfold portAfter
    refine List.foldlRecOn (motive := fun p : Port => ∀ q ∈ p.txQueues, q < uint16 txQueues) _ _
      (fun q hq => absurd hq List.not_mem_nil) fun p hp c hc q hq => ?_
    rcases Port.txQueues_apply hq with hq | ⟨nbTxd, socket, conf, hop⟩
    · exact hp q hq
    · simp only [initCalls, List.mem_cons, List.mem_append, List.mem_map, List.mem_range'_1,
        List.not_mem_nil, or_false] at hc
      rcases hc with rfl | rfl | rfl | rfl | ⟨q', -, rfl⟩ | ⟨q', hq', rfl⟩ | rfl | rfl | rfl
      · nomatch hop
      · nomatch hop
      · nomatch hop
      · nomatch hop
      · nomatch hop
      · obtain rfl : q' = q := (EthOp.txQueueSetup.inj hop).1
        omega
      · nomatch hop
      · nomatch hop
      · nomatch hop
  exact hall q hq

end PacketSend
