/-
  `packet_send_process`: what one sending core does.

      while (1) {
          for (int i = 0; i < BURST_SIZE; i++) {
              bufs[i] = rte_pktmbuf_alloc(mbuf_pool);
              if (bufs[i] == NULL) { printf(...); return -1; }
              ... pkt->idx = 114; pkt->value = 514; pkt_len = data_len = sizeof(my_pkt); ...
          }
          uint16_t nb_tx = rte_eth_tx_burst(config->port_id, queue_id, bufs, BURST_SIZE);
          if (nb_tx < BURST_SIZE)
              for (int i = nb_tx; i < BURST_SIZE; i++) rte_pktmbuf_free(bufs[i]);
          total_num[core_id] += nb_tx;
          burst_num[core_id]++;
      }

  The core is a machine in the sense of `Runs`: its labels are the DPDK calls it makes, each with
  the answer it gets, and `Core.step` is partial because at each program point only one call is
  the code's next one.  Nothing is assumed here about the answers beyond `nb_tx <= BURST_SIZE`.

  Three facts carry everything said about the core:

  * `CoreStep`    — the inversion of `Core.step`, one case per program point;
  * `Core.shape`  — the calls of a run are whole bursts followed by the calls of the burst in
                    progress: in a burst, 64 mbufs are obtained and filled in turn, offered
                    together, and the entries `nb_tx .. 63`, those and no others, freed in order;
  * `Core.ledger` — obtained = accepted by the NIC + freed + still in the live part of `bufs`.

  The live part of a core that has returned is what it had obtained of the burst in which the
  allocation failed.  So the error exit gives everything back exactly when the allocation failed
  on the first mbuf of a burst (`nothingHeld_iff`).
-/
import PacketSend.PacketUtils
import PacketSend.Lib.Runs

namespace PacketSend

open Runs

/-! ## The machine -/

/-- A `struct rte_mbuf *`. -/
abbrev Ptr := Nat

/-- What the sender writes through an mbuf pointer. -/
structure TxFields where
  pktLen : BitVec 32
  dataLen : BitVec 16
  pkt : MyPkt
  deriving DecidableEq, Repr

/-- `pkt->idx = 114; pkt->value = 514; pkt_len = data_len = sizeof(my_pkt)`. -/
def sentFields : TxFields := ⟨BitVec.ofNat 32 sizeofMyPkt, BitVec.ofNat 16 sizeofMyPkt, ⟨114, 514⟩⟩

/-- The calls of `packet_send_process`, with their answers. -/
inductive Call where
  | alloc (m : Option Ptr)
  | store (m : Ptr) (f : TxFields)
  | txBurst (bufs : List Ptr) (nbTx : Nat)
  | free (m : Ptr)
  | count (nbTx : Nat)
  deriving DecidableEq, Repr

/-- Where the core is: the call it makes next.  `i` is the loop variable; `returned i` is the
    `return -1` taken when the allocation of entry `i` failed. -/
inductive Pc where
  | alloc (i : Fin burstSize)
  | store (i : Fin burstSize)
  | txBurst
  | free (nbTx : Nat) (i : Fin burstSize)
  | count (nbTx : Nat)
  | returned (i : Fin burstSize)
  deriving DecidableEq, Repr

/-- The variables of one core: the array on its stack, its program point and its elements of the
    global `uint32_t` arrays `total_num` and `burst_num`. -/
structure Core where
  bufs : Vector Ptr burstSize
  pc : Pc
  totalNum : BitVec 32
  burstNum : BitVec 32

/-- The test of the allocation loop. -/
def allocFrom (i : Nat) : Pc := if h : i < burstSize then .alloc ⟨i, h⟩ else .txBurst

/-- The test of the freeing loop (entered with `i = nb_tx`; `nb_tx < BURST_SIZE` is its first
    test). -/
def freeFrom (nbTx i : Nat) : Pc := if h : i < burstSize then .free nbTx ⟨i, h⟩ else .count nbTx

theorem allocFrom_of_lt {i : Nat} (h : i < burstSize) : allocFrom i = .alloc ⟨i, h⟩ := dif_pos h

theorem allocFrom_burstSize : allocFrom burstSize = .txBurst := dif_neg (Nat.lt_irrefl _)

theorem freeFrom_burstSize (nbTx : Nat) : freeFrom nbTx burstSize = .count nbTx :=
  dif_neg (Nat.lt_irrefl _)

/-- A core about to enter the loop, with whatever its stack holds in `bufs`. -/
def Core.init (bufs : Vector Ptr burstSize) : Core := ⟨bufs, allocFrom 0, 0, 0⟩

/-- One call.  `none` if it is not the call the code makes at this point. -/
def Core.step (k : Core) : Call → Option Core
  | .alloc (some m) =>
    match k.pc with
    | .alloc i => some { k with bufs := k.bufs.set i m, pc := .store i }
    | _ => none
  | .alloc none =>
    match k.pc with
    | .alloc i => some { k with pc := .returned i }
    | _ => none
  | .store m f =>
    match k.pc with
    | .store i =>
      if m = k.bufs[i] ∧ f = sentFields then some { k with pc := allocFrom (i + 1) } else none
    | _ => none
  | .txBurst bs nbTx =>
    match k.pc with
    | .txBurst =>
      if bs = k.bufs.toList ∧ nbTx ≤ burstSize then some { k with pc := freeFrom nbTx nbTx }
      else none
    | _ => none
  | .free m =>
    match k.pc with
    | .free nbTx i =>
      if m = k.bufs[i] then some { k with pc := freeFrom nbTx (i + 1) } else none
    | _ => none
  | .count nbTx =>
    match k.pc with
    | .count n =>
      if nbTx = n then
        some { k with
          totalNum := k.totalNum + BitVec.ofNat 32 nbTx
          burstNum := k.burstNum + 1
          pc := allocFrom 0 }
      else none
    | _ => none

/-- What a step of the core can be: one case per program point. -/
inductive CoreStep (k : Core) : Call → Core → Prop where
  | alloc {i : Fin burstSize} (m : Ptr) (hpc : k.pc = .alloc i) :
      CoreStep k (.alloc (some m)) { k with bufs := k.bufs.set i m, pc := .store i }
  | allocFail {i : Fin burstSize} (hpc : k.pc = .alloc i) :
      CoreStep k (.alloc none) { k with pc := .returned i }
  | store {i : Fin burstSize} (hpc : k.pc = .store i) :
      CoreStep k (.store k.bufs[i] sentFields) { k with pc := allocFrom (i + 1) }
  | txBurst {nbTx : Nat} (hpc : k.pc = .txBurst) (hle : nbTx ≤ burstSize) :
      CoreStep k (.txBurst k.bufs.toList nbTx) { k with pc := freeFrom nbTx nbTx }
  | free {nbTx : Nat} {i : Fin burstSize} (hpc : k.pc = .free nbTx i) :
      CoreStep k (.free k.bufs[i]) { k with pc := freeFrom nbTx (i + 1) }
  | count {nbTx : Nat} (hpc : k.pc = .count nbTx) :
      CoreStep k (.count nbTx) { k with
        totalNum := k.totalNum + BitVec.ofNat 32 nbTx
        burstNum := k.burstNum + 1
        pc := allocFrom 0 }

/-- The inversion of `Core.step`. -/
theorem Core.step_inv {k k' : Core} {c : Call} (h : k.step c = some k') : CoreStep k c k' := by
  unfold Core.step at h
  split at h
  · split at h
    · obtain rfl := Option.some.inj h
      exact CoreStep.alloc _ ‹_›
    · nomatch h
  · split at h
    · obtain rfl := Option.some.inj h
      exact CoreStep.allocFail ‹_›
    · nomatch h
  · split at h
    · split at h
      · rename_i hcall
        obtain ⟨rfl, rfl⟩ := hcall
        obtain rfl := Option.some.inj h
        exact CoreStep.store ‹_›
      · nomatch h
    · nomatch h
  · split at h
    · split at h
      · rename_i hcall
        obtain ⟨rfl, hle⟩ := hcall
        obtain rfl := Option.some.inj h
        exact CoreStep.txBurst ‹_› hle
      · nomatch h
    · nomatch h
  · split at h
    · split at h
      · rename_i hcall
        obtain rfl := hcall
        obtain rfl := Option.some.inj h
        exact CoreStep.free ‹_›
      · nomatch h
    · nomatch h
  · split at h
    · split at h
      · rename_i hcall
        obtain rfl := hcall
        obtain rfl := Option.some.inj h
        exact CoreStep.count ‹_›
      · nomatch h
    · nomatch h

/-- Every `CoreStep` is a step. -/
theorem CoreStep.step_eq {k k' : Core} {c : Call} (h : CoreStep k c k') : k.step c = some k' := by
  cases h with
  | alloc m hpc => simp only [Core.step, hpc]
  | allocFail hpc => simp only [Core.step, hpc]
  | store hpc => simp only [Core.step, hpc, and_self, if_true]
  | txBurst hpc hle => simp only [Core.step, hpc, hle, and_self, if_true]
  | free hpc => simp only [Core.step, hpc, if_true]
  | count hpc => simp only [Core.step, hpc, if_true]

/-! ## The live part of `bufs` -/

/-- The entries of `bufs` the core has obtained and not yet handed to the NIC or freed. -/
def Core.live (k : Core) : List Ptr :=
  match k.pc with
  | .alloc i => k.bufs.toList.take i
  | .store i => k.bufs.toList.take (i + 1)
  | .txBurst => k.bufs.toList
  | .free _ i => k.bufs.toList.drop i
  | .count _ => []
  | .returned i => k.bufs.toList.take i

theorem toList_length (v : Vector Ptr burstSize) : v.toList.length = burstSize :=
  Vector.length_toList

/-- At the test of the allocation loop, the entries below `i` are live. -/
theorem Core.live_of_allocFrom {k : Core} {i : Nat} (hpc : k.pc = allocFrom i)
    (h : i ≤ burstSize) : k.live = k.bufs.toList.take i := by
  rw [Core.live, hpc, allocFrom]
  by_cases hi : i < burstSize
  · rw [dif_pos hi]
  · rw [dif_neg hi, List.take_of_length_le (by rw [toList_length]; omega)]

/-- At the test of the freeing loop, the entries from `i` on are live. -/
theorem Core.live_of_freeFrom {k : Core} {nbTx i : Nat} (hpc : k.pc = freeFrom nbTx i) :
    k.live = k.bufs.toList.drop i := by
  rw [Core.live, hpc, freeFrom]
  by_cases hi : i < burstSize
  · rw [dif_pos hi]
  · rw [dif_neg hi, List.drop_of_length_le (by rw [toList_length]; omega)]

theorem Core.live_init (bufs : Vector Ptr burstSize) : (Core.init bufs).live = [] :=
  Core.live_of_allocFrom rfl (Nat.zero_le _)

/-- Obtaining entry `i` extends the live prefix by the new pointer. -/
theorem take_set (v : Vector Ptr burstSize) (i : Fin burstSize) (m : Ptr) :
    (v.set i m).toList.take (i + 1) = v.toList.take i ++ [m] := by
  have hi : i.val < v.toList.length := by rw [toList_length]; exact i.isLt
  rw [Vector.toList_set, List.take_add_one, List.take_set_of_le (Nat.le_refl _),
    List.getElem?_set_self hi]
  rfl

/-- The live suffix from `i` on starts with entry `i`. -/
theorem drop_eq_append (v : Vector Ptr burstSize) (i : Fin burstSize) :
    v.toList.drop i = [v[i]] ++ v.toList.drop (i + 1) := by
  have hi : i.val < v.toList.length := by rw [toList_length]; exact i.isLt
  exact List.drop_eq_getElem_cons hi

/-! ## The ledger -/

/-- The mbufs obtained from the pool, in order, once for each time they were obtained. -/
def obtained (cs : List Call) : List Ptr :=
  cs.flatMap fun c => match c with
    | .alloc (some m) => [m]
    | _ => []

/-- The mbufs the NIC accepted: the first `nb_tx` of each burst. -/
def accepted (cs : List Call) : List Ptr :=
  cs.flatMap fun c => match c with
    | .txBurst bs nbTx => bs.take nbTx
    | _ => []

/-- The mbufs given back with `rte_pktmbuf_free`. -/
def freed (cs : List Call) : List Ptr :=
  cs.flatMap fun c => match c with
    | .free m => [m]
    | _ => []

theorem obtained_snoc (cs : List Call) (c : Call) :
    obtained (cs ++ [c]) = obtained cs ++ obtained [c] := List.flatMap_append

theorem accepted_snoc (cs : List Call) (c : Call) :
    accepted (cs ++ [c]) = accepted cs ++ accepted [c] := List.flatMap_append

theorem freed_snoc (cs : List Call) (c : Call) : freed (cs ++ [c]) = freed cs ++ freed [c] :=
  List.flatMap_append

/-- **What a step does to the live part**, for all program points at once: with what it obtains
    appended, and what it hands to the NIC or frees taken off the front, it is the live part after
    the step. -/
theorem Core.step_live {k k' : Core} {c : Call} (h : k.step c = some k') :
    k.live ++ obtained [c] = accepted [c] ++ freed [c] ++ k'.live := by
  cases Core.step_inv h with
  | @alloc i m hpc =>
    have hlive : k.live = k.bufs.toList.take i := by rw [Core.live, hpc]
    rw [hlive]
    exact (take_set k.bufs i m).symm
  | @allocFail i hpc =>
    have hlive : k.live = k.bufs.toList.take i := by rw [Core.live, hpc]
    rw [hlive]
    exact List.append_nil _
  | @store i hpc =>
    have hlive : k.live = k.bufs.toList.take (i + 1) := by rw [Core.live, hpc]
    have hlive' : Core.live { k with pc := allocFrom (i + 1) } = k.bufs.toList.take (i + 1) :=
      Core.live_of_allocFrom rfl i.isLt
    rw [hlive, hlive']
    exact List.append_nil _
  | @txBurst nbTx hpc hle =>
    have hlive : k.live = k.bufs.toList := by rw [Core.live, hpc]
    have hlive' : Core.live { k with pc := freeFrom nbTx nbTx } = k.bufs.toList.drop nbTx :=
      Core.live_of_freeFrom rfl
    have hacc : accepted [.txBurst k.bufs.toList nbTx] = k.bufs.toList.take nbTx :=
      List.append_nil _
    rw [hlive, hlive', hacc]
    show k.bufs.toList ++ [] = k.bufs.toList.take nbTx ++ [] ++ k.bufs.toList.drop nbTx
    rw [List.append_nil, List.append_nil, List.take_append_drop]
  | @free nbTx i hpc =>
    have hlive : k.live = k.bufs.toList.drop i := by rw [Core.live, hpc]
    have hlive' : Core.live { k with pc := freeFrom nbTx (i + 1) } = k.bufs.toList.drop (i + 1) :=
      Core.live_of_freeFrom rfl
    rw [hlive, hlive']
    exact (List.append_nil _).trans (drop_eq_append k.bufs i)
  | @count nbTx hpc =>
    have hlive : k.live = [] := by rw [Core.live, hpc]
    have hlive' : Core.live { k with
        totalNum := k.totalNum + BitVec.ofNat 32 nbTx
        burstNum := k.burstNum + 1
        pc := allocFrom 0 } = [] := Core.live_of_allocFrom rfl (Nat.zero_le _)
    rw [hlive, hlive']
    rfl

/-- **The ledger of a core.**  Counted as often as it was obtained, every mbuf has been accepted
    by the NIC, freed, or is in the live part of `bufs`. -/
theorem Core.ledger {bufs : Vector Ptr burstSize} {cs : List Call} {k : Core}
    (h : Run Core.step (Core.init bufs) cs k) (m : Ptr) :
    (obtained cs).count m = (accepted cs).count m + (freed cs).count m + k.live.count m := by
  refine h.history (P := fun cs k => (obtained cs).count m
    = (accepted cs).count m + (freed cs).count m + k.live.count m) ?_ ?_
  · rw [Core.live_init]
    rfl
  · intro cs k c k' ih hstep
    have hlive := congrArg (List.count m) (Core.step_live hstep)
    simp only [List.count_append] at hlive
    rw [obtained_snoc, accepted_snoc, freed_snoc, List.count_append, List.count_append,
      List.count_append]
    omega

/-! ## The calls of a run, burst by burst -/

/-- The calls that fill entries with the mbufs `ms`: each is obtained, then written. -/
def fillCalls (ms : List Ptr) : List Call :=
  ms.flatMap fun m => [.alloc (some m), .store m sentFields]

/-- A completed iteration of the `while`: the full array and the answer to its burst. -/
structure Burst where
  bufs : List Ptr
  nbTx : Nat
  full : bufs.length = burstSize
  sent : nbTx ≤ burstSize

/-- The calls of an iteration up to and including the burst. -/
def offerCalls (bufs : List Ptr) (nbTx : Nat) : List Call := fillCalls bufs ++ [.txBurst bufs nbTx]

/-- The calls of a completed iteration: fill all entries, offer them together, free the entries
    from `nb_tx` on in order, count. -/
def Burst.calls (b : Burst) : List Call :=
  offerCalls b.bufs b.nbTx ++ (b.bufs.drop b.nbTx).map Call.free ++ [.count b.nbTx]

/-- The calls made so far in the iteration in progress. -/
def Core.pending (k : Core) : List Call :=
  match k.pc with
  | .alloc i => fillCalls (k.bufs.toList.take i)
  | .store i => fillCalls (k.bufs.toList.take i) ++ [.alloc (some k.bufs[i])]
  | .txBurst => fillCalls k.bufs.toList
  | .free nbTx i => offerCalls k.bufs.toList nbTx ++
      ((k.bufs.toList.drop nbTx).take (i - nbTx)).map Call.free
  | .count nbTx => offerCalls k.bufs.toList nbTx ++ (k.bufs.toList.drop nbTx).map Call.free
  | .returned i => fillCalls (k.bufs.toList.take i) ++ [.alloc none]

/-- The answer to the last burst is in range, and the freeing loop starts there. -/
def Core.Sound (k : Core) : Prop :=
  match k.pc with
  | .free nbTx i => nbTx ≤ i
  | .count nbTx => nbTx ≤ burstSize
  | _ => True

theorem Core.pending_of_allocFrom {k : Core} {i : Nat} (hpc : k.pc = allocFrom i)
    (h : i ≤ burstSize) : k.pending = fillCalls (k.bufs.toList.take i) := by
  rw [Core.pending, hpc, allocFrom]
  by_cases hi : i < burstSize
  · rw [dif_pos hi]
  · rw [dif_neg hi, List.take_of_length_le (by rw [toList_length]; omega)]

theorem Core.pending_of_freeFrom {k : Core} {nbTx i : Nat} (hpc : k.pc = freeFrom nbTx i) :
    k.pending = offerCalls k.bufs.toList nbTx ++
      ((k.bufs.toList.drop nbTx).take (i - nbTx)).map Call.free := by
  rw [Core.pending, hpc, freeFrom]
  by_cases hi : i < burstSize
  · rw [dif_pos hi]
  · rw [dif_neg hi, List.take_of_length_le (by rw [List.length_drop, toList_length]; omega)]

theorem Core.sound_of_allocFrom {k : Core} (i : Nat) (hpc : k.pc = allocFrom i) : k.Sound := by
  rw [Core.Sound, hpc, allocFrom]
  by_cases hi : i < burstSize
  · rw [dif_pos hi]
    trivial
  · rw [dif_neg hi]
    trivial

theorem Core.sound_of_freeFrom {k : Core} {nbTx i : Nat} (hpc : k.pc = freeFrom nbTx i)
    (hle : nbTx ≤ i) (hle' : nbTx ≤ burstSize) : k.Sound := by
  rw [Core.Sound, hpc, freeFrom]
  by_cases hi : i < burstSize
  · rw [dif_pos hi]
    exact hle
  · rw [dif_neg hi]
    exact hle'

theorem fillCalls_append (ms ns : List Ptr) :
    fillCalls (ms ++ ns) = fillCalls ms ++ fillCalls ns := List.flatMap_append

/-- One entry can be filled with any mbuf. -/
theorem Core.fill_one (m : Ptr) {k : Core} {i : Fin burstSize} (hpc : k.pc = .alloc i) :
    ∃ k', Run Core.step k (fillCalls [m]) k' ∧ k'.pc = allocFrom (i + 1) := by
  have halloc := (CoreStep.alloc m hpc).step_eq
  have hstore := (CoreStep.store (k := { k with bufs := k.bufs.set i m, pc := .store i })
    rfl).step_eq
  have hget : (k.bufs.set i m)[i] = m := Vector.getElem_set_self _
  rw [hget] at hstore
  exact ⟨_, (Run.single halloc).snoc hstore, rfl⟩

/-- The allocation loop can fill the entries up to `j`, with some mbuf each time. -/
theorem Core.fill_run (m : Ptr) {k : Core} (hpc : k.pc = allocFrom 0) : ∀ j, j ≤ burstSize →
    ∃ k', Run Core.step k (fillCalls (List.replicate j m)) k' ∧ k'.pc = allocFrom j
  | 0, _ => ⟨k, Run.nil, hpc⟩
  | j + 1, hj => by
    obtain ⟨k₁, hrun, hpc₁⟩ := Core.fill_run m hpc j (Nat.le_of_succ_le hj)
    have hlt : j < burstSize := hj
    obtain ⟨k₂, hone, hpc₂⟩ := Core.fill_one m (hpc₁.trans (allocFrom_of_lt hlt))
    rw [List.replicate_succ', fillCalls_append]
    exact ⟨k₂, hrun.trans hone, hpc₂⟩

/-- One more free call: the freeing loop has reached entry `i`. -/
theorem take_drop_succ (v : Vector Ptr burstSize) {nbTx : Nat} (i : Fin burstSize)
    (h : nbTx ≤ i.val) : (v.toList.drop nbTx).take (i + 1 - nbTx)
      = (v.toList.drop nbTx).take (i - nbTx) ++ [v[i]] := by
  have hi : i.val < v.toList.length := by rw [toList_length]; exact i.isLt
  rw [show i.val + 1 - nbTx = (i.val - nbTx) + 1 by omega, List.take_add_one,
    List.getElem?_drop, Nat.add_sub_cancel' h, List.getElem?_eq_getElem hi]
  rfl

/-- **The shape of a run.**  The calls of a core are those of completed iterations followed by
    those of the iteration in progress. -/
theorem Core.shape {bufs : Vector Ptr burstSize} {cs : List Call} {k : Core}
    (h : Run Core.step (Core.init bufs) cs k) :
    ∃ done : List Burst, cs = done.flatMap Burst.calls ++ k.pending := by
  suffices hboth : k.Sound ∧ ∃ done : List Burst, cs = done.flatMap Burst.calls ++ k.pending from
    hboth.2
  refine h.history (P := fun cs k =>
    k.Sound ∧ ∃ done : List Burst, cs = done.flatMap Burst.calls ++ k.pending) ?_ ?_
  · refine ⟨Core.sound_of_allocFrom 0 rfl, [], ?_⟩
    rw [Core.pending_of_allocFrom (rfl : (Core.init bufs).pc = allocFrom 0) (Nat.zero_le _)]
    rfl
  · rintro cs k c k' ⟨hsound, done, hcs⟩ hstep
    -- the call just made extends the iteration in progress, or completes it
    have hgrow : k'.pending = k.pending ++ [c] →
        ∃ done : List Burst, cs ++ [c] = done.flatMap Burst.calls ++ k'.pending := by
      intro hp
      exact ⟨done, by rw [hcs, hp, List.append_assoc]⟩
    cases Core.step_inv hstep with
    | @alloc i m hpc =>
      refine ⟨trivial, hgrow ?_⟩
      have hset : (k.bufs.set i m).toList.take i = k.bufs.toList.take i := by
        rw [Vector.toList_set, List.take_set_of_le (Nat.le_refl _)]
      have hget : (k.bufs.set i m)[i] = m := Vector.getElem_set_self _
      show fillCalls ((k.bufs.set i m).toList.take i) ++ [.alloc (some (k.bufs.set i m)[i])] = _
      rw [hset, hget, Core.pending, hpc]
    | @allocFail i hpc =>
      refine ⟨trivial, hgrow ?_⟩
      rw [Core.pending, Core.pending, hpc]
    | @store i hpc =>
      refine ⟨Core.sound_of_allocFrom (i + 1) rfl, hgrow ?_⟩
      have hi : i.val < k.bufs.toList.length := by rw [toList_length]; exact i.isLt
      rw [Core.pending_of_allocFrom rfl i.isLt, Core.pending, hpc, List.take_add_one,
        List.getElem?_eq_getElem hi, fillCalls_append, List.append_assoc]
      rfl
    | @txBurst nbTx hpc hle =>
      refine ⟨Core.sound_of_freeFrom rfl (Nat.le_refl _) hle, hgrow ?_⟩
      rw [Core.pending_of_freeFrom rfl, Core.pending, hpc, Nat.sub_self, List.take_zero,
        List.map_nil, List.append_nil]
      rfl
    | @free nbTx i hpc =>
      rw [Core.Sound, hpc] at hsound
      refine ⟨Core.sound_of_freeFrom rfl (Nat.le_succ_of_le hsound)
        (Nat.le_trans hsound (Nat.le_of_lt i.isLt)), hgrow ?_⟩
      rw [Core.pending_of_freeFrom rfl, Core.pending, hpc, take_drop_succ k.bufs i hsound,
        List.map_append, List.append_assoc]
      rfl
    | @count nbTx hpc =>
      rw [Core.Sound, hpc] at hsound
      let b : Burst := ⟨k.bufs.toList, nbTx, toList_length _, hsound⟩
      have hlast : [b].flatMap Burst.calls = k.pending ++ [.count nbTx] := by
        rw [List.flatMap_cons, List.flatMap_nil, List.append_nil, Core.pending, hpc]
        rfl
      refine ⟨Core.sound_of_allocFrom 0 rfl, done ++ [b], ?_⟩
      rw [Core.pending_of_allocFrom rfl (Nat.zero_le _), hcs, List.flatMap_append, hlast,
        List.append_assoc, List.append_assoc, List.append_assoc]
      rfl

/-! ## The error exit -/

/-- Nothing a core ever obtained is still with it: every mbuf, as often as it was obtained, was
    accepted by the NIC or freed, and the live part of `bufs` is empty. -/
structure NothingHeld (cs : List Call) (k : Core) : Prop where
  settled : ∀ m, (obtained cs).count m = (accepted cs).count m + (freed cs).count m
  holds : k.live = []

theorem Core.live_returned {k : Core} {i : Fin burstSize} (hpc : k.pc = .returned i) :
    k.live.length = i.val := by
  rw [Core.live, hpc, List.length_take, toList_length]
  exact Nat.min_eq_left (Nat.le_of_lt i.isLt)

/-- **What the error exit gives back.**  After any run that ends with the failure of the
    allocation of entry `i`, the core holds nothing exactly when `i` is 0. -/
theorem nothingHeld_iff {bufs : Vector Ptr burstSize} {cs : List Call} {k : Core}
    {i : Fin burstSize} (h : Run Core.step (Core.init bufs) cs k) (hpc : k.pc = .returned i) :
    NothingHeld cs k ↔ i.val = 0 := by
  have hlen := Core.live_returned hpc
  constructor
  · intro hheld
    rw [← hlen, hheld.holds]
    rfl
  · intro hi
    have hlive : k.live = [] := List.eq_nil_of_length_eq_zero (hlen.trans hi)
    refine ⟨fun m => ?_, hlive⟩
    rw [Core.ledger h m, hlive, List.count_nil, Nat.add_zero]

/-- A burst of the mbufs 0 to 63, of which the NIC accepts 62. -/
def partialBurst : Burst := ⟨List.range burstSize, 62, List.length_range, by decide⟩

/-- The exit at the first allocation after such a burst, of which the core has freed the last two
    mbufs: it returns with nothing. -/
theorem nothingHeld_iff_first : ∃ k : Core,
    Run Core.step (Core.init (Vector.replicate burstSize 0)) (partialBurst.calls ++ [.alloc none])
      k ∧
    k.pc = .returned ⟨0, by decide⟩ ∧ NothingHeld (partialBurst.calls ++ [.alloc none]) k := by
  have hrun : Run Core.step (Core.init (Vector.replicate burstSize 0))
      (partialBurst.calls ++ [.alloc none]) _ := run_of_exec_isSome (by decide +kernel)
  have hpc : ((exec Core.step (Core.init (Vector.replicate burstSize 0))
      (partialBurst.calls ++ [.alloc none])).get (by decide +kernel)).pc
      = .returned ⟨0, by decide⟩ := by
    decide +kernel
  exact ⟨_, hrun, hpc, (nothingHeld_iff hrun hpc).mpr rfl⟩

/-- One mbuf obtained, the next allocation fails: the core returns with an mbuf that nobody will
    ever free. -/
theorem nothingHeld_not_second : ¬ ∀ (cs : List Call) (k : Core) (i : Fin burstSize),
    Run Core.step (Core.init (Vector.replicate burstSize 0)) cs k → k.pc = .returned i →
    NothingHeld cs k := by
  intro hall
  have hrun := run_of_exec Core.step [.alloc (some 5), .store 5 sentFields, .alloc none]
    (Core.init (Vector.replicate burstSize 0)) _ rfl
  have hholds : [5] = [] := (hall _ _ ⟨1, by decide⟩ hrun rfl).holds
  nomatch hholds

end PacketSend
