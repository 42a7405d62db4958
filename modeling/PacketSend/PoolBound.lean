/-
  How far the mbuf pool of `packet_send` reaches.

  `main` creates one pool of `NUM_MBUFS` mbufs, whatever the number `n` of enabled lcores, and
  gives it to `init_port` for `n` rx queues; `n` cores send from it on `n` tx queues.  Three kinds
  of mbufs are away from the free list:

  * those a started rx queue has taken, at most `RX_RING_SIZE` for each queue (nobody ever polls
    the rx queues, so these never come back);
  * those the NIC has accepted and not completed, at most `TX_RING_SIZE` for each tx queue;
  * those in the live part of a core, at most `BURST_SIZE` for each core.

  Together at most 2112 for each core: with three cores the pool always has an mbuf left, with
  four it need not (`neverDry_iff`).  A full ring does not stop a sender, it frees the rejected
  entries and goes on; an empty pool does, so from four cores on (the four of the usage example
  included) a NIC that is slow for long enough ends a core.

  The machine is that of `SendSystem`, with the environment held to what DPDK promises here: an
  allocation fails only on an empty pool, and a ring holds at most `TX_RING_SIZE` mbufs.
-/
import PacketSend.SendSystem
import Mathlib.Algebra.BigOperators.Fin
import Mathlib.Data.Fintype.Sum
import Mathlib.Data.Fintype.Option
import Mathlib.Algebra.BigOperators.Option
import Mathlib.Data.Fintype.BigOperators

namespace PacketSend

open Runs Places

/-! ## The machine -/

variable {ι κ : Type} [DecidableEq ι] [DecidableEq κ]

/-- What DPDK can answer: NULL only when no mbuf is free, and no more accepted mbufs than the
    ring has descriptors left. -/
def Sys.Allowed (queueId : ι → κ) (s : Sys ι κ) : Event ι κ → Prop
  | .core _ (.alloc none) => s.pool = []
  | .core c (.txBurst _ nbTx) => (s.ring (queueId c)).length + nbTx ≤ txRingSize
  | _ => True

instance (queueId : ι → κ) (s : Sys ι κ) : (e : Event ι κ) → Decidable (s.Allowed queueId e)
  | .core _ (.alloc none) => inferInstanceAs (Decidable (s.pool = []))
  | .core c (.txBurst _ nbTx) =>
    inferInstanceAs (Decidable ((s.ring (queueId c)).length + nbTx ≤ txRingSize))
  | .core _ (.alloc (some _)) => isTrue trivial
  | .core _ (.store _ _) => isTrue trivial
  | .core _ (.free _) => isTrue trivial
  | .core _ (.count _) => isTrue trivial
  | .complete _ _ => isTrue trivial

/-- The machine of `SendSystem` under these answers. -/
def Sys.boundedStep (queueId : ι → κ) : Sys ι κ → Event ι κ → Option (Sys ι κ) :=
  restrict (Sys.Allowed queueId) (Sys.step queueId)

/-- The pool when the cores start: the `NUM_MBUFS` mbufs it was created with, less those the `n`
    rx queues have taken. -/
structure StartPool (n : Nat) where
  mbufs : List Ptr
  pinned : Fin n → Nat
  nodup : mbufs.Nodup
  pinned_le : ∀ r, pinned r ≤ rxRingSize
  total : mbufs.length + ∑ r, pinned r = numMbufs

/-- The start of `n` cores, core `c` on tx queue `c`. -/
def StartPool.init {n : Nat} (u : StartPool n) (stack : Fin n → Vector Ptr burstSize)
    (mem : Ptr → TxFields) : Sys (Fin n) (Fin n) := Sys.init u.mbufs stack mem

/-- The pool of `n` cores never runs dry: in every reachable state, a core that is about to
    allocate finds a free mbuf, and no core has left its loop. -/
def NeverDry (n : Nat) : Prop :=
  ∀ (u : StartPool n) (stack : Fin n → Vector Ptr burstSize) (mem : Ptr → TxFields)
    (es : List (Event (Fin n) (Fin n))) (s : Sys (Fin n) (Fin n)),
    Run (Sys.boundedStep id) (u.init stack mem) es s →
    ∀ c i, ((s.core c).pc = .alloc i → s.pool ≠ []) ∧ (s.core c).pc ≠ .returned i

/-! ## Counting the places -/

/-- The places are the pool, the cores and the rings. -/
def Place.equiv : Place ι κ ≃ Option (ι ⊕ κ) where
  toFun
    | .pool => none
    | .core c => some (.inl c)
    | .ring q => some (.inr q)
  invFun
    | none => .pool
    | some (.inl c) => .core c
    | some (.inr q) => .ring q
  left_inv p := by cases p <;> rfl
  right_inv p := by rcases p with _ | _ | _ <;> rfl

instance [Fintype ι] [Fintype κ] : Fintype (Place ι κ) := Fintype.ofEquiv _ Place.equiv.symm

omit [DecidableEq ι] [DecidableEq κ] in
theorem sum_place [Fintype ι] [Fintype κ] (f : Place ι κ → Nat) :
    ∑ p, f p = f .pool + (∑ c, f (.core c) + ∑ q, f (.ring q)) := by
  rw [← Equiv.sum_comp Place.equiv.symm f, Fintype.sum_option, Fintype.sum_sum_type]
  rfl

/-- The live part is a piece of `bufs`. -/
theorem Core.live_length_le (k : Core) : k.live.length ≤ burstSize := by
  have hlen := toList_length k.bufs
  unfold Core.live
  cases k.pc <;> simp only [List.length_take, List.length_drop, List.length_nil, hlen] <;> omega

/-- A ring never holds more than its descriptors. -/
theorem Sys.ring_length_le {queueId : ι → κ} {U : List Ptr} {stack : ι → Vector Ptr burstSize}
    {mem : Ptr → TxFields} {es : List (Event ι κ)} {s : Sys ι κ}
    (h : Run (Sys.boundedStep queueId) (Sys.init U stack mem) es s) :
    ∀ q, (s.ring q).length ≤ txRingSize := by
  refine h.reachable (P := fun s => ∀ q, (s.ring q).length ≤ txRingSize)
    (fun q => Nat.zero_le _) ?_
  intro s e s' ih hstep q
  obtain ⟨hok, hstep⟩ := restrict_eq_some.mp hstep
  cases Sys.step_inv hstep with
  | @txBurst c bs nbTx k hk =>
    show (Function.update s.ring (queueId c) _ q).length ≤ txRingSize
    by_cases hq : q = queueId c
    · subst hq
      have hroom : (s.ring (queueId c)).length + nbTx ≤ txRingSize := hok
      rw [Function.update_self, List.length_append, List.length_take]
      omega
    · rw [Function.update_of_ne hq]
      exact ih q
  | @complete q' m hm =>
    show (Function.update s.ring q' _ q).length ≤ txRingSize
    by_cases hq : q = q'
    · subst hq
      have hle := List.length_erase_le (a := m) (l := s.ring q)
      have hbound := ih q
      rw [Function.update_self]
      omega
    · rw [Function.update_of_ne hq]
      exact ih q
  | _ => exact ih q

/-- **What is away from the pool**, at most 2112 mbufs for each core. -/
theorem pool_length_ge {n : Nat} (u : StartPool n) {stack : Fin n → Vector Ptr burstSize}
    {mem : Ptr → TxFields} {es : List (Event (Fin n) (Fin n))} {s : Sys (Fin n) (Fin n)}
    (h : Run (Sys.boundedStep id) (u.init stack mem) es s) :
    numMbufs ≤ s.pool.length + n * (burstSize + txRingSize + rxRingSize) := by
  have hsum := (Sys.partition u.nodup h.of_restrict).sum_length u.nodup
  rw [sum_place] at hsum
  have hconst : ∀ {f : Fin n → Nat} {b : Nat}, (∀ i, f i ≤ b) → ∑ i, f i ≤ n * b := by
    intro f b hf
    calc ∑ i, f i ≤ Finset.univ.card • b := Finset.sum_le_card_nsmul _ _ _ (fun i _ => hf i)
      _ = n * b := by rw [Finset.card_univ, Fintype.card_fin, smul_eq_mul]
  have hlive : ∑ c, (s.owned (.core c)).length ≤ n * burstSize :=
    hconst (fun c => (s.core c).live_length_le)
  have hring : ∑ q, (s.owned (.ring q)).length ≤ n * txRingSize :=
    hconst (fun q => Sys.ring_length_le h q)
  have hpin : ∑ r, u.pinned r ≤ n * rxRingSize := hconst u.pinned_le
  have hpool : (s.owned .pool).length = s.pool.length := rfl
  have htotal := u.total
  rw [Nat.mul_add, Nat.mul_add]
  omega

/-! ## At most three cores -/

/-- A core returns only by a failed allocation. -/
theorem Core.step_returned {k k' : Core} {c : Call} {i : Fin burstSize} (h : k.step c = some k')
    (hpc : k'.pc = .returned i) : c = .alloc none := by
  have hallocFrom : ∀ j, allocFrom j ≠ .returned i := by
    intro j hj
    unfold allocFrom at hj
    split at hj <;> nomatch hj
  have hfreeFrom : ∀ nbTx j, freeFrom nbTx j ≠ .returned i := by
    intro nbTx j hj
    unfold freeFrom at hj
    split at hj <;> nomatch hj
  cases Core.step_inv h with
  | allocFail => rfl
  | alloc m => nomatch hpc
  | store => exact (hallocFrom _ hpc).elim
  | txBurst => exact (hfreeFrom _ _ hpc).elim
  | free => exact (hfreeFrom _ _ hpc).elim
  | count =>
    have hpc' : allocFrom 0 = .returned i := hpc
    exact absurd hpc' (hallocFrom 0)

/-- If the pool has an mbuf in every reachable state, no core ever returns. -/
theorem not_returned {queueId : ι → κ} {U : List Ptr} {stack : ι → Vector Ptr burstSize}
    {mem : Ptr → TxFields} (hpool : ∀ (es : List (Event ι κ)) (s : Sys ι κ),
      Run (Sys.boundedStep queueId) (Sys.init U stack mem) es s → s.pool ≠ [])
    {es : List (Event ι κ)} {s : Sys ι κ}
    (h : Run (Sys.boundedStep queueId) (Sys.init U stack mem) es s) (c : ι) (i : Fin burstSize) :
    (s.core c).pc ≠ .returned i := by
  induction h with
  | nil => exact fun hpc => nomatch hpc
  | @snoc es t u e hrun hs ih =>
    intro hpc
    obtain ⟨hok, hstep⟩ := restrict_eq_some.mp hs
    rcases Sys.core_cases hstep c with hsame | ⟨call, rfl, hcore⟩
    · exact ih (hsame ▸ hpc)
    · obtain rfl := Core.step_returned hcore hpc
      exact hpool es t hrun hok

/-- With three cores there is always an mbuf left. -/
theorem neverDry_of_le {n : Nat} (hn : n ≤ 3) : NeverDry n := by
  intro u stack mem es s h c i
  have hpool : ∀ (es : List (Event (Fin n) (Fin n))) (s : Sys (Fin n) (Fin n)),
      Run (Sys.boundedStep id) (u.init stack mem) es s → s.pool ≠ [] := by
    intro es s h hempty
    have hge := pool_length_ge u h
    have hle : n * (burstSize + txRingSize + rxRingSize)
        ≤ 3 * (burstSize + txRingSize + rxRingSize) := Nat.mul_le_mul_right _ hn
    have hlt : 3 * (burstSize + txRingSize + rxRingSize) < numMbufs := by decide
    rw [hempty, List.length_nil] at hge
    omega
  exact ⟨fun _ => hpool es s h, not_returned hpool h c i⟩

/-! ## Four cores and more

  The NIC accepts every burst and completes nothing.  Four rx queues are full; three cores fill
  their rings, a fourth all but 64 descriptors of its own, and is then left with 63 mbufs for a
  burst of 64. -/

/-- From `s`, core `c` alone has moved: `taken` mbufs have left the pool for good, `sent` of them
    are on its ring. -/
structure Advance {n : Nat} (c : Fin n) (s s' : Sys (Fin n) (Fin n)) (taken sent : Nat) :
    Prop where
  run : ∃ es, Run (Sys.boundedStep id) s es s'
  pool : s'.pool.length + taken = s.pool.length
  ring : (s'.ring c).length = (s.ring c).length + sent
  rings : ∀ d, d ≠ c → s'.ring d = s.ring d
  cores : ∀ d, d ≠ c → s'.core d = s.core d

namespace Advance

variable {n : Nat} {c : Fin n} {s s' s'' : Sys (Fin n) (Fin n)} {taken sent taken' sent' : Nat}

theorem refl (c : Fin n) (s : Sys (Fin n) (Fin n)) : Advance c s s 0 0 :=
  ⟨⟨[], Run.nil⟩, rfl, rfl, fun _ _ => rfl, fun _ _ => rfl⟩

theorem trans (h : Advance c s s' taken sent) (h' : Advance c s' s'' taken' sent') :
    Advance c s s'' (taken + taken') (sent + sent') where
  run := by
    obtain ⟨es, hrun⟩ := h.run
    obtain ⟨es', hrun'⟩ := h'.run
    exact ⟨es ++ es', hrun.trans hrun'⟩
  pool := by
    have hp := h.pool
    have hp' := h'.pool
    omega
  ring := by rw [h'.ring, h.ring, Nat.add_assoc]
  rings d hd := (h'.rings d hd).trans (h.rings d hd)
  cores d hd := (h'.cores d hd).trans (h.cores d hd)

/-- One allowed call of core `c`. -/
theorem single {call : Call} (hstep : SysStep id s (.core c call) s')
    (hok : s.Allowed id (.core c call))
    (hpool : s'.pool.length + taken = s.pool.length)
    (hring : (s'.ring c).length = (s.ring c).length + sent)
    (hrings : ∀ d, d ≠ c → s'.ring d = s.ring d) : Advance c s s' taken sent where
  run := ⟨_, Run.single (restrict_eq_some.mpr ⟨hok, hstep.step_eq⟩)⟩
  pool := hpool
  ring := hring
  rings := hrings
  cores := by
    intro d hd
    rcases Sys.core_cases hstep.step_eq d with hsame | ⟨call', he, -⟩
    · exact hsame
    · exact absurd (Event.core.inj he).1 (Ne.symm hd)

end Advance

section Adversary

variable {n : Nat} (c : Fin n) {s : Sys (Fin n) (Fin n)}

theorem alloc_one {i : Fin burstSize} (hpc : (s.core c).pc = .alloc i) (hpool : s.pool ≠ []) :
    ∃ s', Advance c s s' 1 0 ∧ (s'.core c).pc = .store i := by
  obtain ⟨m, hm⟩ := List.exists_mem_of_ne_nil _ hpool
  refine ⟨_, Advance.single (SysStep.alloc (CoreStep.alloc m hpc).step_eq hm) trivial ?_ rfl
    (fun _ _ => rfl), ?_⟩
  · have hlen := List.length_erase_of_mem hm
    have hpos := List.length_pos_of_mem hm
    show (s.pool.erase m).length + 1 = s.pool.length
    omega
  · show (Function.update s.core c _ c).pc = _
    rw [Function.update_self]

theorem store_one {i : Fin burstSize} (hpc : (s.core c).pc = .store i) :
    ∃ s', Advance c s s' 0 0 ∧ (s'.core c).pc = allocFrom (i + 1) := by
  refine ⟨_, Advance.single (SysStep.store (CoreStep.store hpc).step_eq) trivial rfl rfl
    (fun _ _ => rfl), ?_⟩
  show (Function.update s.core c _ c).pc = _
  rw [Function.update_self]

/-- A burst that the NIC accepts completely. -/
theorem txBurst_one (hpc : (s.core c).pc = .txBurst)
    (hring : (s.ring c).length + burstSize ≤ txRingSize) :
    ∃ s', Advance c s s' 0 burstSize ∧ (s'.core c).pc = .count burstSize := by
  refine ⟨_, Advance.single
    (SysStep.txBurst (CoreStep.txBurst hpc (Nat.le_refl burstSize)).step_eq) hring rfl ?_ ?_, ?_⟩
  · show (Function.update s.ring c (s.ring c ++ (s.core c).bufs.toList.take burstSize) c).length = _
    rw [Function.update_self, List.length_append, List.length_take, toList_length, Nat.min_self]
  · intro d hd
    exact Function.update_of_ne hd _ _
  · show (Function.update s.core c _ c).pc = _
    rw [Function.update_self]
    exact freeFrom_burstSize burstSize

theorem count_one {nbTx : Nat} (hpc : (s.core c).pc = .count nbTx) :
    ∃ s', Advance c s s' 0 0 ∧ (s'.core c).pc = allocFrom 0 := by
  refine ⟨_, Advance.single (SysStep.count (CoreStep.count hpc).step_eq) trivial rfl rfl
    (fun _ _ => rfl), ?_⟩
  show (Function.update s.core c _ c).pc = _
  rw [Function.update_self]

/-- The allocation loop from entry `i`, for `j` entries. -/
theorem fill_run (i : Nat) : ∀ (j : Nat) {s : Sys (Fin n) (Fin n)}, i + j ≤ burstSize →
    (s.core c).pc = allocFrom i → j ≤ s.pool.length →
    ∃ s', Advance c s s' j 0 ∧ (s'.core c).pc = allocFrom (i + j)
  | 0, s, _, hpc, _ => ⟨s, Advance.refl c s, hpc⟩
  | j + 1, s, hle, hpc, hpool => by
    obtain ⟨s₁, h₁, hpc₁⟩ := fill_run i j (by omega) hpc (by omega)
    have hi : i + j < burstSize := by omega
    have hpc₁' : (s₁.core c).pc = .alloc ⟨i + j, hi⟩ := hpc₁.trans (allocFrom_of_lt hi)
    have hpool₁ : s₁.pool ≠ [] := by
      have hp := h₁.pool
      exact List.ne_nil_of_length_pos (by omega)
    obtain ⟨s₂, h₂, hpc₂⟩ := alloc_one c hpc₁' hpool₁
    obtain ⟨s₃, h₃, hpc₃⟩ := store_one c hpc₂
    exact ⟨s₃, (h₁.trans h₂).trans h₃, hpc₃⟩

/-- A whole iteration of the `while`, all 64 mbufs accepted. -/
theorem burst_run (hpc : (s.core c).pc = allocFrom 0) (hpool : burstSize ≤ s.pool.length)
    (hring : (s.ring c).length + burstSize ≤ txRingSize) :
    ∃ s', Advance c s s' burstSize burstSize ∧ (s'.core c).pc = allocFrom 0 := by
  obtain ⟨s₁, h₁, hpc₁⟩ := fill_run c 0 burstSize (by omega) hpc hpool
  have hpc₁' : (s₁.core c).pc = .txBurst := by rw [hpc₁, Nat.zero_add, allocFrom_burstSize]
  have hring₁ : (s₁.ring c).length + burstSize ≤ txRingSize := by
    have hr := h₁.ring
    omega
  obtain ⟨s₂, h₂, hpc₂⟩ := txBurst_one c hpc₁' hring₁
  obtain ⟨s₃, h₃, hpc₃⟩ := count_one c hpc₂
  exact ⟨s₃, by simpa using (h₁.trans h₂).trans h₃, hpc₃⟩

/-- `k` iterations of the `while`, all mbufs accepted. -/
theorem bursts_run : ∀ (k : Nat) {s : Sys (Fin n) (Fin n)}, (s.core c).pc = allocFrom 0 →
    k * burstSize ≤ s.pool.length → (s.ring c).length + k * burstSize ≤ txRingSize →
    ∃ s', Advance c s s' (k * burstSize) (k * burstSize) ∧ (s'.core c).pc = allocFrom 0
  | 0, s, hpc, _, _ => ⟨s, by simpa using Advance.refl c s, hpc⟩
  | k + 1, s, hpc, hpool, hring => by
    rw [Nat.succ_mul] at hpool hring ⊢
    obtain ⟨s₁, h₁, hpc₁⟩ := bursts_run k hpc (by omega) (by omega)
    have hp := h₁.pool
    have hr := h₁.ring
    obtain ⟨s₂, h₂, hpc₂⟩ := burst_run c hpc₁ (by omega) (by omega)
    exact ⟨s₂, h₁.trans h₂, hpc₂⟩

end Adversary

/-- The pool of `4 + k` cores when the first four rx queues are full and the others have not
    taken anything. -/
def fullQueues (k : Nat) (mbufs : List Ptr) (nodup : mbufs.Nodup)
    (hlen : mbufs.length + 4 * rxRingSize = numMbufs) : StartPool (4 + k) where
  mbufs := mbufs
  pinned r := if r.val < 4 then rxRingSize else 0
  nodup := nodup
  pinned_le r := by split <;> omega
  total := by
    rw [Fin.sum_univ_add]
    simp only [Fin.val_castAdd, Fin.val_natAdd, Fin.is_lt, if_true, Finset.sum_const,
      Finset.card_univ, Fintype.card_fin, smul_eq_mul]
    rw [Finset.sum_eq_zero (fun i _ => if_neg (by omega))]
    exact hlen

/-- From four cores on there is a run after which a core in the middle of a burst finds the pool
    empty. -/
theorem not_neverDry {n : Nat} (hn : 4 ≤ n) : ¬ NeverDry n := by
  obtain ⟨k, rfl⟩ := Nat.exists_eq_add_of_le hn
  intro hdry
  obtain ⟨U, hU, hlen⟩ : ∃ U : List Ptr, U.Nodup ∧ U.length + 4 * rxRingSize = numMbufs :=
    ⟨List.range 4095, List.nodup_range, by rw [List.length_range]; decide⟩
  let s₀ : Sys (Fin (4 + k)) (Fin (4 + k)) := (fullQueues k U hU hlen).init
    (fun _ => Vector.replicate burstSize 0) (fun _ => sentFields)
  let c (i : Fin 4) : Fin (4 + k) := Fin.castAdd k i
  have hne : ∀ {i j : Fin 4}, i ≠ j → c i ≠ c j := fun h heq => h (Fin.castAdd_injective 4 k heq)
  have hbs : burstSize = 64 := rfl
  have htx : txRingSize = 1024 := rfl
  have hpool₀ : s₀.pool.length + 4 * rxRingSize = numMbufs := hlen
  have hrx : rxRingSize = 1024 := rfl
  have hnum : numMbufs = 8191 := rfl
  -- three cores fill their rings
  obtain ⟨s₁, h₁, -⟩ := bursts_run (c 0) (s := s₀) 16 rfl (by omega)
    (by show 0 + _ ≤ _; omega)
  have hp₁ := h₁.pool
  obtain ⟨s₂, h₂, -⟩ := bursts_run (c 1) (s := s₁) 16
    (by rw [h₁.cores _ (hne (by decide))]; rfl) (by omega)
    (by rw [h₁.rings _ (hne (by decide))]; show 0 + _ ≤ _; omega)
  have hp₂ := h₂.pool
  obtain ⟨s₃, h₃, -⟩ := bursts_run (c 2) (s := s₂) 16
    (by rw [h₂.cores _ (hne (by decide)), h₁.cores _ (hne (by decide))]; rfl) (by omega)
    (by
      rw [h₂.rings _ (hne (by decide)), h₁.rings _ (hne (by decide))]
      show 0 + _ ≤ _
      omega)
  have hp₃ := h₃.pool
  -- the fourth takes the rest: 15 bursts and 63 of the 64 mbufs of the next
  obtain ⟨s₄, h₄, hpc₄⟩ := bursts_run (c 3) (s := s₃) 15
    (by
      rw [h₃.cores _ (hne (by decide)), h₂.cores _ (hne (by decide)),
        h₁.cores _ (hne (by decide))]
      rfl) (by omega)
    (by
      rw [h₃.rings _ (hne (by decide)), h₂.rings _ (hne (by decide)),
        h₁.rings _ (hne (by decide))]
      show 0 + _ ≤ _
      omega)
  have hp₄ := h₄.pool
  obtain ⟨s₅, h₅, hpc₅⟩ := fill_run (c 3) 0 63 (by omega) hpc₄ (by omega)
  have hp₅ := h₅.pool
  obtain ⟨es₁, r₁⟩ := h₁.run
  obtain ⟨es₂, r₂⟩ := h₂.run
  obtain ⟨es₃, r₃⟩ := h₃.run
  obtain ⟨es₄, r₄⟩ := h₄.run
  obtain ⟨es₅, r₅⟩ := h₅.run
  have hrun := (((r₁.trans r₂).trans r₃).trans r₄).trans r₅
  have hlast : (s₅.core (c 3)).pc = .alloc ⟨63, by decide⟩ := hpc₅
  refine (hdry (fullQueues k U hU hlen) _ _ _ s₅ hrun (c 3) ⟨63, by decide⟩).1 hlast ?_
  exact List.eq_nil_of_length_eq_zero (by omega)

/-- **When the pool of `packet_send` never runs dry**: exactly with at most three lcores. -/
theorem neverDry_iff (n : Nat) : NeverDry n ↔ n ≤ 3 := by
  constructor
  · intro h
    by_contra hn
    exact not_neverDry (by omega) h
  · exact neverDry_of_le

/-- The four lcores of the usage example are too many. -/
theorem neverDry_not_four : ¬ NeverDry 4 := not_neverDry (Nat.le_refl 4)

end PacketSend
