/-
  `rte_ring` is a queue.

  The ring used by many producers and many consumers refines the bounded queue of `BulkQueue`:
  an enqueue takes effect when it stores the producers' tail, a dequeue when its compare-and-set
  of the consumers' head succeeds, and the objects a dequeue copies out afterwards are those it
  took at that moment.

  Indices are taken as they are (`Counter Nat`), so that position `x` is the `x`-th object ever
  enqueued and the queue is what lies between the consumers' head and the producers' tail:

      cons.tail ≤ cons.head ≤ prod.tail ≤ prod.head ≤ cons.tail + capacity
         being read       queue        being written

  The first and the last stretch are tiled by the reservations of the threads (`Tickets.Tiled`),
  all four lie in a window shorter than the array, and so different positions are different cells
  (`RingInv`, one lemma for each step that changes something shared).

  What the indices being cut off at 32 bits asks for in return is that no thread falls behind by
  2^31 positions between its load of a head and its compare-and-set: a thread that sleeps there
  while the index goes once around finds the value it expects, and takes a decision on the state
  of the ring 2^32 positions ago.
-/
import PacketSend.Ring
import PacketSend.Lib.Tickets
import PacketSend.Lib.BulkQueue

namespace PacketSend

open Runs Tickets Counter BulkQueue

/-! ## Arithmetic of the indices -/

/-- Positions whose 32 bits agree and that are not far apart are equal. -/
theorem eq_of_bits_eq {a b : Nat} (h : bits a = bits b) (hle : a ≤ b) (hlt : b - a < 2147483648) :
    a = b := by
  have hmod := congrArg BitVec.toNat h
  change (BitVec.ofNat 32 a).toNat = (BitVec.ofNat 32 b).toNat at hmod
  rw [BitVec.toNat_ofNat, BitVec.toNat_ofNat] at hmod
  exact eq_of_mod_eq hmod hle (by omega)

/-- The difference of two indices, as long as it fits. -/
theorem toNat_bits_sub {a b : Nat} (hle : b ≤ a) (hlt : a - b < 4294967296) :
    (bits a - bits b).toNat = a - b := by
  have hsplit : bits a = BitVec.ofNat 32 (a - b) + bits b := by
    show BitVec.ofNat 32 a = BitVec.ofNat 32 (a - b) + BitVec.ofNat 32 b
    rw [← BitVec.ofNat_add, Nat.sub_add_cancel hle]
  rw [hsplit, BitVec.add_sub_cancel, BitVec.toNat_ofNat]
  exact Nat.mod_eq_of_lt hlt

namespace RingConf

variable (conf : RingConf)

theorem size_pos : 0 < conf.size := Nat.lt_trans conf.capacity_pos conf.capacity_lt

theorem size_dvd : conf.size ∣ 4294967296 := by
  obtain ⟨k, hk⟩ := conf.pow
  have hsize := conf.size_le
  have hle : k ≤ 32 := by
    apply (Nat.pow_le_pow_iff_right (a := 2) (by decide)).mp
    rw [← hk]
    exact Nat.le_trans hsize (by decide)
  rw [hk]
  exact Nat.pow_dvd_pow 2 hle

/-- Masking an index is taking it modulo the size. -/
theorem index_bits {C : Type} [Counter C] (head : C) :
    conf.index head = (bits head).toNat % conf.size := by
  obtain ⟨k, hk⟩ := conf.pow
  have hsize := conf.size_le
  have hpos := conf.size_pos
  rw [RingConf.index, BitVec.toNat_and, BitVec.toNat_ofNat,
    Nat.mod_eq_of_lt (a := conf.size - 1) (by omega), hk, Nat.and_two_pow_sub_one_eq_mod]

/-- An index is one of the array. -/
theorem index_lt {C : Type} [Counter C] (head : C) : conf.index head < conf.size := by
  rw [index_bits]
  exact Nat.mod_lt _ conf.size_pos

/-- Without the cut at 32 bits it is the same cell: the size divides 2^32. -/
theorem index_eq (head : Nat) : conf.index head = head % conf.size := by
  rw [index_bits]
  show (BitVec.ofNat 32 head).toNat % conf.size = _
  rw [BitVec.toNat_ofNat]
  exact Nat.mod_mod_of_dvd head conf.size_dvd

/-- The cells follow one another around the ring, also where the index does not fit any more. -/
theorem index_advance {C : Type} [Counter C] (head : C) (k : Nat) :
    conf.index (advance head k) = (conf.index head + k) % conf.size := by
  rw [index_bits, index_bits, bits_advance, BitVec.toNat_add, BitVec.toNat_ofNat,
    Nat.add_mod_mod, Nat.mod_add_mod]
  exact Nat.mod_mod_of_dvd _ conf.size_dvd

/-- **The copy is the plain loop**: unrolled and cut in two, it accesses one cell after the other
    and one object after the other. -/
theorem copyElems64_plain {C : Type} [Counter C] (head : C) {n : Nat} (hn : n ≤ conf.size) :
    copyElems64 conf.size (conf.index head) n
      = (List.range n).map fun k => (conf.index (advance head k), k) := by
  apply List.ext_getElem?
  intro k
  rw [copyElems64, copyElems_eq (conf.index_lt head) hn, List.getElem?_map]
  by_cases hk : k < n
  · rw [if_pos hk, List.getElem?_range hk, Option.map_some, index_advance]
  · rw [if_neg hk, List.getElem?_eq_none (by rw [List.length_range]; omega), Option.map_none]

/-- A ring of eight cells. -/
def eightCells : RingConf := ⟨8, 7, ⟨3, rfl⟩, by decide, by decide, by decide⟩

/-- Six elements from position 4294967293 on, around the end of the array and past the last
    32-bit index. -/
theorem copyElems64_plain_wrap :
    copyElems64 8 (eightCells.index (4294967293 : BitVec 32)) 6
      = (List.range 6).map fun k => (eightCells.index (advance (4294967293 : BitVec 32) k), k) :=
  copyElems64_plain eightCells (4294967293 : BitVec 32) (by decide)

/-- The accesses of a copy, by position. -/
theorem copy_at {head n : Nat} (hn : n ≤ conf.size) (k : Nat) :
    (copyElems64 conf.size (conf.index head) n)[k]?
      = if k < n then some ((head + k) % conf.size, k) else none := by
  rw [copyElems64, copyElems_eq (conf.index_lt head) hn, index_eq, Nat.mod_add_mod]

/-- While the copy goes on, the next access is the one after those made. -/
theorem copy_some {head n k idx j : Nat} (hn : n ≤ conf.size)
    (hat : (copyElems64 conf.size (conf.index head) n)[k]? = some (idx, j)) :
    k < n ∧ (head + k) % conf.size = idx ∧ k = j := by
  rw [conf.copy_at hn] at hat
  by_cases hk : k < n
  · rw [if_pos hk] at hat
    exact ⟨hk, Prod.mk.inj (Option.some.inj hat)⟩
  · rw [if_neg hk] at hat
    cases hat

/-- When it ends, all have been made. -/
theorem copy_none {head n k : Nat} (hn : n ≤ conf.size)
    (hat : (copyElems64 conf.size (conf.index head) n)[k]? = none) : n ≤ k := by
  rw [conf.copy_at hn] at hat
  by_cases hk : k < n
  · rw [if_pos hk] at hat
    cases hat
  · exact Nat.le_of_not_lt hk

end RingConf

/-- No more is moved than is wanted, and no more than is there. -/
theorem toMove_le (b : Behavior) (n : Nat) (avail : BitVec 32) :
    toMove b n avail ≤ n ∧ toMove b n avail ≤ avail.toNat := by
  unfold toMove
  split
  · cases b with
    | queueFixed => exact ⟨Nat.zero_le _, Nat.zero_le _⟩
    | queueVariable => exact ⟨Nat.le_of_lt ‹_›, Nat.le_refl _⟩
  · omega

/-- All or nothing. -/
theorem toMove_fixed {b : Behavior} (hb : b = .queueFixed) {n : Nat} {avail : BitVec 32}
    (h : toMove b n avail ≠ 0) : toMove b n avail = n := by
  unfold toMove at h ⊢
  split
  · rename_i hlt
    rw [if_pos hlt, hb] at h
    exact absurd rfl h
  · rfl

/-! ## The invariant -/

variable {ι α : Type}

/-- The stretch a thread has reserved at the producers' side. -/
def RingThread.prodTicket : RingThread Nat α → Option Stretch
  | .enqCopy _ _ oldHead n _ _ => some ⟨oldHead, n⟩
  | .enqWait _ _ oldHead n _ => some ⟨oldHead, n⟩
  | .enqStore _ _ oldHead n _ => some ⟨oldHead, n⟩
  | _ => none

/-- The stretch a thread has reserved at the consumers' side. -/
def RingThread.consTicket : RingThread Nat α → Option Stretch
  | .deqCopy _ _ oldHead n _ _ => some ⟨oldHead, n⟩
  | .deqWait _ _ oldHead n _ _ => some ⟨oldHead, n⟩
  | .deqStore _ _ oldHead n _ _ => some ⟨oldHead, n⟩
  | _ => none

/-- `n` is what an operation on `max` objects may move. -/
structure Moves (max : Nat) (b : Behavior) (n : Nat) : Prop where
  pos : 0 < n
  le : n ≤ max
  fixed : b = .queueFixed → n = max

/-- The cells from position `start` on hold the first `k` of `objs`. -/
def RingState.Filled (conf : RingConf) (s : RingState ι Nat α) (start : Nat) (objs : List α)
    (k : Nat) : Prop :=
  ∀ j, j < k → objs[j]? = some (s.cells ((start + j) % conf.size))

/-- What is known of a thread at its place in the program.  What it has computed from a head is
    only known to be right as long as the head is still the same: that is what its compare-and-set
    will tell it. -/
def RingState.ThreadOk (conf : RingConf) (s : RingState ι Nat α) (log : List α) :
    RingThread Nat α → Prop
  | .enqTail _ _ oldHead => oldHead ≤ s.prod.head
  | .enqCas objs b oldHead n free => oldHead ≤ s.prod.head ∧ Moves objs.length b n ∧
    (oldHead = s.prod.head →
      oldHead + n ≤ s.cons.tail + conf.capacity ∧ free.toNat ≤ conf.capacity)
  | .enqCopy objs b oldHead n _ i =>
    Moves objs.length b n ∧ i ≤ n ∧ s.Filled conf oldHead objs i
  | .enqWait objs b oldHead n _ => Moves objs.length b n ∧ s.Filled conf oldHead objs n
  | .enqStore objs b oldHead n _ =>
    Moves objs.length b n ∧ s.Filled conf oldHead objs n ∧ oldHead = s.prod.tail
  | .deqTail _ _ oldHead => oldHead ≤ s.cons.head
  | .deqCas max b oldHead n entries => oldHead ≤ s.cons.head ∧ Moves max b n ∧
    (oldHead = s.cons.head → oldHead + n ≤ s.prod.tail ∧ entries.toNat ≤ conf.capacity)
  | .deqCopy _ _ oldHead n _ got =>
    got.length ≤ n ∧ got = (log.drop oldHead).take got.length
  | .deqWait _ _ oldHead n _ got => got = (log.drop oldHead).take n
  | .deqStore _ _ oldHead n _ got => got = (log.drop oldHead).take n ∧ oldHead = s.cons.tail
  | _ => True

/-- The invariant of the ring; `log` is everything that was ever published.  What a position holds
    is in the log from the moment it is published, and in its cell until the consumers' tail has
    passed it. -/
structure RingInv (conf : RingConf) (s : RingState ι Nat α) (log : List α) : Prop where
  prods : Tiled s.prod.tail s.prod.head fun t => (s.thread t).prodTicket
  conss : Tiled s.cons.tail s.cons.head fun t => (s.thread t).consTicket
  published : log.length = s.prod.tail
  order : s.cons.head ≤ s.prod.tail
  room : s.prod.head ≤ s.cons.tail + conf.capacity
  cells : ∀ x, s.cons.tail ≤ x → x < s.prod.tail → log[x]? = some (s.cells (x % conf.size))
  threads : ∀ t, s.ThreadOk conf log (s.thread t)

namespace RingInv

variable {conf : RingConf} {s : RingState ι Nat α} {log : List α}

/-- What is known of a thread at its place. -/
theorem known (h : RingInv conf s log) {t : ι} {th : RingThread Nat α} (ht : s.thread t = th) :
    s.ThreadOk conf log th := by
  rw [← ht]
  exact h.threads t

/-- The order of the indices, and how much the ring holds: what the arithmetic of every step
    starts from. -/
theorem window (h : RingInv conf s log) :
    s.cons.tail ≤ s.cons.head ∧ s.cons.head ≤ s.prod.tail ∧ s.prod.tail ≤ s.prod.head ∧
      s.prod.head ≤ s.cons.tail + conf.capacity ∧ conf.capacity < conf.size ∧
      conf.size ≤ 2147483648 :=
  ⟨h.conss.le, h.order, h.prods.le, h.room, conf.capacity_lt, conf.size_le⟩

/-- Different positions in use are different cells. -/
theorem cell_inj (h : RingInv conf s log) {x y : Nat} (hx : s.cons.tail ≤ x ∧ x < s.prod.head)
    (hy : s.cons.tail ≤ y ∧ y < s.prod.head) (hxy : x % conf.size = y % conf.size) : x = y := by
  have hroom := h.room
  have hcap := conf.capacity_lt
  exact eq_of_mod_eq_of_window hxy (by omega) hx hy

variable [DecidableEq ι]

/-- The reservations after thread `t` has moved to `th`: only its own can be another. -/
theorem prodTicket_update (s : RingState ι Nat α) (t : ι) (th : RingThread Nat α) :
    (fun u => (Function.update s.thread t th u).prodTicket)
      = Function.update (fun u => (s.thread u).prodTicket) t th.prodTicket := by
  funext u
  by_cases hu : u = t
  · rw [hu, Function.update_self, Function.update_self]
  · rw [Function.update_of_ne hu, Function.update_of_ne hu]

/-- The same at the consumers' side. -/
theorem consTicket_update (s : RingState ι Nat α) (t : ι) (th : RingThread Nat α) :
    (fun u => (Function.update s.thread t th u).consTicket)
      = Function.update (fun u => (s.thread u).consTicket) t th.consTicket := by
  funext u
  by_cases hu : u = t
  · rw [hu, Function.update_self, Function.update_self]
  · rw [Function.update_of_ne hu, Function.update_of_ne hu]

/-- The producers' reservations after a step of thread `t` that keeps its own. -/
theorem prods_stay (h : RingInv conf s log) {t : ι} {th : RingThread Nat α}
    (hth : th.prodTicket = (s.thread t).prodTicket) :
    Tiled s.prod.tail s.prod.head fun u => (Function.update s.thread t th u).prodTicket := by
  rw [prodTicket_update, hth, Function.update_eq_self]
  exact h.prods

/-- The consumers' reservations likewise. -/
theorem conss_stay (h : RingInv conf s log) {t : ι} {th : RingThread Nat α}
    (hth : th.consTicket = (s.thread t).consTicket) :
    Tiled s.cons.tail s.cons.head fun u => (Function.update s.thread t th u).consTicket := by
  rw [consTicket_update, hth, Function.update_eq_self]
  exact h.conss

/-- A property of all threads after thread `t` has moved to `th`. -/
theorem forall_update {P : ι → RingThread Nat α → Prop} {t : ι} {th : RingThread Nat α}
    (hself : P t th) (hother : ∀ u, u ≠ t → P u (s.thread u)) (u : ι) :
    P u (Function.update s.thread t th u) := by
  by_cases hu : u = t
  · rw [hu, Function.update_self]
    exact hself
  · rw [Function.update_of_ne hu]
    exact hother u hu

/-- A step that changes nothing shared and no reservation. -/
theorem quiet (h : RingInv conf s log) {t : ι} {th : RingThread Nat α}
    (hprod : th.prodTicket = (s.thread t).prodTicket)
    (hcons : th.consTicket = (s.thread t).consTicket) (hok : s.ThreadOk conf log th) :
    RingInv conf (s.goto t th) log := by
  refine ⟨h.prods_stay hprod, h.conss_stay hcons, h.published, h.order, h.room, h.cells, ?_⟩
  exact forall_update (P := fun _ => s.ThreadOk conf log) hok fun u _ => h.threads u

omit [DecidableEq ι] in
/-- What is known of a thread is still known when the indices have grown, if its own reservation
    and the cells and objects it speaks of are as before. -/
theorem threadOk_mono {s' : RingState ι Nat α} {log' : List α} {th : RingThread Nat α}
    (hok : s.ThreadOk conf log th) (hprod : s.prod.head ≤ s'.prod.head)
    (hprod' : s.prod.tail ≤ s'.prod.tail) (hcons : s.cons.head ≤ s'.cons.head)
    (hcons' : s.cons.tail ≤ s'.cons.tail)
    (hfilled : ∀ r objs k, th.prodTicket = some r → k ≤ r.length →
      s.Filled conf r.start objs k → s'.Filled conf r.start objs k)
    (hturn : ∀ r, th.prodTicket = some r → r.start = s.prod.tail → r.start = s'.prod.tail)
    (hturn' : ∀ r, th.consTicket = some r → r.start = s.cons.tail → r.start = s'.cons.tail)
    (hlog : ∀ r k, th.consTicket = some r → k ≤ r.length →
      (log'.drop r.start).take k = (log.drop r.start).take k) :
    s'.ThreadOk conf log' th := by
  cases th with
  | enqTail objs b oldHead => exact Nat.le_trans hok hprod
  | enqCas objs b oldHead n free =>
    obtain ⟨hle, hmoves, hroom⟩ := hok
    refine ⟨Nat.le_trans hle hprod, hmoves, fun heq => ?_⟩
    -- a head that is current now was current before
    obtain ⟨hnow, hfree⟩ := hroom (Nat.le_antisymm hle (heq ▸ hprod))
    exact ⟨by omega, hfree⟩
  | enqCopy objs b oldHead n free i =>
    obtain ⟨hmoves, hi, hfill⟩ := hok
    exact ⟨hmoves, hi, hfilled ⟨oldHead, n⟩ objs i rfl hi hfill⟩
  | enqWait objs b oldHead n free =>
    obtain ⟨hmoves, hfill⟩ := hok
    exact ⟨hmoves, hfilled ⟨oldHead, n⟩ objs n rfl (Nat.le_refl n) hfill⟩
  | enqStore objs b oldHead n free =>
    obtain ⟨hmoves, hfill, hfirst⟩ := hok
    exact ⟨hmoves, hfilled ⟨oldHead, n⟩ objs n rfl (Nat.le_refl n) hfill,
      hturn ⟨oldHead, n⟩ rfl hfirst⟩
  | deqTail max b oldHead => exact Nat.le_trans hok hcons
  | deqCas max b oldHead n entries =>
    obtain ⟨hle, hmoves, hthere⟩ := hok
    refine ⟨Nat.le_trans hle hcons, hmoves, fun heq => ?_⟩
    obtain ⟨hnow, hentries⟩ := hthere (Nat.le_antisymm hle (heq ▸ hcons))
    exact ⟨by omega, hentries⟩
  | deqCopy max b oldHead n entries got =>
    obtain ⟨hle, hgot⟩ := hok
    exact ⟨hle, hgot.trans (hlog ⟨oldHead, n⟩ got.length rfl hle).symm⟩
  | deqWait max b oldHead n entries got =>
    exact Eq.trans hok (hlog ⟨oldHead, n⟩ n rfl (Nat.le_refl n)).symm
  | deqStore max b oldHead n entries got =>
    obtain ⟨hgot, hfirst⟩ := hok
    exact ⟨hgot.trans (hlog ⟨oldHead, n⟩ n rfl (Nat.le_refl n)).symm,
      hturn' ⟨oldHead, n⟩ rfl hfirst⟩
  | _ => trivial

/-! ## The steps that change something shared -/

/-- A producer's compare-and-set: its stretch is reserved.  There is room for it because the head
    is the one it has computed the room from. -/
theorem reserve_prod (h : RingInv conf s log) {t : ι} {objs : List α} {b : Behavior} {n : Nat}
    {free : BitVec 32} (ht : s.thread t = .enqCas objs b s.prod.head n free) :
    RingInv conf ({ s with prod := ⟨s.prod.head + n, s.prod.tail⟩ }.goto t
      (.enqCopy objs b s.prod.head n free 0)) log := by
  obtain ⟨-, hmoves, hroom⟩ := h.known ht
  refine ⟨?_, ?_, h.published, h.order, (hroom rfl).1, h.cells, ?_⟩
  · show Tiled s.prod.tail (s.prod.head + n) fun u => (Function.update s.thread t _ u).prodTicket
    rw [prodTicket_update]
    exact h.prods.reserve (by rw [ht]; rfl) hmoves.pos
  · exact h.conss_stay (by rw [ht]; rfl)
  · refine forall_update ⟨hmoves, Nat.zero_le n, fun j hj => absurd hj (Nat.not_lt_zero j)⟩ ?_
    intro u _
    exact threadOk_mono (h.threads u) (Nat.le_add_right _ _) (Nat.le_refl _) (Nat.le_refl _)
      (Nat.le_refl _) (fun _ _ _ _ _ hf => hf) (fun _ _ hr => hr) (fun _ _ hr => hr)
      (fun _ _ _ _ => rfl)

/-- A producer stores an object in a cell of its stretch.  Neither the objects in the queue nor
    what other producers have written is touched: their positions are others, all within the
    window, and so are their cells. -/
theorem write_cell (h : RingInv conf s log) {t : ι} {objs : List α} {b : Behavior}
    {oldHead n i : Nat} {free : BitVec 32} {x : α}
    (ht : s.thread t = .enqCopy objs b oldHead n free i) (hi : i < n) (hx : objs[i]? = some x) :
    RingInv conf ({ s with
      cells := Function.update s.cells ((oldHead + i) % conf.size) x }.goto t
        (.enqCopy objs b oldHead n free (i + 1))) log := by
  obtain ⟨hmoves, -, hfill⟩ := h.known ht
  obtain ⟨-, hstart, hstop⟩ := h.prods.inside t ⟨oldHead, n⟩ (by rw [ht]; rfl)
  have hstart' : s.prod.tail ≤ oldHead := hstart
  have hstop' : oldHead + n ≤ s.prod.head := hstop
  have horder := h.order
  have hle := h.conss.le
  -- no other position in use has this cell
  have hother : ∀ y, s.cons.tail ≤ y → y < s.prod.head → y ≠ oldHead + i →
      Function.update s.cells ((oldHead + i) % conf.size) x (y % conf.size)
        = s.cells (y % conf.size) := by
    intro y hlo hhi hne
    apply Function.update_of_ne
    intro hcell
    exact hne (h.cell_inj ⟨hlo, hhi⟩ ⟨by omega, by omega⟩ hcell)
  refine ⟨?_, ?_, h.published, h.order, h.room, ?_, ?_⟩
  · exact h.prods_stay (by rw [ht]; rfl)
  · exact h.conss_stay (by rw [ht]; rfl)
  · intro y hlo hhi
    have hhi' : y < s.prod.tail := hhi
    have hlo' : s.cons.tail ≤ y := hlo
    show log[y]? = some (Function.update s.cells _ x (y % conf.size))
    rw [hother y hlo' (by omega) (by omega)]
    exact h.cells y hlo' hhi'
  · refine forall_update ⟨hmoves, hi, fun j hj => ?_⟩ (fun u hu => ?_)
    · show objs[j]? = some (Function.update s.cells _ x ((oldHead + j) % conf.size))
      rcases Nat.lt_or_eq_of_le (Nat.le_of_lt_succ hj) with hlt | rfl
      · rw [hother _ (by omega) (by omega) (by omega)]
        exact hfill j hlt
      · rw [Function.update_self]
        exact hx
    · refine threadOk_mono (h.threads u) (Nat.le_refl _) (Nat.le_refl _) (Nat.le_refl _)
        (Nat.le_refl _) ?_ (fun _ _ hr => hr) (fun _ _ hr => hr) (fun _ _ _ _ => rfl)
      -- the stretch of another producer is apart from this one
      intro r objs' k hr hk hf j hj
      obtain ⟨-, hlo, hhi⟩ := h.prods.inside u r hr
      have hhi' : r.start + r.length ≤ s.prod.head := hhi
      have hapart := h.prods.apart u t r ⟨oldHead, n⟩ hu hr (by rw [ht]; rfl)
      have hapart' : r.start + r.length ≤ oldHead ∨ oldHead + n ≤ r.start := hapart
      show objs'[j]? = some (Function.update s.cells _ x ((r.start + j) % conf.size))
      rw [hother _ (by omega) (by omega) (by omega)]
      exact hf j hj

/-- A producer whose turn it is stores the tail: its objects are published, and what its cells hold
    is from now on the end of the log. -/
theorem publish (h : RingInv conf s log) {t : ι} {objs : List α} {b : Behavior}
    {oldHead n : Nat} {free : BitVec 32} (ht : s.thread t = .enqStore objs b oldHead n free) :
    RingInv conf ({ s with prod := ⟨s.prod.head, oldHead + n⟩ }.goto t
      (.enqEnd objs b n free)) (log ++ objs.take n) := by
  obtain ⟨hmoves, hfill, rfl⟩ := h.known ht
  have hpub := h.published
  have hn := hmoves.le
  have horder := h.order
  refine ⟨?_, ?_, ?_, ?_, h.room, ?_, ?_⟩
  · show Tiled (s.prod.tail + n) s.prod.head fun u => (Function.update s.thread t _ u).prodTicket
    rw [prodTicket_update]
    exact h.prods.release (by rw [ht]; rfl)
  · exact h.conss_stay (by rw [ht]; rfl)
  · show (log ++ objs.take n).length = s.prod.tail + n
    rw [List.length_append, List.length_take]
    omega
  · show s.cons.head ≤ s.prod.tail + n
    omega
  · intro y hlo hhi
    have hhi' : y < s.prod.tail + n := hhi
    show (log ++ objs.take n)[y]? = some (s.cells (y % conf.size))
    rcases Nat.lt_or_ge y s.prod.tail with hold | hnew
    · rw [List.getElem?_append_left (by omega)]
      exact h.cells y hlo hold
    · -- a position of this stretch: the cell was filled with the object
      have hfilled := hfill (y - s.prod.tail) (by omega)
      rw [Nat.add_sub_cancel' hnew] at hfilled
      rw [List.getElem?_append_right (by omega), hpub, List.getElem?_take_of_lt (by omega)]
      exact hfilled
  · refine forall_update trivial (fun u hu => ?_)
    refine threadOk_mono (h.threads u) (Nat.le_refl _) (Nat.le_add_right _ _) (Nat.le_refl _)
      (Nat.le_refl _) (fun _ _ _ _ _ hf => hf) ?_ (fun _ _ hr => hr) ?_
    · intro r hr hfirst
      -- two stretches do not start at the tail
      obtain ⟨hpos, -, -⟩ := h.prods.inside u r hr
      have hapart := h.prods.apart u t r ⟨s.prod.tail, n⟩ hu hr (by rw [ht]; rfl)
      have hapart' : r.start + r.length ≤ s.prod.tail ∨ s.prod.tail + n ≤ r.start := hapart
      have hpos' := hmoves.pos
      omega
    · -- what consumers have taken is in the log before what is added
      intro r k hr hk
      obtain ⟨-, -, hhi⟩ := h.conss.inside u r hr
      have hhi' : r.start + r.length ≤ s.cons.head := hhi
      rw [List.drop_append_of_le_length (by omega),
        List.take_append_of_le_length (by rw [List.length_drop]; omega)]

/-- A consumer's compare-and-set: its stretch is taken out of the queue.  The cells keep what they
    hold, and the log does as well; only the place where the queue begins is another. -/
theorem reserve_cons (h : RingInv conf s log) {t : ι} {max : Nat} {b : Behavior} {n : Nat}
    {entries : BitVec 32} (ht : s.thread t = .deqCas max b s.cons.head n entries) :
    RingInv conf ({ s with cons := ⟨s.cons.head + n, s.cons.tail⟩ }.goto t
      (.deqCopy max b s.cons.head n entries [])) log := by
  obtain ⟨-, hmoves, hthere⟩ := h.known ht
  refine ⟨?_, ?_, h.published, (hthere rfl).1, h.room, h.cells, ?_⟩
  · exact h.prods_stay (by rw [ht]; rfl)
  · show Tiled s.cons.tail (s.cons.head + n) fun u => (Function.update s.thread t _ u).consTicket
    rw [consTicket_update]
    exact h.conss.reserve (by rw [ht]; rfl) hmoves.pos
  · refine forall_update ⟨Nat.zero_le n, rfl⟩ (fun u _ => ?_)
    exact threadOk_mono (h.threads u) (Nat.le_refl _) (Nat.le_refl _) (Nat.le_add_right _ _)
      (Nat.le_refl _) (fun _ _ _ _ _ hf => hf) (fun _ _ hr => hr) (fun _ _ hr => hr)
      (fun _ _ _ _ => rfl)

/-- A consumer whose turn it is stores the tail: its cells are free, and the invariant says nothing
    about them any more. -/
theorem release_cons (h : RingInv conf s log) {t : ι} {max : Nat} {b : Behavior}
    {oldHead n : Nat} {entries : BitVec 32} {got : List α}
    (ht : s.thread t = .deqStore max b oldHead n entries got) :
    RingInv conf ({ s with cons := ⟨s.cons.head, oldHead + n⟩ }.goto t
      (.deqEnd max b entries got)) log := by
  obtain ⟨-, rfl⟩ := h.known ht
  have hroom := h.room
  refine ⟨?_, ?_, h.published, h.order, ?_, ?_, ?_⟩
  · exact h.prods_stay (by rw [ht]; rfl)
  · show Tiled (s.cons.tail + n) s.cons.head fun u => (Function.update s.thread t _ u).consTicket
    rw [consTicket_update]
    exact h.conss.release (by rw [ht]; rfl)
  · show s.prod.head ≤ s.cons.tail + n + conf.capacity
    omega
  · intro y hlo hhi
    have hlo' : s.cons.tail + n ≤ y := hlo
    exact h.cells y (by omega) hhi
  · refine forall_update trivial (fun u hu => ?_)
    refine threadOk_mono (h.threads u) (Nat.le_refl _) (Nat.le_refl _) (Nat.le_refl _)
      (Nat.le_add_right _ _) (fun _ _ _ _ _ hf => hf) (fun _ _ hr => hr) ?_ (fun _ _ _ _ => rfl)
    intro r hr hfirst
    obtain ⟨hpos, -, -⟩ := h.conss.inside u r hr
    obtain ⟨hpos', -, -⟩ := h.conss.inside t ⟨s.cons.tail, n⟩ (by rw [ht]; rfl)
    have hapart := h.conss.apart u t r ⟨s.cons.tail, n⟩ hu hr (by rw [ht]; rfl)
    have hapart' : r.start + r.length ≤ s.cons.tail ∨ s.cons.tail + n ≤ r.start := hapart
    have hpos'' : 0 < n := hpos'
    omega

end RingInv
end PacketSend
