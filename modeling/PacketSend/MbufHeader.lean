/-
  The header of an mbuf: what `rte_pktmbuf_alloc` sets in it and what `rte_pktmbuf_free` does with
  it before the mbuf goes back to the mempool.

  `rte_pktmbuf_free` walks the segments of a packet.  A segment with one reference is
  re-initialised (`next = NULL`, `nb_segs = 1`) and put back, a segment with more loses one
  reference and stays where it is:

      while (m != NULL) {
          m_next = m->next;
          rte_pktmbuf_free_seg(m);
          m = m_next;
      }

  The successor is read before the segment is freed, because freeing clears it.

  Of the fields, those are here that these functions and the senders read or write.  An mbuf with
  an attached buffer (`rte_pktmbuf_detach`) does not occur in the programs; the model stops there
  (`Prefree.detach`), and every theorem about a free has direct mbufs.
-/
import PacketSend.SendCore
import Mathlib.Logic.Function.Basic

namespace PacketSend

/-! ## The header -/

/-- `struct rte_mbuf`. -/
structure RteMbuf where
  dataOff : BitVec 16
  refcnt : BitVec 16
  nbSegs : BitVec 16
  port : BitVec 16
  olFlags : BitVec 64
  packetType : BitVec 32
  pktLen : BitVec 32
  dataLen : BitVec 16
  vlanTci : BitVec 16
  vlanTciOuter : BitVec 16
  bufLen : BitVec 16
  next : Option Ptr
  txOffload : BitVec 64
  deriving DecidableEq, Repr

/-- `RTE_PKTMBUF_HEADROOM`. -/
def rtePktmbufHeadroom : BitVec 16 := 128

/-- `RTE_MBUF_DEFAULT_BUF_SIZE`, the size of a buffer of the pool. -/
def rteMbufDefaultBufSize : BitVec 16 := 2048 + rtePktmbufHeadroom

/-- `RTE_MBUF_PORT_INVALID`. -/
def rteMbufPortInvalid : BitVec 16 := 65535

/-- `RTE_MBUF_F_EXTERNAL`. -/
def rteMbufFExternal : BitVec 64 := 1#64 <<< 61

/-- `RTE_MBUF_F_INDIRECT`. -/
def rteMbufFIndirect : BitVec 64 := 1#64 <<< 62

namespace RteMbuf

/-- `RTE_MBUF_DIRECT`. -/
def direct (m : RteMbuf) : Prop := m.olFlags &&& (rteMbufFIndirect ||| rteMbufFExternal) = 0

instance (m : RteMbuf) : Decidable m.direct :=
  inferInstanceAs (Decidable (m.olFlags &&& (rteMbufFIndirect ||| rteMbufFExternal) = 0))

/-- The assertions of `__rte_mbuf_raw_sanity_check`: what an mbuf in the mempool must look
    like. -/
structure RawSane (m : RteMbuf) : Prop where
  refcnt : m.refcnt = 1
  next : m.next = none
  nbSegs : m.nbSegs = 1

/-- `rte_pktmbuf_reset_headroom`. -/
def resetHeadroom (m : RteMbuf) : RteMbuf :=
  { m with dataOff := if rtePktmbufHeadroom < m.bufLen then rtePktmbufHeadroom else m.bufLen }

/-- `rte_pktmbuf_reset`. -/
def reset (m : RteMbuf) : RteMbuf :=
  { (resetHeadroom { m with
      next := none
      pktLen := 0
      txOffload := 0
      vlanTci := 0
      vlanTciOuter := 0
      nbSegs := 1
      port := rteMbufPortInvalid
      olFlags := m.olFlags &&& rteMbufFExternal
      packetType := 0 }) with dataLen := 0 }

/-- `next = NULL; nb_segs = 1`, each only if it is not so already. -/
def reinit (m : RteMbuf) : RteMbuf := { m with next := none, nbSegs := 1 }

/-- A packet mbuf of a new pool after any number of allocations and frees of a single segment:
    sane, and with no buffer but its own. -/
structure Clean (m : RteMbuf) : Prop extends RawSane m where
  direct : m.direct

/-- An mbuf as `rte_pktmbuf_pool_create` makes it. -/
def new : RteMbuf where
  dataOff := rtePktmbufHeadroom
  refcnt := 1
  nbSegs := 1
  port := rteMbufPortInvalid
  olFlags := 0
  packetType := 0
  pktLen := 0
  dataLen := 0
  vlanTci := 0
  vlanTciOuter := 0
  bufLen := rteMbufDefaultBufSize
  next := none
  txOffload := 0

theorem new_clean : new.Clean := ⟨⟨rfl, rfl, rfl⟩, by decide⟩

theorem Clean.reset {m : RteMbuf} (h : m.Clean) : m.reset.Clean where
  refcnt := h.refcnt
  next := rfl
  nbSegs := rfl
  direct := by
    show m.olFlags &&& rteMbufFExternal &&& (rteMbufFIndirect ||| rteMbufFExternal) = 0
    have hd : m.olFlags &&& (rteMbufFIndirect ||| rteMbufFExternal) = 0 := h.direct
    rw [BitVec.and_assoc, BitVec.and_comm rteMbufFExternal, ← BitVec.and_assoc, hd]
    exact BitVec.zero_and

theorem reinit_eq {m : RteMbuf} (h : m.RawSane) : m.reinit = m := by
  have hnext := h.next
  have hsegs := h.nbSegs
  cases m
  simp only [reinit, mk.injEq, true_and, and_true]
  exact ⟨hsegs.symm, hnext.symm⟩

/-- After a reset the data starts behind the headroom, and the room behind it is what the buffer
    has beyond the headroom. -/
theorem reset_dataOff {m : RteMbuf} (h : rtePktmbufHeadroom < m.bufLen) :
    m.reset.dataOff = rtePktmbufHeadroom := if_pos h

end RteMbuf

/-! ## Freeing -/

/-- The ways `rte_pktmbuf_prefree_seg` can go: it returns the mbuf, or NULL because there are
    other references, or it detaches a buffer. -/
inductive Prefree where
  | last (m : RteMbuf)
  | shared (m : RteMbuf)
  | detach
  deriving DecidableEq, Repr

/-- `rte_pktmbuf_prefree_seg`. -/
def prefreeSeg (m : RteMbuf) : Prefree :=
  if m.refcnt = 1 then
    if m.direct then .last m.reinit else .detach
  else
    let refcnt := m.refcnt - 1
    if refcnt = 0 then
      if m.direct then .last { m.reinit with refcnt := 1 } else .detach
    else .shared { m with refcnt := refcnt }

/-- `rte_pktmbuf_free_seg`, with the mbufs it puts back. -/
def pktmbufFreeSeg (hdr : Ptr → RteMbuf) (p : Ptr) : Option ((Ptr → RteMbuf) × List Ptr) :=
  match prefreeSeg (hdr p) with
  | .last m => some (Function.update hdr p m, [p])
  | .shared m => some (Function.update hdr p m, [])
  | .detach => none

/-- `rte_pktmbuf_free`, with the mbufs it puts back in order; the loop is cut after `fuel`
    segments. -/
def pktmbufFree : (fuel : Nat) → (Ptr → RteMbuf) → Option Ptr →
    Option ((Ptr → RteMbuf) × List Ptr)
  | _, hdr, none => some (hdr, [])
  | 0, _, some _ => none
  | fuel + 1, hdr, some p =>
    match pktmbufFreeSeg hdr p with
    | none => none
    | some (hdr', back) =>
      (pktmbufFree fuel hdr' (hdr p).next).map fun r => (r.1, back ++ r.2)

/-- `RTE_MBUF_MAX_NB_SEGS`. -/
def rteMbufMaxNbSegs : Nat := 65535

/-- The segments from `start` on are `ps`, and the last one has no successor. -/
def Segments (hdr : Ptr → RteMbuf) : Option Ptr → List Ptr → Prop
  | start, [] => start = none
  | start, p :: ps => start = some p ∧ Segments hdr (hdr p).next ps

/-- What freeing makes of a segment. -/
def freedSeg (m : RteMbuf) : RteMbuf :=
  if m.refcnt = 1 then m.reinit else { m with refcnt := m.refcnt - 1 }

/-- A direct segment is put back exactly if the reference given up is the only one.  The second
    test of the code, after the decrement, is for another thread that frees at the same time. -/
theorem pktmbufFreeSeg_eq {hdr : Ptr → RteMbuf} {p : Ptr} (h : (hdr p).direct) :
    pktmbufFreeSeg hdr p = some (Function.update hdr p (freedSeg (hdr p)),
      if (hdr p).refcnt = 1 then [p] else []) := by
  by_cases hone : (hdr p).refcnt = 1
  · simp only [pktmbufFreeSeg, prefreeSeg, freedSeg, if_pos hone, if_pos h]
  · have hsub : (hdr p).refcnt - 1 ≠ 0 := by
      intro hzero
      exact hone (BitVec.sub_eq_iff_eq_add.mp hzero)
    simp only [pktmbufFreeSeg, prefreeSeg, freedSeg, if_neg hone, if_neg hsub]

/-- Changing a header that is not on the way does not change the way. -/
theorem Segments.update {hdr : Ptr → RteMbuf} {p : Ptr} {m : RteMbuf} :
    ∀ {start : Option Ptr} {ps : List Ptr}, Segments hdr start ps → p ∉ ps →
      Segments (Function.update hdr p m) start ps
  | _, [], h, _ => h
  | _, q :: ps, h, hp => by
    obtain ⟨hstart, hrest⟩ := h
    have hq : q ≠ p := fun heq => hp (heq ▸ List.mem_cons_self)
    refine ⟨hstart, ?_⟩
    rw [Function.update_of_ne hq]
    exact hrest.update (fun hmem => hp (List.mem_cons_of_mem _ hmem))

/-- The headers after the segments `ps` have been freed. -/
def freedHdr (hdr : Ptr → RteMbuf) (ps : List Ptr) : Ptr → RteMbuf :=
  fun p => if p ∈ ps then freedSeg (hdr p) else hdr p

theorem freedHdr_cons {hdr : Ptr → RteMbuf} {p : Ptr} {ps : List Ptr} (hp : p ∉ ps) :
    freedHdr (Function.update hdr p (freedSeg (hdr p))) ps = freedHdr hdr (p :: ps) := by
  funext q
  unfold freedHdr
  by_cases hqp : q = p
  · subst hqp
    rw [if_neg hp, Function.update_self, if_pos List.mem_cons_self]
  · rw [Function.update_of_ne hqp]
    simp only [List.mem_cons, hqp, false_or]

/-- **What `rte_pktmbuf_free` does to a packet** of different direct segments: it puts back those
    with one reference, in order, and takes one reference from each of the others. -/
theorem pktmbufFree_eq : ∀ (ps : List Ptr) (fuel : Nat) {hdr : Ptr → RteMbuf}
    {start : Option Ptr}, Segments hdr start ps → ps.Nodup → (∀ p ∈ ps, (hdr p).direct) →
    ps.length ≤ fuel →
    pktmbufFree fuel hdr start
      = some (freedHdr hdr ps, ps.filter fun p => (hdr p).refcnt = 1)
  | [], fuel, hdr, start, hseg, _, _, _ => by
    obtain rfl : start = none := hseg
    cases fuel <;> rfl
  | p :: ps, 0, _, _, _, _, _, hfuel => nomatch hfuel
  | p :: ps, fuel + 1, hdr, start, hseg, hnd, hdirect, hfuel => by
    obtain ⟨rfl, hrest⟩ := hseg
    obtain ⟨hp, hnd'⟩ := List.nodup_cons.mp hnd
    have hkeep : ∀ q ∈ ps, Function.update hdr p (freedSeg (hdr p)) q = hdr q := fun q hq =>
      Function.update_of_ne (fun heq : q = p => hp (heq ▸ hq)) _ _
    have ih := pktmbufFree_eq ps fuel (hrest.update (m := freedSeg (hdr p)) hp) hnd'
      (fun q hq => by
        rw [hkeep q hq]
        exact hdirect q (List.mem_cons_of_mem _ hq))
      (Nat.le_of_succ_le_succ hfuel)
    have hfilter : (ps.filter fun q => (Function.update hdr p (freedSeg (hdr p)) q).refcnt = 1)
        = ps.filter fun q => (hdr q).refcnt = 1 :=
      List.filter_congr (fun q hq => by rw [hkeep q hq])
    rw [pktmbufFree, pktmbufFreeSeg_eq (hdirect p List.mem_cons_self)]
    simp only [ih, Option.map_some, freedHdr_cons hp, hfilter]
    by_cases hone : (hdr p).refcnt = 1
    · simp only [List.filter_cons, hone, if_true, decide_true]
      rfl
    · simp only [List.filter_cons, hone, if_false, decide_false]
      rfl

/-- A clean segment on its own is put back as it is. -/
theorem pktmbufFree_clean {fuel : Nat} {hdr : Ptr → RteMbuf} {p : Ptr} (h : (hdr p).Clean) :
    pktmbufFree (fuel + 1) hdr (some p) = some (hdr, [p]) := by
  have hseg : Segments hdr (some p) [p] := ⟨rfl, h.next⟩
  have hfree := pktmbufFree_eq [p] (fuel + 1) hseg
    (List.nodup_cons.mpr ⟨List.not_mem_nil, List.nodup_nil⟩)
    (fun q hq => List.mem_singleton.mp hq ▸ h.direct) (Nat.succ_le_succ (Nat.zero_le _))
  have hsame : freedHdr hdr [p] = hdr := by
    funext q
    unfold freedHdr
    by_cases hq : q ∈ [p]
    · obtain rfl := List.mem_singleton.mp hq
      rw [if_pos hq, freedSeg, if_pos h.refcnt, RteMbuf.reinit_eq h.toRawSane]
    · rw [if_neg hq]
  have hall : [p].filter (fun q => (hdr q).refcnt = 1) = [p] := by
    simp only [List.filter_cons, h.refcnt, decide_true, if_true, List.filter_nil]
  rw [hfree, hsame, hall]

/-- What freeing a packet of the segments `ps` has done to the headers, with `back` put back. -/
structure PacketFreed (hdr hdr' : Ptr → RteMbuf) (ps back : List Ptr) : Prop where
  /-- Exactly the segments without another reference have been put back, in order. -/
  back_eq : back = ps.filter fun p => (hdr p).refcnt = 1
  /-- None of them twice. -/
  once : back.Nodup
  /-- They are as the mempool wants them. -/
  sane : ∀ p ∈ back, (hdr' p).RawSane
  /-- The others have lost one reference and nothing else. -/
  shared : ∀ p ∈ ps, p ∉ back → hdr' p = { hdr p with refcnt := (hdr p).refcnt - 1 }
  /-- No other mbuf has been touched. -/
  frame : ∀ p, p ∉ ps → hdr' p = hdr p

/-- **Freeing a packet**, of any direct segments shared with anybody. -/
theorem packet_freed {hdr : Ptr → RteMbuf} {start : Option Ptr} {ps : List Ptr}
    (hseg : Segments hdr start ps) (hnd : ps.Nodup) (hdirect : ∀ p ∈ ps, (hdr p).direct)
    (hlen : ps.length ≤ rteMbufMaxNbSegs) :
    ∃ hdr' back, pktmbufFree rteMbufMaxNbSegs hdr start = some (hdr', back) ∧
      PacketFreed hdr hdr' ps back := by
  refine ⟨_, _, pktmbufFree_eq ps _ hseg hnd hdirect hlen, rfl, hnd.filter _, ?_, ?_, ?_⟩
  · intro p hp
    obtain ⟨hmem, hone⟩ := List.mem_filter.mp hp
    have hone' : (hdr p).refcnt = 1 := of_decide_eq_true hone
    have hfreed : freedHdr hdr ps p = (hdr p).reinit := by
      rw [freedHdr, if_pos hmem, freedSeg, if_pos hone']
    rw [hfreed]
    exact ⟨hone', rfl, rfl⟩
  · intro p hmem hp
    have hone : (hdr p).refcnt ≠ 1 := fun h =>
      hp (List.mem_filter.mpr ⟨hmem, decide_eq_true h⟩)
    rw [freedHdr, if_pos hmem, freedSeg, if_neg hone]
  · intro p hp
    exact if_neg hp

/-- A packet of two segments, the second of them also part of another packet. -/
theorem packet_freed_two :
    let hdr : Ptr → RteMbuf := fun p => { RteMbuf.new with
      refcnt := if p = 7 then 2 else 1
      next := if p = 5 then some 7 else none }
    ∃ hdr' back, pktmbufFree rteMbufMaxNbSegs hdr (some 5) = some (hdr', back) ∧
      PacketFreed hdr hdr' [5, 7] back :=
  packet_freed ⟨rfl, rfl, rfl⟩ (by decide) (by decide) (by decide)

end PacketSend
