/-
  The table accesses of one packet in `main.cpp`, one by one.

      if (pkt->value == array[pkt->idx % ARRAY_SIZE])
          vote[pkt->idx % ARRAY_SIZE] += 1;
      else {
          int index = pkt->idx % ARRAY_SIZE;
          if (index < 0)
              index = 0;
          vote[index] -= 1;
          if (vote[index] <= 0)
              vote[index] = pkt->value;
      }

  `idx` is an `int32_t` (in `packet_utils.h` it is a `uint32_t`), so the remainder is negative for
  most of the negative half of its range.  The mismatch branch knows this and clamps; the
  comparison above it and the match branch use the raw remainder.  `voteAccesses` lists the
  accesses with the index each of them uses, and `exec_voteAccesses` says that carrying them out
  is `voteUpdate`.

  What lies around the tables in memory is a parameter (`Outside`): which branch is taken after a
  comparison out of range depends on it.  Whatever it is, the packet keeps to the one slot it
  belongs to exactly when its `idx` is non-negative or a multiple of the table size
  (`oneSlot_iff`).
-/
import PacketSend.Vote
import PacketSend.Lib.Runs

namespace PacketSend

/-! ## The accesses -/

/-- One access to `array` or `vote`, at the index C computes. -/
inductive TableAccess where
  | readArray (index : Int)
  | readVote (index : Int)
  | writeVote (index : Int) (v : BitVec 32)
  deriving DecidableEq, Repr

/-- The index an access uses. -/
def TableAccess.index : TableAccess → Int
  | .readArray i => i
  | .readVote i => i
  | .writeVote i _ => i

/-- The ints a C program finds when it reads `array[i]` and `vote[i]` outside the tables. -/
structure Outside where
  array : Int → BitVec 32
  vote : Int → BitVec 32

/-- `array[i]`. -/
def Outside.arrayAt (o : Outside) (t : Tables) (i : Int) : BitVec 32 :=
  match cell i with
  | some s => t.array s
  | none => o.array i

/-- `vote[i]`. -/
def Outside.voteAt (o : Outside) (t : Tables) (i : Int) : BitVec 32 :=
  match cell i with
  | some s => t.vote s
  | none => o.vote i

/-- The accesses for one packet, in order: the comparison, then the increment of the match branch
    or the decrement, the test and the replacement of the mismatch branch. -/
def voteAccesses (o : Outside) (t : Tables) (p : MyPkt) : List TableAccess :=
  .readArray (idxRem p) ::
    if p.value = o.arrayAt t (idxRem p) then
      [.readVote (idxRem p), .writeVote (idxRem p) (o.voteAt t (idxRem p) + 1)]
    else
      let index := if idxRem p < 0 then 0 else idxRem p
      let lowered := o.voteAt t index - 1
      [.readVote index, .writeVote index lowered, .readVote index] ++
        if lowered.toInt ≤ 0 then [.writeVote index p.value] else []

/-- The effect of an access on the tables.  `none` if it is out of range. -/
def TableAccess.apply (t : Tables) : TableAccess → Option Tables
  | .readArray i => (cell i).map fun _ => t
  | .readVote i => (cell i).map fun _ => t
  | .writeVote i v => (cell i).map fun s => { t with vote := Function.update t.vote s v }

/-! ## The remainder and the slot -/

theorem cell_eq_none_of_neg {i : Int} (h : i < 0) : cell i = none := by
  unfold cell
  exact dif_neg fun hi => by omega

/-- The remainder of a negative `idx` has the sign of `idx`. -/
theorem idxRem_of_not_routable {p : MyPkt} (h : ¬ Routable p) :
    idxRem p = -(((4294967296 - p.idx.toNat) % 65536 : Nat) : Int) := by
  have hlt := p.idx.isLt
  have hneg : p.idx.toInt = -((4294967296 - p.idx.toNat : Nat) : Int) := by
    have h0 : ¬ 0 ≤ p.idx.toInt := h
    rw [BitVec.toInt_eq_toNat_cond] at h0 ⊢
    split at h0 <;> rename_i hcond
    · omega
    · rw [if_neg hcond]
      omega
  show p.idx.toInt.tmod (65536 : Nat) = _
  rw [hneg, Int.neg_tmod, Int.tmod_eq_emod_of_nonneg (Int.natCast_nonneg _), Int.natCast_emod]

/-- The remainder is non-negative for a non-negative `idx` and for the multiples of the table
    size. -/
theorem idxRem_nonneg_iff (p : MyPkt) :
    0 ≤ idxRem p ↔ Routable p ∨ p.idx.toNat % arraySize = 0 := by
  have hlt := p.idx.isLt
  rcases Decidable.em (Routable p) with h | h
  · have hrem := idxRem_of_routable h
    exact ⟨fun _ => Or.inl h, fun _ => by omega⟩
  · rw [idxRem_of_not_routable h]
    show _ ↔ Routable p ∨ p.idx.toNat % 65536 = 0
    constructor
    · intro h0
      exact Or.inr (by omega)
    · rintro (hr | hmod)
      · exact absurd hr h
      · omega

/-- The remainder is the slot of the packet unless it is negative. -/
theorem idxRem_eq_slotOf_iff (p : MyPkt) : idxRem p = (slotOf p).val ↔ 0 ≤ idxRem p := by
  constructor
  · intro h
    omega
  · intro h0
    have hlt := p.idx.isLt
    rcases Decidable.em (Routable p) with h | h
    · exact idxRem_of_routable h
    · rw [idxRem_of_not_routable h] at h0 ⊢
      show _ = ((p.idx.toNat % 65536 : Nat) : Int)
      omega

/-- Clamping puts the remainder in range: it lies above `-ARRAY_SIZE` and below `ARRAY_SIZE`. -/
theorem cell_clamped (p : MyPkt) : ∃ s, cell (if idxRem p < 0 then 0 else idxRem p) = some s := by
  rcases Int.lt_or_le (idxRem p) 0 with h | h
  · rw [if_pos h]
    exact ⟨⟨0, by decide⟩, dif_pos ⟨by decide, by decide⟩⟩
  · rw [if_neg (by omega), (idxRem_eq_slotOf_iff p).mpr h]
    exact ⟨slotOf p, cell_val _⟩

/-- An update that stays within the tables is one of the slot of the packet. -/
theorem voteUpdate_slots_of_some {t t' : Tables} {p : MyPkt} (h : voteUpdate t p = some t') :
    t'.slots = Keyed.update slotOf slotStep t.slots p := by
  have h0 : 0 ≤ idxRem p := by
    rcases Int.lt_or_le (idxRem p) 0 with hneg | h0
    · rw [voteUpdate, cell_eq_none_of_neg hneg] at h
      nomatch h
    · exact h0
  obtain ⟨t₁, ht₁, hslots⟩ := voteUpdate_slots_of_idxRem t ((idxRem_eq_slotOf_iff p).mpr h0)
  obtain rfl : t' = t₁ := Option.some.inj (h.symm.trans ht₁)
  exact hslots

/-! ## Carrying the accesses out -/

/-- **The accesses are those of the update**: carried out in order, they change the tables as
    `voteUpdate` does, and one of them is out of range exactly when it is undefined. -/
theorem exec_voteAccesses (o : Outside) (t : Tables) (p : MyPkt) :
    Runs.exec TableAccess.apply t (voteAccesses o t p) = voteUpdate t p := by
  unfold voteAccesses voteUpdate
  cases hcell : cell (idxRem p) with
  | none =>
    -- the comparison itself is out of range
    rw [Runs.exec, TableAccess.apply, hcell]
    rfl
  | some slot =>
    have harray : o.arrayAt t (idxRem p) = t.array slot := by rw [Outside.arrayAt, hcell]
    rw [Runs.exec, TableAccess.apply, hcell, harray]
    simp only [Option.map_some, Option.bind_eq_bind, Option.bind_some]
    by_cases hmatch : p.value = t.array slot
    · have hvote : o.voteAt t (idxRem p) = t.vote slot := by rw [Outside.voteAt, hcell]
      rw [if_pos hmatch, if_pos hmatch, hvote]
      simp only [Runs.exec, TableAccess.apply, hcell, Option.map_some]
    · obtain ⟨s, hs⟩ := cell_clamped p
      have hvote : o.voteAt t (if idxRem p < 0 then 0 else idxRem p) = t.vote s := by
        rw [Outside.voteAt, hs]
      rw [if_neg hmatch, if_neg hmatch]
      simp only [hs, hvote, Option.bind_some, Function.update_self]
      by_cases hlow : (t.vote s - 1).toInt ≤ 0
      · rw [if_pos hlow, if_pos hlow]
        simp only [List.cons_append, List.nil_append, Runs.exec, TableAccess.apply, hs,
          Option.map_some]
      · rw [if_neg hlow, if_neg hlow]
        simp only [List.append_nil, Runs.exec, TableAccess.apply, hs, Option.map_some]

/-! ## One slot -/

/-- All accesses made for a packet use the slot the packet belongs to, an index inside the tables;
    and no other element of the tables changes. -/
structure OneSlot (o : Outside) (t : Tables) (p : MyPkt) : Prop where
  index : ∀ a ∈ voteAccesses o t p, a.index = ((p.idx.toNat % arraySize : Nat) : Int)
  inRange : ∀ a ∈ voteAccesses o t p, 0 ≤ a.index ∧ a.index < arraySize
  frame : ∃ t', voteUpdate t p = some t' ∧ ∀ s : Slot, s.val ≠ p.idx.toNat % arraySize →
    t'.array s = t.array s ∧ t'.vote s = t.vote s

/-- The index of every access is the remainder if that is non-negative. -/
theorem index_of_idxRem_nonneg {o : Outside} {t : Tables} {p : MyPkt} (h : 0 ≤ idxRem p) :
    ∀ a ∈ voteAccesses o t p, a.index = idxRem p := by
  intro a ha
  unfold voteAccesses at ha
  rw [if_neg (show ¬ idxRem p < 0 by omega)] at ha
  rcases List.mem_cons.mp ha with rfl | ha
  · rfl
  split at ha
  · rcases List.mem_cons.mp ha with rfl | ha
    · rfl
    · rw [List.mem_singleton.mp ha]
      rfl
  · rcases List.mem_append.mp ha with ha | ha
    · rcases List.mem_cons.mp ha with rfl | ha
      · rfl
      rcases List.mem_cons.mp ha with rfl | ha
      · rfl
      · rw [List.mem_singleton.mp ha]
        rfl
    · split at ha
      · rw [List.mem_singleton.mp ha]
        rfl
      · exact absurd ha List.not_mem_nil

/-- **When a packet keeps to its slot.**  Whatever the tables hold and whatever lies around them,
    the packet keeps to one slot, its own, exactly when its `idx` is non-negative as an `int` or a
    multiple of the table size. -/
theorem oneSlot_iff (o : Outside) (t : Tables) (p : MyPkt) :
    OneSlot o t p ↔ Routable p ∨ p.idx.toNat % arraySize = 0 := by
  rw [← idxRem_nonneg_iff]
  constructor
  · intro h
    have hread := h.index (.readArray (idxRem p)) List.mem_cons_self
    have heq : idxRem p = ((p.idx.toNat % arraySize : Nat) : Int) := hread
    omega
  · intro h
    have hrem := (idxRem_eq_slotOf_iff p).mpr h
    have hindex := index_of_idxRem_nonneg (o := o) (t := t) h
    obtain ⟨t', ht', hslots⟩ := voteUpdate_slots_of_idxRem t hrem
    refine ⟨fun a ha => (hindex a ha).trans hrem, fun a ha => ?_, t', ht', fun s hs => ?_⟩
    · rw [hindex a ha, hrem]
      have hlt := (slotOf p).isLt
      omega
    · have hne : s ≠ slotOf p := fun heq => hs (congrArg Fin.val heq)
      have hcell : t'.slots s = t.slots s := by
        rw [hslots, Keyed.update_of_ne hne]
      exact ⟨congrArg SlotState.cand hcell, congrArg SlotState.count hcell⟩

/-- The packet `(idx, value) = (-1, 5)` belongs to slot 65535 and is compared with `array[-1]`. -/
theorem oneSlot_not_minus_one :
    ¬ OneSlot ⟨fun _ => 0, fun _ => 0⟩ zeroTables ⟨4294967295, 5⟩ := by
  intro h
  have hread := h.inRange (.readArray (idxRem ⟨4294967295, 5⟩)) List.mem_cons_self
  exact absurd hread.1 (by decide)

/-- **Where the other packets go.**  A packet with a negative remainder is compared with an int
    outside `array`; unless the two agree, it lowers the counter of slot 0, which is not its
    slot. -/
theorem charged_slot_zero {o : Outside} {t : Tables} {p : MyPkt} (h : idxRem p < 0)
    (hne : p.value ≠ o.array (idxRem p)) :
    .writeVote 0 (o.voteAt t 0 - 1) ∈ voteAccesses o t p ∧ (slotOf p).val ≠ 0 := by
  have hread : o.arrayAt t (idxRem p) = o.array (idxRem p) := by
    rw [Outside.arrayAt, cell_eq_none_of_neg h]
  constructor
  · unfold voteAccesses
    rw [hread, if_neg hne, if_pos h]
    refine List.mem_cons_of_mem _ (List.mem_append_left _ ?_)
    exact List.mem_cons_of_mem _ List.mem_cons_self
  · intro hzero
    have hmod : p.idx.toNat % arraySize = 0 := hzero
    have h0 := (idxRem_nonneg_iff p).mpr (Or.inr hmod)
    omega

end PacketSend
