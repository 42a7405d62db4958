/-
  The vote table of `main.cpp` under uniform traffic.

  Uniform traffic is what a vote should find easiest: every packet has the same `idx` and the
  same `value`.  The candidate of the slot is 0 and stays 0, so no packet with another value ever
  matches; every packet takes the branch

      vote[index] -= 1;
      if (vote[index] <= 0)
          vote[index] = (int)(pkt->value);

  and what the counter does depends on the sign of the value (`uniformCount`):

  * a positive value `v` makes it a clock: it starts at `v`, runs down to 1 and starts at `v`
    again, with period `v`;
  * a negative value is written anew by every packet (`INT_MIN` apart, where `- 1` overflows);
  * the value 0 matches the candidate, and only then the counter counts.

  So neither the candidate nor the counter ever tells that the traffic was unanimous, unless the
  value is 0 (`receiveLoop_uniform`).
-/
import PacketSend.VoteCount
import PacketSend.RecvOutput

namespace PacketSend

/-! ## The clock -/

/-- The counter of a slot with candidate 0 after `k` packets that all carry `v`. -/
def uniformCount (v : BitVec 32) : Nat → BitVec 32
  | 0 => 0
  | k + 1 =>
    if v = 0 then BitVec.ofNat 32 (k + 1)
    else if 0 < v.toInt then BitVec.ofNat 32 (v.toNat - k % v.toNat)
    else v

theorem toNat_of_toInt_pos {v : BitVec 32} (hv : 0 < v.toInt) :
    0 < v.toNat ∧ v.toNat < 2147483648 := by
  rw [BitVec.toInt_eq_toNat_cond] at hv
  split at hv <;> omega

/-- A number below `2 ^ 31` is an `int`. -/
theorem toInt_ofNat_of_lt {n : Nat} (h : n < 2147483648) : (BitVec.ofNat 32 n).toInt = n := by
  have hn : (BitVec.ofNat 32 n).toNat = n := by
    rw [BitVec.toNat_ofNat]
    exact Nat.mod_eq_of_lt (by omega)
  rw [BitVec.toInt_eq_toNat_of_lt (by omega), hn]

/-- One tick: the remainder goes up by one, or back to zero. -/
theorem succ_mod_cases {v : Nat} (hv : 0 < v) (k : Nat) :
    (k % v + 1 < v ∧ (k + 1) % v = k % v + 1) ∨ (k % v + 1 = v ∧ (k + 1) % v = 0) := by
  have hlt : k % v < v := Nat.mod_lt k hv
  have hsucc : (k + 1) % v = (k % v + 1) % v := by rw [Nat.mod_add_mod]
  rcases Nat.lt_or_eq_of_le (Nat.succ_le_of_lt hlt) with hless | hfull
  · exact Or.inl ⟨hless, by rw [hsucc, Nat.mod_eq_of_lt hless]⟩
  · exact Or.inr ⟨hfull, by rw [hsucc, ← Nat.succ_eq_add_one, hfull, Nat.mod_self]⟩

/-- The counter is overwritten when it has fallen to zero or below. -/
theorem slotStep_low {c : SlotState} {p : MyPkt} (hcand : p.value ≠ c.cand)
    (hlow : (c.count - 1).toInt ≤ 0) : slotStep c p = ⟨c.cand, p.value⟩ := by
  rw [slotStep, if_neg hcand, if_pos hlow]

/-- A positive value: the clock moves by one. -/
theorem slotStep_clock {c : SlotState} {p : MyPkt} {k : Nat} (hcand : p.value ≠ c.cand)
    (hv : 0 < p.value.toInt)
    (hcount : c.count = BitVec.ofNat 32 (p.value.toNat - k % p.value.toNat)) :
    slotStep c p
      = ⟨c.cand, BitVec.ofNat 32 (p.value.toNat - (k + 1) % p.value.toNat)⟩ := by
  obtain ⟨hpos, hlt⟩ := toNat_of_toInt_pos hv
  have hmod : k % p.value.toNat < p.value.toNat := Nat.mod_lt k hpos
  have hint : c.count.toInt = (p.value.toNat - k % p.value.toNat : Nat) := by
    rw [hcount]
    exact toInt_ofNat_of_lt (by omega)
  have hsub : (c.count - 1).toInt = c.count.toInt - 1 := toInt_sub_one (by omega)
  rcases succ_mod_cases hpos k with ⟨hless, hnext⟩ | ⟨hfull, hnext⟩
  · have hhigh : ¬ (c.count - 1).toInt ≤ 0 := by omega
    have hdown : c.count - 1 = BitVec.ofNat 32 (p.value.toNat - (k % p.value.toNat + 1)) := by
      apply BitVec.eq_of_toInt_eq
      rw [hsub, hint, toInt_ofNat_of_lt (by omega)]
      omega
    rw [slotStep, if_neg hcand, if_neg hhigh, hdown, hnext]
  · -- the clock has run down, and starts again at the value
    rw [slotStep_low hcand (by omega), hnext, Nat.sub_zero, BitVec.ofNat_toNat, BitVec.setWidth_eq]

/-- **One packet of uniform traffic**, whatever its value. -/
theorem slotStep_uniform {c : SlotState} {p : MyPkt} {k : Nat} (hcand : c.cand = 0)
    (hmin : -2147483648 < p.value.toInt) (hcount : c.count = uniformCount p.value k) :
    slotStep c p = ⟨c.cand, uniformCount p.value (k + 1)⟩ := by
  rw [uniformCount]
  by_cases h0 : p.value = 0
  · have hk : c.count = BitVec.ofNat 32 k := by
      cases k with
      | zero => exact hcount
      | succ k =>
        rw [hcount, uniformCount, if_pos h0]
    rw [slotStep, if_pos (h0.trans hcand.symm), if_pos h0, hk, BitVec.ofNat_add]
    rfl
  · have hne : p.value ≠ c.cand := fun h => h0 (h.trans hcand)
    rw [if_neg h0]
    cases k with
    | zero =>
      have hlow : (c.count - 1).toInt ≤ 0 := by
        rw [hcount]
        show ((0 : BitVec 32) - 1).toInt ≤ 0
        decide
      rw [slotStep_low hne hlow, Nat.zero_mod, Nat.sub_zero, BitVec.ofNat_toNat,
        BitVec.setWidth_eq]
      split <;> rfl
    | succ k =>
      rw [uniformCount, if_neg h0] at hcount
      by_cases hv : 0 < p.value.toInt
      · rw [if_pos hv] at hcount
        rw [if_pos hv, slotStep_clock hne hv hcount]
      · rw [if_neg hv] at hcount
        have hsub : (c.count - 1).toInt = c.count.toInt - 1 := by
          rw [hcount]
          exact toInt_sub_one (by omega)
        rw [if_neg hv, slotStep_low hne (by rw [hsub, hcount]; omega)]

/-- A slot with candidate 0 after `n` equal packets more. -/
theorem foldl_slotStep_uniform {p : MyPkt} (hmin : -2147483648 < p.value.toInt) (n : Nat)
    (c : SlotState) (k : Nat) (hc : c = ⟨0, uniformCount p.value k⟩) :
    (List.replicate n p).foldl slotStep c = ⟨0, uniformCount p.value (k + n)⟩ := by
  induction n generalizing c k with
  | zero => exact hc
  | succ n ih =>
    have hstep : slotStep c p = ⟨0, uniformCount p.value (k + 1)⟩ := by
      rw [slotStep_uniform (by rw [hc]) hmin (by rw [hc]), hc]
    rw [List.replicate_succ, List.foldl_cons, ih _ (k + 1) hstep, Nat.add_assoc, Nat.add_comm 1 n]

/-! ## The receive loop -/

/-- What `main.cpp` has to show after `k` packets that all decode to `p`: zero everywhere but for
    the counter of one slot, and a line for every tenth packet, each with the fields of `p`. -/
structure UniformLaw (p : MyPkt) (k : Nat) (s : RxState) : Prop where
  array : ∀ t, s.tables.array t = 0
  vote : ∀ t, s.tables.vote t = if t = slotOf p then uniformCount p.value k else 0
  total : s.totalNum = BitVec.ofNat 64 k
  burst : s.burstNum = BitVec.ofNat 64 k
  lines : ∀ l ∈ s.out, l.index = p.idx.toInt ∧ l.value = p.value.toInt

theorem mem_printedLines {ms : List Mbuf} {n : BitVec 64} {l : Line}
    (h : l ∈ printedLines n ms) : ∃ m ∈ ms, l = printLine (ntohlInPlace m.room) := by
  induction ms generalizing n with
  | nil => exact absurd h List.not_mem_nil
  | cons m ms ih =>
    rw [printedLines] at h
    split at h
    · rcases List.mem_cons.mp h with rfl | hmem
      · exact ⟨m, List.mem_cons_self, rfl⟩
      · obtain ⟨m', hm', rfl⟩ := ih hmem
        exact ⟨m', List.mem_cons_of_mem m hm', rfl⟩
    · obtain ⟨m', hm', rfl⟩ := ih h
      exact ⟨m', List.mem_cons_of_mem m hm', rfl⟩

/-- Every packet of an execution was delivered by a poll. -/
theorem mem_order {bs : List Pass} {e : Fin numRxQueues × Mbuf} (h : e ∈ order bs) :
    ∃ b ∈ bs, e.2 ∈ b e.1 := by
  obtain ⟨b, hb, hpass⟩ := List.mem_flatMap.mp h
  obtain ⟨r, -, hpoll⟩ := List.mem_flatMap.mp hpass
  obtain ⟨m, hm, rfl⟩ := List.mem_map.mp hpoll
  exact ⟨b, hb, hm⟩

/-- **Uniform traffic.**  If every packet delivered decodes to `p`, an execution that runs to its
    end has left the tables zero but for the counter of the slot of `p`, and that counter is
    `uniformCount` of the value and the number of packets. -/
theorem receiveLoop_uniform {p : MyPkt} (hmin : -2147483648 < p.value.toInt) {bs : List Pass}
    {s : RxState}
    (h : receiveLoop bs rxInit = .ok s)
    (hall : ∀ b ∈ bs, ∀ r, ∀ m ∈ b r, mainDecode m.room = p) :
    UniformLaw p (order bs).length s := by
  have hdecode : ∀ e ∈ order bs, mainDecode e.2.room = p := by
    intro e he
    obtain ⟨b, hb, hm⟩ := mem_order he
    exact hall b hb e.1 e.2 hm
  have hproc := receiveLoop_processed h
  have hout := mainLoop_output h
  -- the slot of `p` sees all packets, the others none
  have hslots : ∀ t, s.tables.slots t
      = if t = slotOf p then ⟨0, uniformCount p.value (order bs).length⟩ else ⟨0, 0⟩ := by
    intro t
    rw [hproc.slots, Keyed.foldl_update_apply]
    by_cases ht : t = slotOf p
    · have hevery : (order bs).filter (fun e => mbufSlot e = t) = order bs := by
        rw [List.filter_eq_self]
        intro e he
        exact decide_eq_true (by rw [mbufSlot, hdecode e he, ht])
      have hmap : (order bs).map (fun e => mainDecode e.2.room)
          = List.replicate (order bs).length p := by
        rw [List.eq_replicate_iff, List.length_map]
        refine ⟨rfl, fun q hq => ?_⟩
        obtain ⟨e, he, rfl⟩ := List.mem_map.mp hq
        exact hdecode e he
      have hclock := foldl_slotStep_uniform hmin (order bs).length (rxInit.tables.slots t) 0 rfl
      rw [← hmap, List.foldl_map, Nat.zero_add] at hclock
      rw [if_pos ht, hevery]
      exact hclock
    · have hnone : (order bs).filter (fun e => mbufSlot e = t) = [] := by
        rw [List.filter_eq_nil_iff]
        intro e he hmem
        have hslot := of_decide_eq_true hmem
        rw [mbufSlot, hdecode e he] at hslot
        exact ht hslot.symm
      rw [if_neg ht, hnone]
      rfl
  refine ⟨fun t => ?_, fun t => ?_, ?_, ?_, fun l hl => ?_⟩
  · have hcand := congrArg SlotState.cand (hslots t)
    split at hcand <;> exact hcand
  · have hcount := congrArg SlotState.count (hslots t)
    split at hcount
    · rw [if_pos (by assumption)]
      exact hcount
    · rw [if_neg (by assumption)]
      exact hcount
  · have htotal := hout.total
    rw [List.length_map] at htotal
    exact htotal.trans (BitVec.zero_add _)
  · have hburst := hout.burst
    rw [List.length_map] at hburst
    exact hburst.trans (BitVec.zero_add _)
  · rw [hout.out] at hl
    obtain ⟨m, hm, rfl⟩ := mem_printedLines hl
    obtain ⟨e, he, rfl⟩ := List.mem_map.mp hm
    rw [printLine_ntohlInPlace, hdecode e he]
    exact ⟨rfl, rfl⟩

end PacketSend
