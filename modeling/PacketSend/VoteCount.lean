/-
  Is `vote[s]` a count?

  The counter of a slot goes up by one for a packet that carries the candidate and down by one
  for any other; read as a count of packets it lies between 0 and the number of packets routed to
  the slot, and `+= 1` and `-= 1` are far from the ends of `int`.  The replacement breaks this:

      if (vote[index] <= 0)
          vote[index] = (int)(pkt->value);

  writes a word of the packet into the counter.  `counterLaw_iff` says exactly when no harm is
  done: when every packet that takes this branch carries a value which could be a count, one
  between 0 and the number of packets routed to its slot so far.

  The induction is over the packets (`Counted.step` is its step).  It needs the bound itself to
  know that the next `+ 1` and `- 1` do not wrap: a sequence of fewer than 2^31 packets cannot
  drive a counter that is a count to the largest `int`.
-/
import PacketSend.Vote
import PacketSend.Lib.Runs

namespace PacketSend

open Runs

/-! ## `int` arithmetic that does not overflow -/

theorem toInt_add_one {x : BitVec 32} (h : x.toInt + 1 ≤ 2147483647) :
    (x + 1).toInt = x.toInt + 1 := by
  have hlow : -2147483648 ≤ x.toInt := BitVec.le_toInt x
  rw [BitVec.toInt_add, show (1 : BitVec 32).toInt = 1 from rfl]
  exact Int.bmod_eq_of_le (by omega) (by omega)

theorem toInt_sub_one {x : BitVec 32} (h : -2147483648 ≤ x.toInt - 1) :
    (x - 1).toInt = x.toInt - 1 := by
  have hhigh : x.toInt < 2147483648 := BitVec.toInt_lt
  rw [BitVec.toInt_sub, show (1 : BitVec 32).toInt = 1 from rfl]
  exact Int.bmod_eq_of_le (by omega) (by omega)

/-! ## The updates as a run -/

/-- A sequence of updates is a run of the update. -/
theorem voteAll_eq_exec (ps : List MyPkt) (t : Tables) :
    voteAll t ps = exec voteUpdate t ps := by
  induction ps generalizing t with
  | nil => rfl
  | cons p ps ih =>
    rw [voteAll, exec]
    cases voteUpdate t p with
    | none => rfl
    | some t' => exact ih t'

theorem voteAll_iff_run {ps : List MyPkt} {t t' : Tables} :
    voteAll t ps = some t' ↔ Run voteUpdate t ps t' := by
  rw [voteAll_eq_exec, run_iff_exec]

/-! ## The law -/

/-- The number of packets routed to slot `s`. -/
def routed (s : Slot) (ps : List MyPkt) : Nat := (valuesAt s ps).length

/-- Every counter lies between 0 and the number of packets routed to its slot. -/
def Counted (t : Tables) (ps : List MyPkt) : Prop :=
  ∀ s, 0 ≤ (t.vote s).toInt ∧ (t.vote s).toInt ≤ routed s ps

/-- The `+= 1` or `-= 1` that the packet causes stays within `int`. -/
def InIntRange (t : Tables) (p : MyPkt) : Prop :=
  if p.value = t.array (slotOf p) then (t.vote (slotOf p)).toInt + 1 ≤ 2147483647
  else -2147483648 ≤ (t.vote (slotOf p)).toInt - 1

/-- What makes the counters counts: from the zeroed tables, after every packet of the sequence
    each counter is between 0 and the number of packets routed to its slot so far, and no update
    leaves the range of `int`. -/
structure CounterLaw (ps : List MyPkt) : Prop where
  counted : ∀ qs, qs <+: ps → ∃ t, voteAll zeroTables qs = some t ∧ Counted t qs
  inRange : ∀ qs p, qs ++ [p] <+: ps → ∀ t, voteAll zeroTables qs = some t → InIntRange t p

/-- The packet takes the branch `vote[index] = pkt->value`. -/
def Replaces (t : Tables) (p : MyPkt) : Prop :=
  p.value ≠ t.array (slotOf p) ∧ (t.vote (slotOf p) - 1).toInt ≤ 0

/-- The value of the packet could be the counter of its slot, `ps` being the packets so far. -/
def ValueIsCount (p : MyPkt) (ps : List MyPkt) : Prop :=
  0 ≤ p.value.toInt ∧ p.value.toInt ≤ routed (slotOf p) ps

/-! ## Packets routed -/

theorem routed_append (s : Slot) (ps qs : List MyPkt) :
    routed s (ps ++ qs) = routed s ps + routed s qs := by
  unfold routed valuesAt
  rw [List.filter_append, List.map_append, List.length_append]

theorem routed_single_self (p : MyPkt) : routed (slotOf p) [p] = 1 := by
  have hone : [p].filter (fun q => slotOf q = slotOf p) = [p] :=
    List.filter_cons_of_pos (decide_eq_true rfl)
  rw [routed, valuesAt, hone]
  rfl

theorem routed_single_of_ne {s : Slot} {p : MyPkt} (h : s ≠ slotOf p) : routed s [p] = 0 := by
  have hnone : [p].filter (fun q => slotOf q = s) = [] :=
    List.filter_cons_of_neg fun hs => h (of_decide_eq_true hs).symm
  rw [routed, valuesAt, hnone]
  rfl

theorem routed_snoc_self (p : MyPkt) (ps : List MyPkt) :
    routed (slotOf p) (ps ++ [p]) = routed (slotOf p) ps + 1 := by
  rw [routed_append, routed_single_self]

theorem routed_snoc_of_ne {s : Slot} {p : MyPkt} (h : s ≠ slotOf p) (ps : List MyPkt) :
    routed s (ps ++ [p]) = routed s ps := by
  rw [routed_append, routed_single_of_ne h, Nat.add_zero]

theorem routed_le_length (s : Slot) (ps : List MyPkt) : routed s ps ≤ ps.length := by
  unfold routed valuesAt
  rw [List.length_map]
  exact List.length_filter_le _ _

/-! ## One packet -/

/-- **The step of a slot keeps a count a count**, if a replacement writes one. -/
theorem slotStep_counted {c : SlotState} {p : MyPkt} {n : Nat} (h0 : 0 ≤ c.count.toInt)
    (hle : c.count.toInt ≤ n) (hn : n < 2147483647)
    (hrep : p.value ≠ c.cand → (c.count - 1).toInt ≤ 0 →
      0 ≤ p.value.toInt ∧ p.value.toInt ≤ (n + 1 : Nat)) :
    0 ≤ (slotStep c p).count.toInt ∧ (slotStep c p).count.toInt ≤ (n + 1 : Nat) := by
  have hsub : (c.count - 1).toInt = c.count.toInt - 1 := toInt_sub_one (by omega)
  unfold slotStep
  by_cases hmatch : p.value = c.cand
  · have hadd : (c.count + 1).toInt = c.count.toInt + 1 := toInt_add_one (by omega)
    rw [if_pos hmatch]
    show 0 ≤ (c.count + 1).toInt ∧ (c.count + 1).toInt ≤ (n + 1 : Nat)
    omega
  · rw [if_neg hmatch]
    by_cases hlow : (c.count - 1).toInt ≤ 0
    · rw [if_pos hlow]
      exact hrep hmatch hlow
    · rw [if_neg hlow]
      show 0 ≤ (c.count - 1).toInt ∧ (c.count - 1).toInt ≤ (n + 1 : Nat)
      omega

/-- The slot of the packet after the update, and every other slot. -/
theorem voteUpdate_vote {t t' : Tables} {p : MyPkt} (hp : Routable p)
    (hstep : voteUpdate t p = some t') :
    t'.vote (slotOf p) = (slotStep (t.slots (slotOf p)) p).count ∧
      ∀ s, s ≠ slotOf p → t'.vote s = t.vote s := by
  obtain ⟨t₁, ht₁, hslots⟩ := voteUpdate_slots t hp
  obtain rfl : t' = t₁ := Option.some.inj (hstep.symm.trans ht₁)
  have hcell : ∀ s, t'.vote s = (Keyed.update slotOf slotStep t.slots p s).count := fun s =>
    congrArg SlotState.count (congrFun hslots s)
  refine ⟨?_, fun s hs => ?_⟩
  · rw [hcell, Keyed.update_self]
  · rw [hcell, Keyed.update_of_ne hs]
    rfl

/-- **One packet keeps counters counts**, if it does not replace one or carries a count. -/
theorem Counted.step {t t' : Tables} {qs : List MyPkt} {p : MyPkt} (h : Counted t qs)
    (hp : Routable p) (hlen : qs.length < 2147483647)
    (hrep : Replaces t p → ValueIsCount p (qs ++ [p])) (hstep : voteUpdate t p = some t') :
    Counted t' (qs ++ [p]) := by
  obtain ⟨hself, hother⟩ := voteUpdate_vote hp hstep
  intro s
  rcases Decidable.em (s = slotOf p) with rfl | hs
  · have hn := Nat.lt_of_le_of_lt (routed_le_length (slotOf p) qs) hlen
    rw [hself, routed_snoc_self]
    refine slotStep_counted (h _).1 (h _).2 hn fun hmatch hlow => ?_
    have hvalue := hrep ⟨hmatch, hlow⟩
    rw [ValueIsCount, routed_snoc_self] at hvalue
    exact hvalue
  · rw [hother s hs, routed_snoc_of_ne hs]
    exact h s

/-- Counters that are counts of fewer than 2^31 - 1 packets are far from the ends of `int`. -/
theorem Counted.inIntRange {t : Tables} {qs : List MyPkt} (h : Counted t qs)
    (hlen : qs.length < 2147483647) (p : MyPkt) : InIntRange t p := by
  have hcount := h (slotOf p)
  have hn := routed_le_length (slotOf p) qs
  unfold InIntRange
  split <;> omega

/-- A replacement leaves the value of the packet in the counter. -/
theorem voteUpdate_vote_of_replaces {t t' : Tables} {p : MyPkt} (hp : Routable p)
    (hstep : voteUpdate t p = some t') (h : Replaces t p) : t'.vote (slotOf p) = p.value := by
  have hmatch : ¬ p.value = (t.slots (slotOf p)).cand := h.1
  have hlow : ((t.slots (slotOf p)).count - 1).toInt ≤ 0 := h.2
  rw [(voteUpdate_vote hp hstep).1, slotStep, if_neg hmatch, if_pos hlow]

/-- **A replacement can make the next `+= 1` overflow**: after one by the largest `int`, any packet
    of the slot that carries the candidate. -/
theorem not_inIntRange_of_replaces {t t' : Tables} {p q : MyPkt} (hp : Routable p)
    (hstep : voteUpdate t p = some t') (h : Replaces t p) (hmax : p.value.toInt = 2147483647)
    (hslot : slotOf q = slotOf p) (hcand : q.value = t'.array (slotOf q)) :
    ¬ InIntRange t' q := by
  unfold InIntRange
  rw [if_pos hcand, hslot, voteUpdate_vote_of_replaces hp hstep h, hmax]
  omega

/-! ## Every packet of a sequence -/

/-- Every replacement of the sequence writes a count. -/
def ReplacesByCounts (ps : List MyPkt) : Prop :=
  ∀ qs p, qs ++ [p] <+: ps → ∀ t, voteAll zeroTables qs = some t → Replaces t p →
    ValueIsCount p (qs ++ [p])

/-- The tables after a prefix of the sequence hold counts. -/
theorem ReplacesByCounts.counted {ps : List MyPkt} (hrep : ReplacesByCounts ps)
    (hroute : ∀ p ∈ ps, Routable p) (hlen : ps.length < 2147483648) {qs : List MyPkt} {t : Tables}
    (hrun : voteAll zeroTables qs = some t) (hpre : qs <+: ps) : Counted t qs := by
  have hall : Run voteUpdate zeroTables qs t := voteAll_iff_run.mp hrun
  suffices h : voteAll zeroTables qs = some t ∧ (qs <+: ps → Counted t qs) from h.2 hpre
  refine hall.history (P := fun qs t => voteAll zeroTables qs = some t ∧
    (qs <+: ps → Counted t qs)) ?_ ?_
  · exact ⟨rfl, fun _ s => ⟨Int.le_refl 0, Int.natCast_nonneg _⟩⟩
  · rintro qs t p t' ⟨hqs, ih⟩ hstep
    refine ⟨voteAll_iff_run.mpr ((voteAll_iff_run.mp hqs).snoc hstep), fun hpre => ?_⟩
    have hpre' : qs <+: ps := (List.prefix_append qs [p]).trans hpre
    have hmem : p ∈ ps := hpre.subset (List.mem_append_right _ List.mem_cons_self)
    have hlt := hpre.length_le
    rw [List.length_append, List.length_singleton] at hlt
    exact (ih hpre').step (hroute p hmem) (by omega) (hrep qs p hpre t hqs) hstep

/-- Where the law holds, a replacement writes a count: the counter it leaves is one. -/
theorem CounterLaw.replacesByCounts {ps : List MyPkt} (hlaw : CounterLaw ps)
    (hroute : ∀ p ∈ ps, Routable p) : ReplacesByCounts ps := by
  intro qs p hpre t hqs hrep
  have hp : Routable p := hroute p (hpre.subset (List.mem_append_right _ List.mem_cons_self))
  obtain ⟨t', ht', hcounted⟩ := hlaw.counted _ hpre
  obtain ⟨t₁, ht₁, -⟩ := voteUpdate_slots t hp
  have hrun := voteAll_iff_run.mpr ((voteAll_iff_run.mp hqs).snoc ht₁)
  obtain rfl : t' = t₁ := Option.some.inj (ht'.symm.trans hrun)
  have hvote := hcounted (slotOf p)
  rw [voteUpdate_vote_of_replaces hp ht₁ hrep] at hvote
  exact hvote

/-- **When the counters are counts.**  For fewer than 2^31 packets, all with a non-negative
    `idx`, the law holds exactly when every packet that replaces a counter carries a value between
    0 and the number of packets routed to its slot so far. -/
theorem counterLaw_iff (ps : List MyPkt) (hroute : ∀ p ∈ ps, Routable p)
    (hlen : ps.length < 2147483648) :
    CounterLaw ps ↔ ∀ qs p, qs ++ [p] <+: ps → ∀ t, voteAll zeroTables qs = some t →
      Replaces t p → 0 ≤ p.value.toInt ∧ p.value.toInt ≤ routed (slotOf p) (qs ++ [p]) := by
  constructor
  · intro hlaw
    exact hlaw.replacesByCounts hroute
  · intro hrep
    have hcount : ReplacesByCounts ps := hrep
    constructor
    · intro qs hpre
      obtain ⟨t, ht, -⟩ := voteAll_slots qs zeroTables fun p hp => hroute p (hpre.subset hp)
      exact ⟨t, ht, hcount.counted hroute hlen ht hpre⟩
    · intro qs p hpre t hqs
      have hlt := hpre.length_le
      rw [List.length_append, List.length_singleton] at hlt
      have hcounted := hcount.counted hroute hlen hqs ((List.prefix_append qs [p]).trans hpre)
      exact hcounted.inIntRange (by omega) p

/-- The law at a sequence it holds of: the first packet of slot 7 carries 1, a count. -/
theorem counterLaw_iff_seven : CounterLaw [⟨7, 1⟩, ⟨7, 0⟩] ↔
    ∀ qs p, qs ++ [p] <+: [⟨7, 1⟩, ⟨7, 0⟩] → ∀ t, voteAll zeroTables qs = some t →
      Replaces t p → 0 ≤ p.value.toInt ∧ p.value.toInt ≤ routed (slotOf p) (qs ++ [p]) :=
  counterLaw_iff [⟨7, 1⟩, ⟨7, 0⟩] (by decide) (by decide)

/-- One packet `(idx, value) = (0, 5)` and the counter of slot 0 is 5. -/
theorem counterLaw_not_single : ¬ CounterLaw [⟨0, 5⟩] := by
  intro hlaw
  have hvalue := hlaw.replacesByCounts (by decide) [] ⟨0, 5⟩ (List.prefix_refl _) zeroTables rfl
    ⟨by decide, by decide⟩
  exact absurd hvalue.2 (by decide)

end PacketSend
