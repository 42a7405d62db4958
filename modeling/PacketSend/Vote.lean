/-
  The vote table of `main.cpp`.

  `main.cpp` keeps two global tables of `ARRAY_SIZE` ints: `array[s]` is the candidate value of
  slot `s` and `vote[s]` its counter.  Each packet is routed to slot `idx % ARRAY_SIZE`; a packet
  whose value equals the candidate raises the counter, any other packet lowers it, and a counter
  that has fallen to zero or below is overwritten:

      vote[index] -= 1;
      if (vote[index] <= 0)
          vote[index] = (int)(pkt->value);

  The shape is the majority vote of Boyer and Moore, and the overwriting branch is where it goes
  wrong: the value lands in `vote`, not in `array`.  The candidate of a slot is therefore never
  replaced (`slotStep_cand`), it stays the 0 of the zero-initialised table, and the majority law

      a value carried by more than half of the packets of a slot is the slot's candidate

  holds of a packet sequence exactly when no slot has a majority value other than 0
  (`majorityLaw_iff`).

  Two choices of the model:

  * a table is a function on `Slot`, so an element is read and written at an index that is known
    to be in range; C indexes with an `int`, and `cell` is the bridge: it is `none` for an index
    outside the table, where C has no defined behaviour;
  * `int` is a 32-bit pattern: `+ 1` and `- 1` wrap, comparisons with 0 go through `toInt`.
-/
import PacketSend.PacketUtils
import PacketSend.Lib.Keyed

namespace PacketSend

/-! ## The tables -/

/-- `ARRAY_SIZE`. -/
def arraySize : Nat := 65536

/-- An index into the tables. -/
abbrev Slot := Fin arraySize

/-- The globals `int array[ARRAY_SIZE]` and `int vote[ARRAY_SIZE]`. -/
structure Tables where
  array : Slot → BitVec 32
  vote : Slot → BitVec 32

/-- Globals of static storage start at zero. -/
def zeroTables : Tables := ⟨fun _ => 0, fun _ => 0⟩

/-- `(pkt->idx) % ARRAY_SIZE`: both operands are `int`, so the remainder has the sign of `idx`. -/
def idxRem (p : MyPkt) : Int := p.idx.toInt.tmod arraySize

/-- The table element a C index names, if it names one. -/
def cell (i : Int) : Option Slot :=
  if h : 0 ≤ i ∧ i < arraySize then some ⟨i.toNat, by omega⟩ else none

/-- The update of the receive loop for one packet (its fields already in host order).  `none` is
    a table access out of range. -/
def voteUpdate (t : Tables) (p : MyPkt) : Option Tables := do
  let slot ← cell (idxRem p)
  if p.value = t.array slot then
    some { t with vote := Function.update t.vote slot (t.vote slot + 1) }
  else
    -- `int index = (pkt->idx) % ARRAY_SIZE; if (index < 0) index = 0;`
    let index ← cell (if idxRem p < 0 then 0 else idxRem p)
    let vote := Function.update t.vote index (t.vote index - 1)
    if (vote index).toInt ≤ 0 then
      some { t with vote := Function.update vote index p.value }
    else
      some { t with vote := vote }

/-- The update, packet after packet. -/
def voteAll (t : Tables) : List MyPkt → Option Tables
  | [] => some t
  | p :: ps =>
    match voteUpdate t p with
    | none => none
    | some t' => voteAll t' ps

/-! ## One slot at a time

  For a packet with a non-negative `idx` both branches use the same in-range index, so the update
  is a change of one cell (`Keyed.update`) by a function of that cell and the packet. -/

/-- What the tables hold about one slot. -/
@[ext] structure SlotState where
  cand : BitVec 32
  count : BitVec 32
  deriving DecidableEq, Repr

/-- The two tables, slot by slot. -/
def Tables.slots (t : Tables) (s : Slot) : SlotState := ⟨t.array s, t.vote s⟩

theorem Tables.eq_of_slots {t t' : Tables} (h : t.slots = t'.slots) : t = t' := by
  have ha : t.array = t'.array := funext fun s => congrArg SlotState.cand (congrFun h s)
  have hv : t.vote = t'.vote := funext fun s => congrArg SlotState.count (congrFun h s)
  cases t
  cases t'
  obtain rfl : _ = _ := ha
  obtain rfl : _ = _ := hv
  rfl

/-- The slot of a packet: its `idx`, read as unsigned, modulo the table size. -/
def slotOf (p : MyPkt) : Slot := ⟨p.idx.toNat % arraySize, Nat.mod_lt _ (by decide)⟩

/-- The update seen from the slot it touches. -/
def slotStep (c : SlotState) (p : MyPkt) : SlotState :=
  if p.value = c.cand then { c with count := c.count + 1 }
  else if (c.count - 1).toInt ≤ 0 then { c with count := p.value }
  else { c with count := c.count - 1 }

/-- The packets the program can route: those whose `idx` is non-negative as an `int`. -/
def Routable (p : MyPkt) : Prop := 0 ≤ p.idx.toInt

instance (p : MyPkt) : Decidable (Routable p) := inferInstanceAs (Decidable (0 ≤ p.idx.toInt))

theorem idxRem_of_routable {p : MyPkt} (h : Routable p) : idxRem p = (slotOf p).val := by
  have hnat : p.idx.toInt = (p.idx.toNat : Int) := by
    have h0 : 0 ≤ p.idx.toInt := h
    rw [BitVec.toInt_eq_toNat_cond] at h0 ⊢
    split at h0 <;> rename_i hlt
    · rw [if_pos hlt]
    · have := p.idx.isLt
      omega
  show p.idx.toInt.tmod (65536 : Nat) = ((p.idx.toNat % 65536 : Nat) : Int)
  rw [hnat, Int.natCast_emod]
  exact Int.tmod_eq_emod_of_nonneg (Int.natCast_nonneg _)

theorem cell_val (s : Slot) : cell (s.val : Int) = some s := by
  have hs := s.isLt
  unfold cell
  rw [dif_pos ⟨by omega, by omega⟩]
  rfl

/-- The update, when the remainder is the slot of the packet: a change of that slot by
    `slotStep`. -/
theorem voteUpdate_slots_of_idxRem (t : Tables) {p : MyPkt} (hrem : idxRem p = (slotOf p).val) :
    ∃ t', voteUpdate t p = some t' ∧ t'.slots = Keyed.update slotOf slotStep t.slots p := by
  have hidx : (if idxRem p < 0 then 0 else idxRem p) = ((slotOf p).val : Int) := by
    rw [if_neg (by rw [hrem]; omega), hrem]
  -- a change of `vote` at the slot of `p` is a change of the slot
  have hslots : ∀ v : BitVec 32,
      ({ t with vote := Function.update t.vote (slotOf p) v } : Tables).slots
        = Function.update t.slots (slotOf p) ⟨t.array (slotOf p), v⟩ := by
    intro v
    funext s
    by_cases hs : s = slotOf p
    · subst hs
      simp only [Tables.slots, Function.update_self]
    · simp only [Tables.slots, Function.update_of_ne hs]
  unfold voteUpdate
  rw [hidx, hrem, cell_val]
  simp only [Option.bind_eq_bind, Option.bind_some, Function.update_self, Function.update_idem]
  by_cases hmatch : p.value = t.array (slotOf p)
  · refine ⟨_, if_pos hmatch, ?_⟩
    rw [hslots, Keyed.update, slotStep,
      if_pos (show p.value = (t.slots (slotOf p)).cand from hmatch)]
    rfl
  · rw [if_neg hmatch]
    by_cases hlow : (t.vote (slotOf p) - 1).toInt ≤ 0
    · refine ⟨_, if_pos hlow, ?_⟩
      rw [hslots, Keyed.update, slotStep,
        if_neg (show ¬ p.value = (t.slots (slotOf p)).cand from hmatch),
        if_pos (show ((t.slots (slotOf p)).count - 1).toInt ≤ 0 from hlow)]
      rfl
    · refine ⟨_, if_neg hlow, ?_⟩
      rw [hslots, Keyed.update, slotStep,
        if_neg (show ¬ p.value = (t.slots (slotOf p)).cand from hmatch),
        if_neg (show ¬ ((t.slots (slotOf p)).count - 1).toInt ≤ 0 from hlow)]
      rfl

/-- **The update is local**: a routable packet changes its own slot, by `slotStep`. -/
theorem voteUpdate_slots (t : Tables) {p : MyPkt} (h : Routable p) :
    ∃ t', voteUpdate t p = some t' ∧ t'.slots = Keyed.update slotOf slotStep t.slots p :=
  voteUpdate_slots_of_idxRem t (idxRem_of_routable h)

/-- A sequence of routable packets is processed without leaving the tables, and each slot ends
    as the fold of its own step. -/
theorem voteAll_slots : ∀ (ps : List MyPkt) (t : Tables), (∀ p ∈ ps, Routable p) →
    ∃ t', voteAll t ps = some t' ∧ t'.slots = ps.foldl (Keyed.update slotOf slotStep) t.slots
  | [], t, _ => ⟨t, rfl, rfl⟩
  | p :: ps, t, h => by
    obtain ⟨t₁, ht₁, hs₁⟩ := voteUpdate_slots t (h p List.mem_cons_self)
    obtain ⟨t₂, ht₂, hs₂⟩ := voteAll_slots ps t₁ (fun q hq => h q (List.mem_cons_of_mem p hq))
    refine ⟨t₂, ?_, ?_⟩
    · rw [voteAll, ht₁]
      exact ht₂
    · rw [hs₂, hs₁, List.foldl_cons]

/-! ## The candidate never changes -/

/-- No branch of the update writes the candidate. -/
@[simp] theorem slotStep_cand (c : SlotState) (p : MyPkt) : (slotStep c p).cand = c.cand := by
  unfold slotStep
  split
  · rfl
  · split <;> rfl

theorem foldl_slotStep_cand : ∀ (ps : List MyPkt) (c : SlotState),
    (ps.foldl slotStep c).cand = c.cand
  | [], _ => rfl
  | p :: ps, c => by rw [List.foldl_cons, foldl_slotStep_cand ps, slotStep_cand]

/-- After any sequence of routable packets the candidate table is the one it started with. -/
theorem voteAll_array {ps : List MyPkt} {t t' : Tables} (h : ∀ p ∈ ps, Routable p)
    (hrun : voteAll t ps = some t') : t'.array = t.array := by
  obtain ⟨t₁, ht₁, hs₁⟩ := voteAll_slots ps t h
  obtain rfl : t' = t₁ := Option.some.inj (hrun.symm.trans ht₁)
  funext s
  have hs : t'.slots s = _ := congrFun hs₁ s
  rw [Keyed.foldl_update_apply] at hs
  exact (congrArg SlotState.cand hs).trans (foldl_slotStep_cand _ _)

/-! ## The majority law -/

/-- The values of the packets routed to slot `s`, in order of arrival. -/
def valuesAt (s : Slot) (ps : List MyPkt) : List (BitVec 32) :=
  (ps.filter (fun p => slotOf p = s)).map MyPkt.value

/-- `v` is carried by strictly more than half of the packets routed to `s`. -/
def Majority (ps : List MyPkt) (s : Slot) (v : BitVec 32) : Prop :=
  (valuesAt s ps).length < 2 * (valuesAt s ps).count v

/-- What the vote table is for: from the zeroed tables the packets are processed, and a value
    with a majority in a slot is the candidate of the slot. -/
def MajorityLaw (ps : List MyPkt) : Prop :=
  ∃ t, voteAll zeroTables ps = some t ∧ ∀ s v, Majority ps s v → t.array s = v

/-- The tables after a routable sequence, from the zeroed ones: candidate 0 everywhere. -/
theorem voteAll_zeroTables {ps : List MyPkt} (h : ∀ p ∈ ps, Routable p) :
    ∃ t, voteAll zeroTables ps = some t ∧ ∀ s, t.array s = 0 := by
  obtain ⟨t, ht, -⟩ := voteAll_slots ps zeroTables h
  exact ⟨t, ht, fun s => congrFun (voteAll_array h ht) s⟩

/-- Where the law holds, the only majority value is 0. -/
theorem MajorityLaw.eq_zero {ps : List MyPkt} (h : ∀ p ∈ ps, Routable p) (hlaw : MajorityLaw ps)
    {s : Slot} {v : BitVec 32} (hv : Majority ps s v) : v = 0 := by
  obtain ⟨t, ht, harray⟩ := voteAll_zeroTables h
  obtain ⟨t', ht', hcand⟩ := hlaw
  obtain rfl : t' = t := Option.some.inj (ht'.symm.trans ht)
  rw [← hcand s v hv, harray]

/-- **When the majority law holds.**  For packets the program can route, the law holds exactly
    when no slot has a majority value other than 0. -/
theorem majorityLaw_iff (ps : List MyPkt) (h : ∀ p ∈ ps, Routable p) :
    MajorityLaw ps ↔ ∀ s v, Majority ps s v → v = 0 := by
  constructor
  · intro hlaw s v hv
    exact hlaw.eq_zero h hv
  · intro hzero
    obtain ⟨t, ht, harray⟩ := voteAll_zeroTables h
    exact ⟨t, ht, fun s v hv => by rw [harray, hzero s v hv]⟩

/-- The law at a sequence it holds of: three packets of slot 7, two of them carrying 0. -/
theorem majorityLaw_iff_seven :
    MajorityLaw [⟨7, 0⟩, ⟨7, 5⟩, ⟨7, 0⟩] ↔
      ∀ s v, Majority [⟨7, 0⟩, ⟨7, 5⟩, ⟨7, 0⟩] s v → v = 0 :=
  majorityLaw_iff _ (by decide)

/-- One packet `(idx, value) = (0, 1)` breaks the law: 1 is carried by every packet of slot 0,
    and the candidate of slot 0 is still 0. -/
theorem majorityLaw_not_single : ¬ MajorityLaw [⟨0, 1⟩] := by
  intro hlaw
  have hmaj : Majority [⟨0, 1⟩] (slotOf ⟨0, 1⟩) 1 := by
    unfold Majority
    decide
  exact absurd (hlaw.eq_zero (by decide) hmaj) (by decide)

end PacketSend
