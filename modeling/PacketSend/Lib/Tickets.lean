/-
  Tickets on a line.

  Several workers reserve stretches of a line of positions 0, 1, 2, … .  A reservation is always
  made at the HEAD of the line, which moves on by its length; a worker gives its reservation back
  at the TAIL, and only when the tail has come to its start.  In between, the reservations that
  are out tile the stretch from the tail to the head (`Tiled`): they lie in it, no two overlap and
  none of it is left over.

  * `Tiled.reserve`, `Tiled.release` — the two moves keep the tiling;
  * `Tiled.first`                    — if anything is reserved, somebody holds the ticket at the
                                       tail, so that a worker whose turn it is always exists;
  * `Tiled.settled`                  — when nobody holds a ticket, head and tail are one;
  * `Tiled.head_le`                  — the head is not farther from the tail than the tickets are
                                       long.

  Programs keep such positions in machine words, cut off modulo some `M`, and the positions of an
  array, modulo its size.  Two positions less than `M` apart that are equal modulo `M` are equal
  (`eq_of_mod_eq`).
-/
import Mathlib.Logic.Function.Basic
import Mathlib.Algebra.Order.BigOperators.Group.Finset
import Mathlib.Order.Interval.Finset.Nat

namespace Tickets

variable {ι : Type} [DecidableEq ι]

/-! ## The tiling -/

/-- A stretch of positions. -/
structure Stretch where
  start : Nat
  length : Nat
  deriving DecidableEq, Repr

/-- The first position after the stretch. -/
def Stretch.stop (r : Stretch) : Nat := r.start + r.length

/-- The reservations `held` tile the line from `tail` to `head`. -/
structure Tiled (tail head : Nat) (held : ι → Option Stretch) : Prop where
  le : tail ≤ head
  inside : ∀ w r, held w = some r → 0 < r.length ∧ tail ≤ r.start ∧ r.stop ≤ head
  apart : ∀ w w' r r', w ≠ w' → held w = some r → held w' = some r' →
    r.stop ≤ r'.start ∨ r'.stop ≤ r.start
  cover : ∀ x, tail ≤ x → x < head → ∃ w r, held w = some r ∧ r.start ≤ x ∧ x < r.stop

variable {tail head : Nat} {held : ι → Option Stretch}

omit [DecidableEq ι] in
/-- Nothing is reserved. -/
theorem Tiled.nothing (x : Nat) : Tiled x x (fun _ : ι => none) := by
  constructor
  · exact Nat.le_refl x
  · intro w r hr
    cases hr
  · intro w w' r r' _ hr _
    cases hr
  · intro y hle hlt
    omega

/-- A reservation of positive length at the head. -/
theorem Tiled.reserve (h : Tiled tail head held) {w : ι} (hw : held w = none) {n : Nat}
    (hn : 0 < n) : Tiled tail (head + n) (Function.update held w (some ⟨head, n⟩)) := by
  have hle := h.le
  -- every reservation is the new one or an old one, and the old ones end at the old head
  have hcases : ∀ w' r, Function.update held w (some ⟨head, n⟩) w' = some r →
      (w' = w ∧ r = ⟨head, n⟩) ∨ (w' ≠ w ∧ held w' = some r) := by
    intro w' r hr
    by_cases hww : w' = w
    · rw [hww, Function.update_self] at hr
      exact Or.inl ⟨hww, (Option.some.inj hr).symm⟩
    · rw [Function.update_of_ne hww] at hr
      exact Or.inr ⟨hww, hr⟩
  constructor
  · omega
  · intro w' r hr
    rcases hcases w' r hr with ⟨-, rfl⟩ | ⟨-, hold⟩
    · exact ⟨hn, hle, Nat.le_refl _⟩
    · obtain ⟨hpos, hstart, hstop⟩ := h.inside w' r hold
      exact ⟨hpos, hstart, by omega⟩
  · intro w₁ w₂ r₁ r₂ hne hr₁ hr₂
    rcases hcases w₁ r₁ hr₁ with ⟨rfl, rfl⟩ | ⟨-, hold₁⟩
    · rcases hcases w₂ r₂ hr₂ with ⟨rfl, -⟩ | ⟨-, hold₂⟩
      · exact absurd rfl hne
      · exact Or.inr (h.inside w₂ r₂ hold₂).2.2
    · rcases hcases w₂ r₂ hr₂ with ⟨rfl, rfl⟩ | ⟨-, hold₂⟩
      · exact Or.inl (h.inside w₁ r₁ hold₁).2.2
      · exact h.apart w₁ w₂ r₁ r₂ hne hold₁ hold₂
  · intro x hlo hhi
    by_cases hx : x < head
    · obtain ⟨w', r, hr, hin⟩ := h.cover x hlo hx
      refine ⟨w', r, ?_, hin⟩
      have hne : w' ≠ w := by
        rintro rfl
        rw [hw] at hr
        cases hr
      rw [Function.update_of_ne hne, hr]
    · refine ⟨w, ⟨head, n⟩, Function.update_self _ _ _, by show head ≤ x; omega, ?_⟩
      show x < head + n
      omega

/-- The reservation at the tail is given back. -/
theorem Tiled.release (h : Tiled tail head held) {w : ι} {n : Nat}
    (hw : held w = some ⟨tail, n⟩) : Tiled (tail + n) head (Function.update held w none) := by
  have hpos : 0 < n := (h.inside w _ hw).1
  have hcases : ∀ w' r, Function.update held w none w' = some r → w' ≠ w ∧ held w' = some r := by
    intro w' r hr
    by_cases hww : w' = w
    · rw [hww, Function.update_self] at hr
      cases hr
    · rw [Function.update_of_ne hww] at hr
      exact ⟨hww, hr⟩
  constructor
  · exact (h.inside w _ hw).2.2
  · intro w' r hr
    obtain ⟨hne, hold⟩ := hcases w' r hr
    obtain ⟨hpos', hstart, hstop⟩ := h.inside w' r hold
    refine ⟨hpos', ?_, hstop⟩
    -- nothing starts inside the stretch that is given back
    rcases h.apart w' w r ⟨tail, n⟩ hne hold hw with hbefore | hafter
    · have hend : r.start + r.length ≤ tail := hbefore
      omega
    · exact hafter
  · intro w₁ w₂ r₁ r₂ hne hr₁ hr₂
    exact h.apart w₁ w₂ r₁ r₂ hne (hcases w₁ r₁ hr₁).2 (hcases w₂ r₂ hr₂).2
  · intro x hlo hhi
    obtain ⟨w', r, hr, hle, hlt⟩ := h.cover x (by omega) hhi
    refine ⟨w', r, ?_, hle, hlt⟩
    have hne : w' ≠ w := by
      rintro rfl
      obtain rfl : _ = r := Option.some.inj (hw.symm.trans hr)
      have hlt' : x < tail + n := hlt
      omega
    rw [Function.update_of_ne hne, hr]

omit [DecidableEq ι] in
/-- If something is reserved, somebody holds the ticket at the tail. -/
theorem Tiled.first (h : Tiled tail head held) (hlt : tail < head) :
    ∃ w n, held w = some ⟨tail, n⟩ := by
  obtain ⟨w, r, hr, hle, -⟩ := h.cover tail (Nat.le_refl _) hlt
  have hstart := (h.inside w r hr).2.1
  obtain ⟨start, n⟩ := r
  obtain rfl : start = tail := Nat.le_antisymm hle hstart
  exact ⟨w, n, hr⟩

omit [DecidableEq ι] in
/-- When nobody holds a ticket, head and tail are one. -/
theorem Tiled.settled (h : Tiled tail head held) (hnone : ∀ w, held w = none) : tail = head := by
  rcases Nat.lt_or_eq_of_le h.le with hlt | heq
  · obtain ⟨w, n, hw⟩ := h.first hlt
    rw [hnone] at hw
    cases hw
  · exact heq

omit [DecidableEq ι] in
/-- The tickets together reach from the tail to the head. -/
theorem Tiled.head_le [Fintype ι] (h : Tiled tail head held) :
    head ≤ tail + ∑ w, (held w).elim 0 Stretch.length := by
  let ticket (w : ι) : Finset Nat := (held w).elim ∅ fun r => Finset.Ico r.start r.stop
  have hcard : ∀ w, (ticket w).card = (held w).elim 0 Stretch.length := by
    intro w
    show ((held w).elim ∅ fun r => Finset.Ico r.start r.stop).card = _
    cases held w with
    | none => rfl
    | some r => exact (Nat.card_Ico _ _).trans (Nat.add_sub_cancel_left _ _)
  have hcover : Finset.Ico tail head ⊆ Finset.univ.biUnion ticket := by
    intro x hx
    obtain ⟨hlo, hhi⟩ := Finset.mem_Ico.mp hx
    obtain ⟨w, r, hr, hin⟩ := h.cover x hlo hhi
    have hmem : x ∈ ticket w := by
      show x ∈ (held w).elim ∅ fun r => Finset.Ico r.start r.stop
      rw [hr]
      exact Finset.mem_Ico.mpr hin
    exact Finset.mem_biUnion.mpr ⟨w, Finset.mem_univ w, hmem⟩
  have hle := (Finset.card_le_card hcover).trans Finset.card_biUnion_le
  rw [Nat.card_Ico, Finset.sum_congr rfl fun w _ => hcard w] at hle
  omega

/-! ## Positions modulo a number -/

/-- Positions that are equal modulo `M` and less than `M` apart are equal. -/
theorem eq_of_mod_eq {M x y : Nat} (h : x % M = y % M) (hle : x ≤ y) (hlt : y - x < M) : x = y := by
  have hx := Nat.div_add_mod x M
  have hy := Nat.div_add_mod y M
  have hdiv : x / M ≤ y / M := Nat.div_le_div_right hle
  obtain ⟨d, hd⟩ := Nat.exists_eq_add_of_le hdiv
  have hmul : M * (y / M) = M * (x / M) + M * d := by rw [hd, Nat.mul_add]
  cases d with
  | zero =>
    rw [Nat.mul_zero] at hmul
    omega
  | succ d =>
    rw [Nat.mul_succ] at hmul
    omega

/-- Two positions of a window no longer than `M` that are equal modulo `M` are equal. -/
theorem eq_of_mod_eq_of_window {M lo hi x y : Nat} (h : x % M = y % M) (hwin : hi ≤ lo + M)
    (hx : lo ≤ x ∧ x < hi) (hy : lo ≤ y ∧ y < hi) : x = y := by
  rcases Nat.le_total x y with hle | hle
  · exact eq_of_mod_eq h hle (by omega)
  · exact (eq_of_mod_eq h.symm hle (by omega)).symm

end Tickets
