/-
  Tokens distributed over places.

  A component that hands resources around (buffers, permits, messages) has a set of PLACES and,
  at any time, a list of TOKENS at each of them.  "Every token is owned exactly once" is
  `Partition U a`: no place lists a token twice, no token is at two places, and the tokens at the
  places together are exactly the universe `U`.

  The usual change such a component makes is a `Transfer`: some tokens leave one place and arrive
  at another, nothing else moves.  `Partition.transfer` is the preservation rule, so an
  ownership proof about a concrete machine is one `Transfer` per step.  Where a step moves tokens
  among more than two places, `Partition.redistribute` asks only that those places together list
  the same tokens before and after.

  Lists rather than sets on purpose: a place that receives a token it already has (a double
  free, a buffer handed over twice) shows as a repetition, which a set would hide.
-/
import Mathlib.Data.Finset.Card
import Mathlib.Algebra.BigOperators.Group.Finset.Basic
import Mathlib.Algebra.BigOperators.Group.Finset.Sigma
import Mathlib.Algebra.Order.BigOperators.Group.Finset

namespace Places

variable {P T : Type}

/-- Every token of `U` is at exactly one place, once, and nothing else is anywhere. -/
structure Partition (U : List T) (a : P → List T) : Prop where
  nodup : ∀ p, (a p).Nodup
  apart : ∀ {p q : P} {x : T}, x ∈ a p → x ∈ a q → p = q
  cover : ∀ x, x ∈ U ↔ ∃ p, x ∈ a p

/-- The tokens `xs` leave `src` and arrive at `dst`; every other place is untouched. -/
structure Transfer (a b : P → List T) (src dst : P) (xs : List T) : Prop where
  ne : src ≠ dst
  src_perm : (a src).Perm (xs ++ b src)
  dst_perm : (b dst).Perm (xs ++ a dst)
  frame : ∀ p, p ≠ src → p ≠ dst → b p = a p

/-- Lists of at most `b` tokens each. -/
theorem length_flatMap_le {A : Type} {f : A → List T} {b : Nat} : ∀ {xs : List A},
    (∀ x ∈ xs, (f x).length ≤ b) → (xs.flatMap f).length ≤ xs.length * b
  | [], _ => Nat.zero_le _
  | x :: xs, h => by
    have hx := h x List.mem_cons_self
    have ih : (xs.flatMap f).length ≤ xs.length * b :=
      length_flatMap_le (fun y hy => h y (List.mem_cons_of_mem _ hy))
    rw [List.flatMap_cons, List.length_append, List.length_cons, Nat.succ_mul]
    omega

/-- Lists of at least `b` tokens each. -/
theorem le_length_flatMap {A : Type} {f : A → List T} {b : Nat} : ∀ {xs : List A},
    (∀ x ∈ xs, b ≤ (f x).length) → xs.length * b ≤ (xs.flatMap f).length
  | [], _ => by simp
  | x :: xs, h => by
    have hx := h x List.mem_cons_self
    have ih : xs.length * b ≤ (xs.flatMap f).length :=
      le_length_flatMap (fun y hy => h y (List.mem_cons_of_mem _ hy))
    rw [List.flatMap_cons, List.length_append, List.length_cons, Nat.succ_mul]
    omega

namespace Partition

variable {U : List T} {a b : P → List T} {src dst : P} {xs : List T}

/-- What the place of a token after a transfer says about the state before it: either the token
    was moved and the place is `dst`, or it was not moved and was already there. -/
theorem mem_after (h : Partition U a) (t : Transfer a b src dst xs) {p : P} {x : T}
    (hx : x ∈ b p) : (p = dst ∧ x ∈ xs) ∨ (x ∈ a p ∧ x ∉ xs) := by
  have hxs : ∀ y ∈ xs, y ∈ a src := fun y hy =>
    t.src_perm.mem_iff.mpr (List.mem_append_left _ hy)
  by_cases hd : p = dst
  · subst hd
    rcases List.mem_append.mp (t.dst_perm.mem_iff.mp hx) with hx' | hx'
    · exact Or.inl ⟨rfl, hx'⟩
    · exact Or.inr ⟨hx', fun hm => t.ne (h.apart (hxs x hm) hx')⟩
  · refine Or.inr ?_
    by_cases hs : p = src
    · subst hs
      refine ⟨t.src_perm.mem_iff.mpr (List.mem_append_right _ hx), fun hm => ?_⟩
      have hnd : (xs ++ b p).Nodup := t.src_perm.nodup_iff.mp (h.nodup p)
      exact (List.nodup_append.mp hnd).2.2 x hm x hx rfl
    · rw [t.frame p hs hd] at hx
      exact ⟨hx, fun hm => hs (h.apart hx (hxs x hm))⟩

/-- **The preservation rule**: a transfer keeps the partition. -/
theorem transfer (h : Partition U a) (t : Transfer a b src dst xs) : Partition U b where
  nodup := by
    intro p
    by_cases hd : p = dst
    · subst hd
      rw [t.dst_perm.nodup_iff, List.nodup_append]
      have hnd : (xs ++ b src).Nodup := t.src_perm.nodup_iff.mp (h.nodup src)
      refine ⟨(List.nodup_append.mp hnd).1, h.nodup p, fun x hx y hy hxy => ?_⟩
      have hsrc : x ∈ a src := t.src_perm.mem_iff.mpr (List.mem_append_left _ hx)
      exact t.ne (h.apart hsrc (hxy ▸ hy))
    · by_cases hs : p = src
      · subst hs
        have hnd : (xs ++ b p).Nodup := t.src_perm.nodup_iff.mp (h.nodup p)
        exact (List.nodup_append.mp hnd).2.1
      · rw [t.frame p hs hd]
        exact h.nodup p
  apart := by
    intro p q x hp hq
    rcases h.mem_after t hp with ⟨hpd, hxp⟩ | ⟨hap, hxp⟩
    · rcases h.mem_after t hq with ⟨hqd, -⟩ | ⟨-, hxq⟩
      · rw [hpd, hqd]
      · exact absurd hxp hxq
    · rcases h.mem_after t hq with ⟨-, hxq⟩ | ⟨haq, -⟩
      · exact absurd hxq hxp
      · exact h.apart hap haq
  cover := by
    intro x
    rw [h.cover x]
    constructor
    · rintro ⟨p, hp⟩
      by_cases hs : p = src
      · subst hs
        rcases List.mem_append.mp (t.src_perm.mem_iff.mp hp) with hx | hx
        · exact ⟨dst, t.dst_perm.mem_iff.mpr (List.mem_append_left _ hx)⟩
        · exact ⟨p, hx⟩
      · by_cases hd : p = dst
        · subst hd
          exact ⟨p, t.dst_perm.mem_iff.mpr (List.mem_append_right _ hp)⟩
        · exact ⟨p, by rw [t.frame p hs hd]; exact hp⟩
    · rintro ⟨p, hp⟩
      rcases h.mem_after t hp with ⟨-, hx⟩ | ⟨hx, -⟩
      · exact ⟨src, t.src_perm.mem_iff.mpr (List.mem_append_left _ hx)⟩
      · exact ⟨p, hx⟩

/-- Different places together list every token at most once. -/
theorem nodup_flatMap (h : Partition U a) {ps : List P} (hps : ps.Nodup) :
    (ps.flatMap a).Nodup := by
  rw [List.nodup_flatMap]
  refine ⟨fun p _ => h.nodup p, hps.imp (fun {p q} hpq => ?_)⟩
  intro x hp hq
  exact hpq (h.apart hp hq)

/-- Different places together list no more tokens than there are. -/
theorem length_le (h : Partition U a) {ps : List P} (hps : ps.Nodup) :
    (ps.flatMap a).length ≤ U.length := by
  refine ((h.nodup_flatMap hps).subperm ?_).length_le
  intro x hx
  obtain ⟨p, -, hp⟩ := List.mem_flatMap.mp hx
  exact (h.cover x).mpr ⟨p, hp⟩

/-- Places beside which there is nothing list all the tokens. -/
theorem length_ge (h : Partition U a) (hU : U.Nodup) {ps : List P}
    (hrest : ∀ p, p ∉ ps → a p = []) : U.length ≤ (ps.flatMap a).length := by
  refine (hU.subperm ?_).length_le
  intro x hx
  obtain ⟨p, hp⟩ := (h.cover x).mp hx
  have hmem : p ∈ ps := by
    by_contra hne
    rw [hrest p hne] at hp
    nomatch hp
  exact List.mem_flatMap.mpr ⟨p, hmem, hp⟩

/-- **The general preservation rule**: some places together list the same tokens before and
    after, the other places are untouched. -/
theorem redistribute (h : Partition U a) {ps : List P} (hps : ps.Nodup)
    (hperm : (ps.flatMap a).Perm (ps.flatMap b)) (frame : ∀ p, p ∉ ps → b p = a p) :
    Partition U b := by
  have hnd : (ps.flatMap b).Nodup := hperm.nodup_iff.mp (h.nodup_flatMap hps)
  rw [List.nodup_flatMap] at hnd
  obtain ⟨hone, hpair⟩ := hnd
  have : Std.Symm (Function.onFun List.Disjoint b) := ⟨fun _ _ hd => hd.symm⟩
  -- a token at one of the places was at one of them before
  have hback : ∀ {p x}, p ∈ ps → x ∈ b p → ∃ q ∈ ps, x ∈ a q := fun hp hx =>
    List.mem_flatMap.mp (hperm.mem_iff.mpr (List.mem_flatMap.mpr ⟨_, hp, hx⟩))
  have hforth : ∀ {p x}, p ∈ ps → x ∈ a p → ∃ q ∈ ps, x ∈ b q := fun hp hx =>
    List.mem_flatMap.mp (hperm.mem_iff.mp (List.mem_flatMap.mpr ⟨_, hp, hx⟩))
  constructor
  · intro p
    by_cases hp : p ∈ ps
    · exact hone p hp
    · rw [frame p hp]
      exact h.nodup p
  · intro p q x hxp hxq
    by_cases hp : p ∈ ps
    · by_cases hq : q ∈ ps
      · by_contra hne
        exact hpair.forall hp hq hne hxp hxq
      · rw [frame q hq] at hxq
        obtain ⟨r, hr, hxr⟩ := hback hp hxp
        exact absurd (h.apart hxr hxq ▸ hr) hq
    · rw [frame p hp] at hxp
      by_cases hq : q ∈ ps
      · obtain ⟨r, hr, hxr⟩ := hback hq hxq
        exact absurd (h.apart hxr hxp ▸ hr) hp
      · rw [frame q hq] at hxq
        exact h.apart hxp hxq
  · intro x
    rw [h.cover x]
    constructor
    · rintro ⟨p, hx⟩
      by_cases hp : p ∈ ps
      · obtain ⟨q, -, hxq⟩ := hforth hp hx
        exact ⟨q, hxq⟩
      · exact ⟨p, by rw [frame p hp]; exact hx⟩
    · rintro ⟨p, hx⟩
      by_cases hp : p ∈ ps
      · obtain ⟨q, -, hxq⟩ := hback hp hx
        exact ⟨q, hxq⟩
      · exact ⟨p, by rw [← frame p hp]; exact hx⟩

/-- The reading of a partition at one token: its place, where it is listed once, and no other. -/
theorem exactly_one [DecidableEq T] (h : Partition U a) {x : T} (hx : x ∈ U) :
    ∃ p, (a p).count x = 1 ∧ ∀ q, q ≠ p → x ∉ a q := by
  obtain ⟨p, hp⟩ := (h.cover x).mp hx
  exact ⟨p, List.count_eq_one_of_mem (h.nodup p) hp, fun q hq hxq => hq (h.apart hxq hp)⟩

/-- The tokens are counted place by place. -/
theorem sum_length [Fintype P] [DecidableEq P] [DecidableEq T] (h : Partition U a)
    (hU : U.Nodup) : ∑ p, (a p).length = U.length := by
  have hdisj : ∀ p ∈ (Finset.univ : Finset P), ∀ q ∈ (Finset.univ : Finset P), p ≠ q →
      Disjoint (a p).toFinset (a q).toFinset := by
    intro p _ q _ hpq
    rw [Finset.disjoint_left]
    intro x hxp hxq
    exact hpq (h.apart (List.mem_toFinset.mp hxp) (List.mem_toFinset.mp hxq))
  have hunion : Finset.univ.biUnion (fun p => (a p).toFinset) = U.toFinset := by
    ext x
    simp only [Finset.mem_biUnion, Finset.mem_univ, true_and, List.mem_toFinset]
    exact (h.cover x).symm
  calc ∑ p, (a p).length
      = ∑ p, (a p).toFinset.card :=
        Finset.sum_congr rfl (fun p _ => (List.toFinset_card_of_nodup (h.nodup p)).symm)
    _ = (Finset.univ.biUnion (fun p => (a p).toFinset)).card := (Finset.card_biUnion hdisj).symm
    _ = U.length := by rw [hunion, List.toFinset_card_of_nodup hU]

end Partition
end Places
