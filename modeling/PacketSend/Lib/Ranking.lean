/-
  Ranks.

  A number that no step of a machine raises, and that some steps lower, bounds how many of those
  steps a run can have.  Where several workers share a machine, such a number is the sum of their
  ranks: a step lowers the rank of the worker that makes it, and may raise that of every other
  worker a little, as long as the sum still goes down.

  * `Run.countP_add_le` — the bound on a run;
  * `sum_rank_le`       — one worker goes down, the others go up by no more than `d` each;
  * `sum_update`        — the sum of something over the workers when one of them changes.
-/
import PacketSend.Lib.Runs
import Mathlib.Algebra.BigOperators.Group.Finset.Basic
import Mathlib.Algebra.Order.BigOperators.Group.Finset
import Mathlib.Data.Fintype.Card

namespace Runs

variable {σ ε : Type}

/-- **A rank bounds the steps that lower it**: over labels in `A`, the steps that `p` counts are
    no more than what the rank goes down by. -/
theorem Run.countP_add_le {step : σ → ε → Option σ} {A : ε → Prop} {p : ε → Bool} {rank : σ → Nat}
    (hstep : ∀ t e u, A e → step t e = some u → (if p e = true then 1 else 0) + rank u ≤ rank t)
    {s t : σ} {es : List ε} (h : Run step s es t) (hes : ∀ e ∈ es, A e) :
    es.countP p + rank t ≤ rank s := by
  induction h with
  | nil => exact Nat.le_of_eq (Nat.zero_add _)
  | @snoc es t u e _ hs ih =>
    have hbefore := ih fun e' he' => hes e' (List.mem_append_left _ he')
    have hlast := hstep t e u (hes e (List.mem_append_right _ (List.mem_singleton.mpr rfl))) hs
    rw [List.countP_append, List.countP_singleton]
    omega

end Runs

namespace Ranking

variable {ι : Type} [Fintype ι] [DecidableEq ι]

/-- The sum of the ranks after a step of worker `t`. -/
theorem sum_rank_le {rank rank' : ι → Nat} (t : ι) {d k : Nat}
    (hother : ∀ w, w ≠ t → rank' w ≤ rank w + d)
    (hself : rank' t + Fintype.card ι * d + k ≤ rank t) :
    (∑ w, rank' w) + k ≤ ∑ w, rank w := by
  have hsplit := Finset.add_sum_erase Finset.univ rank (Finset.mem_univ t)
  have hsplit' := Finset.add_sum_erase Finset.univ rank' (Finset.mem_univ t)
  have hcard : (Finset.univ.erase t).card * d ≤ Fintype.card ι * d :=
    Nat.mul_le_mul_right d (Finset.card_le_univ _)
  have hothers : ∑ w ∈ Finset.univ.erase t, rank' w
      ≤ ∑ w ∈ Finset.univ.erase t, rank w + (Finset.univ.erase t).card * d := by
    have hconst : ∑ _w ∈ Finset.univ.erase t, d = (Finset.univ.erase t).card * d :=
      Finset.sum_const_nat fun _ _ => rfl
    rw [← hconst, ← Finset.sum_add_distrib]
    exact Finset.sum_le_sum fun w hw => hother w (Finset.ne_of_mem_erase hw)
  omega

/-- The sum over all workers when worker `t` goes to `x`. -/
theorem sum_update {β : Type} (f : β → Nat) (worker : ι → β) (t : ι) (x : β) :
    (∑ w, f (Function.update worker t x w)) + f (worker t) = (∑ w, f (worker w)) + f x := by
  have hsplit := Finset.add_sum_erase Finset.univ (fun w => f (worker w)) (Finset.mem_univ t)
  have hsplit' := Finset.add_sum_erase Finset.univ (fun w => f (Function.update worker t x w))
    (Finset.mem_univ t)
  have hothers : ∑ w ∈ Finset.univ.erase t, f (Function.update worker t x w)
      = ∑ w ∈ Finset.univ.erase t, f (worker w) := by
    apply Finset.sum_congr rfl
    intro w hw
    rw [Function.update_of_ne (Finset.ne_of_mem_erase hw)]
  rw [hothers, Function.update_self] at hsplit'
  omega

end Ranking
