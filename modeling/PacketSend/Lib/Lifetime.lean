/-
  Resources that are handed over, used and given back.

  A history of `acquire`, `use` and `release` is replayed against the list of the resources owned
  at each point.  Using or releasing what is not owned is a fault, and the replay is a machine in
  the sense of `Runs` which a fault stops: a history that can be replayed has no use after a
  release and no release too many.  A resource may be acquired again after it was released, and
  owned as often as it was acquired.

  * `ledger`       — acquired = released + owned, for every replayed history;
  * `exec_session` — the pattern of a consumer: acquire some resources, then use each once and
                     release it at once; it leaves what was owned before.
-/
import PacketSend.Lib.Runs

namespace Lifetime

open Runs

variable {ρ : Type} [DecidableEq ρ]

/-- What happens to resources. -/
inductive Event (ρ : Type) where
  | acquire (rs : List ρ)
  | use (r : ρ)
  | release (r : ρ)
  deriving DecidableEq, Repr

/-- The resources owned after an event.  `none` is a fault. -/
def step (owned : List ρ) : Event ρ → Option (List ρ)
  | .acquire rs => some (rs ++ owned)
  | .use r => if r ∈ owned then some owned else none
  | .release r => if r ∈ owned then some (owned.erase r) else none

theorem step_use {owned owned' : List ρ} {r : ρ} :
    step owned (.use r) = some owned' ↔ r ∈ owned ∧ owned = owned' := by
  show (if r ∈ owned then some owned else none) = some owned' ↔ _
  rw [Option.ite_none_right_eq_some, Option.some_inj]

theorem step_release {owned owned' : List ρ} {r : ρ} :
    step owned (.release r) = some owned' ↔ r ∈ owned ∧ owned.erase r = owned' := by
  show (if r ∈ owned then some (owned.erase r) else none) = some owned' ↔ _
  rw [Option.ite_none_right_eq_some, Option.some_inj]

/-- The resources acquired, in order, once for each time they were acquired. -/
def acquired (es : List (Event ρ)) : List ρ :=
  es.flatMap fun e => match e with
    | .acquire rs => rs
    | _ => []

/-- The resources released, in order. -/
def released (es : List (Event ρ)) : List ρ :=
  es.flatMap fun e => match e with
    | .release r => [r]
    | _ => []

/-- **The ledger**: counted as often as it was acquired, a resource was released or is owned. -/
theorem ledger {es : List (Event ρ)} {owned : List ρ} (h : exec step [] es = some owned) (r : ρ) :
    (acquired es).count r = (released es).count r + owned.count r := by
  refine (run_iff_exec.mpr h).history (P := fun es owned =>
    (acquired es).count r = (released es).count r + owned.count r) rfl ?_
  intro es owned e owned' ih hstep
  have hacq : acquired (es ++ [e]) = acquired es ++ acquired [e] := List.flatMap_append
  have hrel : released (es ++ [e]) = released es ++ released [e] := List.flatMap_append
  rw [hacq, hrel, List.count_append, List.count_append, ih]
  cases e with
  | acquire rs =>
    obtain rfl := Option.some.inj hstep
    have hone : acquired [Event.acquire rs] = rs := List.append_nil rs
    rw [hone, List.count_append]
    show _ = (released es).count r + 0 + _
    omega
  | use a =>
    obtain ⟨-, rfl⟩ := step_use.mp hstep
    rfl
  | release a =>
    obtain ⟨hmem, rfl⟩ := step_release.mp hstep
    have hone : released [Event.release a] = [a] := rfl
    rw [hone, (List.perm_cons_erase hmem).count_eq r, List.count_cons, List.count_singleton]
    show _ + 0 = _
    omega

/-- Use a resource and release it. -/
def spend (r : ρ) : List (Event ρ) := [.use r, .release r]

/-- Resources that are owned can be spent one after another. -/
theorem exec_spend (rs owned : List ρ) :
    exec step (rs ++ owned) (rs.flatMap spend) = some owned := by
  induction rs with
  | nil => rfl
  | cons r rs ih =>
    have hmem : r ∈ r :: rs ++ owned := List.mem_cons_self
    have huse : step (r :: rs ++ owned) (.use r) = some (r :: rs ++ owned) :=
      step_use.mpr ⟨hmem, rfl⟩
    have hrelease : step (r :: rs ++ owned) (.release r) = some (rs ++ owned) :=
      step_release.mpr ⟨hmem, List.erase_cons_head r (rs ++ owned)⟩
    have hspend : exec step (r :: rs ++ owned) (spend r) = some (rs ++ owned) := by
      rw [spend, exec, huse]
      show exec step _ [.release r] = _
      rw [exec, hrelease]
      rfl
    rw [List.flatMap_cons, exec_append step _ _ _ _ hspend]
    exact ih

/-- Acquire some resources and spend them all: what was owned before is owned after. -/
theorem exec_session (rs owned : List ρ) :
    exec step owned (.acquire rs :: rs.flatMap spend) = some owned :=
  exec_spend rs owned

end Lifetime
