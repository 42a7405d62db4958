/-
  Tables updated one cell at a time.

  An event `e` names a cell `key e` of a table `K → S` and changes that cell only, by
  `f : S → E → S`.  Whatever the order in which events of DIFFERENT cells are mixed, the final
  content of a cell depends only on the sub-sequence of its own events (`foldl_update_apply`).

  When events come from several sources and each cell is fed by one source, keeping the order of
  every source is enough to fix the sub-sequence of every cell (`filter_key_eq`): so any two
  ways of interleaving the sources give the same table.
-/
import Mathlib.Logic.Function.Basic
import Mathlib.Data.List.Perm.Basic

namespace Keyed

variable {K S E Q : Type} [DecidableEq K]

/-- Change the cell of `e`, and only that cell. -/
def update (key : E → K) (f : S → E → S) (t : K → S) (e : E) : K → S :=
  Function.update t (key e) (f (t (key e)) e)

theorem update_self {key : E → K} {f : S → E → S} {t : K → S} {e : E} :
    update key f t e (key e) = f (t (key e)) e :=
  Function.update_self _ _ _

theorem update_of_ne {key : E → K} {f : S → E → S} {t : K → S} {e : E} {k : K}
    (h : k ≠ key e) : update key f t e k = t k :=
  Function.update_of_ne h _ _

/-- **Locality**: the cell `k` after a sequence of events is the cell `k` after its own events. -/
theorem foldl_update_apply (key : E → K) (f : S → E → S) (k : K) :
    ∀ (es : List E) (t : K → S),
      es.foldl (update key f) t k = (es.filter (fun e => key e = k)).foldl f (t k)
  | [], _ => rfl
  | e :: es, t => by
    rw [List.foldl_cons, foldl_update_apply key f k es]
    by_cases h : key e = k
    · rw [List.filter_cons_of_pos (by simpa using h), List.foldl_cons, ← h, update_self]
    · rw [List.filter_cons_of_neg (by simpa using h), update_of_ne (Ne.symm h)]

/-- Sequences with the same events, in the same order, at every cell give the same table. -/
theorem foldl_update_congr {key : E → K} {f : S → E → S} {es fs : List E}
    (h : ∀ k, es.filter (fun e => key e = k) = fs.filter (fun e => key e = k)) (t : K → S) :
    es.foldl (update key f) t = fs.foldl (update key f) t := by
  funext k
  rw [foldl_update_apply, foldl_update_apply, h k]

/-! ## Several ordered sources -/

variable [DecidableEq Q] {src : E → Q}

theorem mem_of_filter_src_eq {es fs : List E}
    (h : ∀ q, es.filter (fun e => src e = q) = fs.filter (fun e => src e = q)) {e : E}
    (he : e ∈ es) : e ∈ fs := by
  have hmem : e ∈ es.filter (fun x => src x = src e) :=
    List.mem_filter.mpr ⟨he, decide_eq_true rfl⟩
  rw [h (src e)] at hmem
  exact (List.mem_filter.mp hmem).1

/-- **One source per cell**: if two interleavings keep the order of every source, and events of
    one cell all come from one source, they keep the order of every cell. -/
theorem filter_key_eq {key : E → K} {es fs : List E}
    (h : ∀ q, es.filter (fun e => src e = q) = fs.filter (fun e => src e = q))
    (hone : ∀ e ∈ es, ∀ e' ∈ es, key e = key e' → src e = src e') (k : K) :
    es.filter (fun e => key e = k) = fs.filter (fun e => key e = k) := by
  by_cases hk : ∃ e₀ ∈ es, key e₀ = k
  · obtain ⟨e₀, he₀, hke₀⟩ := hk
    -- events of cell `k` are the events of cell `k` of the source of `e₀`
    have hthrough : ∀ gs : List E, (∀ e ∈ gs, e ∈ es) →
        gs.filter (fun e => key e = k)
          = (gs.filter (fun e => src e = src e₀)).filter (fun e => key e = k) := by
      intro gs hgs
      rw [List.filter_filter]
      apply List.filter_congr
      intro e he
      by_cases hke : key e = k
      · have hsrc : src e = src e₀ := hone e (hgs e he) e₀ he₀ (hke.trans hke₀.symm)
        simp [hke, hsrc]
      · simp [hke]
    rw [hthrough es (fun _ he => he),
      hthrough fs (fun _ he => mem_of_filter_src_eq (fun q => (h q).symm) he), h]
  · have hnone : ∀ gs : List E, (∀ e ∈ gs, e ∈ es) → gs.filter (fun e => key e = k) = [] := by
      intro gs hgs
      rw [List.filter_eq_nil_iff]
      intro e he hke
      exact hk ⟨e, hgs e he, of_decide_eq_true hke⟩
    rw [hnone es (fun _ he => he),
      hnone fs (fun _ he => mem_of_filter_src_eq (fun q => (h q).symm) he)]

/-- Two interleavings of the same sources have the same number of events. -/
theorem length_eq_of_filter_src_eq {es fs : List E}
    (h : ∀ q, es.filter (fun e => src e = q) = fs.filter (fun e => src e = q)) :
    es.length = fs.length := by
  classical
  apply List.Perm.length_eq
  rw [List.perm_iff_count]
  intro e
  have hcount : ∀ gs : List E, gs.count e = (gs.filter (fun x => src x = src e)).count e :=
    fun gs => (List.count_filter (by simp)).symm
  rw [hcount es, hcount fs, h]

end Keyed
