/-
  Sequences of checked calls.

  The C idiom

      ret = call_1(...); if (ret != 0) return ret;
      ret = call_2(...); if (ret != 0) return ret;
      ...
      return 0;

  makes calls until one fails.  Given what each call would answer, `run` is what happens: the
  calls made, each with its answer, and the value returned.

  * `ret_eq_zero_iff` — the value is 0 exactly when every call of the sequence answers 0;
  * `run_of_all`      — and then all of them are made;
  * `run_cases`       — else they are made up to the first that fails, whose answer is the value;
  * `run_calls`       — in both cases what is made is a prefix of the sequence.
-/

namespace FirstFailure

variable {ε : Type}

/-- The calls made with their answers, and the value returned. -/
structure Outcome (ε : Type) where
  calls : List (ε × Int)
  ret : Int
  deriving DecidableEq, Repr

/-- Make the calls in order, until one does not answer 0. -/
def run : List (ε × Int) → Outcome ε
  | [] => ⟨[], 0⟩
  | (e, r) :: rest => if r = 0 then ⟨(e, r) :: (run rest).calls, (run rest).ret⟩ else ⟨[(e, r)], r⟩

/-- If every call answers 0, all are made and 0 is returned. -/
theorem run_of_all : ∀ steps : List (ε × Int), (∀ s ∈ steps, s.2 = 0) → run steps = ⟨steps, 0⟩
  | [], _ => rfl
  | (e, r) :: rest, h => by
    have hr : r = 0 := h (e, r) List.mem_cons_self
    have ih := run_of_all rest (fun s hs => h s (List.mem_cons_of_mem _ hs))
    rw [run, if_pos hr, ih]

/-- The value is 0 exactly when every call answers 0. -/
theorem ret_eq_zero_iff : ∀ steps : List (ε × Int),
    (run steps).ret = 0 ↔ ∀ s ∈ steps, s.2 = 0
  | [] => ⟨fun _ s hs => (nomatch hs), fun _ => rfl⟩
  | (e, r) :: rest => by
    constructor
    · intro h
      unfold run at h
      split at h
      · rename_i hr
        rw [List.forall_mem_cons]
        exact ⟨hr, (ret_eq_zero_iff rest).mp h⟩
      · rename_i hr
        exact absurd h hr
    · intro h
      rw [run_of_all _ h]

/-- **All succeed, or the first failure ends it.** -/
theorem run_cases : ∀ steps : List (ε × Int), (∀ s ∈ steps, s.2 = 0) ∨
    ∃ ok e r rest, steps = ok ++ (e, r) :: rest ∧ (∀ s ∈ ok, s.2 = 0) ∧ r ≠ 0 ∧
      run steps = ⟨ok ++ [(e, r)], r⟩
  | [] => Or.inl fun _ hs => absurd hs List.not_mem_nil
  | (e, r) :: steps => by
    by_cases hr : r = 0
    · rcases run_cases steps with hall | ⟨ok, e', r', rest, rfl, hok, hr', hrun⟩
      · exact Or.inl (List.forall_mem_cons.mpr ⟨hr, hall⟩)
      · refine Or.inr ⟨(e, r) :: ok, e', r', rest, rfl, List.forall_mem_cons.mpr ⟨hr, hok⟩, hr', ?_⟩
        rw [run, if_pos hr, hrun]
        rfl
    · refine Or.inr ⟨[], e, r, steps, rfl, fun _ hs => absurd hs List.not_mem_nil, hr, ?_⟩
      rw [run, if_neg hr]
      rfl

/-- The calls made are a prefix of the sequence. -/
theorem run_calls (steps : List (ε × Int)) : (run steps).calls <+: steps := by
  rcases run_cases steps with hall | ⟨ok, e, r, rest, rfl, -, -, hrun⟩
  · exact ⟨[], by rw [List.append_nil, run_of_all steps hall]⟩
  · rw [hrun]
    exact ⟨rest, List.append_assoc ok [(e, r)] rest⟩

end FirstFailure
