/-
  Runs of a labelled machine.

  A machine is a partial step function `step : σ → ε → Option σ`: in state `s` the label `e` is
  either impossible (`none`) or leads to one next state.  The label carries everything the
  environment chooses (results of calls, the identity of the component that moves), so one
  `step` function describes every schedule and every answer of the environment.

  `Run step s es t` — the labels `es`, oldest first, lead from `s` to `t`.  The relation grows at
  the END (`snoc`), because every invariant of a run is an induction on its last step.

  * `Run.history`   — the induction rule: a relation between the labels so far and the state, true
                      at the start and kept by one step, is true after every run;
  * `Run.reachable` — the same for a property of the state alone;
  * `Run.project`   — a machine seen through a state map and a partial label map: the labels that
                      map to nothing must not move the image;
  * `Run.simulate`  — a machine matched step by step by runs of another one, through a relation
                      between their states;
  * `restrict`      — a machine whose environment is held to a side condition;
  * `tally`         — what some labels add up to.
-/

namespace Runs

variable {σ ε τ δ : Type}

/-! ## Runs -/

/-- `Run step s es t` — executing the labels `es` (oldest first) from `s` ends in `t`. -/
inductive Run (step : σ → ε → Option σ) (s : σ) : List ε → σ → Prop where
  | nil : Run step s [] s
  | snoc {es : List ε} {t u : σ} {e : ε} (h : Run step s es t) (hs : step t e = some u) :
      Run step s (es ++ [e]) u

/-- The executable reading: fold the step function over the labels. -/
def exec (step : σ → ε → Option σ) : σ → List ε → Option σ
  | s, [] => some s
  | s, e :: es =>
    match step s e with
    | none => none
    | some t => exec step t es

namespace Run

variable {step : σ → ε → Option σ} {s t u : σ} {es fs : List ε}

/-- **The induction rule**: what holds of the empty history at the start, and is kept when one
    more label is taken, holds of every history and the state it leads to. -/
theorem history {P : List ε → σ → Prop} (hinit : P [] s)
    (hstep : ∀ es t e u, P es t → step t e = some u → P (es ++ [e]) u)
    (h : Run step s es t) : P es t := by
  induction h with
  | nil => exact hinit
  | snoc _ hs ih => exact hstep _ _ _ _ ih hs

/-- The induction rule for a property of the state alone. -/
theorem reachable {P : σ → Prop} (hinit : P s)
    (hstep : ∀ t e u, P t → step t e = some u → P u) (h : Run step s es t) : P t :=
  h.history (P := fun _ t => P t) hinit (fun _ t e u => hstep t e u)

theorem trans (h : Run step s es t) (h' : Run step t fs u) : Run step s (es ++ fs) u := by
  induction h' with
  | nil => rw [List.append_nil]; exact h
  | snoc _ hs ih => rw [← List.append_assoc]; exact ih.snoc hs

theorem single {e : ε} (hs : step s e = some t) : Run step s [e] t := Run.nil.snoc hs

theorem cons {e : ε} (hs : step s e = some t) (h : Run step t es u) : Run step s (e :: es) u :=
  (single hs).trans h

/-- **Projection.**  If every step of `step` is seen by `f` either as nothing (`ρ e = none`, the
    image does not move) or as one step of `step'`, a run is seen as a run. -/
theorem project {step' : τ → δ → Option τ} {f : σ → τ} {ρ : ε → Option δ}
    (hstep : ∀ t e u, step t e = some u →
      match ρ e with
      | none => f u = f t
      | some d => step' (f t) d = some (f u))
    (h : Run step s es t) : Run step' (f s) (es.filterMap ρ) (f t) := by
  induction h with
  | nil => exact Run.nil
  | @snoc es t u e _ hs ih =>
    have hstep' := hstep t e u hs
    rw [List.filterMap_append]
    cases hρ : ρ e with
    | none =>
      rw [hρ] at hstep'
      rw [List.filterMap_cons_none hρ, List.filterMap_nil, List.append_nil, hstep']
      exact ih
    | some d =>
      rw [hρ] at hstep'
      rw [List.filterMap_cons_some hρ, List.filterMap_nil]
      exact ih.snoc hstep'

/-- **Forward simulation.**  If every step of `step` from related states is matched by a run of
    `step'` over the labels `ρ e` that ends in related states, so is every run. -/
theorem simulate {step' : τ → δ → Option τ} {R : σ → τ → Prop} {ρ : ε → List δ}
    (hstep : ∀ t e u t', R t t' → step t e = some u → ∃ u', Run step' t' (ρ e) u' ∧ R u u')
    {s' : τ} (hR : R s s') (h : Run step s es t) :
    ∃ t', Run step' s' (es.flatMap ρ) t' ∧ R t t' := by
  induction h with
  | nil => exact ⟨s', Run.nil, hR⟩
  | @snoc es t u e _ hs ih =>
    obtain ⟨t', hrun, hRt⟩ := ih
    obtain ⟨u', hrun', hRu⟩ := hstep t e u t' hRt hs
    refine ⟨u', ?_, hRu⟩
    rw [List.flatMap_append, List.flatMap_cons, List.flatMap_nil, List.append_nil]
    exact hrun.trans hrun'

end Run

/-! ## Executing a list of labels -/

/-- A successful execution is a run. -/
theorem run_of_exec (step : σ → ε → Option σ) : ∀ (es : List ε) (s t : σ),
    exec step s es = some t → Run step s es t
  | [], s, t, h => by
    obtain rfl : s = t := Option.some.inj h
    exact Run.nil
  | e :: es, s, t, h => by
    unfold exec at h
    cases hs : step s e with
    | none => rw [hs] at h; nomatch h
    | some u =>
      rw [hs] at h
      exact Run.cons hs (run_of_exec step es u t h)

theorem exec_append (step : σ → ε → Option σ) (fs : List ε) : ∀ (es : List ε) (s t : σ),
    exec step s es = some t → exec step s (es ++ fs) = exec step t fs
  | [], s, t, h => by
    obtain rfl : s = t := Option.some.inj h
    rfl
  | e :: es, s, t, h => by
    rw [List.cons_append, exec]
    rw [exec] at h
    cases hs : step s e with
    | none => rw [hs] at h; nomatch h
    | some u =>
      rw [hs] at h
      exact exec_append step fs es u t h

/-- A run is a successful execution, and conversely. -/
theorem run_iff_exec {step : σ → ε → Option σ} {es : List ε} {s t : σ} :
    Run step s es t ↔ exec step s es = some t := by
  constructor
  · intro h
    induction h with
    | nil => rfl
    | @snoc es t u e _ hs ih =>
      rw [exec_append step [e] es s t ih, exec, hs]
      rfl
  · exact run_of_exec step es s t

theorem run_nil_iff {step : σ → ε → Option σ} {s t : σ} : Run step s [] t ↔ t = s := by
  rw [run_iff_exec, exec, Option.some.injEq, eq_comm]

theorem run_single_iff {step : σ → ε → Option σ} {e : ε} {s t : σ} :
    Run step s [e] t ↔ step s e = some t := by
  rw [run_iff_exec, exec]
  cases step s e with
  | none => exact Iff.rfl
  | some u => exact Iff.rfl

/-- The run of an execution that does not get stuck, with its final state read off. -/
theorem run_of_exec_isSome {step : σ → ε → Option σ} {s : σ} {es : List ε}
    (h : (exec step s es).isSome = true) : Run step s es ((exec step s es).get h) :=
  run_of_exec step es s _ (Option.some_get h).symm

/-! ## Holding the environment to a side condition -/

/-- The machine `step` with only the labels that satisfy `ok` in the current state. -/
def restrict (ok : σ → ε → Prop) [∀ s e, Decidable (ok s e)] (step : σ → ε → Option σ) :
    σ → ε → Option σ :=
  fun s e => if ok s e then step s e else none

theorem restrict_eq_some {ok : σ → ε → Prop} [∀ s e, Decidable (ok s e)]
    {step : σ → ε → Option σ} {s t : σ} {e : ε} :
    restrict ok step s e = some t ↔ ok s e ∧ step s e = some t := by
  unfold restrict
  by_cases h : ok s e
  · rw [if_pos h]
    exact ⟨fun hs => ⟨h, hs⟩, fun hs => hs.2⟩
  · rw [if_neg h]
    exact ⟨fun hs => (nomatch hs), fun hs => absurd hs.1 h⟩

/-- A run of the restricted machine is a run of the machine. -/
theorem Run.of_restrict {ok : σ → ε → Prop} [∀ s e, Decidable (ok s e)]
    {step : σ → ε → Option σ} {s t : σ} {es : List ε}
    (h : Run (restrict ok step) s es t) : Run step s es t := by
  induction h with
  | nil => exact Run.nil
  | snoc _ hs ih => exact ih.snoc (restrict_eq_some.mp hs).2

/-! ## Adding up labels -/

/-- The sum of `f` over some labels. -/
def tally (f : ε → Nat) : List ε → Nat
  | [] => 0
  | e :: es => f e + tally f es

theorem tally_append (f : ε → Nat) (es fs : List ε) :
    tally f (es ++ fs) = tally f es + tally f fs := by
  induction es with
  | nil => rw [List.nil_append, tally, Nat.zero_add]
  | cons e es ih => rw [List.cons_append, tally, tally, ih, Nat.add_assoc]

theorem tally_snoc (f : ε → Nat) (es : List ε) (e : ε) :
    tally f (es ++ [e]) = tally f es + f e := tally_append f es [e]

end Runs
