/-
  The end of `packet_send`'s `main`: launching the cores and waiting for them.

      rte_eal_mp_remote_launch(packet_send_process, &config, CALL_MAIN);
      uint32_t lcore_id;
      RTE_LCORE_FOREACH(lcore_id){
          if (rte_eal_wait_lcore(lcore_id) < 0){
              return -1;
          }
      }
      return 0;

  The launch starts the function on every worker lcore, runs it on the main lcore itself, and
  comes back when that run is over.  The loop then waits for the lcores in increasing order.  But
  `packet_send_process` never returns anything but -1, so the first wait that is over ends the
  loop and `main` with it: `main` waits for two lcores, the main lcore (inside the launch) and the
  lowest one, and not for the others.  It outlives all of them exactly when there are no others
  (`outlivesWorkers_iff`).

  A process is `main`'s program point next to the system of cores of `SendSystem`; its events are
  the moves of `main` and the events of the system, in any order.  That the workers are started
  one after another makes no difference: a worker not yet started is one that has not moved.
-/
import PacketSend.SendSystem
import PacketSend.Lcores

namespace PacketSend

open Runs

/-! ## The process -/

/-- Where `main` is: before the launch; inside it, running `packet_send_process` itself; in the
    loop, with the lcores it has not waited for; gone, with its exit value. -/
inductive MainPc where
  | start
  | inLaunch
  | waiting (rest : List Nat)
  | returned (ret : Int)
  deriving DecidableEq, Repr

/-- `main` and the cores. -/
structure Proc where
  main : MainPc
  sys : Sys Nat Nat

/-- A move of `main`, or an event of the system. -/
inductive ProcEvent where
  | launch
  | resume
  | wait
  | done
  | sys (e : Event Nat Nat)
  deriving DecidableEq, Repr

/-- The value of a `packet_send_process` that has returned. -/
def Core.retVal (k : Core) : Option Int :=
  match k.pc with
  | .returned _ => some (-1)
  | _ => none

/-- The events the cores of `L` can cause: calls of their own, and completions. -/
def Lcores.Own (L : Lcores) : Event Nat Nat → Prop
  | .core c _ => c ∈ L.ids
  | .complete _ _ => True

instance (L : Lcores) : (e : Event Nat Nat) → Decidable (L.Own e)
  | .core c _ => inferInstanceAs (Decidable (c ∈ L.ids))
  | .complete _ _ => isTrue trivial

/-- One event of the process. -/
def Proc.step (L : Lcores) (queueId : Nat → Nat) (p : Proc) : ProcEvent → Option Proc
  | .launch => if p.main = .start then some { p with main := .inLaunch } else none
  | .resume =>
    -- the launch comes back when the function has returned on the main lcore
    if p.main = .inLaunch ∧ (p.sys.core L.main).retVal.isSome = true then
      some { p with main := .waiting L.ids }
    else none
  | .wait =>
    match p.main with
    | .waiting (c :: rest) =>
      match (p.sys.core c).retVal with
      | none => none
      | some r => some { p with main := if r < 0 then .returned (-1) else .waiting rest }
    | _ => none
  | .done => if p.main = .waiting [] then some { p with main := .returned 0 } else none
  | .sys e =>
    if p.main ≠ .start ∧ L.Own e then
      (p.sys.step queueId e).map fun s => { p with sys := s }
    else none

/-- The process before the launch. -/
def Proc.init (pool : List Ptr) (stack : Nat → Vector Ptr burstSize) (mem : Ptr → TxFields) :
    Proc := ⟨.start, Sys.init pool stack mem⟩

/-- Whenever `main` has returned, so has `packet_send_process` on every lcore. -/
def OutlivesWorkers (L : Lcores) (queueId : Nat → Nat) : Prop :=
  ∀ (pool : List Ptr) (stack : Nat → Vector Ptr burstSize) (mem : Ptr → TxFields)
    (es : List ProcEvent) (p : Proc),
    Run (Proc.step L queueId) (Proc.init pool stack mem) es p →
    ∀ ret, p.main = .returned ret → ∀ c ∈ L.ids, (p.sys.core c).retVal.isSome = true

/-- The lcore `RTE_LCORE_FOREACH` visits first. -/
def Lcores.lowest (L : Lcores) : Nat := L.ids.head (List.ne_nil_of_mem L.main_mem)

/-! ## What `main` has waited for -/

theorem Core.retVal_eq {k : Core} {r : Int} (h : k.retVal = some r) : r = -1 := by
  unfold Core.retVal at h
  split at h
  · exact (Option.some.inj h).symm
  · nomatch h

/-- A core that has returned makes no more calls. -/
theorem Core.step_of_retVal {k k' : Core} {c : Call} (h : k.retVal.isSome = true) :
    k.step c ≠ some k' := by
  intro hstep
  unfold Core.retVal at h
  cases Core.step_inv hstep with
  | alloc m hpc => rw [hpc] at h; nomatch h
  | allocFail hpc => rw [hpc] at h; nomatch h
  | store hpc => rw [hpc] at h; nomatch h
  | txBurst hpc hle => rw [hpc] at h; nomatch h
  | free hpc => rw [hpc] at h; nomatch h
  | count hpc => rw [hpc] at h; nomatch h

/-- A core that has returned stays so. -/
theorem Sys.retVal_step {queueId : Nat → Nat} {s s' : Sys Nat Nat} {e : Event Nat Nat}
    (h : s.step queueId e = some s') {c : Nat} (hc : (s.core c).retVal.isSome = true) :
    (s'.core c).retVal.isSome = true := by
  rcases Sys.core_cases h c with hsame | ⟨call, -, hcore⟩
  · rw [hsame]
    exact hc
  · exact absurd hcore (Core.step_of_retVal hc)

/-- At each program point of `main`, the lcores known to have returned. -/
def Proc.Waited (L : Lcores) (p : Proc) : Prop :=
  match p.main with
  | .start => True
  | .inLaunch => True
  | .waiting rest => rest = L.ids ∧ (p.sys.core L.main).retVal.isSome = true
  | .returned _ =>
    (p.sys.core L.main).retVal.isSome = true ∧ (p.sys.core L.lowest).retVal.isSome = true

/-- **What `main` has waited for**, in every run: the main lcore before the loop, the main lcore
    and the lowest one when it is gone. -/
theorem Proc.waited {L : Lcores} {queueId : Nat → Nat} {pool : List Ptr}
    {stack : Nat → Vector Ptr burstSize} {mem : Ptr → TxFields} {es : List ProcEvent} {p : Proc}
    (h : Run (Proc.step L queueId) (Proc.init pool stack mem) es p) : p.Waited L := by
  refine h.reachable (P := fun p => p.Waited L) trivial ?_
  intro p e p' hp hstep
  cases e with
  | launch =>
    simp only [Proc.step] at hstep
    split at hstep
    · obtain rfl := Option.some.inj hstep
      trivial
    · nomatch hstep
  | resume =>
    simp only [Proc.step] at hstep
    split at hstep
    · rename_i hready
      obtain rfl := Option.some.inj hstep
      exact ⟨rfl, hready.2⟩
    · nomatch hstep
  | wait =>
    simp only [Proc.step] at hstep
    split at hstep
    · rename_i c rest hmain
      split at hstep
      · nomatch hstep
      · rename_i r hr
        obtain rfl := Option.some.inj hstep
        unfold Proc.Waited at hp
        rw [hmain] at hp
        have hrest : c :: rest = L.ids := hp.1
        have hmainRet : (p.sys.core L.main).retVal.isSome = true := hp.2
        have hlow : L.lowest = c := by
          unfold Lcores.lowest
          simp only [← hrest, List.head_cons]
        -- the value waited for is -1, so this wait is the last
        rw [Core.retVal_eq hr]
        refine ⟨hmainRet, ?_⟩
        show (p.sys.core L.lowest).retVal.isSome = true
        rw [hlow, hr]
        rfl
    · nomatch hstep
  | done =>
    simp only [Proc.step] at hstep
    split at hstep
    · rename_i hmain
      unfold Proc.Waited at hp
      rw [hmain] at hp
      have hids : [] = L.ids := hp.1
      have hmem := L.main_mem
      rw [← hids] at hmem
      nomatch hmem
    · nomatch hstep
  | sys e =>
    simp only [Proc.step] at hstep
    split at hstep
    · obtain ⟨s', hs', rfl⟩ := Option.map_eq_some_iff.mp hstep
      unfold Proc.Waited at hp ⊢
      cases hmain : p.main with
      | start => trivial
      | inLaunch => trivial
      | waiting rest =>
        simp only [hmain] at hp ⊢
        exact ⟨hp.1, Sys.retVal_step hs' hp.2⟩
      | returned ret =>
        simp only [hmain] at hp ⊢
        exact ⟨Sys.retVal_step hs' hp.1, Sys.retVal_step hs' hp.2⟩
    · nomatch hstep

/-! ## An lcore nobody waits for -/

/-- The process after an allocation of core `c` has failed. -/
def Proc.fail (p : Proc) (c : Nat) : Proc :=
  { p with sys := { p.sys with
      core := Function.update p.sys.core c { p.sys.core c with pc := .returned ⟨0, by decide⟩ } } }

/-- A core at the start of its loop can fail at once. -/
theorem Proc.fail_step {L : Lcores} (queueId : Nat → Nat) {p : Proc} {c : Nat}
    (hmain : p.main ≠ .start) (hc : c ∈ L.ids) (hpc : (p.sys.core c).pc = allocFrom 0) :
    Proc.step L queueId p (.sys (.core c (.alloc none))) = some (p.fail c) := by
  have hpc' : (p.sys.core c).pc = .alloc ⟨0, by decide⟩ := hpc
  have hsys : p.sys.step queueId (.core c (.alloc none)) = some (p.fail c).sys :=
    (SysStep.allocFail (CoreStep.allocFail hpc').step_eq).step_eq
  have hok : p.main ≠ .start ∧ L.Own (.core c (.alloc none)) := ⟨hmain, hc⟩
  simp only [Proc.step]
  rw [if_pos hok, hsys]
  rfl

theorem Proc.fail_self (p : Proc) (c : Nat) : ((p.fail c).sys.core c).retVal = some (-1) := by
  show Core.retVal (Function.update p.sys.core c _ c) = _
  rw [Function.update_self]
  rfl

theorem Proc.fail_of_ne (p : Proc) {c d : Nat} (h : d ≠ c) :
    (p.fail c).sys.core d = p.sys.core d := Function.update_of_ne h _ _

/-- Once the main lcore and the lowest have returned, `main` can return, with no other core
    moving. -/
theorem Proc.run_to_returned {L : Lcores} (queueId : Nat → Nat) {p : Proc}
    (hmain : p.main = .inLaunch) (hm : (p.sys.core L.main).retVal = some (-1))
    (hl : (p.sys.core L.lowest).retVal = some (-1)) :
    Run (Proc.step L queueId) p [.resume, .wait] { p with main := .returned (-1) } := by
  have hids : L.ids = L.lowest :: L.ids.tail := (List.cons_head_tail _).symm
  have hresume : Proc.step L queueId p .resume = some { p with main := .waiting L.ids } := by
    simp only [Proc.step]
    rw [if_pos ⟨hmain, by rw [hm]; rfl⟩]
  have hwait : Proc.step L queueId { p with main := .waiting L.ids } .wait
      = some { p with main := .returned (-1) } := by
    rw [hids]
    simp only [Proc.step, hl]
    rfl
  exact Run.cons hresume (Run.single hwait)

/-- An lcore that is neither the main one nor the lowest can be left running. -/
theorem left_running {L : Lcores} (queueId : Nat → Nat) {c : Nat} (hm : c ≠ L.main)
    (hl : c ≠ L.lowest) (pool : List Ptr) (stack : Nat → Vector Ptr burstSize)
    (mem : Ptr → TxFields) : ∃ es p, Run (Proc.step L queueId) (Proc.init pool stack mem) es p ∧
      p.main = .returned (-1) ∧ (p.sys.core c).retVal = none := by
  let p₁ : Proc := ⟨.inLaunch, Sys.init pool stack mem⟩
  have hlaunch : Proc.step L queueId (Proc.init pool stack mem) .launch = some p₁ := rfl
  have hlow : L.lowest ∈ L.ids := List.head_mem _
  have hmainFails : Proc.step L queueId p₁ (.sys (.core L.main (.alloc none)))
      = some (p₁.fail L.main) := Proc.fail_step queueId (by simp [p₁]) L.main_mem rfl
  have hidle : (p₁.sys.core c).retVal = none := rfl
  by_cases heq : L.lowest = L.main
  · have hrun := Proc.run_to_returned (L := L) queueId (p := p₁.fail L.main) rfl
      (Proc.fail_self p₁ _) (by rw [heq]; exact Proc.fail_self p₁ _)
    refine ⟨_, _, Run.cons hlaunch (Run.cons hmainFails hrun), rfl, ?_⟩
    show ((p₁.fail L.main).sys.core c).retVal = none
    rw [Proc.fail_of_ne p₁ hm, hidle]
  · have hlowFails : Proc.step L queueId (p₁.fail L.main) (.sys (.core L.lowest (.alloc none)))
        = some ((p₁.fail L.main).fail L.lowest) :=
      Proc.fail_step queueId (by simp [Proc.fail, p₁]) hlow
        (by rw [Proc.fail_of_ne p₁ heq]; rfl)
    have hrun := Proc.run_to_returned (L := L) queueId (p := (p₁.fail L.main).fail L.lowest) rfl
      (by rw [Proc.fail_of_ne _ (Ne.symm heq)]; exact Proc.fail_self p₁ _)
      (Proc.fail_self _ _)
    refine ⟨_, _, Run.cons hlaunch (Run.cons hmainFails (Run.cons hlowFails hrun)), rfl, ?_⟩
    show (((p₁.fail L.main).fail L.lowest).sys.core c).retVal = none
    rw [Proc.fail_of_ne _ hl, Proc.fail_of_ne _ hm, hidle]

/-- An lcore that `main` does not wait for makes it return too early in some run. -/
theorem not_outlivesWorkers {L : Lcores} (queueId : Nat → Nat) {c : Nat} (hc : c ∈ L.ids)
    (hm : c ≠ L.main) (hl : c ≠ L.lowest) : ¬ OutlivesWorkers L queueId := by
  intro h
  obtain ⟨es, p, hrun, hret, hnone⟩ := left_running queueId hm hl []
    (fun _ => Vector.replicate burstSize 0) (fun _ => sentFields)
  have hsome := h _ _ _ es p hrun (-1) hret c hc
  rw [hnone] at hsome
  nomatch hsome

/-- **When `main` outlives its workers**: in every run, exactly when every lcore is the main lcore
    or the lowest one. -/
theorem outlivesWorkers_iff (L : Lcores) (queueId : Nat → Nat) :
    OutlivesWorkers L queueId ↔ ∀ c ∈ L.ids, c = L.main ∨ c = L.lowest := by
  constructor
  · intro h c hc
    by_cases hm : c = L.main
    · exact Or.inl hm
    · by_cases hl : c = L.lowest
      · exact Or.inr hl
      · exact absurd h (not_outlivesWorkers queueId hc hm hl)
  · intro h pool stack mem es p hrun ret hret c hc
    have hwaited := Proc.waited hrun
    unfold Proc.Waited at hwaited
    rw [hret] at hwaited
    rcases h c hc with rfl | rfl
    · exact hwaited.1
    · exact hwaited.2

/-- The lcores 0 and 1, the lower one the main lcore (`-l 0-1`). -/
def lcoresTwo : Lcores := ⟨[0, 1], by decide, by decide, 0, by decide⟩

/-- On two lcores the failure of the first ends the process under the second. -/
theorem outlivesWorkers_not_two : ¬ OutlivesWorkers lcoresTwo id :=
  not_outlivesWorkers id (by decide : (1 : Nat) ∈ lcoresTwo.ids) (by decide) (by decide)

end PacketSend
