/-
  Programs whose workers share an `rte_ring`.

  A program of `QueueClient` whose workers are the threads of a ring: a worker that stands at a
  request calls `rte_ring_mp_enqueue_bulk` or `rte_ring_mc_dequeue_bulk`, every access of the call
  is a step, and when the call returns the worker goes on.  Like a mempool, the program does not
  look at what an enqueue returns.

  * `RingClient.queue_run`  — every run is a run over the queue of `BulkQueue`, because the ring is
                              one (`implements_step`);
  * `RingClient.run_atomic` — if the workers together never have more elements than the ring has
                              room for, it is a run over a list, in which every request is made
                              and answered in one step, and no enqueue is turned away.

  The second follows from the first by the rule of `QueueClient`; nothing is said here about
  indices, cells or compare-and-set.
-/
import PacketSend.RingQueue
import PacketSend.Lib.QueueClient

namespace PacketSend

open Runs BulkQueue QueueClient

variable {ι α L ε : Type}

/-! ## The machine -/

/-- The workers and the ring. -/
structure RingClient (ι α L : Type) where
  loc : ι → L
  ring : RingState ι (BitVec 32) α

/-- A step of workers on their own, or a call or an access of a thread on the ring. -/
inductive RingClientEvent (ι α ε : Type) where
  | own (e : ε)
  | ring (e : RingEvent ι α)

/-- The call for a request: in bulk, all or nothing. -/
def ringOp : Request α → RingOp α
  | .give objs => .enqueue objs .queueFixed
  | .take n => .dequeue n .queueFixed

section Machine

variable [DecidableEq ι] [DecidableEq α] [Fintype ι] (C : Client ι α L ε) (conf : RingConf)

/-- Workers call what they stand at. -/
def RingClient.Calls (loc : ι → L) : RingEvent ι α → Prop
  | .call t op => (C.request (loc t)).map ringOp = some op
  | .act _ _ => True

instance (loc : ι → L) (e : RingEvent ι α) : Decidable (RingClient.Calls C loc e) := by
  cases e <;> unfold RingClient.Calls <;> infer_instance

/-- Workers whose call returns go on. -/
def RingClient.after (loc : ι → L) : RingEvent ι α → ι → L
  | .act t (.enqueued _ _) => Function.update loc t (C.reply (loc t) [])
  | .act t (.dequeued objs _) => Function.update loc t (C.reply (loc t) objs)
  | _ => loc

/-- One event. -/
def RingClient.step (s : RingClient ι α L) : RingClientEvent ι α ε → Option (RingClient ι α L)
  | .own e => (C.own s.loc e).map fun loc => { s with loc := loc }
  | .ring e =>
    if RingClient.Calls C s.loc e then
      (RingState.timelyStep conf s.ring e).map fun ring => ⟨RingClient.after C s.loc e, ring⟩
    else none

end Machine

/-- What an event is for the program over the queue. -/
def queueEvents : RingClientEvent ι α ε → List (ClientEvent ι α ε)
  | .own e => [.own e]
  | .ring e => e.spec.map .queue

/-! ## One event -/

section Run

variable [Fintype ι] [DecidableEq ι] [DecidableEq α] {C : Client ι α L ε} {conf : RingConf}

omit [Fintype ι] [DecidableEq ι] [DecidableEq α] in
/-- What a call of the program is for the queue, the program over the queue may do. -/
theorem allows_spec {loc : ι → L} {e : RingEvent ι α} (hcalls : RingClient.Calls C loc e) :
    ∀ d ∈ e.spec, C.Allows loc d := by
  intro d hd
  cases e with
  | call t op =>
    obtain ⟨r, hreq, rfl⟩ := Option.map_eq_some_iff.mp hcalls
    cases r with
    | give objs =>
      rw [List.mem_singleton.mp hd]
      exact ⟨hreq, rfl⟩
    | take n =>
      rw [List.mem_singleton.mp hd]
      exact ⟨hreq, rfl⟩
  | act t a =>
    cases a with
    | access => exact absurd hd List.not_mem_nil
    | spin => exact absurd hd List.not_mem_nil
    | _ =>
      rw [List.mem_singleton.mp hd]
      trivial

/-- And it does it with the same effect on the workers. -/
theorem client_spec {loc : ι → L} {q q' : Queue ι α} {e : RingEvent ι α}
    (hrun : Run (BulkQueue.step conf.capacity) q e.spec q')
    (hallow : ∀ d ∈ e.spec, C.Allows loc d) :
    Run (C.step conf.capacity) ⟨loc, q⟩ (e.spec.map .queue) ⟨RingClient.after C loc e, q'⟩ := by
  -- a step of the ring is nothing for the queue, or one event
  have hnone : e.spec = [] → RingClient.after C loc e = loc →
      Run (C.step conf.capacity) ⟨loc, q⟩ (e.spec.map .queue)
        ⟨RingClient.after C loc e, q'⟩ := by
    intro hspec hafter
    rw [hspec] at hrun ⊢
    rw [hafter, run_nil_iff.mp hrun]
    exact Run.nil
  have hone : ∀ d, e.spec = [d] → RingClient.after C loc e = C.after loc d →
      Run (C.step conf.capacity) ⟨loc, q⟩ (e.spec.map .queue)
        ⟨RingClient.after C loc e, q'⟩ := by
    intro d hspec hafter
    rw [hspec] at hrun hallow ⊢
    have hstep : C.step conf.capacity ⟨loc, q⟩ (.queue d)
        = some ⟨RingClient.after C loc e, q'⟩ := by
      simp only [Client.step, if_pos (hallow d List.mem_cons_self), run_single_iff.mp hrun,
        Option.map_some, hafter]
    exact Run.single hstep
  cases e with
  | call t op => cases op <;> exact hone _ rfl rfl
  | act t a =>
    cases a with
    | access => exact hnone rfl rfl
    | spin => exact hnone rfl rfl
    | _ => exact hone _ rfl rfl

/-- The program over the ring and the program over the queue. -/
structure RingClient.OverQueue (conf : RingConf) (s : RingClient ι α L) (c : ClientState ι α L) :
    Prop where
  loc : c.loc = s.loc
  ring : Implements conf s.ring c.queue

/-- **The step lemma**: an event over the ring is what `queueEvents` says over the queue. -/
theorem RingClient.OverQueue.step {s s' : RingClient ι α L} {c : ClientState ι α L}
    {e : RingClientEvent ι α ε} (h : s.OverQueue conf c) (hs : s.step C conf e = some s') :
    ∃ c', Run (C.step conf.capacity) c (queueEvents e) c' ∧ s'.OverQueue conf c' := by
  obtain ⟨loc, q⟩ := c
  obtain rfl : loc = s.loc := h.loc
  cases e with
  | own e =>
    obtain ⟨loc', hown, rfl⟩ := Option.map_eq_some_iff.mp hs
    have hstep : C.step conf.capacity ⟨s.loc, q⟩ (.own e) = some ⟨loc', q⟩ := by
      simp only [Client.step, hown, Option.map_some]
    exact ⟨_, Run.single hstep, rfl, h.ring⟩
  | ring e =>
    simp only [RingClient.step] at hs
    split at hs
    · rename_i hcalls
      obtain ⟨ring, hring, rfl⟩ := Option.map_eq_some_iff.mp hs
      obtain ⟨q', hrun, himpl⟩ := implements_step h.ring hring
      exact ⟨_, client_spec hrun (allows_spec hcalls), rfl, himpl⟩
    · cases hs

/-! ## Every run -/

/-- A run over the ring is a run over the queue. -/
theorem RingClient.queue_run {loc : ι → L} {cells : Nat → α} {es : List (RingClientEvent ι α ε)}
    {s : RingClient ι α L}
    (h : Run (RingClient.step C conf) ⟨loc, RingState.init 0 cells⟩ es s) :
    ∃ c, Run (C.step conf.capacity) ⟨loc, BulkQueue.init⟩ (es.flatMap queueEvents) c ∧
      s.OverQueue conf c :=
  h.simulate (fun _ _ _ _ hR hs => hR.step hs) ⟨rfl, implements_init conf cells⟩

/-- What the program over the ring has in common with the one over a list. -/
structure RingClient.Atomic (C : Client ι α L ε) (conf : RingConf) (s : RingClient ι α L)
    (u : AtomicState ι α L) : Prop where
  items : s.ring.contents conf = u.items
  /-- Threads that are not in a call are where they are. -/
  loc : ∀ t, s.ring.thread t = .idle → s.loc t = u.loc t
  /-- Threads that are in a call still stand at their request. -/
  stand : ∀ t, s.ring.thread t ≠ .idle → C.request (s.loc t) ≠ none
  /-- An enqueue that is about to return has put in all it was asked to. -/
  accepted : ∀ t objs b n free, s.ring.thread t = .enqEnd objs b n free →
    ∃ objs', C.request (s.loc t) = some (.give objs') ∧ n = objs'.length

/-- **A run over the ring is a run over a list.** -/
theorem RingClient.run_atomic (hC : C.Frames) {weight : L → Nat} (hw : C.Conserves weight)
    {loc : ι → L} (hcap : (∑ w, weight (loc w)) ≤ conf.capacity) {cells : Nat → α}
    {es : List (RingClientEvent ι α ε)} {s : RingClient ι α L}
    (h : Run (RingClient.step C conf) ⟨loc, RingState.init 0 cells⟩ es s) :
    ∃ u, Run (C.atomicStep conf.capacity) ⟨loc, []⟩
      ((es.flatMap queueEvents).flatMap Client.atomicEvents) u ∧ s.Atomic C conf u := by
  obtain ⟨⟨loc', q⟩, hqueue, hover⟩ := RingClient.queue_run h
  obtain rfl : loc' = s.loc := hover.loc
  obtain ⟨u, hrun, hahead⟩ := Client.atomic_run hC hw hcap hqueue
  obtain ⟨v, hv, hmatch, -⟩ := hover.ring
  have hv' : s.ring = v.erase := hv
  have hmatch' : RingMatches conf v q := hmatch
  refine ⟨u, hrun, hover.ring.contents_eq.trans hahead.items.symm, ?_, ?_, ?_⟩
  · -- a thread that is idle on the ring is idle in the queue, and an idle worker is not ahead
    intro t ht
    rw [hv'] at ht
    have hst : q.status t = .idle := hmatch'.status_at (erase_eq_idle ht)
    exact (hahead.loc_at hst).symm
  · -- and the other way round, place by place
    intro t ht hnone
    have hst : q.status t = .idle := (hahead.fits t).idle hnone
    refine ht ?_
    rw [hv']
    show (v.thread t).erase = .idle
    rw [hmatch'.status_at rfl] at hst
    cases hth : v.thread t with
    | idle => rfl
    | _ =>
      rw [hth] at hst
      cases hst
  · -- what the queue has added of a gift is all of it
    intro t objs b n free ht
    rw [hv'] at ht
    have hst : q.status t = .added n := hmatch'.status_at (erase_eq_enqEnd ht)
    obtain ⟨objs', hreq, hlen⟩ := hahead.fitsAt hst
    exact ⟨objs', hreq, hlen.symm⟩

end Run

end PacketSend
