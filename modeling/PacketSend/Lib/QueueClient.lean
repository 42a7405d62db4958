/-
  Programs whose workers share a queue.

  Every worker of such a program has a state of its own.  It goes its own way until it STANDS at a
  request to the queue, to give elements or to take some; it goes on when it is answered.  Two
  machines run the program:

  * `Client.step`       — over the queue of `BulkQueue`: a worker asks, the operation takes effect
                          and the worker is answered in three steps, and the others move between
                          them;
  * `Client.atomicStep` — over a list: a request is made and answered in one step.

  Nobody can tell the machines apart (`Client.atomic_run`), if two things are true of the program:

  * the steps that workers make on their own leave those alone that stand at a request
    (`Client.Frames`).  In the second machine a worker is AHEAD of itself in the first, from the
    effect of its operation to the answer, and nothing may look at it meanwhile;
  * every element that is not in the queue is kept in the state of a worker (`Client.Conserves`),
    and all of them have room in the queue.  Then no gift is refused: what a worker wants to give,
    and what others have on the way, are among the elements that have room.

  The proof is a simulation (`Ahead`).  The workers of the second machine are a function of the
  first: where a worker has had its effect and not its answer, it is ahead, everywhere else the two
  agree.  An event of the queue moves one worker, so that all of them are `Ahead.move` with the
  new status of the worker put in; a step of workers on their own is the same step in the second
  machine, by `Frames`.
-/
import PacketSend.Lib.BulkQueue

namespace QueueClient

open Runs BulkQueue Ranking

/-! ## Clients -/

/-- What a worker wants of the queue: to give all of some elements, or to take exactly so many. -/
inductive Request (α : Type) where
  | give (objs : List α)
  | take (n : Nat)
  deriving DecidableEq

/-- A program: the steps of workers on their own, the request at which a worker stands, and where
    it goes with the elements it is answered (none for those that gave or were denied). -/
structure Client (ι α L ε : Type) where
  own : (ι → L) → ε → Option (ι → L)
  request : L → Option (Request α)
  reply : L → List α → L

variable {ι α L ε : Type} [Fintype ι] [DecidableEq ι] [DecidableEq α]

/-- The workers and the queue. -/
structure ClientState (ι α L : Type) where
  loc : ι → L
  queue : Queue ι α

/-- A step of workers on their own, or an event of the queue. -/
inductive ClientEvent (ι α ε : Type) where
  | own (e : ε)
  | queue (e : Event ι α)

/-- The workers and what is in the queue. -/
structure AtomicState (ι α L : Type) where
  loc : ι → L
  items : List α

/-- A step of workers on their own, or the request of a worker with its answer. -/
inductive AtomicEvent (ι ε : Type) where
  | own (e : ε)
  | op (w : ι)

namespace Client

variable (C : Client ι α L ε)

/-- Workers ask for what they stand at. -/
def Allows (loc : ι → L) : Event ι α → Prop
  | .askAdd w objs whole => C.request (loc w) = some (.give objs) ∧ whole = true
  | .askTake w max whole => C.request (loc w) = some (.take max) ∧ whole = true
  | _ => True

instance (loc : ι → L) (e : Event ι α) : Decidable (C.Allows loc e) := by
  cases e <;> unfold Allows <;> infer_instance

/-- Workers that are answered go on. -/
def after (loc : ι → L) : Event ι α → ι → L
  | .answerAdd w _ => Function.update loc w (C.reply (loc w) [])
  | .answerTake w objs => Function.update loc w (C.reply (loc w) objs)
  | _ => loc

/-- One event, over the queue. -/
def step (capacity : Nat) (s : ClientState ι α L) : ClientEvent ι α ε → Option (ClientState ι α L)
  | .own e => (C.own s.loc e).map fun loc => { s with loc := loc }
  | .queue e =>
    if C.Allows s.loc e then
      (BulkQueue.step capacity s.queue e).map fun q => ⟨C.after s.loc e, q⟩
    else none

/-- One event, over a list.  A gift that has no room is no event at all: the machine is for
    programs that never make one. -/
def atomicStep (capacity : Nat) (u : AtomicState ι α L) :
    AtomicEvent ι ε → Option (AtomicState ι α L)
  | .own e => (C.own u.loc e).map fun loc => { u with loc := loc }
  | .op w =>
    match C.request (u.loc w) with
    | none => none
    | some (.give objs) =>
      if u.items.length + objs.length ≤ capacity then
        some ⟨Function.update u.loc w (C.reply (u.loc w) []), u.items ++ objs⟩
      else none
    | some (.take n) =>
      if n ≤ u.items.length then
        some ⟨Function.update u.loc w (C.reply (u.loc w) (u.items.take n)), u.items.drop n⟩
      else some { u with loc := Function.update u.loc w (C.reply (u.loc w) []) }

/-- What an event of the second machine can be. -/
inductive AtomicStep (capacity : Nat) (u : AtomicState ι α L) :
    AtomicEvent ι ε → AtomicState ι α L → Prop where
  | own {e : ε} {loc : ι → L} (hown : C.own u.loc e = some loc) :
      AtomicStep capacity u (.own e) { u with loc := loc }
  | give {w : ι} {objs : List α} (hreq : C.request (u.loc w) = some (.give objs))
      (hroom : u.items.length + objs.length ≤ capacity) :
      AtomicStep capacity u (.op w)
        ⟨Function.update u.loc w (C.reply (u.loc w) []), u.items ++ objs⟩
  | take {w : ι} {n : Nat} (hreq : C.request (u.loc w) = some (.take n))
      (hthere : n ≤ u.items.length) :
      AtomicStep capacity u (.op w)
        ⟨Function.update u.loc w (C.reply (u.loc w) (u.items.take n)), u.items.drop n⟩
  | denied {w : ι} {n : Nat} (hreq : C.request (u.loc w) = some (.take n))
      (hfew : u.items.length < n) :
      AtomicStep capacity u (.op w)
        { u with loc := Function.update u.loc w (C.reply (u.loc w) []) }

/-- Where the workers are after a step made on their own: those that stand at a request, in
    `loc`, stay where `stay` has them. -/
def merge (loc stay go : ι → L) (w : ι) : L :=
  match C.request (loc w) with
  | none => go w
  | some _ => stay w

variable {C}

omit [Fintype ι] [DecidableEq α] in
/-- The inversion of `atomicStep`. -/
theorem atomicStep_inv {capacity : Nat} {u u' : AtomicState ι α L} {e : AtomicEvent ι ε}
    (h : C.atomicStep capacity u e = some u') : C.AtomicStep capacity u e u' := by
  cases e with
  | own e =>
    obtain ⟨loc, hown, rfl⟩ := Option.map_eq_some_iff.mp h
    exact AtomicStep.own hown
  | op w =>
    simp only [atomicStep] at h
    split at h
    · cases h
    · split at h
      · obtain rfl := Option.some.inj h
        exact AtomicStep.give ‹_› ‹_›
      · cases h
    · split at h
      · obtain rfl := Option.some.inj h
        exact AtomicStep.take ‹_› ‹_›
      · rename_i hreq hfew
        obtain rfl := Option.some.inj h
        exact AtomicStep.denied hreq (Nat.lt_of_not_le hfew)

omit [Fintype ι] [DecidableEq α] in
/-- Every `AtomicStep` is a step. -/
theorem AtomicStep.step_eq {capacity : Nat} {u u' : AtomicState ι α L} {e : AtomicEvent ι ε}
    (h : C.AtomicStep capacity u e u') : C.atomicStep capacity u e = some u' := by
  cases h with
  | own hown => simp only [atomicStep, hown, Option.map_some]
  | give hreq hroom => simp only [atomicStep, hreq, if_pos hroom]
  | take hreq hthere => simp only [atomicStep, hreq, if_pos hthere]
  | denied hreq hfew => simp only [atomicStep, hreq, if_neg (Nat.not_le_of_lt hfew)]

omit [Fintype ι] [DecidableEq ι] [DecidableEq α] in
/-- A worker on its own goes on. -/
theorem merge_of_none {loc stay go : ι → L} {w : ι} (h : C.request (loc w) = none) :
    C.merge loc stay go w = go w := by
  rw [merge, h]

omit [Fintype ι] [DecidableEq ι] [DecidableEq α] in
/-- A worker at a request stays. -/
theorem merge_of_some {loc stay go : ι → L} {w : ι} {r : Request α}
    (h : C.request (loc w) = some r) : C.merge loc stay go w = stay w := by
  rw [merge, h]

variable (C)

/-- The steps of workers on their own neither look at those that stand at a request nor move
    them: with those elsewhere, the same step is possible and leaves them there. -/
def Frames : Prop :=
  ∀ loc stay e loc', C.own loc e = some loc' →
    (∀ w, C.request (loc w) = none → stay w = loc w) →
    C.own stay e = some (C.merge loc stay loc')

variable {C}

omit [Fintype ι] [DecidableEq α] in
/-- One worker goes on, seen from elsewhere. -/
theorem merge_update {loc stay go : ι → L} {w : ι} (l : L) (hw : C.request (loc w) = none) :
    C.merge loc stay (Function.update go w l) = Function.update (C.merge loc stay go) w l := by
  funext v
  by_cases hv : v = w
  · rw [hv, Function.update_self, merge_of_none hw, Function.update_self]
  · rw [Function.update_of_ne hv, merge, merge, Function.update_of_ne hv]

omit [Fintype ι] [DecidableEq ι] [DecidableEq α] in
/-- Nobody goes on. -/
theorem merge_self {loc stay : ι → L} (hstay : ∀ w, C.request (loc w) = none → stay w = loc w) :
    C.merge loc stay loc = stay := by
  funext w
  cases hw : C.request (loc w) with
  | none => rw [merge_of_none hw, hstay w hw]
  | some r => rw [merge_of_some hw]

omit [Fintype ι] [DecidableEq ι] [DecidableEq α] in
/-- Workers that stand at a request are not moved. -/
theorem Frames.stand (h : C.Frames) {loc loc' : ι → L} {e : ε} (hs : C.own loc e = some loc')
    {w : ι} {r : Request α} (hw : C.request (loc w) = some r) : loc' w = loc w := by
  have hsame := hs.symm.trans (h loc loc e loc' hs fun _ _ => rfl)
  rw [Option.some.inj hsame, merge_of_some hw]

/-! ## The elements -/

/-- The elements that a worker has are kept by the steps of workers on their own, go with a gift
    and come with an answer. -/
structure Conserves (C : Client ι α L ε) (weight : L → Nat) : Prop where
  own : ∀ loc e loc', C.own loc e = some loc' → (∑ w, weight (loc' w)) = ∑ w, weight (loc w)
  give : ∀ l objs, C.request l = some (.give objs) →
    weight (C.reply l []) + objs.length = weight l
  take : ∀ l n objs, C.request l = some (.take n) → objs = [] ∨ objs.length = n →
    weight (C.reply l objs) = weight l + objs.length

/-- All elements, in the queue and with the workers. -/
def AtomicState.held (weight : L → Nat) (u : AtomicState ι α L) : Nat :=
  u.items.length + ∑ w, weight (u.loc w)

variable {weight : L → Nat} {capacity : Nat}

omit [DecidableEq α] in
/-- No step of the second machine changes their number. -/
theorem Conserves.held_eq (hw : C.Conserves weight) {u u' : AtomicState ι α L}
    {e : AtomicEvent ι ε} (hs : C.atomicStep capacity u e = some u') :
    AtomicState.held weight u' = AtomicState.held weight u := by
  unfold AtomicState.held
  cases atomicStep_inv hs with
  | @own e loc hown =>
    have hsum := hw.own _ _ _ hown
    show u.items.length + (∑ w, weight (loc w)) = _
    rw [hsum]
  | @give w objs hreq hroom =>
    have hsum := sum_update weight u.loc w (C.reply (u.loc w) [])
    have hgive := hw.give _ _ hreq
    show (u.items ++ objs).length
      + (∑ v, weight (Function.update u.loc w (C.reply (u.loc w) []) v)) = _
    rw [List.length_append]
    omega
  | @take w n hreq hthere =>
    have hlen : (u.items.take n).length = n := by
      rw [List.length_take]
      omega
    have hsum := sum_update weight u.loc w (C.reply (u.loc w) (u.items.take n))
    have htake := hw.take _ _ _ hreq (Or.inr hlen)
    show (u.items.drop n).length
      + (∑ v, weight (Function.update u.loc w (C.reply (u.loc w) (u.items.take n)) v)) = _
    rw [List.length_drop]
    omega
  | @denied w n hreq hfew =>
    have hsum := sum_update weight u.loc w (C.reply (u.loc w) [])
    have htake := hw.take _ _ _ hreq (Or.inl rfl)
    rw [List.length_nil] at htake
    show u.items.length + (∑ v, weight (Function.update u.loc w (C.reply (u.loc w) []) v)) = _
    omega

/-! ## One machine ahead of the other -/

variable (C)

/-- A worker of the queue and the worker of the program: the operation is the one requested, and
    the queue has done all of it or nothing. -/
def Fits (l : L) : Status α → Prop
  | .idle => True
  | .adding objs whole => C.request l = some (.give objs) ∧ whole = true
  | .added n => ∃ objs, C.request l = some (.give objs) ∧ objs.length = n
  | .taking max whole => C.request l = some (.take max) ∧ whole = true
  | .taken objs => ∃ n, C.request l = some (.take n) ∧ (objs = [] ∨ objs.length = n)

/-- A worker that has not been given its answer, as if it had. -/
def ahead (l : L) : Status α → L
  | .added _ => C.reply l []
  | .taken objs => C.reply l objs
  | _ => l

/-- The second machine is ahead of the first; and all elements have room in the queue. -/
structure Ahead (weight : L → Nat) (capacity : Nat) (s : ClientState ι α L)
    (u : AtomicState ι α L) : Prop where
  fits : ∀ w, C.Fits (s.loc w) (s.queue.status w)
  loc : u.loc = fun w => C.ahead (s.loc w) (s.queue.status w)
  items : u.items = s.queue.items
  out_le : s.queue.out ≤ s.queue.log.length
  held_le : AtomicState.held weight u ≤ capacity

/-- The request is made where the operation takes effect. -/
def atomicEvents : ClientEvent ι α ε → List (AtomicEvent ι ε)
  | .own e => [.own e]
  | .queue (.add w _) => [.op w]
  | .queue (.take w _) => [.op w]
  | .queue (.deny w) => [.op w]
  | .queue (.refuse w) => [.op w]
  | .queue _ => []

variable {C} {s : ClientState ι α L} {u : AtomicState ι α L}

omit [Fintype ι] [DecidableEq ι] [DecidableEq α] in
/-- A worker that does not stand at a request is idle. -/
theorem Fits.idle {l : L} {st : Status α} (h : C.Fits l st) (hl : C.request l = none) :
    st = .idle := by
  cases st with
  | idle => rfl
  | adding objs whole => exact nomatch hl.symm.trans h.1
  | added n =>
    obtain ⟨objs, hreq, -⟩ := h
    exact nomatch hl.symm.trans hreq
  | taking max whole => exact nomatch hl.symm.trans h.1
  | taken objs =>
    obtain ⟨n, hreq, -⟩ := h
    exact nomatch hl.symm.trans hreq

omit [DecidableEq ι] [DecidableEq α] in
/-- What a worker has on the way is among what it has, ahead. -/
theorem Conserves.load_le (hw : C.Conserves weight) {l : L} {st : Status α} (h : C.Fits l st) :
    st.load ≤ weight (C.ahead l st) := by
  cases st with
  | adding objs whole =>
    have hgive := hw.give l objs h.1
    show objs.length ≤ weight l
    omega
  | taken objs =>
    obtain ⟨n, hreq, hlen⟩ := h
    have htake := hw.take l n objs hreq hlen
    show objs.length ≤ weight (C.reply l objs)
    omega
  | _ => exact Nat.zero_le _

namespace Ahead

omit [DecidableEq ι] [DecidableEq α] in
/-- Where a worker is ahead. -/
theorem loc_at (h : C.Ahead weight capacity s u) {w : ι} {st : Status α}
    (hw : s.queue.status w = st) : u.loc w = C.ahead (s.loc w) st := by
  rw [h.loc, ← hw]

omit [DecidableEq ι] [DecidableEq α] in
/-- What a worker of the queue says of the program. -/
theorem fitsAt (h : C.Ahead weight capacity s u) {w : ι} {st : Status α}
    (hw : s.queue.status w = st) : C.Fits (s.loc w) st := by
  rw [← hw]
  exact h.fits w

omit [DecidableEq ι] [DecidableEq α] in
/-- The elements in the queue and those on the way have room together. -/
theorem load_le (h : C.Ahead weight capacity s u) (hw : C.Conserves weight) :
    s.queue.items.length + s.queue.load ≤ capacity := by
  have hheld := h.held_le
  have hload : s.queue.load ≤ ∑ w, weight (u.loc w) := by
    refine Finset.sum_le_sum fun w _ => ?_
    rw [h.loc_at rfl]
    exact hw.load_le (h.fits w)
  unfold AtomicState.held at hheld
  rw [h.items] at hheld
  omega

omit [DecidableEq α] in
/-- One worker moves, in the queue, in the program, or ahead. -/
theorem move (h : C.Ahead weight capacity s u) (w : ι) (l : L) (st : Status α) {q : Queue ι α}
    {u' : AtomicState ι α L} (hq : q.status = s.queue.status) (hfits : C.Fits l st)
    (hloc : u'.loc = Function.update u.loc w (C.ahead l st)) (hitems : u'.items = q.items)
    (hout : q.out ≤ q.log.length) (hheld : AtomicState.held weight u' ≤ capacity) :
    C.Ahead weight capacity ⟨Function.update s.loc w l, q.goto w st⟩ u' := by
  refine ⟨fun v => ?_, ?_, hitems, hout, hheld⟩
  · show C.Fits (Function.update s.loc w l v) (Function.update q.status w st v)
    rw [hq]
    by_cases hv : v = w
    · rw [hv, Function.update_self, Function.update_self]
      exact hfits
    · rw [Function.update_of_ne hv, Function.update_of_ne hv]
      exact h.fits v
  · rw [hloc]
    funext v
    show Function.update u.loc w (C.ahead l st) v
      = C.ahead (Function.update s.loc w l v) (Function.update q.status w st v)
    rw [hq]
    by_cases hv : v = w
    · rw [hv, Function.update_self, Function.update_self, Function.update_self]
    · rw [Function.update_of_ne hv, Function.update_of_ne hv, Function.update_of_ne hv, h.loc]

omit [DecidableEq α] in
/-- A worker that asks stays where it is. -/
theorem ask (h : C.Ahead weight capacity s u) {w : ι} {st : Status α}
    (hw : s.queue.status w = .idle) (hfits : C.Fits (s.loc w) st)
    (hst : C.ahead (s.loc w) st = s.loc w) :
    C.Ahead weight capacity ⟨s.loc, s.queue.goto w st⟩ u := by
  have hloc : u.loc = Function.update u.loc w (C.ahead (s.loc w) st) := by
    have hself : u.loc w = C.ahead (s.loc w) st := (h.loc_at hw).trans hst.symm
    rw [← hself, Function.update_eq_self]
  have hmove := h.move w (s.loc w) st rfl hfits hloc h.items h.out_le h.held_le
  rw [Function.update_eq_self] at hmove
  exact hmove

omit [DecidableEq α] in
/-- The operation of a worker takes effect. -/
theorem effect (h : C.Ahead weight capacity s u) (hw : C.Conserves weight) {w : ι} (st : Status α)
    {q : Queue ι α} {u' : AtomicState ι α L} (hstep : C.AtomicStep capacity u (.op w) u')
    (hq : q.status = s.queue.status) (hfits : C.Fits (s.loc w) st)
    (hloc : u'.loc = Function.update u.loc w (C.ahead (s.loc w) st)) (hitems : u'.items = q.items)
    (hout : q.out ≤ q.log.length) :
    ∃ u', Run (C.atomicStep capacity) u [.op w] u' ∧
      C.Ahead weight capacity ⟨s.loc, q.goto w st⟩ u' := by
  have hheld : AtomicState.held weight u' ≤ capacity := by
    rw [hw.held_eq hstep.step_eq]
    exact h.held_le
  have hmove := h.move w (s.loc w) st hq hfits hloc hitems hout hheld
  rw [Function.update_eq_self] at hmove
  exact ⟨u', Run.single hstep.step_eq, hmove⟩

omit [DecidableEq α] in
/-- A worker that is answered catches up with itself. -/
theorem answer (h : C.Ahead weight capacity s u) {w : ι} {l : L} (hl : u.loc w = l) :
    C.Ahead weight capacity ⟨Function.update s.loc w l, s.queue.goto w .idle⟩ u := by
  refine h.move w l .idle rfl trivial ?_ h.items h.out_le h.held_le
  have hself : u.loc w = C.ahead l (.idle : Status α) := hl
  rw [← hself, Function.update_eq_self]

omit [DecidableEq α] in
/-- A step that workers make on their own is the same step ahead. -/
theorem own (h : C.Ahead weight capacity s u) (hC : C.Frames) (hw : C.Conserves weight) {e : ε}
    {loc' : ι → L} (hs : C.own s.loc e = some loc') :
    ∃ u', Run (C.atomicStep capacity) u [.own e] u' ∧
      C.Ahead weight capacity ⟨loc', s.queue⟩ u' := by
  -- only workers that stand at a request are ahead
  have hidle : ∀ w, C.request (s.loc w) = none → u.loc w = s.loc w := by
    intro w hnone
    exact h.loc_at ((h.fits w).idle hnone)
  have hstep : C.atomicStep capacity u (.own e) = some ⟨C.merge s.loc u.loc loc', u.items⟩ :=
    (AtomicStep.own (hC s.loc u.loc e loc' hs hidle)).step_eq
  refine ⟨_, Run.single hstep, fun w => ?_, funext fun w => ?_, h.items, h.out_le, ?_⟩
  · show C.Fits (loc' w) (s.queue.status w)
    cases hreq : C.request (s.loc w) with
    | none =>
      rw [(h.fits w).idle hreq]
      trivial
    | some r =>
      rw [hC.stand hs hreq]
      exact h.fits w
  · show C.merge s.loc u.loc loc' w = C.ahead (loc' w) (s.queue.status w)
    cases hreq : C.request (s.loc w) with
    | none =>
      rw [merge_of_none hreq, (h.fits w).idle hreq]
      rfl
    | some r => rw [merge_of_some hreq, hC.stand hs hreq, h.loc]
  · rw [hw.held_eq hstep]
    exact h.held_le

/-- **The step lemma**: an event of the first machine is at most one of the second.  Asking and
    answering are none; the effect of an operation, also of one that is denied or refused, is the
    whole request. -/
theorem step (h : C.Ahead weight capacity s u) (hC : C.Frames) (hw : C.Conserves weight)
    {e : ClientEvent ι α ε} {s' : ClientState ι α L} (hs : C.step capacity s e = some s') :
    ∃ u', Run (C.atomicStep capacity) u (atomicEvents e) u' ∧ C.Ahead weight capacity s' u' := by
  cases e with
  | own e =>
    obtain ⟨loc', hown, rfl⟩ := Option.map_eq_some_iff.mp hs
    exact h.own hC hw hown
  | queue e =>
    simp only [Client.step] at hs
    split at hs
    · rename_i hallow
      obtain ⟨q, hq, rfl⟩ := Option.map_eq_some_iff.mp hs
      have hitems := h.items
      have hout := h.out_le
      cases step_inv hq with
      | @askAdd w objs whole hst => exact ⟨u, Run.nil, h.ask hst hallow rfl⟩
      | @askTake w max whole hst => exact ⟨u, Run.nil, h.ask hst hallow rfl⟩
      | @add w objs all whole hst hne hpart hwhole hroom =>
        obtain ⟨hreq, hall⟩ := h.fitsAt hst
        obtain rfl := hwhole hall
        have hloc : u.loc w = s.loc w := h.loc_at hst
        refine h.effect hw (.added objs.length) (q := { s.queue with log := s.queue.log ++ objs })
          (.give (hloc ▸ hreq) (hitems ▸ hroom)) rfl ⟨objs, hreq, rfl⟩ (by rw [hloc]; rfl) ?_ ?_
        · show u.items ++ objs = (s.queue.log ++ objs).drop s.queue.out
          rw [List.drop_append_of_le_length hout, hitems]
          rfl
        · show s.queue.out ≤ (s.queue.log ++ objs).length
          rw [List.length_append]
          exact Nat.le_add_right_of_le hout
      | @take w n max whole hst hpos hmax hwhole hthere =>
        obtain ⟨hreq, hall⟩ := h.fitsAt hst
        obtain rfl := hwhole hall
        have hloc : u.loc w = s.loc w := h.loc_at hst
        have hlen : (s.queue.items.take n).length = n := by
          rw [List.length_take]
          omega
        refine h.effect hw (.taken (s.queue.items.take n))
          (q := { s.queue with out := s.queue.out + n }) (.take (hloc ▸ hreq) (hitems ▸ hthere))
          rfl ⟨n, hreq, Or.inr hlen⟩ (by rw [hloc, hitems]; rfl) ?_ ?_
        · show u.items.drop n = s.queue.log.drop (s.queue.out + n)
          rw [hitems]
          exact List.drop_drop
        · show s.queue.out + n ≤ s.queue.log.length
          rw [Queue.items_length] at hthere
          omega
      | @deny w max whole hst hdenied =>
        obtain ⟨hreq, hall⟩ := h.fitsAt hst
        have hloc : u.loc w = s.loc w := h.loc_at hst
        have hfits : C.Fits (s.loc w) (.taken []) := ⟨max, hreq, Or.inl rfl⟩
        by_cases hthere : max ≤ u.items.length
        · -- nothing is wanted
          have hnone : max = 0 := by
            rw [hitems] at hthere
            rcases hdenied with hzero | hempty | ⟨-, hfew⟩ <;> omega
          exact h.effect hw (.taken []) (.take (hloc ▸ hreq) hthere) rfl hfits
            (by rw [hloc, hnone]; rfl) (by rw [hnone]; exact hitems) hout
        · exact h.effect hw (.taken []) (.denied (hloc ▸ hreq) (Nat.lt_of_not_le hthere)) rfl hfits
            (by rw [hloc]; rfl) hitems hout
      | @refuse w objs whole hst hrefused =>
        obtain ⟨hreq, rfl⟩ := h.fitsAt hst
        have hloc : u.loc w = s.loc w := h.loc_at hst
        -- all elements have room, so only an empty gift is refused
        have hnil : objs = [] := by
          have hroom := h.load_le hw
          have hload := s.queue.load_goto w .idle
          have hself : (s.queue.status w).load = objs.length := by rw [hst]; rfl
          have hidle : (Status.idle : Status α).load = 0 := rfl
          rcases hrefused with hnil | hfull
          · exact hnil
          · rw [if_pos rfl] at hfull
            omega
        have hle : u.items.length ≤ capacity :=
          Nat.le_trans (Nat.le_add_right _ _) h.held_le
        subst hnil
        have hgive : C.AtomicStep capacity u (.op w)
            ⟨Function.update u.loc w (C.reply (u.loc w) []), u.items ++ []⟩ :=
          .give (hloc ▸ hreq) hle
        exact h.effect hw (.added 0) hgive rfl ⟨[], hreq, rfl⟩ (by rw [hloc]; rfl)
          ((List.append_nil _).trans hitems) hout
      | @answerAdd w n hst => exact ⟨u, Run.nil, h.answer (h.loc_at hst)⟩
      | @answerTake w objs hst => exact ⟨u, Run.nil, h.answer (h.loc_at hst)⟩
    · cases hs

end Ahead

/-! ## Every run -/

omit [DecidableEq ι] [DecidableEq α] in
/-- Before anything has happened the machines are in the same state. -/
theorem ahead_init (C : Client ι α L ε) {loc : ι → L} (hcap : (∑ w, weight (loc w)) ≤ capacity) :
    C.Ahead weight capacity ⟨loc, BulkQueue.init⟩ ⟨loc, []⟩ :=
  ⟨fun _ => trivial, rfl, rfl, Nat.le_refl 0, (Nat.zero_add _).trans_le hcap⟩

/-- **Atomicity**: if all elements have room in the queue, every run over the queue is a run over
    a list. -/
theorem atomic_run (hC : C.Frames) (hw : C.Conserves weight) {loc : ι → L}
    (hcap : (∑ w, weight (loc w)) ≤ capacity) {es : List (ClientEvent ι α ε)}
    (h : Run (C.step capacity) ⟨loc, BulkQueue.init⟩ es s) :
    ∃ u, Run (C.atomicStep capacity) ⟨loc, []⟩ (es.flatMap atomicEvents) u ∧
      C.Ahead weight capacity s u :=
  h.simulate (fun _ _ _ _ hR hs => hR.step hC hw hs) (ahead_init C hcap)

end Client

end QueueClient
