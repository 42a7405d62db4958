/-
  A bounded queue that moves many elements at once.

  The specification of a first-in, first-out queue shared by several workers.  A worker asks for
  an operation, the operation takes effect in one atomic move, and later the worker is given the
  answer:

  * ADD  — a list of elements, all of them or (if the worker allows it) a first part of them, is
           put at the end;
  * TAKE — a number of elements, exactly as many or at most as many, is taken from the front.

  An operation that moves nothing takes effect as well, and only where it has to:

  * DENY   — there was nothing to take, or not as much as was wanted;
  * REFUSE — there was no room.  The elements in the queue count as taking room, and so may those
             on their way (`Status.load`): what the other workers are adding, and what they have
             taken and not been given yet.  A queue in an array cannot do better, since a cell is
             free again only when it has been read; but a worker that is alone with the queue is
             refused only if its elements do not fit.

  The one freedom left is that an operation which need not be whole may move fewer elements than
  it could, though never none.

  The queue keeps everything ever added in one list, `log`; the elements still in it are those
  from position `out` on.  So what is taken is a stretch of the log, the stretches follow one
  another, and three facts say that nothing is lost, doubled or reordered (`run_law`).
-/
import PacketSend.Lib.Runs
import PacketSend.Lib.Ranking
import Mathlib.Logic.Function.Basic

namespace BulkQueue

open Runs Ranking

/-! ## The machine -/

/-- A worker: idle, waiting for an operation (`whole`: all or nothing) to take effect, or for the
    answer. -/
inductive Status (α : Type) where
  | idle
  | adding (objs : List α) (whole : Bool)
  | taking (max : Nat) (whole : Bool)
  | added (n : Nat)
  | taken (objs : List α)
  deriving DecidableEq

/-- The elements on the way to the queue or from it, as far as they may take room there. -/
def Status.load {α : Type} : Status α → Nat
  | .adding objs _ => objs.length
  | .taken objs => objs.length
  | _ => 0

/-- The queue and its workers. -/
structure Queue (ι α : Type) where
  log : List α
  out : Nat
  status : ι → Status α

/-- What is in the queue. -/
def Queue.items {ι α : Type} (q : Queue ι α) : List α := q.log.drop q.out

/-- A worker asks, its operation takes effect, and it is answered. -/
inductive Event (ι α : Type) where
  | askAdd (w : ι) (objs : List α) (whole : Bool)
  | askTake (w : ι) (max : Nat) (whole : Bool)
  | add (w : ι) (objs : List α)
  | take (w : ι) (n : Nat)
  | deny (w : ι)
  | refuse (w : ι)
  | answerAdd (w : ι) (n : Nat)
  | answerTake (w : ι) (objs : List α)

variable {ι α : Type} [Fintype ι] [DecidableEq ι] [DecidableEq α]

/-- The empty queue. -/
def init : Queue ι α := ⟨[], 0, fun _ => .idle⟩

/-- Worker `w` goes to `st`. -/
def Queue.goto (q : Queue ι α) (w : ι) (st : Status α) : Queue ι α :=
  { q with status := Function.update q.status w st }

/-- A TAKE of `max` elements moves none of `here`: none is wanted, or there are too few. -/
def Denied (here max : Nat) (whole : Bool) : Prop :=
  max = 0 ∨ here = 0 ∨ (whole = true ∧ here < max)

instance (here max : Nat) (whole : Bool) : Decidable (Denied here max whole) :=
  inferInstanceAs (Decidable (_ ∨ _ ∨ (_ ∧ _)))

/-- The elements of all workers on the way. -/
def Queue.load (q : Queue ι α) : Nat := ∑ w, (q.status w).load

omit [DecidableEq α] in
/-- One worker goes on. -/
theorem Queue.load_goto (q : Queue ι α) (w : ι) (st : Status α) :
    (q.goto w st).load + (q.status w).load = q.load + st.load :=
  sum_update Status.load q.status w st

/-- An ADD of worker `w` moves none of `objs`: there are none, or the queue and what the others
    have on the way leave no room for them all, or for the first of them. -/
def Refused (capacity : Nat) (q : Queue ι α) (w : ι) (objs : List α) (whole : Bool) : Prop :=
  objs = [] ∨
    capacity < q.items.length + (q.goto w .idle).load + if whole then objs.length else 1

instance (capacity : Nat) (q : Queue ι α) (w : ι) (objs : List α) (whole : Bool) :
    Decidable (Refused capacity q w objs whole) := inferInstanceAs (Decidable (_ ∨ _))

/-- One event. -/
def step (capacity : Nat) (q : Queue ι α) : Event ι α → Option (Queue ι α)
  | .askAdd w objs whole =>
    match q.status w with
    | .idle => some (q.goto w (.adding objs whole))
    | _ => none
  | .askTake w max whole =>
    match q.status w with
    | .idle => some (q.goto w (.taking max whole))
    | _ => none
  | .add w objs =>
    match q.status w with
    | .adding all whole =>
      if objs ≠ [] ∧ objs = all.take objs.length ∧ (whole = true → objs = all) ∧
          q.items.length + objs.length ≤ capacity then
        some ({ q with log := q.log ++ objs }.goto w (.added objs.length))
      else none
    | _ => none
  | .take w n =>
    match q.status w with
    | .taking max whole =>
      if 0 < n ∧ n ≤ max ∧ (whole = true → n = max) ∧ n ≤ q.items.length then
        some ({ q with out := q.out + n }.goto w (.taken (q.items.take n)))
      else none
    | _ => none
  | .deny w =>
    match q.status w with
    | .taking max whole =>
      if Denied q.items.length max whole then some (q.goto w (.taken [])) else none
    | _ => none
  | .refuse w =>
    match q.status w with
    | .adding objs whole =>
      if Refused capacity q w objs whole then some (q.goto w (.added 0)) else none
    | _ => none
  | .answerAdd w n =>
    match q.status w with
    | .added n' => if n = n' then some (q.goto w .idle) else none
    | _ => none
  | .answerTake w objs =>
    match q.status w with
    | .taken objs' => if objs = objs' then some (q.goto w .idle) else none
    | _ => none

/-- What an event can be: the worker goes from one status to the next, and an operation that
    takes effect moves elements. -/
inductive Step (capacity : Nat) (q : Queue ι α) : Event ι α → Queue ι α → Prop where
  | askAdd {w : ι} {objs : List α} {whole : Bool} (hw : q.status w = .idle) :
      Step capacity q (.askAdd w objs whole) (q.goto w (.adding objs whole))
  | askTake {w : ι} {max : Nat} {whole : Bool} (hw : q.status w = .idle) :
      Step capacity q (.askTake w max whole) (q.goto w (.taking max whole))
  | add {w : ι} {objs all : List α} {whole : Bool} (hw : q.status w = .adding all whole)
      (hne : objs ≠ []) (hpart : objs = all.take objs.length) (hwhole : whole = true → objs = all)
      (hroom : q.items.length + objs.length ≤ capacity) :
      Step capacity q (.add w objs) ({ q with log := q.log ++ objs }.goto w (.added objs.length))
  | take {w : ι} {n max : Nat} {whole : Bool} (hw : q.status w = .taking max whole)
      (hpos : 0 < n) (hmax : n ≤ max) (hwhole : whole = true → n = max)
      (hthere : n ≤ q.items.length) :
      Step capacity q (.take w n) ({ q with out := q.out + n }.goto w (.taken (q.items.take n)))
  | deny {w : ι} {max : Nat} {whole : Bool} (hw : q.status w = .taking max whole)
      (hdenied : Denied q.items.length max whole) :
      Step capacity q (.deny w) (q.goto w (.taken []))
  | refuse {w : ι} {objs : List α} {whole : Bool} (hw : q.status w = .adding objs whole)
      (hrefused : Refused capacity q w objs whole) :
      Step capacity q (.refuse w) (q.goto w (.added 0))
  | answerAdd {w : ι} {n : Nat} (hw : q.status w = .added n) :
      Step capacity q (.answerAdd w n) (q.goto w .idle)
  | answerTake {w : ι} {objs : List α} (hw : q.status w = .taken objs) :
      Step capacity q (.answerTake w objs) (q.goto w .idle)

/-- The inversion of `step`. -/
theorem step_inv {capacity : Nat} {q q' : Queue ι α} {e : Event ι α}
    (h : step capacity q e = some q') : Step capacity q e q' := by
  cases e with
  | askAdd w objs whole =>
    simp only [step] at h
    split at h
    · obtain rfl := Option.some.inj h
      exact Step.askAdd ‹_›
    · cases h
  | askTake w max whole =>
    simp only [step] at h
    split at h
    · obtain rfl := Option.some.inj h
      exact Step.askTake ‹_›
    · cases h
  | add w objs =>
    simp only [step] at h
    split at h
    · split at h
      · rename_i hw hok
        obtain ⟨hne, hpart, hwhole, hroom⟩ := hok
        obtain rfl := Option.some.inj h
        exact Step.add hw hne hpart hwhole hroom
      · cases h
    · cases h
  | take w n =>
    simp only [step] at h
    split at h
    · split at h
      · rename_i hw hok
        obtain ⟨hpos, hmax, hwhole, hthere⟩ := hok
        obtain rfl := Option.some.inj h
        exact Step.take hw hpos hmax hwhole hthere
      · cases h
    · cases h
  | deny w =>
    simp only [step] at h
    split at h
    · split at h
      · obtain rfl := Option.some.inj h
        exact Step.deny ‹_› ‹_›
      · cases h
    · cases h
  | refuse w =>
    simp only [step] at h
    split at h
    · split at h
      · obtain rfl := Option.some.inj h
        exact Step.refuse ‹_› ‹_›
      · cases h
    · cases h
  | answerAdd w n =>
    simp only [step] at h
    split at h
    · split at h
      · rename_i hw hn
        obtain rfl := Option.some.inj h
        exact Step.answerAdd (hn ▸ hw)
      · cases h
    · cases h
  | answerTake w objs =>
    simp only [step] at h
    split at h
    · split at h
      · rename_i hw hobjs
        obtain rfl := Option.some.inj h
        exact Step.answerTake (hobjs ▸ hw)
      · cases h
    · cases h

/-- Every `Step` is a step. -/
theorem Step.step_eq {capacity : Nat} {q q' : Queue ι α} {e : Event ι α}
    (h : Step capacity q e q') : step capacity q e = some q' := by
  cases h with
  | askAdd hw => simp only [step, hw]
  | askTake hw => simp only [step, hw]
  | add hw hne hpart hwhole hroom =>
    simp only [step, hw]
    exact if_pos ⟨hne, hpart, hwhole, hroom⟩
  | take hw hpos hmax hwhole hthere =>
    simp only [step, hw]
    exact if_pos ⟨hpos, hmax, hwhole, hthere⟩
  | deny hw hdenied =>
    simp only [step, hw]
    exact if_pos hdenied
  | refuse hw hrefused =>
    simp only [step, hw]
    exact if_pos hrefused
  | answerAdd hw => simp only [step, hw, if_true]
  | answerTake hw => simp only [step, hw, if_true]

/-! ## The law -/

/-- The elements added in some events, in order. -/
def adds (es : List (Event ι α)) : List α :=
  es.flatMap fun e => match e with
    | .add _ objs => objs
    | _ => []

omit [Fintype ι] [DecidableEq ι] [DecidableEq α] in
theorem adds_append (es fs : List (Event ι α)) : adds (es ++ fs) = adds es ++ adds fs :=
  List.flatMap_append

/-- The number of elements an event takes. -/
def Event.takes : Event ι α → Nat
  | .take _ n => n
  | _ => 0

/-- What holds after the events `es` have led to `q`: the log is what was added, the position what
    was taken, never more than there was, the bound is kept, and what a worker has been promised
    is a stretch of the log before that position. -/
structure Law (capacity : Nat) (es : List (Event ι α)) (q : Queue ι α) : Prop where
  log : q.log = adds es
  out : q.out = tally Event.takes es
  out_le : q.out ≤ q.log.length
  items_le : q.items.length ≤ capacity
  taken : ∀ w objs, q.status w = .taken objs →
    ∃ start, start + objs.length ≤ q.out ∧ objs = (q.log.drop start).take objs.length

omit [Fintype ι] [DecidableEq ι] [DecidableEq α] in
theorem Queue.items_length (q : Queue ι α) : q.items.length = q.log.length - q.out :=
  List.length_drop

omit [Fintype ι] [DecidableEq α] in
/-- A worker that goes on without moving elements. -/
theorem Law.goto {capacity : Nat} {es : List (Event ι α)} {q : Queue ι α} {e : Event ι α}
    (h : Law capacity es q) (hadds : adds [e] = []) (htakes : e.takes = 0) (w : ι) {st : Status α}
    (hst : ∀ objs, st ≠ .taken objs) : Law capacity (es ++ [e]) (q.goto w st) := by
  refine ⟨?_, ?_, h.out_le, h.items_le, fun w' objs hw' => ?_⟩
  · rw [adds_append, hadds, List.append_nil]
    exact h.log
  · rw [tally_snoc, htakes]
    exact h.out
  · have hw'' : Function.update q.status w st w' = .taken objs := hw'
    by_cases hww : w' = w
    · rw [hww, Function.update_self] at hw''
      exact absurd hw'' (hst objs)
    · rw [Function.update_of_ne hww] at hw''
      exact h.taken w' objs hw''

/-- **The law of a queue**, by induction over a run. -/
theorem run_law {capacity : Nat} {es : List (Event ι α)} {q : Queue ι α}
    (h : Run (step capacity) init es q) : Law capacity es q := by
  refine h.history (P := Law capacity) ?_ ?_
  · refine ⟨rfl, rfl, Nat.le_refl 0, Nat.zero_le _, fun w objs hw => ?_⟩
    cases hw
  intro es q e q' hlaw hs
  have hlen := q.items_length
  have hout := hlaw.out_le
  cases step_inv hs with
  | @add w objs all whole hw hne hpart hwhole hroom =>
    refine ⟨?_, ?_, ?_, ?_, fun w' objs' hw' => ?_⟩
    · rw [adds_append]
      show q.log ++ objs = adds es ++ (objs ++ [])
      rw [hlaw.log, List.append_nil]
    · rw [tally_snoc]
      exact hlaw.out
    · show q.out ≤ (q.log ++ objs).length
      rw [List.length_append]
      omega
    · show ((q.log ++ objs).drop q.out).length ≤ capacity
      rw [List.length_drop, List.length_append]
      omega
    · have hw'' : Function.update q.status w (.added objs.length) w' = .taken objs' := hw'
      by_cases hww : w' = w
      · rw [hww, Function.update_self] at hw''
        cases hw''
      · rw [Function.update_of_ne hww] at hw''
        obtain ⟨start, hle, hobjs⟩ := hlaw.taken w' objs' hw''
        refine ⟨start, hle, ?_⟩
        show objs' = ((q.log ++ objs).drop start).take objs'.length
        rw [List.drop_append_of_le_length (by omega),
          List.take_append_of_le_length (by rw [List.length_drop]; omega)]
        exact hobjs
  | @take w n max whole hw hpos hmax hwhole hthere =>
    refine ⟨?_, ?_, ?_, ?_, fun w' objs' hw' => ?_⟩
    · rw [adds_append]
      exact hlaw.log.trans (List.append_nil _).symm
    · rw [tally_snoc]
      show q.out + n = _
      rw [hlaw.out]
      rfl
    · show q.out + n ≤ q.log.length
      omega
    · show (q.log.drop (q.out + n)).length ≤ capacity
      have hle := hlaw.items_le
      rw [List.length_drop]
      omega
    · have hw'' : Function.update q.status w (.taken (q.items.take n)) w' = .taken objs' := hw'
      by_cases hww : w' = w
      · rw [hww, Function.update_self] at hw''
        obtain rfl := Status.taken.inj hw''
        have hn : (q.items.take n).length = n := by
          rw [List.length_take]
          omega
        refine ⟨q.out, ?_, ?_⟩
        · rw [hn]
          exact Nat.le_refl _
        · rw [hn]
          rfl
      · rw [Function.update_of_ne hww] at hw''
        obtain ⟨start, hle, hobjs⟩ := hlaw.taken w' objs' hw''
        refine ⟨start, ?_, hobjs⟩
        show start + objs'.length ≤ q.out + n
        omega
  | @deny w max whole hw hdenied =>
    refine ⟨?_, ?_, hout, hlaw.items_le, fun w' objs' hw' => ?_⟩
    · rw [adds_append]
      exact hlaw.log.trans (List.append_nil _).symm
    · rw [tally_snoc]
      exact hlaw.out
    · have hw'' : Function.update q.status w (.taken []) w' = .taken objs' := hw'
      by_cases hww : w' = w
      · rw [hww, Function.update_self] at hw''
        obtain rfl := Status.taken.inj hw''
        exact ⟨0, Nat.zero_le _, rfl⟩
      · rw [Function.update_of_ne hww] at hw''
        exact hlaw.taken w' objs' hw''
  | askAdd hw => exact hlaw.goto rfl rfl _ (fun _ h => by cases h)
  | askTake hw => exact hlaw.goto rfl rfl _ (fun _ h => by cases h)
  | refuse hw hrefused => exact hlaw.goto rfl rfl _ (fun _ h => by cases h)
  | answerAdd hw => exact hlaw.goto rfl rfl _ (fun _ h => by cases h)
  | answerTake hw => exact hlaw.goto rfl rfl _ (fun _ h => by cases h)

end BulkQueue
