/-
  Programs that poll queues in turn.

      while (1) {
          item *arr[LIMIT];
          for (r = 0; r < n; r++) {
              count = poll(r, arr, LIMIT);
              if (count > LIMIT) stop;
              for (i = 0; i < count; i++) handle(arr[i]);
          }
      }

  A `Receiver` gives what such a program does at a poll and with an item.  `loop` is the program:
  a pass polls the queues `0 … n - 1`, one array serves all polls of a pass, each poll overwrites
  its first entries, and the items are read back by index.  What the polls deliver is the input,
  one function from queues to lists of items for each pass.

  The array plays no part in what happens: an execution handles the delivered lists one after
  another (`loop_eq`).  From this

  * `Composes.loop` — what happens along an execution, from what happens at a poll and with an
                      item;
  * `loop_total`    — the program runs on as long as no poll overflows and no item stops it;
  * `loop_stop`     — and a program that stops does so at one poll, after running on until there;
  * `loop_mono`     — a receiver that does what another does runs where that one runs.
-/
import Mathlib.Data.List.FinRange

namespace PollLoop

/-! ## Folds that can stop -/

section Fold

variable {σ α ω : Type} {f : σ → α → Except ω σ}

theorem foldlM_cons_ok {a : α} {as : List α} {s s' : σ} (h : f s a = .ok s') :
    (a :: as).foldlM f s = as.foldlM f s' := by
  rw [List.foldlM_cons, h]
  rfl

theorem foldlM_cons_error {a : α} {as : List α} {s : σ} {e : ω} (h : f s a = .error e) :
    (a :: as).foldlM f s = .error e := by
  rw [List.foldlM_cons, h]
  rfl

/-- A fold goes to its end, or to an element that stops it. -/
theorem foldlM_stop : ∀ (as : List α) (s : σ), (∃ s', as.foldlM f s = .ok s') ∨
    ∃ pre a post s' e, as = pre ++ a :: post ∧ pre.foldlM f s = .ok s' ∧ f s' a = .error e ∧
      as.foldlM f s = .error e
  | [], s => Or.inl ⟨s, rfl⟩
  | a :: as, s => by
    cases ha : f s a with
    | error e => exact Or.inr ⟨[], a, as, s, e, rfl, rfl, ha, foldlM_cons_error ha⟩
    | ok s₁ =>
      rw [foldlM_cons_ok ha]
      rcases foldlM_stop as s₁ with hok | ⟨pre, a', post, s', e, rfl, hpre, hstop, herr⟩
      · exact Or.inl hok
      · exact Or.inr ⟨a :: pre, a', post, s', e, rfl, by rw [foldlM_cons_ok ha, hpre], hstop, herr⟩

/-- A fold none of whose elements stops it goes to its end. -/
theorem foldlM_total : ∀ (as : List α) (s : σ), (∀ a ∈ as, ∀ s, ∃ s', f s a = .ok s') →
    ∃ s', as.foldlM f s = .ok s'
  | [], s, _ => ⟨s, rfl⟩
  | a :: as, s, h => by
    obtain ⟨s₁, hs₁⟩ := h a List.mem_cons_self s
    rw [foldlM_cons_ok hs₁]
    exact foldlM_total as s₁ fun a' ha' => h a' (List.mem_cons_of_mem a ha')

theorem foldlM_mono {ω' : Type} {g : σ → α → Except ω' σ}
    (hfg : ∀ s a s', f s a = .ok s' → g s a = .ok s') :
    ∀ (as : List α) (s s' : σ), as.foldlM f s = .ok s' → as.foldlM g s = .ok s'
  | [], s, s', h => by
    obtain rfl : s = s' := Except.ok.inj h
    rfl
  | a :: as, s, s', h => by
    cases ha : f s a with
    | error e =>
      rw [foldlM_cons_error ha] at h
      nomatch h
    | ok s₁ =>
      rw [foldlM_cons_ok ha] at h
      rw [foldlM_cons_ok (hfg s a s₁ ha)]
      exact foldlM_mono hfg as s₁ s' h

end Fold

/-- Filtering what comes from elements that are kept or dropped as a whole. -/
theorem filter_flatMap {α β : Type} {f : α → List β} {p : α → Bool} {p' : β → Bool}
    (h : ∀ a, (f a).filter p' = if p a = true then f a else []) (as : List α) :
    (as.flatMap f).filter p' = (as.filter p).flatMap f := by
  induction as with
  | nil => rfl
  | cons a as ih =>
    rw [List.flatMap_cons, List.filter_append, ih, h]
    by_cases ha : p a = true
    · rw [if_pos ha, List.filter_cons_of_pos ha, List.flatMap_cons]
    · rw [if_neg ha, List.filter_cons_of_neg ha, List.nil_append]

/-! ## Receivers -/

/-- What a polling program does: `overflow` and `missing` are how it stops when a poll delivers
    more than the array holds and when it reads an entry never written, `polled r ms` is what
    happens at a poll of queue `r` that delivers `ms`, and `body` is the handling of one item. -/
structure Receiver (σ μ ω : Type) where
  limit : Nat
  overflow : σ → ω
  missing : σ → ω
  polled : Nat → List μ → σ → σ
  body : σ → μ → Except ω σ

variable {σ μ ω : Type} {n : Nat}

/-- A poll writes what it delivers over the first entries of the array. -/
def deliver (arr ms : List μ) : List μ := ms ++ arr.drop ms.length

/-- The `for` over one delivery: `k` iterations left, the next one at index `i`. -/
def Receiver.burst (rc : Receiver σ μ ω) (arr : List μ) : Nat → Nat → σ → Except ω σ
  | 0, _, s => .ok s
  | k + 1, i, s =>
    match arr[i]? with
    | none => .error (rc.missing s)
    | some m =>
      match rc.body s m with
      | .error e => .error e
      | .ok s' => rc.burst arr k (i + 1) s'

/-- One poll, with the array after it. -/
def Receiver.poll (rc : Receiver σ μ ω) (r : Nat) (ms arr : List μ) (s : σ) :
    Except ω (List μ × σ) :=
  if ms.length > rc.limit then .error (rc.overflow s)
  else
    match rc.burst (deliver arr ms) ms.length 0 (rc.polled r ms s) with
    | .error e => .error e
    | .ok s' => .ok (deliver arr ms, s')

/-- The polls of the queues `rs`, in order, over one array. -/
def Receiver.pass (rc : Receiver σ μ ω) (b : Fin n → List μ) :
    List (Fin n) → List μ → σ → Except ω σ
  | [], _, s => .ok s
  | r :: rs, arr, s =>
    match rc.poll r.val (b r) arr s with
    | .error e => .error e
    | .ok (arr', s') => rc.pass b rs arr' s'

/-- The `while`, for a number of passes; the array starts each pass with no entry written. -/
def Receiver.loop (rc : Receiver σ μ ω) : List (Fin n → List μ) → σ → Except ω σ
  | [], s => .ok s
  | b :: bs, s =>
    match rc.pass b (List.finRange n) [] s with
    | .error e => .error e
    | .ok s' => rc.loop bs s'

/-! ## Without the array -/

/-- One poll and the handling of what it delivers. -/
def Receiver.take (rc : Receiver σ μ ω) (s : σ) (q : Fin n × List μ) : Except ω σ :=
  if q.2.length > rc.limit then .error (rc.overflow s)
  else q.2.foldlM rc.body (rc.polled q.1.val q.2 s)

/-- The polls of an execution, in order. -/
def polls (bs : List (Fin n → List μ)) : List (Fin n × List μ) :=
  bs.flatMap fun b => (List.finRange n).map fun r => (r, b r)

/-- The index loop handles the entries the poll has just written. -/
theorem Receiver.burst_eq (rc : Receiver σ μ ω) : ∀ (ms pre rest : List μ) (s : σ),
    rc.burst (pre ++ ms ++ rest) ms.length pre.length s = ms.foldlM rc.body s
  | [], _, _, _ => rfl
  | m :: ms, pre, rest, s => by
    have hget : (pre ++ m :: ms ++ rest)[pre.length]? = some m := by
      rw [List.append_assoc, List.getElem?_append_right (Nat.le_refl _), Nat.sub_self]
      rfl
    rw [List.length_cons, Receiver.burst, hget]
    cases hbody : rc.body s m with
    | error e =>
      rw [foldlM_cons_error hbody]
      simp only [hbody]
    | ok s' =>
      have ih := rc.burst_eq ms (pre ++ [m]) rest s'
      rw [foldlM_cons_ok hbody, ← ih, List.length_append, List.append_assoc pre [m] ms]
      simp only [hbody]
      rfl

theorem Receiver.poll_eq (rc : Receiver σ μ ω) (r : Fin n) (ms arr : List μ) (s : σ) :
    rc.poll r.val ms arr s = (rc.take s (r, ms)).map fun s' => (deliver arr ms, s') := by
  unfold Receiver.poll Receiver.take
  by_cases hlen : ms.length > rc.limit
  · rw [if_pos hlen, if_pos hlen]
    rfl
  · have hburst := rc.burst_eq ms [] (arr.drop ms.length) (rc.polled r.val ms s)
    rw [List.nil_append, List.length_nil] at hburst
    rw [if_neg hlen, if_neg hlen, deliver, hburst]
    cases ms.foldlM rc.body (rc.polled r.val ms s) with
    | error e => rfl
    | ok s' => rfl

theorem Receiver.pass_eq (rc : Receiver σ μ ω) (b : Fin n → List μ) :
    ∀ (rs : List (Fin n)) (arr : List μ) (s : σ),
      rc.pass b rs arr s = (rs.map fun r => (r, b r)).foldlM rc.take s
  | [], _, _ => rfl
  | r :: rs, arr, s => by
    rw [List.map_cons, Receiver.pass, rc.poll_eq]
    cases htake : rc.take s (r, b r) with
    | error e =>
      rw [foldlM_cons_error htake]
      rfl
    | ok s' =>
      rw [foldlM_cons_ok htake]
      exact rc.pass_eq b rs _ s'

/-- **The array plays no part**: an execution handles the deliveries of its polls in order. -/
theorem Receiver.loop_eq (rc : Receiver σ μ ω) : ∀ (bs : List (Fin n → List μ)) (s : σ),
    rc.loop bs s = (polls bs).foldlM rc.take s
  | [], _ => rfl
  | b :: bs, s => by
    rw [polls, List.flatMap_cons, List.foldlM_append, Receiver.loop, rc.pass_eq]
    cases ((List.finRange n).map fun r => (r, b r)).foldlM rc.take s with
    | error e => rfl
    | ok s' => exact rc.loop_eq bs s'

/-! ## Rules -/

/-- What `take` does when it succeeds: the delivery fits, and its items are handled. -/
theorem Receiver.take_ok {rc : Receiver σ μ ω} {s s' : σ} {q : Fin n × List μ}
    (h : rc.take s q = .ok s') :
    q.2.length ≤ rc.limit ∧ q.2.foldlM rc.body (rc.polled q.1.val q.2 s) = .ok s' := by
  unfold Receiver.take at h
  split at h
  · nomatch h
  · exact ⟨by omega, h⟩

theorem mem_polls {bs : List (Fin n → List μ)} {q : Fin n × List μ} :
    q ∈ polls bs ↔ ∃ b ∈ bs, q = (q.1, b q.1) := by
  unfold polls
  rw [List.mem_flatMap]
  constructor
  · rintro ⟨b, hb, hq⟩
    obtain ⟨r, -, rfl⟩ := List.mem_map.mp hq
    exact ⟨b, hb, rfl⟩
  · rintro ⟨b, hb, hq⟩
    exact ⟨b, hb, List.mem_map.mpr ⟨q.1, List.mem_finRange _, hq.symm⟩⟩

/-- A poll that delivers no more than the array holds, of items none of which stops the program,
    is taken. -/
theorem Receiver.take_total (rc : Receiver σ μ ω) {q : Fin n × List μ}
    (hlen : q.2.length ≤ rc.limit) (hbody : ∀ m ∈ q.2, ∀ s, ∃ s', rc.body s m = .ok s') (s : σ) :
    ∃ s', rc.take s q = .ok s' := by
  unfold Receiver.take
  rw [if_neg (by omega)]
  exact foldlM_total q.2 _ hbody

/-- **The program runs on** as long as no poll overflows and no item stops it. -/
theorem Receiver.loop_total (rc : Receiver σ μ ω) {bs : List (Fin n → List μ)}
    (hlen : ∀ b ∈ bs, ∀ r, (b r).length ≤ rc.limit)
    (hbody : ∀ b ∈ bs, ∀ r, ∀ m ∈ b r, ∀ s, ∃ s', rc.body s m = .ok s') (s : σ) :
    ∃ s', rc.loop bs s = .ok s' := by
  rw [rc.loop_eq]
  apply foldlM_total
  intro q hq
  obtain ⟨b, hb, hq⟩ := mem_polls.mp hq
  rw [hq]
  exact rc.take_total (hlen b hb q.1) (hbody b hb q.1)

/-- **Where the program stops**: it runs to its end, or on to a poll that overflows the array or
    delivers an item that stops it. -/
theorem Receiver.loop_stop (rc : Receiver σ μ ω) (bs : List (Fin n → List μ)) (s : σ) :
    (∃ s', rc.loop bs s = .ok s') ∨
    ∃ done q rest s' e, polls bs = done ++ q :: rest ∧ done.foldlM rc.take s = .ok s' ∧
      rc.take s' q = .error e ∧ rc.loop bs s = .error e := by
  rw [rc.loop_eq]
  exact foldlM_stop (polls bs) s

/-- An execution goes on where the one before it has ended. -/
theorem Receiver.loop_append (rc : Receiver σ μ ω) {bs : List (Fin n → List μ)} {s s' : σ}
    (h : rc.loop bs s = .ok s') (bs' : List (Fin n → List μ)) :
    rc.loop (bs ++ bs') s = rc.loop bs' s' := by
  rw [Receiver.loop_eq] at h
  rw [Receiver.loop_eq, Receiver.loop_eq, polls, List.flatMap_append, List.foldlM_append]
  show (polls bs).foldlM rc.take s >>= _ = _
  rw [h]
  rfl

/-- A receiver that takes every poll another one takes runs where that one runs. -/
theorem Receiver.loop_mono {ω' : Type} (rc : Receiver σ μ ω) (rc' : Receiver σ μ ω')
    (hlimit : rc'.limit = rc.limit) (hpolled : rc'.polled = rc.polled)
    (hbody : ∀ s m s', rc.body s m = .ok s' → rc'.body s m = .ok s')
    {bs : List (Fin n → List μ)} {s s' : σ} (h : rc.loop bs s = .ok s') :
    rc'.loop bs s = .ok s' := by
  rw [Receiver.loop_eq] at h ⊢
  refine foldlM_mono (fun s q s' htake => ?_) (polls bs) s s' h
  obtain ⟨hlen, hitems⟩ := Receiver.take_ok htake
  unfold Receiver.take
  rw [hlimit, hpolled, if_neg (by omega)]
  exact foldlM_mono hbody q.2 _ s' hitems

/-- The items that are handled: those of the polls before the first that overflows. -/
def handled (limit : Nat) (qs : List (Fin n × List μ)) : List μ :=
  (qs.takeWhile fun q => q.2.length ≤ limit).flatMap Prod.snd

theorem handled_cons_of_le {limit : Nat} {q : Fin n × List μ} (h : q.2.length ≤ limit)
    (qs : List (Fin n × List μ)) : handled limit (q :: qs) = q.2 ++ handled limit qs := by
  have htake : (q :: qs).takeWhile (fun q => q.2.length ≤ limit)
      = q :: qs.takeWhile fun q => q.2.length ≤ limit :=
    List.takeWhile_cons_of_pos (decide_eq_true h)
  rw [handled, htake, List.flatMap_cons]
  rfl

theorem foldlM_congr_mem {α : Type} {f g : σ → α → Except ω σ} :
    ∀ (as : List α) (s : σ), (∀ a ∈ as, ∀ s, f s a = g s a) → as.foldlM f s = as.foldlM g s
  | [], _, _ => rfl
  | a :: as, s, h => by
    rw [List.foldlM_cons, List.foldlM_cons, h a List.mem_cons_self s]
    congr 1
    funext s'
    exact foldlM_congr_mem as s' fun a' ha' => h a' (List.mem_cons_of_mem a ha')

/-- **Only the handled items matter**: two receivers that treat these alike run alike. -/
theorem Receiver.loop_congr (rc rc' : Receiver σ μ ω) (hlimit : rc'.limit = rc.limit)
    (hoverflow : rc'.overflow = rc.overflow) (hpolled : rc'.polled = rc.polled)
    {bs : List (Fin n → List μ)}
    (hbody : ∀ m ∈ handled rc.limit (polls bs), ∀ s, rc'.body s m = rc.body s m) (s : σ) :
    rc'.loop bs s = rc.loop bs s := by
  rw [Receiver.loop_eq, Receiver.loop_eq]
  generalize polls bs = qs at hbody ⊢
  induction qs generalizing s with
  | nil => rfl
  | cons q qs ih =>
    by_cases hlen : q.2.length ≤ rc.limit
    · rw [handled_cons_of_le hlen] at hbody
      have htake : rc'.take s q = rc.take s q := by
        unfold Receiver.take
        rw [hlimit, hpolled, if_neg (by omega), if_neg (by omega)]
        exact foldlM_congr_mem q.2 _ fun m hm => hbody m (List.mem_append_left _ hm)
      rw [List.foldlM_cons, List.foldlM_cons, htake]
      congr 1
      funext s'
      exact ih s' fun m hm => hbody m (List.mem_append_right _ hm)
    · have htake : rc.take s q = .error (rc.overflow s) := if_pos (by omega)
      have htake' : rc'.take s q = .error (rc.overflow s) := by
        rw [Receiver.take, hlimit, hoverflow]
        exact if_pos (by omega)
      rw [foldlM_cons_error htake, foldlM_cons_error htake']

/-! ## What happens along an execution

  A relation `R s s' es` says that `es` is what happens from `s` to `s'`.  If it composes, it is
  enough to know it of one poll and of one item. -/

/-- Nothing happens in no step, and what happens in two steps is the one after the other. -/
structure Composes {ε : Type} (R : σ → σ → List ε → Prop) : Prop where
  refl : ∀ s, R s s []
  append : ∀ {s₀ s₁ s₂ es fs}, R s₀ s₁ es → R s₁ s₂ fs → R s₀ s₂ (es ++ fs)

namespace Composes

variable {α ε : Type} {R : σ → σ → List ε → Prop}

/-- What happens along a fold. -/
theorem foldlM (hR : Composes R) {f : σ → α → Except ω σ} {happens : α → List ε}
    (hf : ∀ s a s', f s a = .ok s' → R s s' (happens a)) :
    ∀ (as : List α) (s s' : σ), as.foldlM f s = .ok s' → R s s' (as.flatMap happens)
  | [], s, s', h => by
    obtain rfl : s = s' := Except.ok.inj h
    exact hR.refl s
  | a :: as, s, s', h => by
    cases ha : f s a with
    | error e =>
      rw [foldlM_cons_error ha] at h
      nomatch h
    | ok s₁ =>
      rw [foldlM_cons_ok ha] at h
      rw [List.flatMap_cons]
      exact hR.append (hf s a s₁ ha) (hR.foldlM hf as s₁ s' h)

/-- What happens along a sequence of polls: for each, the poll and then its items. -/
theorem take (hR : Composes R) {rc : Receiver σ μ ω} {atPoll : Fin n × List μ → List ε}
    {atItem : Fin n → μ → List ε} (hpolled : ∀ s q, R s (rc.polled q.1.val q.2 s) (atPoll q))
    (hbody : ∀ r s m s', rc.body s m = .ok s' → R s s' (atItem r m))
    {qs : List (Fin n × List μ)} {s s' : σ} (h : qs.foldlM rc.take s = .ok s') :
    R s s' (qs.flatMap fun q => atPoll q ++ q.2.flatMap (atItem q.1)) := by
  refine hR.foldlM (fun s q s' htake => ?_) qs s s' h
  obtain ⟨-, hitems⟩ := Receiver.take_ok htake
  exact hR.append (hpolled s q) (hR.foldlM (hbody q.1) q.2 _ s' hitems)

/-- **What happens along an execution.** -/
theorem loop (hR : Composes R) {rc : Receiver σ μ ω} {atPoll : Fin n × List μ → List ε}
    {atItem : Fin n → μ → List ε} (hpolled : ∀ s q, R s (rc.polled q.1.val q.2 s) (atPoll q))
    (hbody : ∀ r s m s', rc.body s m = .ok s' → R s s' (atItem r m))
    {bs : List (Fin n → List μ)} {s s' : σ} (h : rc.loop bs s = .ok s') :
    R s s' ((polls bs).flatMap fun q => atPoll q ++ q.2.flatMap (atItem q.1)) := by
  rw [rc.loop_eq] at h
  exact hR.take hpolled hbody h

end Composes

/-- In an execution that runs on, every delivery fits the array. -/
theorem Receiver.loop_fits {rc : Receiver σ μ ω} {bs : List (Fin n → List μ)} {s s' : σ}
    (h : rc.loop bs s = .ok s') : ∀ q ∈ polls bs, q.2.length ≤ rc.limit := by
  have hcomposes : Composes fun (_ _ : σ) (qs : List (Fin n × List μ)) =>
      ∀ q ∈ qs, q.2.length ≤ rc.limit := by
    constructor
    · exact fun _ q hq => absurd hq List.not_mem_nil
    · intro s₀ s₁ s₂ qs qs' h h' q hq
      rcases List.mem_append.mp hq with hmem | hmem
      · exact h q hmem
      · exact h' q hmem
  have hpoll : ∀ s (q : Fin n × List μ) s', rc.take s q = .ok s' →
      ∀ q' ∈ [q], q'.2.length ≤ rc.limit := by
    intro s q s' htake q' hq'
    rw [List.mem_singleton.mp hq']
    exact (Receiver.take_ok htake).1
  rw [rc.loop_eq] at h
  have hall := hcomposes.foldlM hpoll (polls bs) s s' h
  rwa [List.flatMap_singleton'] at hall

/-! ## The polls of an execution -/

/-- Every pass polls every queue once, in order. -/
theorem polls_map_fst (bs : List (Fin n → List μ)) :
    (polls bs).map Prod.fst = bs.flatMap fun _ => List.finRange n := by
  unfold polls
  rw [List.map_flatMap]
  congr 1
  funext b
  rw [List.map_map]
  exact List.map_id _

/-- What the polls of queue `r` deliver. -/
theorem polls_filter (bs : List (Fin n → List μ)) (r : Fin n) :
    (polls bs).filter (fun q => q.1 = r) = bs.map fun b => (r, b r) := by
  induction bs with
  | nil => rfl
  | cons b bs ih =>
    have hpass : ((List.finRange n).map fun r' => (r', b r')).filter (fun q => q.1 = r)
        = [(r, b r)] := by
      have hone : (List.finRange n).filter (fun r' => r' = r) = [r] := by
        rw [List.filter_eq, (List.nodup_finRange n).count, if_pos (List.mem_finRange r)]
        rfl
      rw [List.filter_map]
      show ((List.finRange n).filter fun r' => r' = r).map _ = _
      rw [hone]
      rfl
    rw [polls, List.flatMap_cons, List.filter_append, hpass, List.map_cons]
    show (r, b r) :: (polls bs).filter _ = _
    rw [ih]

end PollLoop
