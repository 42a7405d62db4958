/-
  A magazine in front of a depot.

  An allocator shared by several workers keeps its objects in one DEPOT and gives every worker a
  private stack of some of them, its MAGAZINE, so that most requests never touch the depot.  The
  list of a magazine has its top at the end.

  * `put`   — push; from the threshold `flush` on, everything above `size` goes to the depot;
  * `get`   — pop; a magazine that holds too little is first filled up to `size` and the request,
              in one piece, and a request of `size` or more does not use it at all;
  * `fetch` — `get`, and where that fails the depot directly.

  Nothing is lost and nothing appears (`put_perm`, `get_perm`, `fetch_perm`), a magazine never
  holds more than `flush` objects (`put_length_le`, `get_length_le`), and the exact condition
  under which nothing is found is `fetch_eq_none_iff`: the magazine of the WORKER and the depot
  count, what other magazines hold does not.
-/

namespace Magazine

variable {δ α : Type}

/-! ## Depots -/

/-- A store that takes and gives in one piece, with its contract: a request is served when there
    is enough, and objects are accepted when there is room. -/
structure Depot (δ α : Type) where
  contents : δ → List α
  capacity : Nat
  take : δ → Nat → Option (List α × δ)
  give : δ → List α → Option δ
  take_eq_none_iff : ∀ d n, take d n = none ↔ (contents d).length < n
  take_some : ∀ d n xs d', take d n = some (xs, d') →
    xs.length = n ∧ (contents d).Perm (xs ++ contents d')
  give_eq_none_iff : ∀ d xs, give d xs = none ↔ capacity < (contents d).length + xs.length
  give_some : ∀ d xs d', give d xs = some d' → (contents d').Perm (xs ++ contents d)

/-- First in, first out. -/
def fifo (capacity : Nat) : Depot (List α) α where
  contents d := d
  capacity := capacity
  take d n := if n ≤ d.length then some (d.take n, d.drop n) else none
  give d xs := if d.length + xs.length ≤ capacity then some (d ++ xs) else none
  take_eq_none_iff d n := by
    by_cases h : n ≤ d.length
    · simp only [if_pos h, reduceCtorEq, false_iff]
      omega
    · simp only [if_neg h, true_iff]
      omega
  take_some d n xs d' h := by
    split at h
    · obtain ⟨rfl, rfl⟩ := Prod.mk.inj (Option.some.inj h)
      rw [List.take_append_drop]
      exact ⟨by rw [List.length_take]; omega, List.Perm.refl _⟩
    · nomatch h
  give_eq_none_iff d xs := by
    by_cases h : d.length + xs.length ≤ capacity
    · simp only [if_pos h, reduceCtorEq, false_iff]
      omega
    · simp only [if_neg h, true_iff]
      omega
  give_some d xs d' h := by
    split at h
    · obtain rfl := Option.some.inj h
      exact List.perm_append_comm
    · nomatch h

namespace Depot

variable (D : Depot δ α)

/-- Giving without looking at the answer is safe where there is room. -/
theorem contents_give {d : δ} {xs : List α}
    (h : (D.contents d).length + xs.length ≤ D.capacity) :
    (D.contents ((D.give d xs).getD d)).Perm (xs ++ D.contents d) := by
  cases hg : D.give d xs with
  | none =>
    have hlt := (D.give_eq_none_iff d xs).mp hg
    omega
  | some d' => exact D.give_some d xs d' hg

end Depot

/-! ## Magazines -/

/-- The nominal size of a magazine, and the number of objects from which it is flushed. -/
structure Limits where
  size : Nat
  flush : Nat
  size_le : size ≤ flush

variable (L : Limits) (D : Depot δ α)

/-- Push `xs`; the answer of the depot to a flush is not looked at. -/
def put (mag : List α) (d : δ) (xs : List α) : List α × δ :=
  if L.flush ≤ (mag ++ xs).length then
    ((mag ++ xs).take L.size, (D.give d ((mag ++ xs).drop L.size)).getD d)
  else (mag ++ xs, d)

/-- The `n` topmost objects, topmost first, and what is left. -/
def pop (mag : List α) (n : Nat) : List α × List α :=
  ((mag.drop (mag.length - n)).reverse, mag.take (mag.length - n))

/-- Pop `n` objects, from a magazine that is filled first if it holds fewer. -/
def get (mag : List α) (d : δ) (n : Nat) : Option (List α × List α × δ) :=
  if L.size ≤ n then none
  else if n ≤ mag.length then some ((pop mag n).1, (pop mag n).2, d)
  else
    match D.take d (n + (L.size - mag.length)) with
    | none => none
    | some (ys, d') => some ((pop (mag ++ ys) n).1, (pop (mag ++ ys) n).2, d')

/-- Pop `n` objects, or take them from the depot past the magazine. -/
def fetch (mag : List α) (d : δ) (n : Nat) : Option (List α × List α × δ) :=
  match get L D mag d n with
  | some r => some r
  | none =>
    match D.take d n with
    | none => none
    | some (xs, d') => some (xs, mag, d')

section
variable {L D} {mag xs mag' : List α} {d d' : δ} {n : Nat}

/-! ## Nothing is lost -/

theorem pop_perm (mag : List α) (n : Nat) : mag.Perm ((pop mag n).1 ++ (pop mag n).2) := by
  show mag.Perm ((mag.drop (mag.length - n)).reverse ++ mag.take (mag.length - n))
  calc mag = mag.take (mag.length - n) ++ mag.drop (mag.length - n) :=
        (List.take_append_drop _ _).symm
    _ |>.Perm (mag.drop (mag.length - n) ++ mag.take (mag.length - n)) := List.perm_append_comm
    _ |>.Perm ((mag.drop (mag.length - n)).reverse ++ mag.take (mag.length - n)) :=
        (List.reverse_perm _).symm.append_right _

theorem pop_length (h : n ≤ mag.length) :
    (pop mag n).1.length = n ∧ (pop mag n).2.length = mag.length - n := by
  constructor
  · show ((mag.drop (mag.length - n)).reverse).length = n
    rw [List.length_reverse, List.length_drop]
    omega
  · show (mag.take (mag.length - n)).length = _
    rw [List.length_take]
    omega

/-- **A put loses nothing**, provided the depot has room for everything. -/
theorem put_perm (h : (D.contents d).length + (mag.length + xs.length) ≤ D.capacity) :
    ((put L D mag d xs).1 ++ D.contents (put L D mag d xs).2).Perm
      (xs ++ (mag ++ D.contents d)) := by
  have hall : ((mag ++ xs) ++ D.contents d).Perm (xs ++ (mag ++ D.contents d)) := by
    rw [← List.append_assoc]
    exact List.perm_append_comm.append_right _
  unfold put
  by_cases hflush : L.flush ≤ (mag ++ xs).length
  · rw [if_pos hflush]
    have hroom : (D.contents d).length + ((mag ++ xs).drop L.size).length ≤ D.capacity := by
      rw [List.length_drop, List.length_append]
      omega
    refine ((D.contents_give hroom).append_left _).trans ?_
    rw [← List.append_assoc, List.take_append_drop]
    exact hall
  · rw [if_neg hflush]
    exact hall

theorem put_length_le : (put L D mag d xs).1.length ≤ L.flush := by
  have hsize := L.size_le
  unfold put
  split
  · rw [List.length_take]
    omega
  · show (mag ++ xs).length ≤ L.flush
    omega

/-- What a `get` that succeeds has done: popped, after filling if need be. -/
theorem get_some (h : get L D mag d n = some (xs, mag', d')) :
    ∃ all, n ≤ all.length ∧ all.length ≤ max mag.length (n + L.size) ∧
      (mag ++ D.contents d).Perm (all ++ D.contents d') ∧
      xs = (pop all n).1 ∧ mag' = (pop all n).2 := by
  unfold get at h
  split at h
  · nomatch h
  · split at h
    · rename_i hle
      obtain ⟨rfl, hrest⟩ := Prod.mk.inj (Option.some.inj h)
      obtain ⟨rfl, rfl⟩ := Prod.mk.inj hrest
      exact ⟨mag, hle, Nat.le_max_left _ _, List.Perm.refl _, rfl, rfl⟩
    · split at h
      · nomatch h
      · rename_i hlt ys d₁ htake
        obtain ⟨rfl, hrest⟩ := Prod.mk.inj (Option.some.inj h)
        obtain ⟨rfl, rfl⟩ := Prod.mk.inj hrest
        obtain ⟨hlen, hperm⟩ := D.take_some _ _ _ _ htake
        refine ⟨mag ++ ys, ?_, ?_, ?_, rfl, rfl⟩
        · rw [List.length_append]
          omega
        · rw [List.length_append]
          omega
        · rw [List.append_assoc]
          exact hperm.append_left _

/-- **A get loses nothing.** -/
theorem get_perm (h : get L D mag d n = some (xs, mag', d')) :
    xs.length = n ∧ (mag ++ D.contents d).Perm (xs ++ (mag' ++ D.contents d')) := by
  obtain ⟨all, hle, -, hperm, rfl, rfl⟩ := get_some h
  refine ⟨(pop_length hle).1, hperm.trans ?_⟩
  rw [← List.append_assoc]
  exact (pop_perm all n).append_right _

theorem get_length_le (h : get L D mag d n = some (xs, mag', d')) (hmag : mag.length ≤ L.flush) :
    mag'.length ≤ L.flush := by
  obtain ⟨all, hle, hmax, -, -, rfl⟩ := get_some h
  have hsize := L.size_le
  have hpop := (pop_length hle).2
  omega

theorem fetch_perm (h : fetch L D mag d n = some (xs, mag', d')) :
    xs.length = n ∧ (mag ++ D.contents d).Perm (xs ++ (mag' ++ D.contents d')) := by
  unfold fetch at h
  split at h
  · rename_i r hget
    obtain rfl := Option.some.inj h
    exact get_perm hget
  · split at h
    · nomatch h
    · rename_i ys d₁ htake
      obtain ⟨rfl, hrest⟩ := Prod.mk.inj (Option.some.inj h)
      obtain ⟨rfl, rfl⟩ := Prod.mk.inj hrest
      obtain ⟨hlen, hperm⟩ := D.take_some _ _ _ _ htake
      refine ⟨hlen, (hperm.append_left _).trans ?_⟩
      rw [← List.append_assoc, ← List.append_assoc]
      exact List.perm_append_comm.append_right _

/-! ## When nothing is found -/

/-- A request goes past the magazine when it is too large for it, or when the magazine holds too
    little and cannot be filled. -/
theorem get_eq_none_iff : get L D mag d n = none ↔
    L.size ≤ n ∨ (mag.length < n ∧ (D.contents d).length < n + (L.size - mag.length)) := by
  unfold get
  by_cases hbig : L.size ≤ n
  · rw [if_pos hbig]
    exact ⟨fun _ => Or.inl hbig, fun _ => rfl⟩
  · rw [if_neg hbig]
    by_cases hle : n ≤ mag.length
    · rw [if_pos hle]
      constructor
      · intro h
        nomatch h
      · rintro (h | ⟨h, -⟩)
        · exact absurd h hbig
        · omega
    · rw [if_neg hle]
      rw [← D.take_eq_none_iff]
      constructor
      · intro h
        refine Or.inr ⟨by omega, ?_⟩
        cases ht : D.take d (n + (L.size - mag.length)) with
        | none => rfl
        | some r =>
          rw [ht] at h
          nomatch h
      · rintro (h | ⟨-, h⟩)
        · exact absurd h hbig
        · rw [h]

/-- **When a worker finds nothing**: the depot holds fewer than `n` objects, and its own magazine
    either holds fewer or is not used for a request of this size. -/
theorem fetch_eq_none_iff : fetch L D mag d n = none ↔
    (L.size ≤ n ∨ mag.length < n) ∧ (D.contents d).length < n := by
  unfold fetch
  cases hget : get L D mag d n with
  | some r =>
    constructor
    · intro h
      nomatch h
    · rintro ⟨hmag, hlt⟩
      have hnone : get L D mag d n = none := by
        rw [get_eq_none_iff]
        rcases hmag with h | h
        · exact Or.inl h
        · exact Or.inr ⟨h, by omega⟩
      rw [hnone] at hget
      nomatch hget
  | none =>
    have hmag : L.size ≤ n ∨ mag.length < n := by
      rcases get_eq_none_iff.mp hget with h | ⟨h, -⟩
      · exact Or.inl h
      · exact Or.inr h
    rw [← D.take_eq_none_iff]
    constructor
    · intro h
      refine ⟨hmag, ?_⟩
      cases ht : D.take d n with
      | none => rfl
      | some r =>
        rw [ht] at h
        nomatch h
    · rintro ⟨-, h⟩
      rw [h]

/-! ## Last in, first out -/

/-- What was put without a flush is got back, in the reverse order, and the magazine and the depot
    are as before. -/
theorem get_put (hflush : (mag ++ xs).length < L.flush) (hsize : xs.length < L.size) :
    get L D (put L D mag d xs).1 (put L D mag d xs).2 xs.length = some (xs.reverse, mag, d) := by
  have hput : put L D mag d xs = (mag ++ xs, d) := if_neg (by omega)
  have hpop : pop (mag ++ xs) xs.length = (xs.reverse, mag) := by
    have hlen : (mag ++ xs).length - xs.length = mag.length := by
      rw [List.length_append, Nat.add_sub_cancel]
    rw [pop, hlen, List.drop_left, List.take_left]
  have hle : xs.length ≤ (mag ++ xs).length := by
    rw [List.length_append]
    omega
  rw [hput, get, if_neg (by omega), if_pos hle, hpop]

end
end Magazine
