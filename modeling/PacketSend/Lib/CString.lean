/-
  NUL-terminated strings in memory.

  `text bs` is what printing a `char *` at the start of `bs` shows: the bytes before the first
  NUL.  The reader looks at one byte more than it shows (the terminator), so the text is a
  function of the bytes at the positions `0 .. (text bs).length` and of no others
  (`text_congr`).  A memory with no NUL has no terminator to find: then the last position is the
  one past the end of `bs`.
-/
import PacketSend.Lib.Words

namespace CString

open Words

/-- The bytes before the first NUL. -/
def text (bs : List Byte) : List Byte := bs.takeWhile (fun b => b != 0)

theorem text_cons_zero (bs : List Byte) : text (0 :: bs) = [] := rfl

theorem text_cons_of_ne {b : Byte} (h : b ≠ 0) (bs : List Byte) : text (b :: bs) = b :: text bs :=
  List.takeWhile_cons_of_pos (by simpa using h)

/-- The text stops at or before any NUL. -/
theorem text_length_le_of_nul : ∀ (bs : List Byte) (i : Nat), bs[i]? = some 0 →
    (text bs).length ≤ i
  | [], i, h => by simp at h
  | b :: bs, i, h => by
    by_cases hb : b = 0
    · rw [hb, text_cons_zero]
      exact Nat.zero_le i
    · rw [text_cons_of_ne hb, List.length_cons]
      cases i with
      | zero => exact absurd (Option.some.inj h) hb
      | succ i =>
        rw [List.getElem?_cons_succ] at h
        exact Nat.succ_le_succ (text_length_le_of_nul bs i h)

/-- A text that ends inside the memory ends at a NUL. -/
theorem nul_at_text_length : ∀ bs : List Byte, (text bs).length < bs.length →
    bs[(text bs).length]? = some 0
  | [], h => by simp at h
  | b :: bs, h => by
    by_cases hb : b = 0
    · rw [hb, text_cons_zero]
      rfl
    · rw [text_cons_of_ne hb, List.length_cons, List.length_cons] at h
      rw [text_cons_of_ne hb, List.length_cons, List.getElem?_cons_succ]
      exact nul_at_text_length bs (by omega)

/-- The text goes on past every place before the first NUL. -/
theorem lt_text_length {bs : List Byte} {i : Nat} (hi : i < bs.length)
    (h : ∀ j, j ≤ i → bs[j]? ≠ some 0) : i < (text bs).length := by
  rcases Nat.lt_or_ge i (text bs).length with hlt | hge
  · exact hlt
  · exact absurd (nul_at_text_length bs (Nat.lt_of_le_of_lt hge hi)) (h _ hge)

/-- **Footprint**: memories that agree up to and including the terminator show the same text. -/
theorem text_congr : ∀ (bs bs' : List Byte), (∀ i, i ≤ (text bs).length → bs[i]? = bs'[i]?) →
    text bs = text bs'
  | [], bs', h => by
    have h0 : (none : Option Byte) = bs'[0]? := h 0 (Nat.le_refl 0)
    have hlen : bs'.length ≤ 0 := List.getElem?_eq_none_iff.mp h0.symm
    rw [List.eq_nil_of_length_eq_zero (Nat.le_zero.mp hlen)]
  | b :: bs, [], h => by
    have h0 : some b = none := h 0 (Nat.zero_le _)
    nomatch h0
  | b :: bs, b' :: bs', h => by
    have h0 : some b = some b' := h 0 (Nat.zero_le _)
    obtain rfl : b = b' := Option.some.inj h0
    by_cases hb : b = 0
    · rw [hb, text_cons_zero, text_cons_zero]
    · rw [text_cons_of_ne hb, text_cons_of_ne hb]
      congr 1
      apply text_congr bs bs'
      intro i hi
      have hi' := h (i + 1) (by rw [text_cons_of_ne hb, List.length_cons]; omega)
      rwa [List.getElem?_cons_succ, List.getElem?_cons_succ] at hi'

end CString
