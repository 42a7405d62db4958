/-
  Bytes of a 32-bit word.

  A word is a four-digit numeral in base 256; `byte w k` is the digit of weight `256 ^ k` (so
  `byte w 0` is the one a little-endian machine stores first) and `ofBytes` puts four digits back
  together.  Both are written with `/`, `%` and `+` on `toNat`, so every law below is linear
  arithmetic.

  `swap` reverses the four bytes — the function `bswap32` computes.  It is an involution
  (`swap_swap`), and its fixed points are the words that read the same from both ends
  (`swap_eq_self_iff`): those are exactly the words on which two machines that disagree about
  byte order agree.
-/

namespace Words

/-- An octet of memory. -/
abbrev Byte := BitVec 8

/-- The byte of weight `256 ^ k` of a word. -/
def byte (w : BitVec 32) (k : Nat) : Byte := BitVec.ofNat 8 (w.toNat >>> (8 * k))

/-- The word with the given bytes, least significant first. -/
def ofBytes (b₀ b₁ b₂ b₃ : Byte) : BitVec 32 :=
  BitVec.ofNat 32 (b₀.toNat + 256 * b₁.toNat + 65536 * b₂.toNat + 16777216 * b₃.toNat)

/-- The word with its bytes in the opposite order. -/
def swap (w : BitVec 32) : BitVec 32 := ofBytes (byte w 3) (byte w 2) (byte w 1) (byte w 0)

theorem byte_toNat (w : BitVec 32) (k : Nat) :
    (byte w k).toNat = w.toNat >>> (8 * k) % 256 := by
  rw [byte, BitVec.toNat_ofNat]

theorem ofBytes_toNat (b₀ b₁ b₂ b₃ : Byte) : (ofBytes b₀ b₁ b₂ b₃).toNat
    = b₀.toNat + 256 * b₁.toNat + 65536 * b₂.toNat + 16777216 * b₃.toNat := by
  have h₀ := b₀.isLt
  have h₁ := b₁.isLt
  have h₂ := b₂.isLt
  have h₃ := b₃.isLt
  rw [ofBytes, BitVec.toNat_ofNat]
  omega

/-- A word is put back together from its bytes. -/
theorem ofBytes_byte (w : BitVec 32) :
    ofBytes (byte w 0) (byte w 1) (byte w 2) (byte w 3) = w := by
  have hw := w.isLt
  apply BitVec.eq_of_toNat_eq
  simp only [ofBytes_toNat, byte_toNat]
  omega

/-- The bytes of an assembled word are the bytes it was assembled from. -/
theorem byte_ofBytes (b₀ b₁ b₂ b₃ : Byte) :
    byte (ofBytes b₀ b₁ b₂ b₃) 0 = b₀ ∧ byte (ofBytes b₀ b₁ b₂ b₃) 1 = b₁ ∧
    byte (ofBytes b₀ b₁ b₂ b₃) 2 = b₂ ∧ byte (ofBytes b₀ b₁ b₂ b₃) 3 = b₃ := by
  have h₀ := b₀.isLt
  have h₁ := b₁.isLt
  have h₂ := b₂.isLt
  have h₃ := b₃.isLt
  refine ⟨?_, ?_, ?_, ?_⟩ <;>
  · apply BitVec.eq_of_toNat_eq
    simp only [byte_toNat, ofBytes_toNat]
    omega

/-- Two words are equal when their four bytes are. -/
theorem eq_of_bytes {v w : BitVec 32} (h₀ : byte v 0 = byte w 0) (h₁ : byte v 1 = byte w 1)
    (h₂ : byte v 2 = byte w 2) (h₃ : byte v 3 = byte w 3) : v = w := by
  rw [← ofBytes_byte v, ← ofBytes_byte w, h₀, h₁, h₂, h₃]

theorem byte_swap (w : BitVec 32) :
    byte (swap w) 0 = byte w 3 ∧ byte (swap w) 1 = byte w 2 ∧
    byte (swap w) 2 = byte w 1 ∧ byte (swap w) 3 = byte w 0 :=
  byte_ofBytes _ _ _ _

/-- Swapping twice is the identity. -/
theorem swap_swap (w : BitVec 32) : swap (swap w) = w := by
  obtain ⟨h₀, h₁, h₂, h₃⟩ := byte_swap (swap w)
  obtain ⟨g₀, g₁, g₂, g₃⟩ := byte_swap w
  exact eq_of_bytes (h₀.trans g₃) (h₁.trans g₂) (h₂.trans g₁) (h₃.trans g₀)

/-- **The fixed points of `swap`** are the byte palindromes. -/
theorem swap_eq_self_iff (w : BitVec 32) :
    swap w = w ↔ byte w 0 = byte w 3 ∧ byte w 1 = byte w 2 := by
  obtain ⟨g₀, g₁, g₂, g₃⟩ := byte_swap w
  constructor
  · intro h
    rw [h] at g₀ g₁
    exact ⟨g₀, g₁⟩
  · rintro ⟨h₀, h₁⟩
    exact eq_of_bytes (g₀.trans h₀.symm) (g₁.trans h₁.symm) (g₂.trans h₁) (g₃.trans h₀)

end Words
