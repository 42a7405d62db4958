/-
  The packet of `packet_utils.h` and the memory it lives in.

  `my_pkt` is two 32-bit words, packed: `idx` in bytes 0..3 and `value` in bytes 4..7 of the mbuf
  data room.  `packet_utils.h` declares the words `uint32_t`, `main.cpp` has its own copy with
  `int32_t`; the bits are the same, so both are `MyPkt` and signedness shows only where a field
  is used (`toNat` or `toInt`).

  The three programs touch the data room through a `my_pkt *`, i.e. by 32-bit loads and stores in
  host byte order.  The host is little-endian x86_64 (`CMakeLists.txt` builds with `-mssse3`), so
  the byte of weight `256 ^ k` of a word is at offset `k`.
-/
import Mathlib.Tactic.SplitIfs
import PacketSend.Lib.Words

namespace PacketSend

open Words

/-- `my_pkt`: the bit patterns of the two fields. -/
structure MyPkt where
  idx : BitVec 32
  value : BitVec 32
  deriving DecidableEq, Repr

/-- `sizeof(my_pkt)`: the structure is packed. -/
def sizeofMyPkt : Nat := 8

/-! ## Macros the three programs define alike -/

/-- `BURST_SIZE`. -/
def burstSize : Nat := 64

/-- `RX_RING_SIZE`. -/
def rxRingSize : Nat := 1024

/-- `TX_RING_SIZE`. -/
def txRingSize : Nat := 1024

/-- `NUM_MBUFS`. -/
def numMbufs : Nat := 8191

/-- The conversion to `uint16_t`. -/
def uint16 (n : Nat) : Nat := n % 65536

theorem uint16_of_lt {n : Nat} (h : n < 65536) : uint16 n = n := Nat.mod_eq_of_lt h

/-! ## 32-bit loads and stores in host byte order -/

/-- `*(uint32_t *)(p + off)` on a little-endian host. -/
def load32 (bytes : List Byte) (off : Nat) : BitVec 32 :=
  ofBytes (bytes.getD off 0) (bytes.getD (off + 1) 0) (bytes.getD (off + 2) 0)
    (bytes.getD (off + 3) 0)

/-- `*(uint32_t *)(p + off) = w` on a little-endian host. -/
def store32 (bytes : List Byte) (off : Nat) (w : BitVec 32) : List Byte :=
  (((bytes.set off (byte w 0)).set (off + 1) (byte w 1)).set (off + 2) (byte w 2)).set (off + 3)
    (byte w 3)

@[simp] theorem store32_length (bytes : List Byte) (off : Nat) (w : BitVec 32) :
    (store32 bytes off w).length = bytes.length := by
  simp only [store32, List.length_set]

theorem getD_set (bytes : List Byte) (i j : Nat) (b : Byte) (hj : j < bytes.length) :
    (bytes.set i b).getD j 0 = if i = j then b else bytes.getD j 0 := by
  rw [List.getD_eq_getElem?_getD, List.getD_eq_getElem?_getD, List.getElem?_set]
  by_cases h : i = j
  · subst h
    rw [if_pos rfl, if_pos rfl, if_pos hj]
    rfl
  · rw [if_neg h, if_neg h]

/-- What a store leaves at each offset: its own four bytes, and the old byte everywhere else. -/
theorem getD_store32 (bytes : List Byte) (off : Nat) (w : BitVec 32) (j : Nat)
    (hj : j < bytes.length) : (store32 bytes off w).getD j 0
      = if j = off then byte w 0 else if j = off + 1 then byte w 1
        else if j = off + 2 then byte w 2 else if j = off + 3 then byte w 3
        else bytes.getD j 0 := by
  unfold store32
  rw [getD_set _ _ _ _ (by simpa using hj), getD_set _ _ _ _ (by simpa using hj),
    getD_set _ _ _ _ (by simpa using hj), getD_set _ _ _ _ hj]
  split_ifs <;> first | rfl | omega

/-- A load reads back the word stored at the same offset. -/
theorem load32_store32 (bytes : List Byte) (off : Nat) (w : BitVec 32)
    (h : off + 4 ≤ bytes.length) : load32 (store32 bytes off w) off = w := by
  have h₀ : (store32 bytes off w).getD off 0 = byte w 0 := by
    rw [getD_store32 _ _ _ _ (by omega), if_pos rfl]
  have h₁ : (store32 bytes off w).getD (off + 1) 0 = byte w 1 := by
    rw [getD_store32 _ _ _ _ (by omega), if_neg (by omega), if_pos rfl]
  have h₂ : (store32 bytes off w).getD (off + 2) 0 = byte w 2 := by
    rw [getD_store32 _ _ _ _ (by omega), if_neg (by omega), if_neg (by omega), if_pos rfl]
  have h₃ : (store32 bytes off w).getD (off + 3) 0 = byte w 3 := by
    rw [getD_store32 _ _ _ _ (by omega), if_neg (by omega), if_neg (by omega),
      if_neg (by omega), if_pos rfl]
  rw [load32, h₀, h₁, h₂, h₃]
  exact ofBytes_byte w

/-- A load is not changed by a store to four other bytes. -/
theorem load32_store32_apart (bytes : List Byte) (off off' : Nat) (w : BitVec 32)
    (h : off' + 4 ≤ bytes.length) (hne : off' + 4 ≤ off ∨ off + 4 ≤ off') :
    load32 (store32 bytes off w) off' = load32 bytes off' := by
  have hbyte : ∀ k, k < 4 → (store32 bytes off w).getD (off' + k) 0 = bytes.getD (off' + k) 0 := by
    intro k hk
    rw [getD_store32 _ _ _ _ (by omega), if_neg (by omega), if_neg (by omega), if_neg (by omega),
      if_neg (by omega)]
  unfold load32
  rw [hbyte 1 (by omega), hbyte 2 (by omega), hbyte 3 (by omega),
    show (store32 bytes off w).getD off' 0 = bytes.getD off' 0 from hbyte 0 (by omega)]

/-! ## The data room of an mbuf -/

/-- The bytes of an mbuf from `rte_pktmbuf_mtod` to the end of its buffer.  Every pool of the
    three programs has `RTE_MBUF_DEFAULT_BUF_SIZE` rooms, far more than the eight bytes of a
    `my_pkt`; only that much is assumed. -/
structure DataRoom where
  bytes : List Byte
  holds : sizeofMyPkt ≤ bytes.length

namespace DataRoom

/-- The room read through a `my_pkt *`. -/
def pkt (room : DataRoom) : MyPkt := ⟨load32 room.bytes 0, load32 room.bytes 4⟩

/-- `pkt->idx = w`. -/
def storeIdx (room : DataRoom) (w : BitVec 32) : DataRoom :=
  ⟨store32 room.bytes 0 w, by rw [store32_length]; exact room.holds⟩

/-- `pkt->value = w`. -/
def storeValue (room : DataRoom) (w : BitVec 32) : DataRoom :=
  ⟨store32 room.bytes 4 w, by rw [store32_length]; exact room.holds⟩

@[simp] theorem pkt_storeIdx (room : DataRoom) (w : BitVec 32) :
    (room.storeIdx w).pkt = ⟨w, room.pkt.value⟩ := by
  have h : 8 ≤ room.bytes.length := room.holds
  show MyPkt.mk (load32 (store32 room.bytes 0 w) 0) (load32 (store32 room.bytes 0 w) 4) = _
  rw [load32_store32 _ _ _ (by omega), load32_store32_apart _ _ _ _ (by omega) (by omega)]
  rfl

@[simp] theorem pkt_storeValue (room : DataRoom) (w : BitVec 32) :
    (room.storeValue w).pkt = ⟨room.pkt.idx, w⟩ := by
  have h : 8 ≤ room.bytes.length := room.holds
  show MyPkt.mk (load32 (store32 room.bytes 4 w) 0) (load32 (store32 room.bytes 4 w) 4) = _
  rw [load32_store32 _ _ _ (by omega), load32_store32_apart _ _ _ _ (by omega) (by omega)]
  rfl

/-- The two field stores of `packet_send_process`: `pkt->idx = idx; pkt->value = value`. -/
def write (room : DataRoom) (p : MyPkt) : DataRoom := (room.storeIdx p.idx).storeValue p.value

@[simp] theorem pkt_write (room : DataRoom) (p : MyPkt) : (room.write p).pkt = p := by
  rw [write, pkt_storeValue, pkt_storeIdx]

/-- The payload: the bytes from `pkt + 1` on. -/
def payload (room : DataRoom) : List Byte := room.bytes.drop sizeofMyPkt

end DataRoom
end PacketSend
