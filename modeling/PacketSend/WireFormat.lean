/-
  The wire format, as the three programs use it.

  `packet_send` stores `idx` and `value` through a `my_pkt *`, in host byte order.  Two receivers
  read the eight bytes back:

  * `packet_recv` loads the two words in host byte order (its `ntohl` lines are commented out);
  * `main.cpp` loads them and converts both IN PLACE with `ntohl`, which swaps the bytes on a
    little-endian host.

  So `packet_recv` returns what was sent, for every pair of words, and `main.cpp` returns the
  byte-reversed pair.  The receivers agree with the sender and with each other on a pair exactly
  when each of its words reads the same from both ends (`wireAgreement_iff`); the constants
  `packet_send` sends, 114 and 514, do not.
-/
import PacketSend.Vote

namespace PacketSend

open Words

/-! ## Encoder and decoders -/

/-- `ntohl` on a little-endian host. -/
def ntohl (w : BitVec 32) : BitVec 32 := swap w

/-- `packet_send_process`: the field stores into a freshly allocated mbuf. -/
def sendEncode (room : DataRoom) (p : MyPkt) : DataRoom := room.write p

/-- `packet_recv`: `pkt->idx` and `pkt->value` as they lie in the data room. -/
def recvDecode (room : DataRoom) : MyPkt := room.pkt

/-- `main.cpp`: `pkt->idx = ntohl(pkt->idx); pkt->value = ntohl(pkt->value);`. -/
def ntohlInPlace (room : DataRoom) : DataRoom :=
  let room := room.storeIdx (ntohl room.pkt.idx)
  room.storeValue (ntohl room.pkt.value)

/-- `main.cpp`: the fields after the conversion in place. -/
def mainDecode (room : DataRoom) : MyPkt := (ntohlInPlace room).pkt

@[simp] theorem recvDecode_sendEncode (room : DataRoom) (p : MyPkt) :
    recvDecode (sendEncode room p) = p :=
  DataRoom.pkt_write room p

/-- The conversion reverses the bytes of both fields. -/
theorem mainDecode_eq (room : DataRoom) :
    mainDecode room = ⟨swap room.pkt.idx, swap room.pkt.value⟩ := by
  simp only [mainDecode, ntohlInPlace, ntohl, DataRoom.pkt_storeValue, DataRoom.pkt_storeIdx]

@[simp] theorem mainDecode_sendEncode (room : DataRoom) (p : MyPkt) :
    mainDecode (sendEncode room p) = ⟨swap p.idx, swap p.value⟩ := by
  rw [mainDecode_eq, sendEncode, DataRoom.pkt_write]

/-- What `main.cpp` decodes is what a sender in network byte order has encoded: the conversion is
    missing on the sending side. -/
theorem mainDecode_networkOrder (room : DataRoom) (p : MyPkt) :
    mainDecode (sendEncode room ⟨ntohl p.idx, ntohl p.value⟩) = p := by
  rw [mainDecode_sendEncode, ntohl, ntohl, swap_swap, swap_swap]

/-! ## Agreement -/

/-- A word whose four bytes read the same from both ends. -/
def BytePalindrome (w : BitVec 32) : Prop := byte w 0 = byte w 3 ∧ byte w 1 = byte w 2

instance (w : BitVec 32) : Decidable (BytePalindrome w) :=
  inferInstanceAs (Decidable (_ ∧ _))

/-- The wire format is agreed on at `p`: both receivers get `p` back, hence the same packet, and
    `main.cpp` routes it to slot `idx mod 65536` when `idx` is below `2 ^ 31`. -/
structure WireAgreement (room : DataRoom) (p : MyPkt) : Prop where
  recv : recvDecode (sendEncode room p) = p
  main : mainDecode (sendEncode room p) = p
  same : recvDecode (sendEncode room p) = mainDecode (sendEncode room p)
  slot : p.idx.toNat < 2147483648 →
    idxRem (mainDecode (sendEncode room p)) = ((p.idx.toNat % arraySize : Nat) : Int)

/-- `main.cpp` gets the pair back only if swapping leaves both words alone. -/
theorem WireAgreement.palindrome {room : DataRoom} {p : MyPkt} (h : WireAgreement room p) :
    BytePalindrome p.idx ∧ BytePalindrome p.value := by
  have hmain := h.main
  rw [mainDecode_sendEncode] at hmain
  exact ⟨(swap_eq_self_iff _).mp (congrArg MyPkt.idx hmain),
    (swap_eq_self_iff _).mp (congrArg MyPkt.value hmain)⟩

/-- A word below `2 ^ 31` is non-negative as an `int`. -/
theorem routable_of_lt {p : MyPkt} (h : p.idx.toNat < 2147483648) : Routable p := by
  unfold Routable
  rw [BitVec.toInt_eq_toNat_cond, if_pos (by omega)]
  exact Int.natCast_nonneg _

/-- **When the wire format is agreed on**: for every data room and every pair of words, exactly
    when both words are byte palindromes. -/
theorem wireAgreement_iff (room : DataRoom) (p : MyPkt) :
    WireAgreement room p ↔ BytePalindrome p.idx ∧ BytePalindrome p.value := by
  constructor
  · exact WireAgreement.palindrome
  · rintro ⟨hidx, hvalue⟩
    have hmain : mainDecode (sendEncode room p) = p := by
      rw [mainDecode_sendEncode, (swap_eq_self_iff _).mpr hidx, (swap_eq_self_iff _).mpr hvalue]
    refine ⟨recvDecode_sendEncode room p, hmain, ?_, fun hlt => ?_⟩
    · rw [recvDecode_sendEncode, hmain]
    · rw [hmain, idxRem_of_routable (routable_of_lt hlt)]
      rfl

/-- The packet `packet_send` sends, in a room of eight zero bytes, is not decoded by `main.cpp`. -/
theorem wireAgreement_not_sent :
    ¬ WireAgreement ⟨List.replicate 8 0, by decide⟩ ⟨114, 514⟩ := by
  intro h
  exact absurd h.palindrome.1 (by decide)

end PacketSend
