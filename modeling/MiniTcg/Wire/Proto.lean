import MiniTcg.Lib.Bytes
import MiniTcg.Wire.Net

/-!
# The packet codec: `proto_send` and `proto_recv`

Buffers are byte lists; `pkt_hdr_t` is packed and its three fields travel in
network byte order. Besides the return code the model reports what each call
stores: in `payload_buf`, through the output pointers, and in its own
`stackbuf[4096]`.
-/
namespace MiniTcg.Wire

/-- One pass of the `while (sum >> 16)` loop. -/
def carry (sum : UInt32) : UInt32 := (sum &&& (0xFFFF : UInt32)) + (sum >>> 16)

/-- The `while (sum >> 16)` loop; two passes are enough, see `foldCarry_eq`. -/
def foldCarry (sum : UInt32) : UInt32 :=
  if sum >>> 16 = 0 then sum
  else if carry sum >>> 16 = 0 then carry sum
  else carry (carry sum)

def protoChecksum16 (buf : List UInt8) : UInt16 :=
  (~~~ foldCarry (buf.foldl (fun sum b => sum + b.toUInt32) 0)).toUInt16

theorem carry_toNat (sum : UInt32) :
    (carry sum).toNat = sum.toNat % 2 ^ 16 + sum.toNat / 2 ^ 16 := by
  have hlt := sum.toNat_lt
  have hand : (sum &&& (0xFFFF : UInt32)).toNat = sum.toNat % 2 ^ 16 := by
    rw [UInt32.toNat_and]
    exact Nat.and_two_pow_sub_one_eq_mod sum.toNat 16
  have hshift : (sum >>> 16).toNat = sum.toNat / 2 ^ 16 := by
    rw [UInt32.toNat_shiftRight]
    exact Nat.shiftRight_eq_div_pow _ _
  unfold carry
  rw [UInt32.toNat_add, hand, hshift]
  omega

theorem shift_eq_zero (sum : UInt32) : sum >>> 16 = 0 ↔ sum.toNat < 2 ^ 16 := by
  have hshift : (sum >>> 16).toNat = sum.toNat / 2 ^ 16 := by
    rw [UInt32.toNat_shiftRight]
    exact Nat.shiftRight_eq_div_pow _ _
  rw [← UInt32.toNat_inj, hshift]
  simp only [UInt32.toNat_zero]
  omega

/-- The `while (sum >> 16)` loop, as the source writes it. -/
theorem foldCarry_eq (sum : UInt32) :
    foldCarry sum = if sum >>> 16 = 0 then sum else foldCarry (carry sum) := by
  have hlt := sum.toNat_lt
  have h1 := carry_toNat sum
  have h2 := carry_toNat (carry sum)
  have h3 : carry (carry sum) >>> 16 = 0 := by
    rw [shift_eq_zero]
    omega
  unfold foldCarry
  by_cases hz : sum >>> 16 = 0
  · rw [if_pos hz, if_pos hz]
  · rw [if_neg hz, if_neg hz, if_pos h3]

/-- `pkt_hdr_t`, its fields in host byte order. -/
structure PktHdr where
  len : UInt32
  opcode : UInt16
  cksum : UInt16
  deriving DecidableEq, Repr

/-- The eight bytes of a header, `htonl` and `htons` applied. -/
def PktHdr.bytes (h : PktHdr) : List UInt8 :=
  Bytes.encode 4 h.len.toNat ++ (Bytes.encode 2 h.opcode.toNat ++ Bytes.encode 2 h.cksum.toNat)

/-- `ntohl` and `ntohs` of the fields of a header. -/
def PktHdr.ofBytes (bs : List UInt8) : PktHdr where
  len := UInt32.ofNat (Bytes.decode (bs.take 4))
  opcode := UInt16.ofNat (Bytes.decode ((bs.drop 4).take 2))
  cksum := UInt16.ofNat (Bytes.decode (bs.drop 6))

@[simp] theorem PktHdr.bytes_length (h : PktHdr) : h.bytes.length = 8 := by
  simp [PktHdr.bytes]

theorem PktHdr.ofBytes_bytes (h : PktHdr) : PktHdr.ofBytes h.bytes = h := by
  obtain ⟨len, op, ck⟩ := h
  have h4 : (PktHdr.bytes ⟨len, op, ck⟩).take 4 = Bytes.encode 4 len.toNat := by
    unfold PktHdr.bytes
    rw [List.take_left' (Bytes.encode_length 4 _)]
  have hd : (PktHdr.bytes ⟨len, op, ck⟩).drop 4 =
      Bytes.encode 2 op.toNat ++ Bytes.encode 2 ck.toNat := by
    unfold PktHdr.bytes
    rw [List.drop_left' (Bytes.encode_length 4 _)]
  have h6 : (PktHdr.bytes ⟨len, op, ck⟩).drop 6 = Bytes.encode 2 ck.toNat := by
    rw [show 6 = 4 + 2 from rfl, ← List.drop_drop, hd, List.drop_left' (Bytes.encode_length 2 _)]
  unfold PktHdr.ofBytes
  rw [h4, hd, h6, List.take_left' (Bytes.encode_length 2 _),
    Bytes.decode_encode (len.toNat_lt), Bytes.decode_encode (op.toNat_lt),
    Bytes.decode_encode (ck.toNat_lt), UInt32.ofNat_toNat, UInt16.ofNat_toNat, UInt16.ofNat_toNat]

theorem PktHdr.bytes_ofBytes {bs : List UInt8} (h : bs.length = 8) :
    (PktHdr.ofBytes bs).bytes = bs := by
  have field : ∀ {w : ℕ} {l : List UInt8}, l.length = w → Bytes.decode l < 256 ^ w ∧
      Bytes.encode w (Bytes.decode l) = l := by
    rintro w l rfl
    exact ⟨Bytes.decode_lt l, Bytes.encode_decode l⟩
  obtain ⟨l4, e4⟩ := field (w := 4) (l := bs.take 4) (by rw [List.length_take]; omega)
  obtain ⟨l2, e2⟩ := field (w := 2) (l := (bs.drop 4).take 2)
    (by rw [List.length_take, List.length_drop]; omega)
  obtain ⟨l6, e6⟩ := field (w := 2) (l := bs.drop 6) (by rw [List.length_drop]; omega)
  have hlen : (PktHdr.ofBytes bs).len.toNat = Bytes.decode (bs.take 4) :=
    UInt32.toNat_ofNat'.trans (Nat.mod_eq_of_lt l4)
  have hop : (PktHdr.ofBytes bs).opcode.toNat = Bytes.decode ((bs.drop 4).take 2) :=
    UInt16.toNat_ofNat'.trans (Nat.mod_eq_of_lt l2)
  have hck : (PktHdr.ofBytes bs).cksum.toNat = Bytes.decode (bs.drop 6) :=
    UInt16.toNat_ofNat'.trans (Nat.mod_eq_of_lt l6)
  have hdrop : bs.drop 6 = (bs.drop 4).drop 2 := by rw [List.drop_drop]
  unfold PktHdr.bytes
  rw [hlen, hop, hck, e4, e2, e6, hdrop, List.take_append_drop, List.take_append_drop]

/-- The bytes `proto_send` writes: `total_len` bytes of its buffer, which is the
header and the payload, with the checksum taken over a zero in its own field. -/
def frame (opcode : UInt16) (payload : List UInt8) : List UInt8 :=
  let totalLen : UInt32 := 8 + UInt32.ofNat payload.length
  let cks := protoChecksum16 (((PktHdr.mk totalLen opcode 0).bytes ++ payload).take totalLen.toNat)
  ((PktHdr.mk totalLen opcode cks).bytes ++ payload).take totalLen.toNat

/-- What a `proto_send` call did. -/
structure Sent where
  rc : ℤ
  copied : ℕ
  conn : Conn

/-- `proto_send` with `payload_len` the length of the payload. -/
def protoSend (calls : ℕ) (c : Conn) (opcode : UInt16) (payload : List UInt8) : Option Sent :=
  let totalLen : UInt32 := 8 + UInt32.ofNat payload.length
  if 4096 < totalLen.toNat then some ⟨-1, 0, c⟩
  else
    match connWriten calls c (frame opcode payload) with
    | none => none
    | some (rc, c) => some ⟨if rc = totalLen.toNat then 0 else -1, 8 + payload.length, c⟩

/-- What a `proto_recv` call did: `out` is what it stored through `opcode_out`
and `payload_len_out`, `stored` the bytes in `payload_buf`, `copied` the size of
what it copied into `stackbuf`. -/
structure Recv where
  rc : ℤ
  out : Option (UInt16 × UInt32)
  stored : List UInt8
  copied : ℕ
  conn : Conn

def recvFail (stored : List UInt8) (copied : ℕ) (c : Conn) : Option Recv :=
  some ⟨-1, none, stored, copied, c⟩

/-- `proto_recv` after the payload has been read. -/
def recvVerify (h : PktHdr) (payload : List UInt8) (c : Conn) : Option Recv :=
  if 4096 < h.len.toNat then recvFail payload 0 c
  else
    let buf := { h with cksum := 0 }.bytes ++ payload
    if protoChecksum16 buf ≠ h.cksum then recvFail payload buf.length c
    else some ⟨0, some (h.opcode, h.len - 8), payload, buf.length, c⟩

/-- `proto_recv` after the header has been read. -/
def recvPayload (calls : ℕ) (c : Conn) (h : PktHdr) (cap : UInt32) : Option Recv :=
  if h.len.toNat < 8 ∨ 8 + cap.toNat < h.len.toNat then recvFail [] 0 c
  else
    let payloadLen := h.len - 8
    if payloadLen = 0 then recvVerify h [] c
    else
      match connReadn calls c payloadLen.toNat with
      | none => none
      | some (rc, payload, c) =>
        if rc ≠ payloadLen.toNat then recvFail payload 0 c else recvVerify h payload c

/-- `proto_recv` with `payload_buf_cap = cap`. -/
def protoRecv (calls : ℕ) (c : Conn) (cap : UInt32) : Option Recv :=
  match connReadn calls c 8 with
  | none => none
  | some (rc, hdr, c) =>
    if rc ≠ 8 then recvFail [] 0 c else recvPayload calls c (PktHdr.ofBytes hdr) cap

end MiniTcg.Wire
