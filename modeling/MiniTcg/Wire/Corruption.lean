import MiniTcg.Wire.Codec

/-!
# A changed byte is noticed

The checksum is the complement of the byte sum modulo 65535. Changing a byte of a
frame moves that sum by less than 65535, also in the length field, where it
changes how many bytes are summed, as long as the frame has at most 511 bytes.
-/
namespace MiniTcg.Wire

open Bytes

/-! ### The checksum as a number -/

/-- The end-around carries keep the sum modulo 65535. -/
theorem foldCarry_toNat (sum : UInt32) (hpos : 0 < sum.toNat) (hlt : sum.toNat < 2 ^ 31) :
    (foldCarry sum).toNat = (sum.toNat - 1) % 65535 + 1 := by
  have h1 := carry_toNat sum
  have h2 := carry_toNat (carry sum)
  unfold foldCarry
  simp only [shift_eq_zero]
  split
  · omega
  · split
    · omega
    · omega

theorem sum_toNat (bs : List UInt8) (acc : UInt32) (h : acc.toNat + weight bs < 2 ^ 32) :
    (bs.foldl (fun sum b => sum + b.toUInt32) acc).toNat = acc.toNat + weight bs := by
  induction bs generalizing acc with
  | nil => rfl
  | cons b bs ih =>
    rw [weight_cons] at h ⊢
    have hb := b.toNat_lt
    have hacc : (acc + b.toUInt32).toNat = acc.toNat + b.toNat := by
      rw [UInt32.toNat_add, UInt8.toNat_toUInt32]
      omega
    rw [List.foldl_cons, ih _ (by omega), hacc]
    omega

theorem protoChecksum16_toNat {bs : List UInt8} (hpos : 0 < weight bs) (hlt : weight bs < 2 ^ 31) :
    (protoChecksum16 bs).toNat + ((weight bs - 1) % 65535 + 1) = 65535 := by
  have hsum := sum_toNat bs 0 (by rw [UInt32.toNat_zero]; omega)
  rw [UInt32.toNat_zero, Nat.zero_add] at hsum
  have hfold := foldCarry_toNat (bs.foldl (fun sum b => sum + b.toUInt32) 0)
    (by omega) (by omega)
  unfold protoChecksum16
  rw [UInt32.toNat_toUInt16, UInt32.toNat_not, hfold, hsum]
  have hsize : UInt32.size = 4294967296 := rfl
  omega

/-! ### Frames -/

/-- The sum a frame's checksum is taken of. -/
def frameWeight (op : UInt16) (p : List UInt8) : ℕ :=
  weight (encode 4 (8 + p.length)) + weight (encode 2 op.toNat) + weight p

/-- The bytes of a frame, field by field. -/
theorem frame_fields (op : UInt16) {p : List UInt8} (hp : p.length ≤ 4088) :
    frame op p = encode 4 (8 + p.length) ++ (encode 2 op.toNat ++
      (encode 2 (frameHdr op p).cksum.toNat ++ p)) := by
  rw [frame_eq op hp]
  unfold PktHdr.bytes
  rw [frameHdr_len op hp, List.append_assoc, List.append_assoc]
  rfl

theorem frameHdr_cksum (op : UInt16) {p : List UInt8} (hp : p.length ≤ 4088) :
    0 < frameWeight op p ∧
      (frameHdr op p).cksum.toNat + ((frameWeight op p - 1) % 65535 + 1) = 65535 := by
  have hlen : (8 + UInt32.ofNat p.length).toNat = 8 + p.length := frameHdr_len op hp
  have hzero : weight (encode 2 (0 : UInt16).toNat) = 0 := rfl
  have hw : weight ((PktHdr.mk (8 + UInt32.ofNat p.length) op 0).bytes ++ p) = frameWeight op p := by
    unfold PktHdr.bytes frameWeight
    rw [hlen, weight_append, weight_append, weight_append, hzero, Nat.add_zero]
  have hpos : 0 < weight (encode 4 (8 + p.length)) := by
    apply weight_pos
    rw [decode_encode (by omega)]
    omega
  have h4 := weight_le (encode 4 (8 + p.length))
  have h2 := weight_le (encode 2 op.toNat)
  have h0 := weight_le p
  rw [encode_length] at h4 h2
  have hfw : 0 < frameWeight op p := by
    unfold frameWeight
    omega
  refine ⟨hfw, ?_⟩
  rw [← hw]
  apply protoChecksum16_toNat
  · rw [hw]
    exact hfw
  · rw [hw]
    unfold frameWeight
    omega

/-- Frames of different sums closer than 65535 have different checksums. -/
theorem cksum_ne {op op' : UInt16} {p p' : List UInt8} (hp : p.length ≤ 4088)
    (hp' : p'.length ≤ 4088)
    (hw : frameWeight op p ≠ frameWeight op' p' ∧ frameWeight op p < frameWeight op' p' + 65535 ∧
      frameWeight op' p' < frameWeight op p + 65535) :
    (frameHdr op p).cksum ≠ (frameHdr op' p').cksum := by
  intro heq
  obtain ⟨hpos, hck⟩ := frameHdr_cksum op hp
  obtain ⟨hpos', hck'⟩ := frameHdr_cksum op' hp'
  rw [heq] at hck
  omega

theorem field_inj {a b : UInt16} (h : encode 2 a.toNat = encode 2 b.toNat) : a = b :=
  UInt16.toNat_inj.mp (encode_inj a.toNat_lt b.toNat_lt h)

/-- No frame, nor a frame with bytes after it, differs from a frame of at most
511 bytes in one byte. -/
theorem frame_not_oneOff {op op' : UInt16} {p p' rest : List UInt8} (hp : 8 + p.length ≤ 511)
    (hp' : p'.length ≤ 4088) : ¬ OneOff (frame op p) (frame op' p' ++ rest) := by
  intro h
  have hlen := h.length_eq
  rw [List.length_append, frame_length op (by omega), frame_length op' hp'] at hlen
  have hL : decode (encode 4 (8 + p.length)) = 8 + p.length := decode_encode (by omega)
  have hL' : decode (encode 4 (8 + p'.length)) = 8 + p'.length := decode_encode (by omega)
  rw [frame_fields op (by omega), frame_fields op' hp'] at h
  simp only [List.append_assoc] at h
  -- the changed byte is in the length, the opcode, the checksum or the payload
  rcases h.append (by rw [encode_length, encode_length]) with ⟨hone, htail⟩ | ⟨hsame, h⟩
  · obtain ⟨hop, htail⟩ := List.append_inj htail (by rw [encode_length, encode_length])
    obtain ⟨hck, rfl⟩ := List.append_inj htail (by rw [encode_length, encode_length])
    have hshort : p'.length < (p' ++ rest).length := by
      by_contra hge
      exact hone.ne (by rw [show (p' ++ rest).length = p'.length by omega])
    obtain ⟨hdown, hlittle⟩ := hone.smaller (encode_length 4 _) (by omega) (by omega)
    have hrest := weight_le rest
    rw [hL, hL'] at hlittle
    refine cksum_ne (by omega) hp' ?_ (field_inj hck)
    unfold frameWeight
    rw [hop, weight_append]
    omega
  · have hpl : p.length = p'.length := by
      rw [hsame, hL'] at hL
      omega
    obtain rfl : rest = [] := List.length_eq_zero_iff.mp (by omega)
    rw [List.append_nil] at h
    rcases h.append (by rw [encode_length, encode_length]) with ⟨hone, htail⟩ | ⟨hop, h⟩
    · obtain ⟨hck, rfl⟩ := List.append_inj htail (by rw [encode_length, encode_length])
      have hw := hone.weight
      refine cksum_ne (by omega) hp' ?_ (field_inj hck)
      unfold frameWeight
      omega
    · obtain rfl : op = op' := field_inj hop
      rcases h.append (by rw [encode_length, encode_length]) with ⟨hone, rfl⟩ | ⟨hck, h⟩
      · exact hone.ne rfl
      · have hw := h.weight
        refine cksum_ne (by omega) hp' ?_ (field_inj hck)
        unfold frameWeight
        rw [hpl]
        omega

/-- `proto_recv` does not accept a frame of at most 511 bytes with one byte
changed, whatever the transport does, and refuses it when nothing times out. -/
theorem protoRecv_one_byte_off (op : UInt16) (p bs : List UInt8) (hp : p.length ≤ 4088)
    (hlen : (frame op p).length ≤ 511) (hoff : OneOff (frame op p) bs) (c : Conn)
    (hin : c.input = bs) (cap : UInt32) :
    (∀ calls r, protoRecv calls c cap = some r → r.rc ≠ 0) ∧
      (c.SteadyIn → ∀ calls, 8 + cap.toNat ≤ calls →
        ∃ r, protoRecv calls c cap = some r ∧ r.rc = -1) := by
  rw [frame_length op hp] at hlen
  have hno : ∀ op' p' rest, ¬ (c.input = frame op' p' ++ rest ∧ p'.length ≤ 4088) := by
    rintro op' p' rest ⟨hframe, hp'⟩
    rw [← hin, hframe] at hoff
    exact frame_not_oneOff hlen hp' hoff
  constructor
  · intro calls r hr hrc
    obtain ⟨op', p', rest, hframe⟩ := protoRecv_sound hr hrc
    exact hno op' p' rest hframe
  · intro hs calls hc
    obtain ⟨r, hr, ht, _⟩ := protoRecv_took hs hc
    refine ⟨r, hr, ?_⟩
    cases ht with
    | packet op' _ _ hfit => exact absurd ⟨hfit.1, by have := hfit.2; omega⟩ (hno op' r.stored _)
    | failed hrc _ => exact hrc

/-- A `PLAY_CARD` of three bytes whose length field lost its last bit, read three
bytes at a time and then at an end of stream. -/
theorem protoRecv_one_byte_off_play :
    (protoRecv 1032 ⟨true, [0, 0, 0, 11, 1, 1, 255, 240, 2, 0, 0], fun _ => .ready 2, [],
      fun _ => .fatal⟩ 1024).map Recv.rc = some 0 ∧
    (protoRecv 1032 ⟨true, [0, 0, 0, 10, 1, 1, 255, 240, 2, 0, 0], fun _ => .ready 2, [],
      fun _ => .fatal⟩ 1024).map Recv.rc = some (-1) := by
  refine ⟨by decide +kernel, ?_⟩
  obtain ⟨r, hr, hrc⟩ := (protoRecv_one_byte_off opPlayCard [2, 0, 0]
    [0, 0, 0, 10, 1, 1, 255, 240, 2, 0, 0] (by decide) (by decide)
    ⟨[0, 0, 0], 11, 10, [1, 1, 255, 240, 2, 0, 0], by decide, by decide, rfl⟩
    ⟨true, [0, 0, 0, 10, 1, 1, 255, 240, 2, 0, 0], fun _ => .ready 2, [], fun _ => .fatal⟩
    rfl 1024).2 (fun _ => ⟨2, rfl⟩) 1032 (by decide)
  rw [hr, Option.map_some, hrc]

end MiniTcg.Wire
