import MiniTcg.Wire.Packet
import MiniTcg.Wire.Proto

/-!
# `proto_recv` inverts `proto_send`

On a connection without timeouts `proto_recv` takes one frame off the stream, and
accepts nothing but frames. Whatever the transport does, it stays inside the
caller's buffer and its own.
-/
namespace MiniTcg.Wire

/-! ### Frames -/

/-- The header of a frame. -/
def frameHdr (opcode : UInt16) (payload : List UInt8) : PktHdr where
  len := 8 + UInt32.ofNat payload.length
  opcode := opcode
  cksum := protoChecksum16
    ((PktHdr.mk (8 + UInt32.ofNat payload.length) opcode 0).bytes ++ payload)

theorem frameHdr_len (opcode : UInt16) {payload : List UInt8} (h : payload.length ≤ 4088) :
    (frameHdr opcode payload).len.toNat = 8 + payload.length := by
  have hlen : (UInt32.ofNat payload.length).toNat = payload.length :=
    UInt32.toNat_ofNat'.trans (Nat.mod_eq_of_lt (by omega))
  have height : (8 : UInt32).toNat = 8 := rfl
  unfold frameHdr
  rw [UInt32.toNat_add, hlen, height]
  omega

theorem frame_eq (opcode : UInt16) {payload : List UInt8} (h : payload.length ≤ 4088) :
    frame opcode payload = (frameHdr opcode payload).bytes ++ payload := by
  have hlen : (8 + UInt32.ofNat payload.length).toNat = 8 + payload.length :=
    frameHdr_len opcode h
  have htake : ∀ ck : UInt16,
      ((PktHdr.mk (8 + UInt32.ofNat payload.length) opcode ck).bytes ++ payload).take
          (8 + UInt32.ofNat payload.length).toNat =
        (PktHdr.mk (8 + UInt32.ofNat payload.length) opcode ck).bytes ++ payload := by
    intro ck
    apply List.take_of_length_le
    rw [hlen, List.length_append, PktHdr.bytes_length]
  unfold frame frameHdr
  simp only [htake]

theorem frame_length (opcode : UInt16) {payload : List UInt8} (h : payload.length ≤ 4088) :
    (frame opcode payload).length = 8 + payload.length := by
  rw [frame_eq opcode h, List.length_append, PktHdr.bytes_length]

/-- `proto_send` writes the frame and nothing else. -/
theorem protoSend_steady (calls : ℕ) {c : Conn} (hs : c.SteadyOut) (opcode : UInt16)
    {payload : List UInt8} (h : payload.length ≤ 4088) (hc : 8 + payload.length ≤ calls) :
    ∃ c', protoSend calls c opcode payload = some ⟨0, 8 + payload.length, c'⟩ ∧
      c'.output = c.output ++ frame opcode payload ∧ c'.SteadyOut := by
  have hlen : (8 + UInt32.ofNat payload.length).toNat = 8 + payload.length :=
    frameHdr_len opcode h
  have hfl := frame_length opcode h
  have hcalls : (frame opcode payload).length ≤ calls := by omega
  obtain ⟨c', hw, hout, hs'⟩ := connWriten_steady hs (frame opcode payload) (by omega) hcalls
  refine ⟨c', ?_, hout, hs'⟩
  unfold protoSend
  simp only [hlen, hw, hfl, if_true]
  rw [if_neg (by omega)]

/-! ### What one `proto_recv` takes off the stream -/

/-- The call took a packet that fits off the stream, or failed and none fits. -/
inductive Took (Fits : UInt16 → List UInt8 → List UInt8 → Prop) (r : Recv) : Prop
  | packet (op : UInt16) (rc : r.rc = 0) (out : r.out = some (op, UInt32.ofNat r.stored.length))
      (fits : Fits op r.stored r.conn.input)
  | failed (rc : r.rc = -1) (none : ∀ op p rest, ¬ Fits op p rest)

section Recv
variable {calls : ℕ} {c : Conn} {cap : UInt32} {h : PktHdr}

theorem sub_eight {n : UInt32} (h : 8 ≤ n.toNat) : (n - 8).toNat = n.toNat - 8 :=
  UInt32.toNat_sub_of_le n 8 (UInt32.le_iff_toNat_le.mpr h)

/-- The checksum test accepts exactly the header of the payload's frame. -/
theorem recvVerify_spec {p : List UInt8} (hlen : h.len.toNat = 8 + p.length) (c : Conn) :
    ∃ r, recvVerify h p c = some r ∧ r.conn = c ∧ r.stored = p ∧
      ((r.rc = 0 ∧ r.out = some (h.opcode, UInt32.ofNat p.length) ∧ p.length ≤ 4088 ∧
          h = frameHdr h.opcode p) ∨
        (r.rc = -1 ∧ ¬ (p.length ≤ 4088 ∧ h = frameHdr h.opcode p))) := by
  obtain ⟨len, op, ck⟩ := h
  simp only at hlen
  unfold recvVerify
  by_cases hbig : 4096 < len.toNat
  · rw [if_pos hbig]
    exact ⟨_, rfl, rfl, rfl, Or.inr ⟨rfl, fun hp => by omega⟩⟩
  · have hl : UInt32.ofNat p.length = len - 8 := by
      apply UInt32.toNat_inj.mp
      rw [sub_eight (by omega), UInt32.toNat_ofNat', Nat.mod_eq_of_lt (by omega)]
      omega
    have hl' : 8 + UInt32.ofNat p.length = len :=
      UInt32.toNat_inj.mp ((frameHdr_len op (by omega)).trans hlen.symm)
    have hhdr : PktHdr.mk len op ck = frameHdr op p ↔
        protoChecksum16 ((PktHdr.mk len op 0).bytes ++ p) = ck := by
      unfold frameHdr
      rw [hl', PktHdr.mk.injEq]
      exact ⟨fun hh => hh.2.2.symm, fun hh => ⟨rfl, rfl, hh.symm⟩⟩
    rw [if_neg hbig]
    by_cases hck : protoChecksum16 ((PktHdr.mk len op 0).bytes ++ p) = ck
    · simp only [hck, ne_eq, not_true_eq_false, if_false]
      exact ⟨_, rfl, rfl, rfl, Or.inl ⟨rfl, by rw [hl], by omega, hhdr.mpr hck⟩⟩
    · simp only [hck, ne_eq, not_false_eq_true, if_true]
      exact ⟨_, rfl, rfl, rfl, Or.inr ⟨rfl, fun hp => hck (hhdr.mp hp.2)⟩⟩

/-- A payload that fits behind this header in the stream. -/
def PayloadFits (c : Conn) (h : PktHdr) (cap : UInt32) (op : UInt16) (p rest : List UInt8) : Prop :=
  c.input = p ++ rest ∧ p.length ≤ min cap.toNat 4088 ∧ h = frameHdr op p

theorem PayloadFits.len {op : UInt16} {p rest : List UInt8} (hf : PayloadFits c h cap op p rest) :
    h.len.toNat = 8 + p.length ∧ h.opcode = op := by
  obtain ⟨_, hp, rfl⟩ := hf
  exact ⟨frameHdr_len op (by omega), rfl⟩

/-- The checksum test on the payload the header announces. -/
theorem recvVerify_took (c c' : Conn) {p : List UInt8} (hlen : h.len.toNat = 8 + p.length)
    (hcap : p.length ≤ cap.toNat) (hin : c.input = p ++ c'.input) :
    ∃ r, recvVerify h p c' = some r ∧ Took (PayloadFits c h cap) r ∧ r.conn = c' := by
  obtain ⟨r, hr, hconn, hst, hcase⟩ := recvVerify_spec hlen c'
  refine ⟨r, hr, ?_, hconn⟩
  rcases hcase with ⟨hrc, hout, hp, hh⟩ | ⟨hrc, hno⟩
  · refine .packet h.opcode hrc ?_ ⟨?_, ?_, ?_⟩
    · rw [hout, hst]
    · rw [hst, hconn, hin]
    · rw [hst]
      omega
    · rw [hst]
      exact hh
  · refine .failed hrc fun op q rest hf => hno ?_
    obtain ⟨hl, hop⟩ := hf.len
    have hq : q = p := by
      have happ := hf.1.symm.trans hin
      exact (List.append_inj happ (by omega)).1
    obtain ⟨_, hle, hhdr⟩ := hf
    rw [hq] at hle hhdr
    rw [hop]
    exact ⟨by omega, hhdr⟩

/-- A length below the header's or above the capacity is refused. -/
theorem recvPayload_refused (calls : ℕ) (c : Conn)
    (hbad : h.len.toNat < 8 ∨ 8 + cap.toNat < h.len.toNat) :
    ∃ r, recvPayload calls c h cap = some r ∧ Took (PayloadFits c h cap) r ∧ r.conn = c := by
  rw [recvPayload, if_pos hbad]
  refine ⟨_, rfl, .failed rfl fun op p rest hf => ?_, rfl⟩
  have hl := hf.len.1
  have hp := hf.2.1
  omega

/-- A packet without a payload is complete with its header. -/
theorem recvPayload_empty (calls : ℕ) (c : Conn) (hlen : h.len.toNat = 8) :
    ∃ r, recvPayload calls c h cap = some r ∧ Took (PayloadFits c h cap) r ∧ r.conn = c := by
  have hz : h.len - 8 = 0 := by
    apply UInt32.toNat_inj.mp
    rw [sub_eight (by omega), hlen]
    rfl
  rw [recvPayload, if_neg (by omega)]
  simp only [hz, if_true]
  exact recvVerify_took c c hlen (Nat.zero_le _) rfl

/-- What `proto_recv` does with a payload of the announced length. -/
theorem recvPayload_asks (calls : ℕ) (c : Conn) (hlow : 8 < h.len.toNat)
    (hhigh : h.len.toNat ≤ 8 + cap.toNat) :
    recvPayload calls c h cap =
      match connReadn calls c (h.len.toNat - 8) with
      | none => none
      | some (rc, payload, c) =>
        if rc ≠ (h.len.toNat - 8 : ℕ) then recvFail payload 0 c else recvVerify h payload c := by
  have hsub := sub_eight (n := h.len) (by omega)
  have hpos : h.len - 8 ≠ 0 := by
    intro hzero
    rw [hzero, UInt32.toNat_zero] at hsub
    omega
  rw [recvPayload, if_neg (by omega), ← hsub]
  exact if_neg hpos

theorem recvPayload_whole {c' : Conn} (hlow : 8 < h.len.toNat) (hhigh : h.len.toNat ≤ 8 + cap.toNat)
    (hle : h.len.toNat - 8 ≤ c.input.length) (hin : c'.input = c.input.drop (h.len.toNat - 8))
    (hread : connReadn calls c (h.len.toNat - 8) =
      some (((h.len.toNat - 8 : ℕ) : ℤ), c.input.take (h.len.toNat - 8), c')) :
    ∃ r, recvPayload calls c h cap = some r ∧ Took (PayloadFits c h cap) r ∧ r.conn = c' := by
  have htake : (c.input.take (h.len.toNat - 8)).length = h.len.toNat - 8 :=
    List.length_take_of_le hle
  rw [recvPayload_asks calls c hlow hhigh, hread]
  simp only [ne_eq, not_true_eq_false, if_false]
  exact recvVerify_took c c' (by omega) (by omega) (by rw [hin, List.take_append_drop])

theorem recvPayload_took (hs : c.SteadyIn) (hc : 8 + cap.toNat ≤ calls) (h : PktHdr) :
    ∃ r, recvPayload calls c h cap = some r ∧ Took (PayloadFits c h cap) r ∧ r.conn.SteadyIn := by
  by_cases hbad : h.len.toNat < 8 ∨ 8 + cap.toNat < h.len.toNat
  · obtain ⟨r, hr, ht, hconn⟩ := recvPayload_refused calls c hbad
    exact ⟨r, hr, ht, hconn ▸ hs⟩
  by_cases hz : h.len.toNat = 8
  · obtain ⟨r, hr, ht, hconn⟩ := recvPayload_empty calls c hz
    exact ⟨r, hr, ht, hconn ▸ hs⟩
  have hlow : 8 < h.len.toNat := by omega
  have hhigh : h.len.toNat ≤ 8 + cap.toNat := by omega
  by_cases hneg : c.tls = true ∧ 2 ^ 31 ≤ h.len.toNat - 8
  · -- `SSL_read` refuses the count
    have hlt := h.len.toNat_lt
    have hmod : 2 ^ 31 ≤ (h.len.toNat - 8) % 2 ^ 32 := by
      rw [Nat.mod_eq_of_lt (by omega)]
      exact hneg.2
    rw [recvPayload_asks calls c hlow hhigh, connReadn_refused hneg.1 hmod (by omega)]
    simp only
    rw [if_pos (by omega)]
    refine ⟨_, rfl, .failed rfl fun op p rest hf => ?_, hs⟩
    have hl := hf.len.1
    have hp := hf.2.1
    omega
  · obtain ⟨rc, c', hread, hrc, hin, _, hs'⟩ := connReadn_steady hs (h.len.toNat - 8)
      (fun ht => Nat.lt_of_not_le fun hb => hneg ⟨ht, hb⟩) (show h.len.toNat - 8 ≤ calls by omega)
    by_cases hshort : rc = ((h.len.toNat - 8 : ℕ) : ℤ)
    · rw [hshort] at hread
      obtain ⟨r, hr, ht, hconn⟩ := recvPayload_whole hlow hhigh (hrc.mp hshort) hin hread
      exact ⟨r, hr, ht, hconn ▸ hs'⟩
    · -- the stream ends inside the payload
      rw [recvPayload_asks calls c hlow hhigh, hread]
      simp only
      rw [if_pos hshort]
      refine ⟨_, rfl, .failed rfl fun op p rest hf => hshort (hrc.mpr ?_), hs'⟩
      have hl := hf.len.1
      rw [hf.1, List.length_append]
      omega

/-- A frame that fits at the head of the stream. -/
def FrameFits (c : Conn) (cap : UInt32) (op : UInt16) (p rest : List UInt8) : Prop :=
  c.input = frame op p ++ rest ∧ p.length ≤ min cap.toNat 4088

/-- What fits behind the header in the stream fits with it. -/
theorem Took.frame {c' : Conn} {r : Recv} (h8 : 8 ≤ c.input.length)
    (hin : c'.input = c.input.drop 8)
    (ht : Took (PayloadFits c' (PktHdr.ofBytes (c.input.take 8)) cap) r) :
    Took (FrameFits c cap) r := by
  have hlen : (c.input.take 8).length = 8 := List.length_take_of_le h8
  have hsplit : c.input = c.input.take 8 ++ c'.input := by rw [hin, List.take_append_drop]
  cases ht with
  | packet op hrc hout hfit =>
    obtain ⟨hpay, hp, hhdr⟩ := hfit
    refine .packet op hrc hout ⟨?_, hp⟩
    rw [frame_eq op (by omega), ← hhdr, PktHdr.bytes_ofBytes hlen, List.append_assoc, ← hpay]
    exact hsplit
  | failed hrc hno =>
    refine .failed hrc fun op p rest hf => hno op p rest ?_
    obtain ⟨hframe, hp⟩ := hf
    rw [frame_eq op (by omega), List.append_assoc] at hframe
    obtain ⟨hhead, htail⟩ := List.append_inj (hsplit.symm.trans hframe)
      (by rw [hlen, PktHdr.bytes_length])
    refine ⟨htail, hp, ?_⟩
    rw [hhead]
    exact PktHdr.ofBytes_bytes _

theorem protoRecv_took (hs : c.SteadyIn) (hc : 8 + cap.toNat ≤ calls) :
    ∃ r, protoRecv calls c cap = some r ∧ Took (FrameFits c cap) r ∧ r.conn.SteadyIn := by
  have hcalls : 8 ≤ calls := by omega
  obtain ⟨rc, c', hread, hrc, hin, _, hs'⟩ := connReadn_steady hs 8 (fun _ => by omega) hcalls
  unfold protoRecv
  rw [hread]
  simp only
  by_cases hshort : rc = 8
  · obtain ⟨r, hr, ht, hsr⟩ := recvPayload_took hs' hc (PktHdr.ofBytes (c.input.take 8))
    rw [if_neg (not_not_intro hshort)]
    exact ⟨r, hr, ht.frame (hrc.mp hshort) hin, hsr⟩
  · rw [if_pos hshort]
    refine ⟨_, rfl, .failed rfl fun op p rest hf => hshort (hrc.mpr ?_), hs'⟩
    rw [hf.1, List.length_append, frame_length op (by have := hf.2; omega)]
    omega

/-! ### Bounds, whatever the transport does -/

theorem recvVerify_bounds {p : List UInt8} {r : Recv} (hlen : h.len.toNat = 8 + p.length)
    (hr : recvVerify h p c = some r) : r.stored = p ∧ r.copied ≤ 4096 := by
  unfold recvVerify at hr
  have hbuf : ({ h with cksum := 0 }.bytes ++ p).length = 8 + p.length := by
    rw [List.length_append, PktHdr.bytes_length]
  split at hr
  · cases hr
    exact ⟨rfl, Nat.zero_le _⟩
  · simp only at hr
    split at hr
    · cases hr
      exact ⟨rfl, by simp only [hbuf]; omega⟩
    · cases hr
      exact ⟨rfl, by simp only [hbuf]; omega⟩

/-- `proto_recv` stores at most `cap` bytes for the caller and 4096 of its own. -/
theorem protoRecv_bounds {r : Recv} (hr : protoRecv calls c cap = some r) :
    r.stored.length ≤ cap.toNat ∧ r.copied ≤ 4096 := by
  unfold protoRecv at hr
  split at hr
  · cases hr
  · split at hr
    · cases hr
      exact ⟨Nat.zero_le _, Nat.zero_le _⟩
    · unfold recvPayload at hr
      split at hr
      · cases hr
        exact ⟨Nat.zero_le _, Nat.zero_le _⟩
      · rename_i hdr _ _ _ hok
        have hsub := sub_eight (n := (PktHdr.ofBytes hdr).len) (by omega)
        simp only at hr
        split at hr
        · rename_i hz
          obtain ⟨hst, hcopied⟩ := recvVerify_bounds (p := []) (by
            rw [hz, UInt32.toNat_zero] at hsub
            rw [List.length_nil]
            omega) hr
          exact ⟨by rw [hst]; exact Nat.zero_le _, hcopied⟩
        · split at hr
          · cases hr
          · rename_i hread
            obtain ⟨hle, hfull⟩ := connReadn_length hread
            split at hr
            · cases hr
              exact ⟨by simp only at hle ⊢; omega, Nat.zero_le _⟩
            · rename_i hrc
              have hlen := hfull (not_not.mp hrc)
              simp only at hlen
              obtain ⟨hst, hcopied⟩ := recvVerify_bounds (by omega) hr
              exact ⟨by rw [hst]; omega, hcopied⟩

theorem recvVerify_sound {p : List UInt8} {r : Recv} (hlen : h.len.toNat = 8 + p.length)
    (hr : recvVerify h p c = some r) (hrc : r.rc = 0) :
    p.length ≤ 4088 ∧ h = frameHdr h.opcode p := by
  obtain ⟨r', hr', _, _, hcase⟩ := recvVerify_spec hlen c
  obtain rfl := Option.some.inj (hr'.symm.trans hr)
  rcases hcase with ⟨_, _, hp, hh⟩ | ⟨hfail, _⟩
  · exact ⟨hp, hh⟩
  · omega

theorem recvPayload_sound {r : Recv} (hr : recvPayload calls c h cap = some r) (hrc : r.rc = 0) :
    ∃ p rest, c.input = p ++ rest ∧ p.length ≤ 4088 ∧ h = frameHdr h.opcode p := by
  unfold recvPayload at hr
  split at hr
  · cases hr
    cases hrc
  · rename_i hok
    have hsub := sub_eight (n := h.len) (by omega)
    simp only at hr
    split at hr
    · rename_i hz
      rw [hz, UInt32.toNat_zero] at hsub
      have hlen : h.len.toNat = 8 + ([] : List UInt8).length := by
        rw [List.length_nil]
        omega
      exact ⟨[], c.input, rfl, recvVerify_sound hlen hr hrc⟩
    · split at hr
      · cases hr
      · rename_i rc p c' hread
        split at hr
        · cases hr
          cases hrc
        · rename_i hfull
          have hpl : p.length = (h.len - 8).toNat := (connReadn_length hread).2 (not_not.mp hfull)
          have hlen : h.len.toNat = 8 + p.length := by omega
          exact ⟨p, c'.input, connReadn_input hread, recvVerify_sound hlen hr hrc⟩

/-- Nothing but a frame at the head of the stream is accepted. -/
theorem protoRecv_sound {r : Recv} (hr : protoRecv calls c cap = some r) (hrc : r.rc = 0) :
    ∃ op p rest, c.input = frame op p ++ rest ∧ p.length ≤ 4088 := by
  unfold protoRecv at hr
  split at hr
  · cases hr
  · rename_i rc hdr c' hread
    split at hr
    · cases hr
      cases hrc
    · rename_i hfull
      have hlen : hdr.length = 8 := (connReadn_length hread).2 (not_not.mp hfull)
      obtain ⟨p, rest, hin, hp, hh⟩ := recvPayload_sound hr hrc
      have hall : c.input = hdr ++ c'.input := connReadn_input hread
      refine ⟨(PktHdr.ofBytes hdr).opcode, p, rest, ?_, hp⟩
      rw [frame_eq _ hp, ← hh, PktHdr.bytes_ofBytes hlen, List.append_assoc, ← hin]
      exact hall

end Recv

/-! ### Streams of packets -/

/-- The packet a caller reads after a call that returned 0: `payload_len_out`
bytes of its buffer. -/
def Recv.packet? (r : Recv) : Option Packet :=
  if r.rc = 0 then r.out.map fun o => ⟨o.1, r.stored.take o.2.toNat⟩ else none

/-- Packets sent back to back, with the return codes. -/
def sendAll (calls : ℕ) : List Packet → Conn → Option (List ℤ × Conn)
  | [], c => some ([], c)
  | p :: ps, c =>
    match protoSend calls c p.op p.payload with
    | none => none
    | some s => (sendAll calls ps s.conn).map fun r => (s.rc :: r.1, r.2)

/-- `proto_recv` until it fails, at most so many times. -/
def recvAll (calls : ℕ) (cap : UInt32) : ℕ → Conn → Option (List Packet)
  | 0, _ => none
  | rounds + 1, c =>
    match protoRecv calls c cap with
    | none => none
    | some r =>
      match r.packet? with
      | none => some []
      | some p => (recvAll calls cap rounds r.conn).map (p :: ·)

/-- The frame of a packet. -/
def Packet.frame (p : Packet) : List UInt8 := Wire.frame p.op p.payload

section Stream
variable {calls : ℕ} {cap : UInt32} {c : Conn}

/-- A stream starts with at most one frame. -/
theorem frame_inj {op op' : UInt16} {p p' rest rest' : List UInt8} (hp : p.length ≤ 4088)
    (hp' : p'.length ≤ 4088) (h : frame op p ++ rest = frame op' p' ++ rest') :
    op = op' ∧ p = p' ∧ rest = rest' := by
  rw [frame_eq op hp, frame_eq op' hp', List.append_assoc, List.append_assoc] at h
  obtain ⟨hhdr, htail⟩ := List.append_inj h (by rw [PktHdr.bytes_length, PktHdr.bytes_length])
  have hsame : frameHdr op p = frameHdr op' p' := by
    rw [← PktHdr.ofBytes_bytes (frameHdr op p), hhdr, PktHdr.ofBytes_bytes]
  have hlen := congrArg (fun h : PktHdr => h.len.toNat) hsame
  simp only [frameHdr_len op hp, frameHdr_len op' hp'] at hlen
  obtain ⟨h1, h2⟩ := List.append_inj htail (by omega)
  exact ⟨congrArg PktHdr.opcode hsame, h1, h2⟩

/-- The whole effect of one `proto_recv` on a connection without timeouts. -/
theorem protoRecv_exact (hs : c.SteadyIn) (hc : 8 + cap.toNat ≤ calls) :
    ∃ r, protoRecv calls c cap = some r ∧ r.conn.SteadyIn ∧
      ((r.rc = 0 ∧ ∃ q, r.packet? = some q) ∨ (r.rc = -1 ∧ r.packet? = none)) ∧
      ∀ op p rest, (r.packet? = some ⟨op, p⟩ ∧ r.conn.input = rest) ↔
        (c.input = frame op p ++ rest ∧ p.length ≤ min cap.toNat 4088) := by
  obtain ⟨r, hr, ht, hsr⟩ := protoRecv_took hs hc
  refine ⟨r, hr, hsr, ?_⟩
  cases ht with
  | packet op₀ hrc hout hfit =>
    obtain ⟨hin, hle⟩ := hfit
    have hlen : (UInt32.ofNat r.stored.length).toNat = r.stored.length :=
      UInt32.toNat_ofNat'.trans (Nat.mod_eq_of_lt (by omega))
    have hp : r.packet? = some ⟨op₀, r.stored⟩ := by
      unfold Recv.packet?
      rw [if_pos hrc, hout, Option.map_some, hlen, List.take_length]
    refine ⟨Or.inl ⟨hrc, _, hp⟩, fun op p rest => ⟨?_, ?_⟩⟩
    · rintro ⟨hpkt, rfl⟩
      obtain ⟨rfl, rfl⟩ := Packet.mk.inj (Option.some.inj (hp.symm.trans hpkt))
      exact ⟨hin, hle⟩
    · rintro ⟨hin', hle'⟩
      obtain ⟨rfl, rfl, rfl⟩ := frame_inj (by omega) (by omega) (hin'.symm.trans hin)
      exact ⟨hp, rfl⟩
  | failed hrc hno =>
    have hp : r.packet? = none := if_neg (by omega)
    refine ⟨Or.inr ⟨hrc, hp⟩, fun op p rest => iff_of_false ?_ fun hf => hno op p rest hf⟩
    rintro ⟨hpkt, _⟩
    rw [hp] at hpkt
    cases hpkt

theorem sendAll_steady {ps : List Packet} (hs : c.SteadyOut) (hc : 4096 ≤ calls)
    (hps : ∀ p ∈ ps, p.payload.length ≤ 4088) :
    ∃ rcs c', sendAll calls ps c = some (rcs, c') ∧ (∀ rc ∈ rcs, rc = 0) ∧
      c'.output = c.output ++ ps.flatMap Packet.frame := by
  induction ps generalizing c with
  | nil => exact ⟨[], c, rfl, fun _ h => absurd h List.not_mem_nil, (List.append_nil _).symm⟩
  | cons p ps ih =>
    have hp := hps p List.mem_cons_self
    obtain ⟨c₁, hsend, hout, hs₁⟩ := protoSend_steady calls hs p.op hp (by omega)
    obtain ⟨rcs, c', hall, hzero, hout'⟩ := ih hs₁ fun q hq => hps q (List.mem_cons_of_mem _ hq)
    refine ⟨0 :: rcs, c', ?_, ?_, ?_⟩
    · simp only [sendAll, hsend, hall, Option.map_some]
    · intro rc hrc
      rcases List.mem_cons.mp hrc with rfl | hrc
      · rfl
      · exact hzero rc hrc
    · rw [hout', hout, List.flatMap_cons, List.append_assoc]
      rfl

theorem recvAll_steady {ps : List Packet} (hs : c.SteadyIn) (hc : 8 + cap.toNat ≤ calls)
    (hps : ∀ p ∈ ps, p.payload.length ≤ min cap.toNat 4088)
    (hin : c.input = ps.flatMap Packet.frame) :
    recvAll calls cap (ps.length + 1) c = some ps := by
  induction ps generalizing c with
  | nil =>
    obtain ⟨r, hr, _, _, hiff⟩ := protoRecv_exact hs hc
    have hnone : r.packet? = none := by
      cases hp : r.packet? with
      | none => rfl
      | some p =>
        obtain ⟨hf, hle⟩ := (hiff p.op p.payload _).mp ⟨hp, rfl⟩
        have hlen := congrArg List.length (hin.symm.trans hf)
        rw [List.flatMap_nil, List.length_append, frame_length p.op (by omega),
          List.length_nil] at hlen
        omega
    simp only [recvAll, hr, hnone]
  | cons p ps ih =>
    obtain ⟨r, hr, hsr, _, hiff⟩ := protoRecv_exact hs hc
    obtain ⟨hpkt, hrest⟩ := (hiff p.op p.payload (ps.flatMap Packet.frame)).mpr
      ⟨hin, hps p List.mem_cons_self⟩
    have hall := ih hsr (fun q hq => hps q (List.mem_cons_of_mem _ hq)) hrest
    rw [List.length_cons, recvAll, hr]
    simp only [hpkt, hall, Option.map_some]

end Stream

/-- `proto_recv` accepts exactly the frames `proto_send` writes, with payloads of
at most `cap` and 4088 bytes, and leaves what follows them; on any other stream
it returns `-1` and stays inside its buffers; and a list of packets sent back to
back is received as it was sent, however writes and reads are split. -/
theorem proto_codec (calls : ℕ) (cap : UInt32) (hc : 4096 + cap.toNat ≤ calls) :
    (∀ c : Conn, c.SteadyIn → ∃ r, protoRecv calls c cap = some r ∧
      (∀ op p rest, (r.rc = 0 ∧ r.packet? = some ⟨op, p⟩ ∧ r.conn.input = rest) ↔
        (c.input = frame op p ++ rest ∧ p.length ≤ min cap.toNat 4088)) ∧
      ((¬ ∃ op p rest, c.input = frame op p ++ rest ∧ p.length ≤ min cap.toNat 4088) →
        r.rc = -1 ∧ r.stored.length ≤ cap.toNat ∧ r.copied ≤ 4096)) ∧
    (∀ (c : Conn) (op : UInt16) (p : List UInt8), c.SteadyOut → p.length ≤ 4088 →
      ∃ s, protoSend calls c op p = some s ∧ s.rc = 0 ∧ s.conn.output = c.output ++ frame op p) ∧
    ∀ (ps : List Packet) (src dst : Conn), src.SteadyOut → src.output = [] → dst.SteadyIn →
      (∀ p ∈ ps, p.payload.length ≤ min cap.toNat 4088) →
      ∃ rcs c', sendAll calls ps src = some (rcs, c') ∧ (∀ rc ∈ rcs, rc = 0) ∧
        (dst.input = c'.output → recvAll calls cap (ps.length + 1) dst = some ps) := by
  refine ⟨fun c hs => ?_, fun c op p hs hp => ?_, fun ps src dst hsrc hempty hdst hps => ?_⟩
  · have hcalls : 8 + cap.toNat ≤ calls := by omega
    obtain ⟨r, hr, _, hrc, hiff⟩ := protoRecv_exact hs hcalls
    rcases hrc with ⟨hz, q, hq⟩ | ⟨hfail, hnone⟩
    · refine ⟨r, hr, fun op p rest => ?_, fun hno => ?_⟩
      · rw [← hiff op p rest]
        exact ⟨fun hh => hh.2, fun hh => ⟨hz, hh⟩⟩
      · exact absurd ⟨_, _, _, (hiff q.op q.payload _).mp ⟨hq, rfl⟩⟩ hno
    · refine ⟨r, hr, fun op p rest => ?_, fun _ => ⟨hfail, protoRecv_bounds hr⟩⟩
      rw [← hiff op p rest, hnone]
      exact ⟨fun hh => hh.2, fun hh => absurd hh.1 nofun⟩
  · obtain ⟨c', hsend, hout, _⟩ := protoSend_steady calls hs op hp (by omega)
    exact ⟨_, hsend, rfl, hout⟩
  · have hcalls : 4096 ≤ calls := by omega
    obtain ⟨rcs, c', hall, hzero, hout⟩ := sendAll_steady hsrc hcalls
      fun p hp => (hps p hp).trans (Nat.min_le_right _ _)
    refine ⟨rcs, c', hall, hzero, fun hin => ?_⟩
    rw [hout, hempty, List.nil_append] at hin
    exact recvAll_steady hdst (by omega) hps hin

/-- A `PING` and a one-byte `PLAY_CARD`, written two bytes at a time over TLS and
read three bytes at a time. -/
theorem proto_codec_two :
    recvAll 5120 1024 3
        ⟨false, [0, 0, 0, 8, 0, 2, 255, 245, 0, 0, 0, 9, 1, 1, 255, 242, 2], fun _ => .ready 2, [],
          fun _ => .fatal⟩ = some [⟨opPing, []⟩, ⟨opPlayCard, [2]⟩] := by
  obtain ⟨rcs, c', hall, _, hrecv⟩ := (proto_codec 5120 1024 (by decide)).2.2 [⟨opPing, []⟩, ⟨opPlayCard, [2]⟩]
    ⟨true, [], fun _ => .fatal, [], fun _ => .ready 1⟩
    ⟨false, [0, 0, 0, 8, 0, 2, 255, 245, 0, 0, 0, 9, 1, 1, 255, 242, 2], fun _ => .ready 2, [],
      fun _ => .fatal⟩ (fun _ => ⟨1, rfl⟩) rfl (fun _ => ⟨2, rfl⟩) (by decide)
  have hout : (sendAll 5120 [⟨opPing, []⟩, ⟨opPlayCard, [2]⟩]
      ⟨true, [], fun _ => .fatal, [], fun _ => .ready 1⟩).map (fun r => r.2.output) =
        some [0, 0, 0, 8, 0, 2, 255, 245, 0, 0, 0, 9, 1, 1, 255, 242, 2] := by decide +kernel
  rw [hall] at hout
  exact hrecv (Option.some.inj hout).symm

end MiniTcg.Wire
