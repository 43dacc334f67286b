import MiniTcg.Wire.Calls
import MiniTcg.Wire.Codec

/-!
# The size guard of `proto_send`

`proto_send` compares `8 + payload_len` with its buffer as a 32-bit sum and copies
`payload_len` bytes. For the eight largest lengths the sum wraps around, passes
the guard, and the copy overruns the buffer; for all others the packet is written
whole or not at all.
-/
namespace MiniTcg.Wire

/-- The transport does not fail: no call ends a loop, and there is no bound on what
the calls move. -/
structure Unfailing (tls : Bool) (o : ℕ → Outcome) : Prop where
  goes : ∀ i, (o i).ends tls = false
  unbounded : ∀ n, ∃ i, n ≤ offered o i

/-- `proto_recv` decodes the bytes to this packet, over every transport that does
not fail and with every capacity that is large enough. -/
def Decodes (bs : List UInt8) (op : UInt16) (p : List UInt8) : Prop :=
  ∀ (cap : UInt32) (c : Conn) (rest : List UInt8), p.length ≤ cap.toNat →
    Unfailing c.tls c.reads → c.input = bs ++ rest →
    ∃ calls r, protoRecv calls c cap = some r ∧ r.rc = 0 ∧ r.packet? = some ⟨op, p⟩ ∧
      r.conn.input = rest

/-- `proto_send` fails without writing a byte, or writes `8 + payload_len` bytes
that decode to what was sent, and stays inside `stackbuf`. -/
def AllOrNothing (c : Conn) (op : UInt16) (p : List UInt8) : Prop :=
  ∃ calls s, protoSend calls c op p = some s ∧ s.copied ≤ 4096 ∧
    ((s.rc = -1 ∧ s.conn.output = c.output) ∨
      (s.rc = 0 ∧ ∃ bs, s.conn.output = c.output ++ bs ∧ bs.length = 8 + p.length ∧
        Decodes bs op p))

/-! ### Transports that do not fail -/

section Unfailing
variable {tls : Bool} {o : ℕ → Outcome}

theorem Unfailing.moves (h : Unfailing tls o) (n : ℕ) : Moves tls o n := by
  obtain ⟨i, hi⟩ := h.unbounded n
  exact ⟨i, hi, fun j _ => h.goes j⟩

theorem Unfailing.shift (h : Unfailing tls o) (i : ℕ) : Unfailing tls (fun j => o (i + j)) := by
  refine ⟨fun j => h.goes (i + j), fun n => ?_⟩
  obtain ⟨m, hm⟩ := h.unbounded (offered o i + n)
  have hle : offered o m ≤ offered o (i + m) := offered_mono (Nat.le_add_left m i)
  rw [offered_shift] at hle
  exact ⟨m, by omega⟩

theorem unfailing_of_ready (h : ∀ i, ∃ k, o i = .ready k) : Unfailing tls o := by
  refine ⟨fun i => ?_, fun n => ⟨n, ?_⟩⟩
  · obtain ⟨k, hk⟩ := h i
    rw [hk]
    rfl
  · induction n with
    | zero => exact Nat.zero_le _
    | succ n ih =>
      obtain ⟨k, hk⟩ := h n
      have hbytes : (o n).bytes = k + 1 := by rw [hk]; rfl
      rw [offered]
      omega

/-- `conn_readn` with any number of calls from some number on. -/
theorem connReadn_unfailing {c : Conn} {n : ℕ} {bs rest : List UInt8}
    (h : Unfailing c.tls c.reads) (hr : n < 2 ^ 31) (hlen : bs.length = n)
    (hin : c.input = bs ++ rest) :
    ∃ m c', (∀ calls, m ≤ calls → connReadn calls c n = some ((n : ℤ), bs, c')) ∧
      c'.input = rest ∧ Unfailing c'.tls c'.reads := by
  have hle : n ≤ c.input.length := by
    rw [hin, List.length_append]
    omega
  have htake : c.input.take n = bs := by rw [hin, List.take_left' hlen]
  have hdrop : c.input.drop n = rest := by rw [hin, List.drop_left' hlen]
  obtain ⟨m, i, hrun⟩ := connReadn_moves (fun _ => hr) (h.moves n) hle
  rw [htake, hdrop] at hrun
  refine ⟨m, { c with reads := fun j => c.reads (i + j), input := rest }, fun calls hcalls => ?_, rfl,
    h.shift i⟩
  have hmono := connReadn_mono hrun (calls - m)
  rw [Nat.add_sub_cancel' hcalls] at hmono
  exact hmono

end Unfailing

/-! ### A frame is decoded -/

section Decode
variable {op : UInt16} {p : List UInt8}

theorem recvVerify_frame (op : UInt16) (hp : p.length ≤ 4088) (c : Conn) :
    ∃ r, recvVerify (frameHdr op p) p c = some r ∧ r.rc = 0 ∧ r.packet? = some ⟨op, p⟩ ∧
      r.conn = c := by
  obtain ⟨r, hr, hconn, hst, hcase⟩ := recvVerify_spec (frameHdr_len op hp) c
  refine ⟨r, hr, ?_⟩
  rcases hcase with ⟨hrc, hout, _, _⟩ | ⟨_, hno⟩
  · refine ⟨hrc, ?_, hconn⟩
    have hlen : (UInt32.ofNat p.length).toNat = p.length :=
      UInt32.toNat_ofNat'.trans (Nat.mod_eq_of_lt (by omega))
    unfold Recv.packet?
    rw [if_pos hrc, hout, Option.map_some, hlen, hst, List.take_length]
    rfl
  · exact absurd ⟨hp, rfl⟩ hno

theorem recvPayload_frame {c : Conn} {cap : UInt32} {rest : List UInt8} (hp : p.length ≤ 4088)
    (hcap : p.length ≤ cap.toNat) (hs : Unfailing c.tls c.reads) (hin : c.input = p ++ rest) :
    ∃ m r, (∀ calls, m ≤ calls → recvPayload calls c (frameHdr op p) cap = some r) ∧ r.rc = 0 ∧
      r.packet? = some ⟨op, p⟩ ∧ r.conn.input = rest := by
  have hlen := frameHdr_len op hp
  have hsub : ((frameHdr op p).len - 8).toNat = p.length := by
    rw [sub_eight (by omega)]
    omega
  have hfits : ¬ ((frameHdr op p).len.toNat < 8 ∨ 8 + cap.toNat < (frameHdr op p).len.toNat) := by
    omega
  by_cases hz : (frameHdr op p).len - 8 = 0
  · have hnil : p = [] := by
      rw [hz, UInt32.toNat_zero] at hsub
      exact List.length_eq_zero_iff.mp hsub.symm
    subst hnil
    obtain ⟨r, hr, hrc, hpkt, hconn⟩ := recvVerify_frame op hp c
    refine ⟨0, r, fun calls _ => ?_, hrc, hpkt, ?_⟩
    · unfold recvPayload
      rw [if_neg hfits]
      simp only [hz, if_true]
      exact hr
    · rw [hconn, hin, List.nil_append]
  · obtain ⟨m, c', hread, hrest, _⟩ := connReadn_unfailing hs (by omega) rfl hin
    obtain ⟨r, hr, hrc, hpkt, hconn⟩ := recvVerify_frame op hp c'
    refine ⟨m, r, fun calls hcalls => ?_, hrc, hpkt, ?_⟩
    · unfold recvPayload
      rw [if_neg hfits]
      simp only [if_neg hz, hsub, hread calls hcalls, ne_eq, not_true_eq_false, if_false]
      exact hr
    · rw [hconn, hrest]

theorem frame_decodes (op : UInt16) (hp : p.length ≤ 4088) : Decodes (frame op p) op p := by
  intro cap c rest hcap hs hin
  rw [frame_eq op hp, List.append_assoc] at hin
  obtain ⟨m, c', hhdr, hrest, hs'⟩ := connReadn_unfailing (n := 8) hs (by decide)
    (PktHdr.bytes_length _) hin
  obtain ⟨m', r, hpay, hrc, hpkt, hconn⟩ := recvPayload_frame hp hcap hs' hrest
  refine ⟨m + m', r, ?_, hrc, hpkt, hconn⟩
  unfold protoRecv
  rw [hhdr (m + m') (Nat.le_add_right _ _)]
  simp only [PktHdr.ofBytes_bytes]
  exact hpay (m + m') (Nat.le_add_left _ _)

end Decode

/-! ### The guard -/

section Guard
variable {c : Conn} {op : UInt16} {p : List UInt8}

/-- `total_len`, with the wrap-around of the 32-bit sum. -/
theorem totalLen_toNat (p : List UInt8) :
    (8 + UInt32.ofNat p.length).toNat = (8 + p.length) % 2 ^ 32 := by
  have height : (8 : UInt32).toNat = 8 := rfl
  rw [UInt32.toNat_add, UInt32.toNat_ofNat', height]
  omega

/-- A length whose sum wraps around passes the guard, and the copy overruns. -/
theorem protoSend_wrapped (hwrap : 2 ^ 32 - 8 ≤ p.length) (hp : p.length < 2 ^ 32) {calls : ℕ}
    {s : Sent} (h : protoSend calls c op p = some s) : s.copied = 8 + p.length := by
  have hguard : ¬ 4096 < (8 + UInt32.ofNat p.length).toNat := by
    rw [totalLen_toNat]
    omega
  unfold protoSend at h
  rw [if_neg hguard] at h
  cases hw : connWriten calls c (frame op p) with
  | none =>
    rw [hw] at h
    cases h
  | some r =>
    rw [hw] at h
    cases h
    rfl

theorem wrapped_overruns (hlen : p.length = 2 ^ 32 - 8) : ¬ AllOrNothing c op p := by
  rintro ⟨calls, s, hsend, hcopied, _⟩
  have hover := protoSend_wrapped (by omega) (by omega) hsend
  omega

/-- At the first such length the sum is 0, and nothing is written. -/
theorem protoSend_wrapped_zero (c : Conn) (op : UInt16) (hlen : p.length = 2 ^ 32 - 8) :
    protoSend 0 c op p = some ⟨0, 2 ^ 32, c⟩ := by
  have htotal : (8 + UInt32.ofNat p.length).toNat = 0 := by
    rw [totalLen_toNat]
    omega
  have hcopied : 8 + p.length = 2 ^ 32 := by omega
  have hframe : frame op p = [] := by
    unfold frame
    simp only [htotal, List.take_zero]
  have hwrite : connWriten 0 c [] = some (0, c) := by
    unfold connWriten writen
    split <;> exact drain_done rfl
  unfold protoSend
  simp only [htotal, hframe, hwrite, hcopied]
  rfl

/-- Too long for the buffer, and refused. -/
theorem protoSend_refused (hbig : 4088 < p.length) (hp : p.length < 2 ^ 32 - 8) (calls : ℕ) :
    protoSend calls c op p = some ⟨-1, 0, c⟩ := by
  have hguard : 4096 < (8 + UInt32.ofNat p.length).toNat := by
    rw [totalLen_toNat, Nat.mod_eq_of_lt (by omega)]
    omega
  unfold protoSend
  rw [if_pos hguard]

theorem protoSend_frame (hs : Unfailing c.tls c.writes) (op : UInt16) (hp : p.length ≤ 4088) :
    ∃ calls c', protoSend calls c op p = some ⟨0, 8 + p.length, c'⟩ ∧
      c'.output = c.output ++ frame op p := by
  have hlen := frame_length op hp
  have htotal : (8 + UInt32.ofNat p.length).toNat = 8 + p.length := frameHdr_len op hp
  have hshort : c.tls = true → (frame op p).length < 2 ^ 31 := fun _ => by omega
  obtain ⟨calls, c', hw, hout⟩ := connWriten_moves hshort (hs.moves _)
  refine ⟨calls, c', ?_, hout⟩
  unfold protoSend
  simp only [htotal, hw, hlen, if_true]
  rw [if_neg (by omega)]

end Guard

/-- `proto_send` is all or nothing exactly for the lengths whose sum with the header
does not wrap around. -/
theorem all_or_nothing_iff {c : Conn} (hs : Unfailing c.tls c.writes) (op : UInt16) {p : List UInt8}
    (hp : p.length < 2 ^ 32) : AllOrNothing c op p ↔ p.length < 2 ^ 32 - 8 := by
  constructor
  · rintro ⟨calls, s, hsend, hcopied, _⟩
    by_contra hwrap
    have hover := protoSend_wrapped (Nat.le_of_not_lt hwrap) hp hsend
    omega
  · intro hlt
    by_cases hfits : p.length ≤ 4088
    · obtain ⟨calls, c', hsend, hout⟩ := protoSend_frame hs op hfits
      refine ⟨calls, _, hsend, ?_, Or.inr ⟨rfl, frame op p, hout, frame_length op hfits, ?_⟩⟩
      · show 8 + p.length ≤ 4096
        omega
      · exact frame_decodes op hfits
    · have hsend : protoSend 0 c op p = some ⟨-1, 0, c⟩ :=
        protoSend_refused (Nat.lt_of_not_le hfits) hlt 0
      exact ⟨0, _, hsend, Nat.zero_le _, Or.inl ⟨rfl, rfl⟩⟩

/-- A one-byte payload over TLS, written a byte at a time. -/
theorem all_or_nothing_play :
    AllOrNothing ⟨true, [], fun _ => .fatal, [], fun _ => .ready 0⟩ opPlayCard [2] := by
  have hready : Unfailing true fun _ => Outcome.ready 0 := unfailing_of_ready fun _ => ⟨0, rfl⟩
  exact (all_or_nothing_iff (c := ⟨true, [], fun _ => .fatal, [], fun _ => .ready 0⟩) hready opPlayCard
    (by decide)).mpr (by decide)

/-- The sum of the smallest length that wraps around is 0: `proto_send` copies 2^32
bytes, writes none and returns 0. -/
theorem all_or_nothing_wraps :
    ¬ AllOrNothing ⟨true, [], fun _ => .fatal, [], fun _ => .ready 0⟩ opPlayCard
        (List.replicate (2 ^ 32 - 8) 0) ∧
      ∃ s, protoSend 0 ⟨true, [], fun _ => .fatal, [], fun _ => .ready 0⟩ opPlayCard
          (List.replicate (2 ^ 32 - 8) 0) = some s ∧
        s.rc = 0 ∧ s.conn.output = [] ∧ s.copied = 2 ^ 32 := by
  have hlen : (List.replicate (2 ^ 32 - 8) (0 : UInt8)).length = 2 ^ 32 - 8 := List.length_replicate
  exact ⟨wrapped_overruns hlen, _, protoSend_wrapped_zero _ _ hlen, rfl, rfl, rfl⟩

end MiniTcg.Wire
