import MiniTcg.Wire.Codec

/-!
# One direction of a connection

The bytes that have arrived at a reader, and those that are still on their way. The
writer calls `proto_send`, the reader `proto_recv`, and the transport splits the
bytes of either as it likes. A `proto_recv` waits until what it asks for is there.
-/
namespace MiniTcg.Wire

structure Flow where
  arrived : List UInt8
  coming : List UInt8

/-- All bytes the reader has not taken yet. -/
def Flow.rest (f : Flow) : List UInt8 := f.arrived ++ f.coming

/-- Up to `n` bytes arrive. -/
def Flow.arrive (f : Flow) (n : ℕ) : Flow := ⟨f.arrived ++ f.coming.take n, f.coming.drop n⟩

/-- Packets are sent back to back; every write takes a chunk of any size. -/
def Flow.send (tls : Bool) (chunks : ℕ → ℕ) (f : Flow) (ps : List Packet) : Flow :=
  match sendAll 4096 ps ⟨tls, [], fun _ => .ready 0, [], fun i => .ready (chunks i)⟩ with
  | some (_, c) => { f with coming := f.coming ++ c.output }
  | none => f

/-- A `proto_recv` call has all it will read: a header, and the payload unless it
refuses the length. -/
def Flow.full (f : Flow) (cap : UInt32) : Prop :=
  8 ≤ f.arrived.length ∧
    ((PktHdr.ofBytes (f.arrived.take 8)).len.toNat < 8 ∨
      8 + cap.toNat < (PktHdr.ofBytes (f.arrived.take 8)).len.toNat ∨
      (PktHdr.ofBytes (f.arrived.take 8)).len.toNat ≤ f.arrived.length)

instance (f : Flow) (cap : UInt32) : Decidable (f.full cap) := inferInstanceAs (Decidable (_ ∧ _))

/-- A `proto_recv` call, every read a chunk of any size. It waits (`none`) until it
has its bytes, and gives a packet or fails. -/
def Flow.recv (tls : Bool) (chunks : ℕ → ℕ) (cap : UInt32) (f : Flow) :
    Option (Option Packet × Flow) :=
  if f.full cap then
    (protoRecv (8 + cap.toNat)
      ⟨tls, f.arrived, fun i => .ready (chunks i), [], fun _ => .ready 0⟩ cap).map
        fun r => (r.packet?, { f with arrived := r.conn.input })
  else none

section Bytes
variable {f : Flow} {p : Packet} {cap : UInt32}

theorem Flow.rest_arrive (f : Flow) (n : ℕ) : (f.arrive n).rest = f.rest := by
  unfold Flow.rest Flow.arrive
  rw [List.append_assoc, List.take_append_drop]

/-- A call that has its bytes returns. -/
theorem Flow.recv_none (f : Flow) (tls : Bool) (chunks : ℕ → ℕ) :
    f.recv tls chunks cap = none ↔ ¬ f.full cap := by
  constructor
  · intro hnone hfull
    obtain ⟨r, hr, _⟩ := protoRecv_exact
      (c := ⟨tls, f.arrived, fun i => .ready (chunks i), [], fun _ => .ready 0⟩)
      (fun i => ⟨chunks i, rfl⟩) (Nat.le_refl (8 + cap.toNat))
    rw [Flow.recv, if_pos hfull, hr] at hnone
    cases hnone
  · intro hwait
    exact if_neg hwait

/-- The header of a frame at the head of the flow, once it has arrived. -/
theorem Flow.header {after : List UInt8} (h : f.rest = p.frame ++ after)
    (hp : p.payload.length ≤ 4088) (h8 : 8 ≤ f.arrived.length) :
    (PktHdr.ofBytes (f.arrived.take 8)).len.toNat = 8 + p.payload.length := by
  have hcut : f.arrived.take 8 = (frameHdr p.op p.payload).bytes := by
    have htake : f.rest.take 8 = f.arrived.take 8 := List.take_append_of_le_length h8
    rw [← htake, h, Packet.frame, frame_eq p.op hp, List.append_assoc,
      List.take_left' (PktHdr.bytes_length _)]
  rw [hcut, PktHdr.ofBytes_bytes, frameHdr_len p.op hp]

/-- A frame at the head of the flow is received when it has arrived. -/
theorem Flow.recv_frame {after : List UInt8} (h : f.rest = p.frame ++ after)
    (hp : p.payload.length ≤ min cap.toNat 4088) (tls : Bool) (chunks : ℕ → ℕ) :
    (f.recv tls chunks cap = none ∧ f.coming ≠ []) ∨
      ∃ f', f.recv tls chunks cap = some (some p, f') ∧ f'.rest = after := by
  have hlen : p.frame.length = 8 + p.payload.length := frame_length p.op (by omega)
  by_cases hle : p.frame.length ≤ f.arrived.length
  · right
    have hpre : p.frame <+: f.arrived :=
      List.prefix_of_prefix_length_le ⟨after, h.symm⟩ ⟨f.coming, rfl⟩ hle
    obtain ⟨arrived, hsplit⟩ := hpre
    have hfull : f.full cap := by
      refine ⟨by omega, Or.inr (Or.inr ?_)⟩
      rw [Flow.header h (by omega) (by omega)]
      omega
    obtain ⟨r, hr, _, _, hiff⟩ := protoRecv_exact
      (c := ⟨tls, f.arrived, fun i => .ready (chunks i), [], fun _ => .ready 0⟩)
      (fun i => ⟨chunks i, rfl⟩) (Nat.le_refl (8 + cap.toNat))
    obtain ⟨hpkt, hin⟩ := (hiff p.op p.payload arrived).mpr ⟨hsplit.symm, hp⟩
    refine ⟨⟨arrived, f.coming⟩, ?_, ?_⟩
    · unfold Flow.recv
      rw [if_pos hfull, hr, Option.map_some, hpkt, hin]
    · unfold Flow.rest at h
      rw [← hsplit, List.append_assoc] at h
      exact List.append_cancel_left h
  · left
    have hwait : ¬ f.full cap := by
      rintro ⟨h8, hcase⟩
      rw [Flow.header h (by omega) h8] at hcase
      omega
    refine ⟨if_neg hwait, fun hnil => ?_⟩
    unfold Flow.rest at h
    rw [hnil, List.append_nil] at h
    rw [h, List.length_append] at hle
    omega

/-- On any bytes a call waits, takes the frame at the head of the flow, or fails
because no frame will ever be there. -/
theorem Flow.recv_cases (f : Flow) (tls : Bool) (chunks : ℕ → ℕ) (cap : UInt32) :
    f.recv tls chunks cap = none ∨
      (∃ p f', f.recv tls chunks cap = some (some p, f') ∧ f.rest = p.frame ++ f'.rest ∧
        p.payload.length ≤ min cap.toNat 4088) ∨
      ∃ f', f.recv tls chunks cap = some (none, f') ∧
        ∀ (p : Packet) after, p.payload.length ≤ min cap.toNat 4088 → f.rest ≠ p.frame ++ after := by
  by_cases hfull : f.full cap
  swap
  · exact Or.inl (if_neg hfull)
  right
  obtain ⟨r, hr, _, _, hiff⟩ := protoRecv_exact
    (c := ⟨tls, f.arrived, fun i => .ready (chunks i), [], fun _ => .ready 0⟩)
    (fun i => ⟨chunks i, rfl⟩) (Nat.le_refl (8 + cap.toNat))
  have hrecv : f.recv tls chunks cap = some (r.packet?, { f with arrived := r.conn.input }) := by
    unfold Flow.recv
    rw [if_pos hfull, hr, Option.map_some]
  cases hpkt : r.packet? with
  | some p =>
    left
    obtain ⟨hin, hp⟩ := (hiff p.op p.payload r.conn.input).mp ⟨hpkt, rfl⟩
    refine ⟨p, { f with arrived := r.conn.input }, ?_, ?_, hp⟩
    · rw [hrecv, hpkt]
    · have harrived : f.arrived = p.frame ++ r.conn.input := hin
      show f.arrived ++ f.coming = p.frame ++ (r.conn.input ++ f.coming)
      rw [harrived, List.append_assoc]
  | none =>
    right
    refine ⟨{ f with arrived := r.conn.input }, by rw [hrecv, hpkt], fun p after hp hrest => ?_⟩
    rcases Flow.recv_frame hrest hp tls chunks with ⟨hnone, _⟩ | ⟨f', hsome, _⟩
    · rw [hrecv] at hnone
      cases hnone
    · rw [hrecv, hpkt] at hsome
      cases hsome

end Bytes

/-! ### Flows of packets -/

/-- The flow is the frames of the packets. -/
def Flow.Holds (f : Flow) (ps : List Packet) : Prop := f.rest = ps.flatMap Packet.frame

/-- Payloads the server's buffer has room for. -/
def Short (ps : List Packet) : Prop := ∀ p ∈ ps, p.payload.length ≤ 1024

theorem short_nil : Short [] := List.forall_mem_nil _

theorem Short.append {ps qs : List Packet} (hp : Short ps) (hq : Short qs) : Short (ps ++ qs) := by
  intro p h
  rcases List.mem_append.mp h with h | h
  · exact hp p h
  · exact hq p h

section Holds
variable {f : Flow} {ps qs : List Packet} {p : Packet} {cap : UInt32}

theorem Flow.Holds.arrive (h : f.Holds ps) (n : ℕ) : (f.arrive n).Holds ps :=
  (f.rest_arrive n).trans h

theorem Flow.Holds.send (h : f.Holds ps) (hq : Short qs) (tls : Bool) (chunks : ℕ → ℕ) :
    (f.send tls chunks qs).Holds (ps ++ qs) := by
  have hle : ∀ q ∈ qs, q.payload.length ≤ 4088 := fun q hm => (hq q hm).trans (by omega)
  obtain ⟨rcs, c, hsend, _, hout⟩ := sendAll_steady
    (c := ⟨tls, [], fun _ => .ready 0, [], fun i => .ready (chunks i)⟩)
    (fun i => ⟨chunks i, rfl⟩) (Nat.le_refl 4096) hle
  unfold Flow.Holds Flow.rest at *
  unfold Flow.send
  rw [hsend]
  simp only
  rw [hout, List.nil_append, ← List.append_assoc, h, List.flatMap_append]

/-- The first packet is received when its frame has arrived. -/
theorem Flow.Holds.recv (h : f.Holds (p :: ps)) (hp : p.payload.length ≤ min cap.toNat 4088)
    (tls : Bool) (chunks : ℕ → ℕ) :
    (f.recv tls chunks cap = none ∧ f.coming ≠ []) ∨
      ∃ f', f.recv tls chunks cap = some (some p, f') ∧ f'.Holds ps := by
  have hrest : f.rest = p.frame ++ ps.flatMap Packet.frame := h
  exact Flow.recv_frame hrest hp tls chunks

theorem Flow.Holds.full (h : f.Holds (p :: ps)) (hp : p.payload.length ≤ min cap.toNat 4088)
    (hcoming : f.coming = []) : f.full cap := by
  by_contra hwait
  rcases h.recv hp false (fun _ => 0) with ⟨_, hmore⟩ | ⟨f', hsome, _⟩
  · exact hmore hcoming
  · rw [(f.recv_none false fun _ => 0).mpr hwait] at hsome
    cases hsome

theorem Flow.Holds.empty (h : f.Holds []) : f = ⟨[], []⟩ := by
  obtain ⟨arrived, coming⟩ := f
  have happend : arrived ++ coming = [] := h
  obtain ⟨rfl, rfl⟩ := List.append_eq_nil_iff.mp happend
  rfl

/-- With no packet on its way, a call waits. -/
theorem Flow.Holds.recv_nil (h : f.Holds []) (tls : Bool) (chunks : ℕ → ℕ) :
    f.recv tls chunks cap = none := by
  obtain rfl := h.empty
  refine if_neg fun hfull => ?_
  have h8 : 8 ≤ ([] : List UInt8).length := hfull.1
  rw [List.length_nil] at h8
  omega

end Holds

end MiniTcg.Wire
