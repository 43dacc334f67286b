import MiniTcg.Wire.Calls
import MiniTcg.Wire.Codec

/-!
# A silent peer

`net_set_timeout` lets a blocked call give up after some seconds, and the loops of
a plain connection end there with an error. Over TLS the expired timeout is
reported as `SSL_ERROR_WANT_READ` or `SSL_ERROR_WANT_WRITE`, after which
`conn_readn` and `conn_writen` call again: a timeout never ends them, and a peer
that stays silent keeps `proto_recv` for ever.
-/
namespace MiniTcg.Wire

/-- The calls move `n` bytes before any timeout or error. -/
def Delivered (o : ℕ → Outcome) (n : ℕ) : Prop :=
  ∃ i, n ≤ offered o i ∧ ∀ j < i, ∃ k, o j = .ready k

/-- `conn_readn` returns, with the first `n` bytes if they come before any timeout
or error, and with `-1` otherwise. -/
def ReadsPromptly (c : Conn) (n : ℕ) : Prop :=
  ∃ calls rc buf c', connReadn calls c n = some (rc, buf, c') ∧
    (Delivered c.reads n → rc = n ∧ buf = c.input.take n) ∧ (¬ Delivered c.reads n → rc = -1)

/-- `conn_writen` returns, with all bytes written if they go before any timeout or
error, and with `-1` otherwise. -/
def WritesPromptly (c : Conn) (bs : List UInt8) : Prop :=
  ∃ calls rc c', connWriten calls c bs = some (rc, c') ∧
    (Delivered c.writes bs.length → rc = bs.length ∧ c'.output = c.output ++ bs) ∧
    (¬ Delivered c.writes bs.length → rc = -1)

/-- A timeout that comes while bytes are missing is not alone: an error comes while
bytes are missing too. -/
def TimeoutsFail (o : ℕ → Outcome) (n : ℕ) : Prop :=
  ∀ i, o i = .again → offered o i < n → ∃ f, o f = .fatal ∧ offered o f < n

/-- The outcomes of the calls for `n` bytes are counts, timeouts and errors.
Lengths are 32 bits wide; one that is negative as an `int` is an error of the
first call over TLS. -/
structure Sequence (tls : Bool) (o : ℕ → Outcome) (n : ℕ) : Prop where
  counts : ∀ i, o i ≠ .intr
  size : n < 2 ^ 32
  negative : tls = true → 2 ^ 31 ≤ n → o 0 = .fatal

/-! ### Outcomes without interrupts -/

section Outcomes
variable {tls : Bool} {o : ℕ → Outcome} {n : ℕ}

theorem Delivered.moves (h : Delivered o n) : Moves tls o n := by
  obtain ⟨i, hi, hready⟩ := h
  refine ⟨i, hi, fun j hj => ?_⟩
  obtain ⟨k, hk⟩ := hready j hj
  rw [hk]
  rfl

/-- What is neither a timeout, nor an error, nor an interrupt. -/
theorem ready_of_not (hcounts : ∀ i, o i ≠ .intr) {i : ℕ} (hagain : o i ≠ .again)
    (hfatal : o i ≠ .fatal) : ∃ k, o i = .ready k := by
  cases ho : o i with
  | ready k => exact ⟨k, rfl⟩
  | intr => exact absurd ho (hcounts i)
  | again => exact absurd ho hagain
  | fatal => exact absurd ho hfatal

/-- Bytes that are moved without a timeout in between are delivered. -/
theorem Moves.delivered (hcounts : ∀ i, o i ≠ .intr) (h : Moves tls o n)
    (hno : ∀ i, offered o i < n → o i ≠ .again) : Delivered o n := by
  by_cases hz : n = 0
  · exact ⟨0, by omega, fun j hj => absurd hj (Nat.not_lt_zero j)⟩
  · obtain ⟨i, hgo, hlt, hlast⟩ := h.last (Nat.pos_of_ne_zero hz)
    refine ⟨i + 1, hlast, fun j hj => ?_⟩
    have hshort : offered o j < n := Nat.lt_of_le_of_lt (offered_mono (by omega)) hlt
    refine ready_of_not hcounts (hno j hshort) fun hf => h.not_breaks ⟨j, ?_, hshort⟩
    rw [hf]
    rfl

theorem Delivered.no_timeout (h : Delivered o n) {i : ℕ} (hi : offered o i < n) :
    o i ≠ .again := by
  obtain ⟨m, hm, hready⟩ := h
  have hlt : i < m := by
    by_contra hle
    have hmono := offered_mono (o := o) (Nat.le_of_not_lt hle)
    omega
  obtain ⟨k, hk⟩ := hready i hlt
  rw [hk]
  exact nofun

/-- A loop that never returns meets a timeout. -/
theorem Hangs.timeout (hcounts : ∀ i, o i ≠ .intr) (h : Hangs tls o n) : ∃ i, o i = .again := by
  by_contra hno
  -- every call moves a byte, so that `n` calls are enough
  have hgrow : ∀ i, i ≤ offered o i := by
    intro i
    induction i with
    | zero => exact Nat.zero_le _
    | succ i ih =>
      have hgo := (h i).1
      obtain ⟨k, hk⟩ := ready_of_not hcounts (i := i) (fun ha => hno ⟨i, ha⟩) fun hf => by
        rw [hf] at hgo
        cases hgo
      have hbytes : (o i).bytes = k + 1 := by rw [hk]; rfl
      rw [offered]
      omega
  have hlt := (h n).2
  have hle := hgrow n
  omega

theorem Breaks.fatal (h : Breaks true o n) : ∃ f, o f = .fatal ∧ offered o f < n := by
  obtain ⟨f, hf, hlt⟩ := h
  refine ⟨f, ?_, hlt⟩
  cases ho : o f with
  | ready k => rw [ho] at hf; cases hf
  | intr => rw [ho] at hf; cases hf
  | again => rw [ho] at hf; cases hf
  | fatal => rfl

theorem breaks_of_fatal {f : ℕ} (hf : o f = .fatal) (hlt : offered o f < n) : Breaks tls o n := by
  refine ⟨f, ?_, hlt⟩
  rw [hf]
  rfl

/-- When a TLS loop meets its contract `P`, told from what it does in each of the
three cases. -/
theorem prompt_iff {P : Prop} (hcounts : ∀ i, o i ≠ .intr)
    (hmoves : Moves true o n → (P ↔ Delivered o n)) (hbreaks : Breaks true o n → P)
    (hhangs : Hangs true o n → ¬ P) : P ↔ TimeoutsFail o n := by
  rcases moves_or_breaks_or_hangs true o n with hm | hb | hh
  · rw [hmoves hm]
    refine ⟨fun hd i hi hlt => absurd hi (hd.no_timeout hlt), fun hf => ?_⟩
    refine hm.delivered hcounts fun i hlt hi => ?_
    obtain ⟨f, hfatal, hshort⟩ := hf i hi hlt
    exact hm.not_breaks (breaks_of_fatal hfatal hshort)
  · exact iff_of_true (hbreaks hb) fun _ _ _ => hb.fatal
  · refine iff_of_false (hhangs hh) fun hf => ?_
    obtain ⟨i, hi⟩ := hh.timeout hcounts
    obtain ⟨f, hfatal, hshort⟩ := hf i hi (hh i).2
    exact hh.not_breaks (breaks_of_fatal hfatal hshort)

/-- A first call that fails delivers nothing. -/
theorem not_delivered (hf : o 0 = .fatal) (hn : 0 < n) : ¬ Delivered o n := by
  rintro ⟨i, hi, hready⟩
  cases i with
  | zero =>
    rw [offered] at hi
    omega
  | succ i =>
    obtain ⟨k, hk⟩ := hready 0 (Nat.succ_pos i)
    rw [hf] at hk
    cases hk

end Outcomes

/-! ### The two loops -/

section Loops
variable {c : Conn} {n : ℕ} {bs : List UInt8}

theorem connWriten_refused (htls : c.tls = true) (hn : 2 ^ 31 ≤ bs.length % 2 ^ 32) :
    connWriten 1 c bs = some (-1, c) := by
  have hne : bs ≠ [] := by
    rintro rfl
    rw [List.length_nil] at hn
    omega
  have href : c.refuses bs.length := ⟨htls, hn⟩
  unfold connWriten
  rw [if_pos htls, drain, if_neg hne]
  unfold Conn.write
  rw [if_pos href]
  rfl

theorem readsPromptly_breaks (hr : c.tls = true → n < 2 ^ 31) (hin : n ≤ c.input.length)
    (h : Breaks c.tls c.reads n) : ReadsPromptly c n := by
  obtain ⟨calls, buf, c', hrun⟩ := connReadn_breaks hr h hin
  exact ⟨calls, -1, buf, c', hrun, fun hd => absurd h hd.moves.not_breaks, fun _ => rfl⟩

theorem readsPromptly_delivered (hr : c.tls = true → n < 2 ^ 31) (hin : n ≤ c.input.length)
    (h : Delivered c.reads n) : ReadsPromptly c n := by
  obtain ⟨calls, i, hrun⟩ := connReadn_moves hr h.moves hin
  exact ⟨calls, n, c.input.take n, _, hrun, fun _ => ⟨rfl, rfl⟩, fun hno => absurd h hno⟩

/-- Over TLS `conn_readn` keeps its contract exactly if no timeout comes alone. -/
theorem readsPromptly_iff (htls : c.tls = true) (hs : Sequence c.tls c.reads n)
    (hin : n ≤ c.input.length) : ReadsPromptly c n ↔ TimeoutsFail c.reads n := by
  by_cases hneg : 2 ^ 31 ≤ n
  · have hfatal := hs.negative htls hneg
    have hmod : 2 ^ 31 ≤ n % 2 ^ 32 := by rwa [Nat.mod_eq_of_lt hs.size]
    have hpos : 0 < n := by omega
    have hrun : connReadn 1 c n = some (-1, [], c) := connReadn_refused htls hmod Nat.one_pos
    refine iff_of_true ⟨1, -1, [], c, hrun, fun hd => ?_, fun _ => rfl⟩ fun _ _ _ => ⟨0, hfatal, hpos⟩
    exact absurd hd (not_delivered hfatal hpos)
  · have hr : c.tls = true → n < 2 ^ 31 := fun _ => by omega
    refine prompt_iff hs.counts (fun hm => ⟨?_, readsPromptly_delivered hr hin⟩) (fun hb => ?_)
      fun hh => ?_
    · rintro ⟨calls, rc, buf, c', hrun, _, hfail⟩
      obtain ⟨calls', i, hrun'⟩ := connReadn_moves hr (htls ▸ hm) hin
      by_contra hno
      have hrc := congrArg Prod.fst (connReadn_agree hrun hrun')
      rw [hfail hno] at hrc
      simp only at hrc
      omega
    · exact readsPromptly_breaks hr hin (htls ▸ hb)
    · rintro ⟨calls, rc, buf, c', hrun, _⟩
      have hbytes : ∀ i, offered c.reads i ≤ c.input.length := fun i => by
        have hlt := (hh i).2
        omega
      rw [connReadn_hangs hr (htls ▸ hh) hbytes calls] at hrun
      cases hrun

theorem writesPromptly_breaks (hr : c.tls = true → bs.length < 2 ^ 31)
    (h : Breaks c.tls c.writes bs.length) : WritesPromptly c bs := by
  obtain ⟨calls, c', hrun⟩ := connWriten_breaks hr h
  exact ⟨calls, -1, c', hrun, fun hd => absurd h hd.moves.not_breaks, fun _ => rfl⟩

theorem writesPromptly_delivered (hr : c.tls = true → bs.length < 2 ^ 31)
    (h : Delivered c.writes bs.length) : WritesPromptly c bs := by
  obtain ⟨calls, c', hrun, hout⟩ := connWriten_moves hr h.moves
  exact ⟨calls, bs.length, c', hrun, fun _ => ⟨rfl, hout⟩, fun hno => absurd h hno⟩

theorem writesPromptly_iff (htls : c.tls = true) (hs : Sequence c.tls c.writes bs.length) :
    WritesPromptly c bs ↔ TimeoutsFail c.writes bs.length := by
  by_cases hneg : 2 ^ 31 ≤ bs.length
  · have hfatal := hs.negative htls hneg
    have hmod : 2 ^ 31 ≤ bs.length % 2 ^ 32 := by rwa [Nat.mod_eq_of_lt hs.size]
    have hpos : 0 < bs.length := by omega
    have hrun : connWriten 1 c bs = some (-1, c) := connWriten_refused htls hmod
    refine iff_of_true ⟨1, -1, c, hrun, fun hd => ?_, fun _ => rfl⟩ fun _ _ _ => ⟨0, hfatal, hpos⟩
    exact absurd hd (not_delivered hfatal hpos)
  · have hr : c.tls = true → bs.length < 2 ^ 31 := fun _ => by omega
    refine prompt_iff hs.counts (fun hm => ⟨?_, writesPromptly_delivered hr⟩) (fun hb => ?_)
      fun hh => ?_
    · rintro ⟨calls, rc, c', hrun, _, hfail⟩
      obtain ⟨calls', c'', hrun', _⟩ := connWriten_moves hr (htls ▸ hm)
      by_contra hno
      have hrc := congrArg Prod.fst (connWriten_agree hrun hrun')
      rw [hfail hno] at hrc
      simp only at hrc
      omega
    · exact writesPromptly_breaks hr (htls ▸ hb)
    · rintro ⟨calls, rc, c', hrun, _⟩
      rw [connWriten_hangs hr (htls ▸ hh) calls] at hrun
      cases hrun

/-- On a plain connection both loops keep their contract, whatever the calls meet. -/
theorem plain_promptly (hplain : c.tls = false) (hread : ∀ i, c.reads i ≠ .intr)
    (hwrite : ∀ i, c.writes i ≠ .intr) (hin : n ≤ c.input.length) :
    ReadsPromptly c n ∧ WritesPromptly c bs := by
  have hr : ∀ m, c.tls = true → m < 2 ^ 31 := fun m ht => by
    rw [hplain] at ht
    cases ht
  -- without a timeout to retry, the loop is through or broken
  have hcases : ∀ (o : ℕ → Outcome) (m : ℕ), (∀ i, o i ≠ .intr) →
      Delivered o m ∨ Breaks false o m := by
    intro o m hcounts
    rcases moves_or_breaks_or_hangs false o m with hm | hb | hh
    · by_cases hb : Breaks false o m
      · exact Or.inr hb
      · refine Or.inl (hm.delivered hcounts fun i hlt ha => hb ⟨i, ?_, hlt⟩)
        rw [ha]
        rfl
    · exact Or.inr hb
    · obtain ⟨i, hi⟩ := hh.timeout hcounts
      have hgo := (hh i).1
      rw [hi] at hgo
      cases hgo
  constructor
  · rcases hcases c.reads n hread with hd | hb
    · exact readsPromptly_delivered (hr n) hin hd
    · exact readsPromptly_breaks (hr n) hin (hplain ▸ hb)
  · rcases hcases c.writes bs.length hwrite with hd | hb
    · exact writesPromptly_delivered (hr _) hd
    · exact writesPromptly_breaks (hr _) (hplain ▸ hb)

end Loops

/-! ### `proto_recv` -/

/-- The header `proto_recv` reads, when it comes. -/
def Conn.hdr (c : Conn) : PktHdr := PktHdr.ofBytes (c.input.take 8)

/-- The announced length is neither below the header's nor above the capacity. -/
def Conn.Admits (c : Conn) (cap : UInt32) : Prop :=
  8 ≤ c.hdr.len.toNat ∧ c.hdr.len.toNat ≤ 8 + cap.toNat

/-- A call with the outcome `x` comes while bytes of the header are missing, or bytes of
the payload `proto_recv` asks for. -/
inductive Meets (c : Conn) (cap : UInt32) (x : Outcome) : Prop
  | header {i : ℕ} (outcome : c.reads i = x) (missing : offered c.reads i < 8)
  | payload {m i : ℕ} (head : Through c.reads 8 m) (admits : c.Admits cap)
      (outcome : c.reads (m + i) = x)
      (missing : offered (fun j => c.reads (m + j)) i < c.hdr.len.toNat - 8)

/-- The calls move the header, and the payload `proto_recv` asks for. -/
def Arrives (c : Conn) (cap : UInt32) : Prop :=
  ∃ m, Through c.reads 8 m ∧
    (c.Admits cap → ∃ i, c.hdr.len.toNat - 8 ≤ offered (fun j => c.reads (m + j)) i)

/-- `proto_recv` returns, and with `-1` if it meets a timeout inside the packet. -/
def RecvPromptly (c : Conn) (cap : UInt32) : Prop :=
  ∃ calls r, protoRecv calls c cap = some r ∧ (Meets c cap .again → r.rc = -1)

/-- A timeout inside the packet is not alone: an error comes inside the packet too, or
all bytes come after it and are no frame that fits. -/
def PacketFails (c : Conn) (cap : UInt32) : Prop :=
  Meets c cap .again → Meets c cap .fatal ∨
    (Arrives c cap ∧ ∀ op p rest, ¬ FrameFits c cap op p rest)

/-- The outcomes of the calls for the header, and for the payload behind it, with the
bytes they can move. -/
structure PacketSequence (c : Conn) (cap : UInt32) : Prop where
  header : Sequence c.tls c.reads 8
  payload : ∀ m, Through c.reads 8 m → c.Admits cap →
    Sequence c.tls (fun j => c.reads (m + j)) (c.hdr.len.toNat - 8)
  bytes : 8 ≤ c.input.length ∧ (c.Admits cap → c.hdr.len.toNat ≤ c.input.length)

section Packet
variable {c : Conn} {cap : UInt32} {h : PktHdr} {m calls : ℕ} {r : Recv}

theorem recvPayload_mono (hr : recvPayload calls c h cap = some r) (more : ℕ) :
    recvPayload (calls + more) c h cap = some r := by
  rw [recvPayload] at hr ⊢
  split at hr
  · rename_i hbad
    rw [if_pos hbad]
    exact hr
  · rename_i hok
    rw [if_neg hok]
    simp only at hr ⊢
    split at hr
    · rename_i hz
      rw [if_pos hz]
      exact hr
    · rename_i hpos
      rw [if_neg hpos]
      cases hread : connReadn calls c (h.len - 8).toNat with
      | none =>
        rw [hread] at hr
        cases hr
      | some x =>
        rw [connReadn_mono hread more]
        rw [hread] at hr
        exact hr

theorem protoRecv_mono (hr : protoRecv calls c cap = some r) (more : ℕ) :
    protoRecv (calls + more) c cap = some r := by
  rw [protoRecv] at hr ⊢
  cases hread : connReadn calls c 8 with
  | none =>
    rw [hread] at hr
    cases hr
  | some x =>
    rw [connReadn_mono hread more]
    rw [hread] at hr
    simp only at hr ⊢
    split at hr
    · rename_i hshort
      rw [if_pos hshort]
      exact hr
    · rename_i hfull
      rw [if_neg hfull]
      exact recvPayload_mono hr more

theorem protoRecv_agree {calls' : ℕ} {r' : Recv} (hr : protoRecv calls c cap = some r)
    (hr' : protoRecv calls' c cap = some r') : r = r' := by
  have hm := protoRecv_mono hr calls'
  rw [Nat.add_comm, protoRecv_mono hr' calls] at hm
  exact (Option.some.inj hm).symm

/-- The connection behind the header, which took `m` calls. -/
def Conn.behind (c : Conn) (m : ℕ) : Conn :=
  { c with reads := fun j => c.reads (m + j), input := c.input.drop 8 }

/-- Unless an error ends it, the header is read by the first calls that can move it. -/
theorem header_read (hs : PacketSequence c cap) (hm : Through c.reads 8 m)
    (hb : ¬ Breaks c.tls c.reads 8) :
    ∃ calls, connReadn calls c 8 = some (8, c.input.take 8, c.behind m) := by
  refine connReadn_through (fun _ => by omega) hm (fun j hj => ?_) hs.bytes.1
  exact Bool.eq_false_iff.mpr fun hends => hb ⟨j, hends, hm.2 j hj⟩

theorem protoRecv_behind (hs : PacketSequence c cap) (hm : Through c.reads 8 m)
    (hb : ¬ Breaks c.tls c.reads 8) (hr : recvPayload calls (c.behind m) c.hdr cap = some r) :
    ∃ calls, protoRecv calls c cap = some r := by
  obtain ⟨calls', hread⟩ := header_read hs hm hb
  refine ⟨calls' + calls, ?_⟩
  rw [protoRecv, connReadn_mono hread calls]
  simp only [ne_eq, not_true_eq_false, if_false]
  rw [Nat.add_comm]
  exact recvPayload_mono hr calls'

theorem Breaks.meets (htls : c.tls = true) (hb : Breaks c.tls c.reads 8) : Meets c cap .fatal := by
  rw [htls] at hb
  obtain ⟨f, hf, hlt⟩ := hb.fatal
  exact .header hf hlt

/-- What the loop for the payload meets. -/
theorem Breaks.meets_payload (htls : c.tls = true) (hm : Through c.reads 8 m)
    (hadmits : c.Admits cap)
    (hb : Breaks c.tls (c.behind m).reads (c.hdr.len.toNat - 8)) : Meets c cap .fatal := by
  rw [htls] at hb
  obtain ⟨f, hf, hlt⟩ := hb.fatal
  exact .payload hm hadmits hf hlt

/-- A payload whose length is no `int` is an error of its first call. -/
theorem payload_int (hs : PacketSequence c cap) (htls : c.tls = true) (hm : Through c.reads 8 m)
    (hadmits : c.Admits cap) (hno : ¬ Meets c cap .fatal) : c.hdr.len.toNat - 8 < 2 ^ 31 := by
  by_contra hbig
  have hfatal : c.reads (m + 0) = .fatal :=
    (hs.payload m hm hadmits).negative htls (Nat.le_of_not_lt hbig)
  refine hno (.payload hm hadmits hfatal ?_)
  rw [offered]
  omega

/-- Without an error, a packet that arrives is judged by its bytes alone. -/
theorem protoRecv_arrives (hs : PacketSequence c cap) (htls : c.tls = true)
    (harrives : Arrives c cap) (hno : ¬ Meets c cap .fatal) :
    ∃ calls r, protoRecv calls c cap = some r ∧ Took (FrameFits c cap) r := by
  obtain ⟨m, hm, hpayload⟩ := harrives
  have hb : ¬ Breaks c.tls c.reads 8 := fun hb => hno (hb.meets htls)
  suffices hrest : ∃ calls r, recvPayload calls (c.behind m) c.hdr cap = some r ∧
      Took (PayloadFits (c.behind m) c.hdr cap) r by
    obtain ⟨calls, r, hr, ht⟩ := hrest
    obtain ⟨calls', hrun⟩ := protoRecv_behind hs hm hb hr
    exact ⟨calls', r, hrun, ht.frame hs.bytes.1 rfl⟩
  by_cases hadmits : c.Admits cap
  · by_cases hz : c.hdr.len.toNat = 8
    · obtain ⟨r, hr, ht, _⟩ : ∃ r, recvPayload 0 (c.behind m) c.hdr cap = some r ∧
          Took (PayloadFits (c.behind m) c.hdr cap) r ∧ _ := recvPayload_empty 0 (c.behind m) hz
      exact ⟨0, r, hr, ht⟩
    · obtain ⟨i, hi⟩ := hpayload hadmits
      have hint := payload_int hs htls hm hadmits hno
      have hbytes : c.hdr.len.toNat - 8 ≤ (c.behind m).input.length := by
        show _ ≤ (c.input.drop 8).length
        rw [List.length_drop]
        have hlen := hs.bytes.2 hadmits
        omega
      have hmoves : Moves c.tls (c.behind m).reads (c.hdr.len.toNat - 8) := by
        rcases moves_or_breaks_or_hangs c.tls (c.behind m).reads (c.hdr.len.toNat - 8) with
          hmoves | hbreaks | hhangs
        · exact hmoves
        · exact absurd (hbreaks.meets_payload htls hm hadmits) hno
        · exact absurd hi (Nat.not_le_of_lt (hhangs i).2)
      obtain ⟨calls, j, hread⟩ := connReadn_moves (c := c.behind m) (fun _ => hint) hmoves hbytes
      obtain ⟨hlow, hhigh⟩ := hadmits
      obtain ⟨r, hr, ht, _⟩ := recvPayload_whole (by omega) hhigh hbytes rfl hread
      exact ⟨calls, r, hr, ht⟩
  · have hbad : c.hdr.len.toNat < 8 ∨ 8 + cap.toNat < c.hdr.len.toNat := by
      by_contra hok
      exact hadmits ⟨by omega, by omega⟩
    obtain ⟨r, hr, ht, _⟩ := recvPayload_refused 0 (c.behind m) hbad
    exact ⟨0, r, hr, ht⟩

/-- An error inside the packet is an error of `proto_recv`. -/
theorem protoRecv_error (hs : PacketSequence c cap) (htls : c.tls = true)
    (herror : Meets c cap .fatal) : ∃ calls r, protoRecv calls c cap = some r ∧ r.rc = -1 := by
  by_cases hb : Breaks c.tls c.reads 8
  · obtain ⟨calls, buf, c', hread⟩ := connReadn_breaks (fun _ => by omega) hb hs.bytes.1
    refine ⟨calls, ⟨-1, none, [], 0, c'⟩, ?_, rfl⟩
    rw [protoRecv, hread]
    rfl
  cases herror with
  | header outcome missing => exact absurd (breaks_of_fatal outcome missing) hb
  | @payload m i head admits outcome missing =>
    have hbytes : c.hdr.len.toNat - 8 ≤ (c.behind m).input.length := by
      show _ ≤ (c.input.drop 8).length
      rw [List.length_drop]
      have hlen := hs.bytes.2 admits
      omega
    have hread : ∃ calls buf c', connReadn calls (c.behind m) (c.hdr.len.toNat - 8) =
        some (-1, buf, c') := by
      by_cases hbig : 2 ^ 31 ≤ c.hdr.len.toNat - 8
      · have hlt := c.hdr.len.toNat_lt
        have hmod : 2 ^ 31 ≤ (c.hdr.len.toNat - 8) % 2 ^ 32 := by
          rw [Nat.mod_eq_of_lt (by omega)]
          exact hbig
        exact ⟨1, [], c.behind m, connReadn_refused htls hmod Nat.one_pos⟩
      · exact connReadn_breaks (c := c.behind m) (fun _ => by omega)
          (breaks_of_fatal outcome missing) hbytes
    obtain ⟨calls, buf, c', hread⟩ := hread
    have hr : recvPayload calls (c.behind m) c.hdr cap = some ⟨-1, none, buf, 0, c'⟩ := by
      rw [recvPayload_asks calls (c.behind m) (by omega) admits.2, hread]
      simp only
      rw [if_pos (by omega)]
      rfl
    obtain ⟨calls', hrun⟩ := protoRecv_behind hs head hb hr
    exact ⟨calls', _, hrun, rfl⟩

/-- Without an error, `proto_recv` waits for ever for a packet that does not arrive. -/
theorem protoRecv_waits (hs : PacketSequence c cap) (htls : c.tls = true)
    (hmissing : ¬ Arrives c cap) (hno : ¬ Meets c cap .fatal) :
    (∀ calls, protoRecv calls c cap = none) ∧ Meets c cap .again := by
  have hb : ¬ Breaks c.tls c.reads 8 := fun hb => hno (hb.meets htls)
  rcases moves_or_breaks_or_hangs c.tls c.reads 8 with hmoves | hbreaks | hhangs
  · obtain ⟨m, hm, _⟩ := hmoves.through
    have hadmits : c.Admits cap := by
      by_contra hno
      exact hmissing ⟨m, hm, fun h => absurd h hno⟩
    have hhangs : Hangs c.tls (c.behind m).reads (c.hdr.len.toNat - 8) := by
      rcases moves_or_breaks_or_hangs c.tls (c.behind m).reads (c.hdr.len.toNat - 8) with
        hmoves | hbreaks | hhangs
      · obtain ⟨i, hi, _⟩ := hmoves
        exact absurd ⟨m, hm, fun _ => ⟨i, hi⟩⟩ hmissing
      · exact absurd (hbreaks.meets_payload htls hm hadmits) hno
      · exact hhangs
    have hint := payload_int hs htls hm hadmits hno
    have hlow : 8 < c.hdr.len.toNat := by
      have hlt := (hhangs 0).2
      rw [offered] at hlt
      omega
    constructor
    · intro calls
      rw [protoRecv]
      cases hread : connReadn calls c 8 with
      | none => rfl
      | some x =>
        obtain ⟨calls', hread'⟩ := header_read hs hm hb
        rw [connReadn_agree hread hread']
        simp only [ne_eq, not_true_eq_false, if_false]
        have hbytes : ∀ i, offered (c.behind m).reads i ≤ (c.behind m).input.length := by
          intro i
          show _ ≤ (c.input.drop 8).length
          rw [List.length_drop]
          have hlt := (hhangs i).2
          have hlen := hs.bytes.2 hadmits
          omega
        show recvPayload calls (c.behind m) c.hdr cap = none
        rw [recvPayload_asks calls (c.behind m) hlow hadmits.2,
          connReadn_hangs (c := c.behind m) (fun _ => hint) hhangs hbytes calls]
    · obtain ⟨i, hi⟩ := hhangs.timeout (hs.payload m hm hadmits).counts
      exact .payload hm hadmits hi (hhangs i).2
  · exact absurd hbreaks hb
  · constructor
    · intro calls
      have hbytes : ∀ i, offered c.reads i ≤ c.input.length := fun i => by
        have hlt := (hhangs i).2
        have hlen := hs.bytes.1
        omega
      rw [protoRecv, connReadn_hangs (fun _ => by omega) hhangs hbytes calls]
    · obtain ⟨i, hi⟩ := hhangs.timeout hs.header.counts
      exact .header hi (hhangs i).2

theorem recvPromptly_iff (hs : PacketSequence c cap) (htls : c.tls = true) :
    RecvPromptly c cap ↔ PacketFails c cap := by
  by_cases hfatal : Meets c cap .fatal
  · obtain ⟨calls, r, hr, hrc⟩ := protoRecv_error hs htls hfatal
    exact iff_of_true ⟨calls, r, hr, fun _ => hrc⟩ fun _ => Or.inl hfatal
  by_cases harrives : Arrives c cap
  · obtain ⟨calls, r, hr, ht⟩ := protoRecv_arrives hs htls harrives hfatal
    constructor
    · rintro ⟨calls', r', hr', hfails⟩ hagain
      right
      refine ⟨harrives, fun op p rest hfits => ?_⟩
      have hrc := hfails hagain
      rw [protoRecv_agree hr' hr] at hrc
      cases ht with
      | packet op' hrc' hout hfit => omega
      | failed hrc' hnone => exact hnone op p rest hfits
    · intro hcond
      refine ⟨calls, r, hr, fun hagain => ?_⟩
      obtain ⟨_, hnone⟩ := (hcond hagain).resolve_left hfatal
      cases ht with
      | packet op' hrc' hout hfit => exact absurd hfit (hnone _ _ _)
      | failed hrc' hnone' => exact hrc'
  · obtain ⟨hnever, hagain⟩ := protoRecv_waits hs htls harrives hfatal
    refine iff_of_false ?_ fun hcond => ?_
    · rintro ⟨calls, r, hr, _⟩
      rw [hnever calls] at hr
      cases hr
    · rcases hcond hagain with hf | ⟨ha, _⟩
      · exact hfatal hf
      · exact harrives ha

end Packet

/-- Over TLS each of the three calls keeps its contract exactly if a timeout that comes
while bytes are missing is not alone; with the same outcomes on a plain connection
`conn_readn` and `conn_writen` always keep theirs. -/
theorem silence_ends_iff {c : Conn} {n : ℕ} {bs : List UInt8} {cap : UInt32} (htls : c.tls = true)
    (hread : Sequence c.tls c.reads n) (hin : n ≤ c.input.length)
    (hwrite : Sequence c.tls c.writes bs.length) (hpacket : PacketSequence c cap) :
    (ReadsPromptly c n ↔ TimeoutsFail c.reads n) ∧
      (WritesPromptly c bs ↔ TimeoutsFail c.writes bs.length) ∧
      (RecvPromptly c cap ↔ PacketFails c cap) ∧
      ReadsPromptly { c with tls := false } n ∧ WritesPromptly { c with tls := false } bs := by
  refine ⟨readsPromptly_iff htls hread hin, writesPromptly_iff htls hwrite,
    recvPromptly_iff hpacket htls, ?_⟩
  exact plain_promptly (c := { c with tls := false }) rfl hread.counts hwrite.counts hin

/-- The header comes, then a timeout and then an error, while writes go one byte at a
time. -/
def lateError : Conn :=
  ⟨true, [0, 0, 0, 10, 0, 0, 0, 0, 1, 2],
    fun i => if i = 0 then .ready 7 else if i = 1 then .again else .fatal, [], fun _ => .ready 0⟩

theorem silence_ends_error :
    ReadsPromptly lateError 9 ∧ WritesPromptly lateError [1, 2, 3] ∧ RecvPromptly lateError 1024 := by
  have hreads : ∀ i, lateError.reads i ≠ .intr := by
    intro i
    show (if i = 0 then Outcome.ready 7 else if i = 1 then .again else .fatal) ≠ .intr
    split
    · exact nofun
    · split <;> exact nofun
  have hread : ∀ n < 2 ^ 31, Sequence lateError.tls lateError.reads n := fun n hn =>
    ⟨hreads, by omega, fun _ hbig => by omega⟩
  have hwrite : Sequence lateError.tls lateError.writes ([1, 2, 3] : List UInt8).length :=
    ⟨fun _ => nofun, by decide, fun _ hn => absurd hn (by decide)⟩
  have hhead : Through lateError.reads 8 1 := ⟨by decide, by decide⟩
  have hadmits : lateError.Admits 1024 := ⟨by decide, by decide⟩
  have hpacket : PacketSequence lateError 1024 := by
    refine ⟨hread 8 (by decide), fun m hm _ => ?_, by decide, fun _ => by decide⟩
    exact ⟨fun i => hreads (m + i), by decide, fun _ hbig => absurd hbig (by decide)⟩
  obtain ⟨hr, hw, hp, _⟩ := silence_ends_iff rfl (hread 9 (by decide))
    (by decide) hwrite hpacket
  refine ⟨hr.mpr fun _ _ _ => ⟨2, rfl, by decide⟩, hw.mpr fun i hi => ?_, hp.mpr fun _ => ?_⟩
  · cases hi
  · exact Or.inl (.payload (m := 1) (i := 1) hhead hadmits rfl (by decide))

/-- A peer that never sends a byte. -/
def mute : Conn := ⟨true, List.replicate 8 0, fun _ => .again, [], fun _ => .again⟩

theorem silent_sequence {n : ℕ} (hn : n < 2 ^ 31) : Sequence true (fun _ => .again) n :=
  ⟨fun _ hintr => (by cases hintr), by omega, fun _ hbig => by omega⟩

theorem silent_fails {n : ℕ} (hn : 0 < n) : ¬ TimeoutsFail (fun _ => .again) n := by
  intro hf
  obtain ⟨f, hfatal, _⟩ := hf 0 rfl hn
  cases hfatal

theorem mute_never (calls : ℕ) : protoRecv calls mute 1024 = none := by
  have hnothing : ∀ i, offered mute.reads i = 0 := by
    intro i
    induction i with
    | zero => rfl
    | succ i ih =>
      rw [offered, ih]
      rfl
  have hhead : ∀ m, ¬ Through mute.reads 8 m := by
    intro m hm
    have hall := hm.1
    rw [hnothing m] at hall
    omega
  have hadmits : ¬ mute.Admits 1024 := fun h => absurd h.1 (by decide)
  have hpacket : PacketSequence mute 1024 :=
    ⟨silent_sequence (by decide), fun m hm => absurd hm (hhead m), by decide,
      fun h => absurd h hadmits⟩
  have harrives : ¬ Arrives mute 1024 := by
    rintro ⟨m, hm, _⟩
    exact hhead m hm
  have hfatal : ¬ Meets mute 1024 .fatal := by
    intro hmeets
    cases hmeets with
    | header outcome missing => cases outcome
    | payload head admits outcome missing => cases outcome
  exact (protoRecv_waits hpacket rfl harrives hfatal).1 calls

/-- A peer that sends its packet after a timeout. -/
def late : Conn :=
  ⟨true, frame opPing [], fun i => if i = 0 then .again else .ready 7, [], fun _ => .again⟩

/-- With nothing but timeouts none of the three calls returns; a packet that comes after
a timeout is accepted. -/
theorem silence_never_ends :
    ¬ ReadsPromptly mute 8 ∧ ¬ WritesPromptly mute [1] ∧ ¬ RecvPromptly mute 1024 ∧
      (∀ calls, protoRecv calls mute 1024 = none) ∧ ¬ RecvPromptly late 1024 := by
  refine ⟨fun h => ?_, fun h => ?_, fun h => ?_, mute_never, fun h => ?_⟩
  · have hsequence : Sequence true mute.reads 8 := silent_sequence (by decide)
    exact silent_fails (by decide) ((readsPromptly_iff rfl hsequence (by decide)).mp h)
  · have hsequence : Sequence true mute.writes ([1] : List UInt8).length :=
      silent_sequence (by decide)
    exact silent_fails (by decide) ((writesPromptly_iff rfl hsequence).mp h)
  · obtain ⟨calls, r, hrun, _⟩ := h
    rw [mute_never calls] at hrun
    cases hrun
  · obtain ⟨calls, r, hrun, hfails⟩ := h
    have hrc : (protoRecv 2 late 1024).map Recv.rc = some 0 := by decide +kernel
    obtain ⟨r', hrun', hrc'⟩ := Option.map_eq_some_iff.mp hrc
    have hagain := hfails (.header (i := 0) rfl (by decide))
    rw [protoRecv_agree hrun hrun', hrc'] at hagain
    cases hagain

end MiniTcg.Wire
