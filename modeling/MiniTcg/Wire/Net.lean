import Mathlib.Algebra.Order.Ring.Nat
import Mathlib.Data.Int.Notation

/-!
# The transport: `conn_readn` and `conn_writen`

A connection is the bytes that are still to arrive, the bytes written so far,
and what the coming calls of `read`/`SSL_read` and `write`/`SSL_write` meet. The
loops of `net.c` are run with a bound on the number of these calls: `none` means
that the loop is still running after so many.
-/
namespace MiniTcg.Wire

/-- What a call meets: `k + 1` bytes can be moved (when reading, unless the
stream has ended), an interrupt, an expired timeout, or an error. -/
inductive Outcome
  | ready (k : ℕ)
  | intr
  | again
  | fatal
  deriving DecidableEq, Repr

/-- Why a call moved nothing. `intr` and `again` are `EINTR` and `EAGAIN` on a
plain socket; `SSL_get_error` reports both as `SSL_ERROR_WANT_READ` or
`SSL_ERROR_WANT_WRITE`. -/
inductive Pause
  | eof
  | intr
  | again
  | fatal
  deriving DecidableEq, Repr

/-- `connection_t` with the two byte streams behind it. -/
structure Conn where
  tls : Bool
  input : List UInt8
  reads : ℕ → Outcome
  output : List UInt8
  writes : ℕ → Outcome

/-- `(int)left` is negative: `SSL_read` and `SSL_write` refuse such a count. -/
def Conn.refuses (c : Conn) (left : ℕ) : Prop := c.tls = true ∧ 2 ^ 31 ≤ left % 2 ^ 32

instance (c : Conn) (left : ℕ) : Decidable (c.refuses left) :=
  inferInstanceAs (Decidable (_ ∧ _))

/-- One call of `read` or `SSL_read` with room for `left` bytes. -/
def Conn.read (c : Conn) (left : ℕ) : Except Pause (List UInt8) × Conn :=
  if c.refuses left then (.error .fatal, c)
  else
    let next := { c with reads := fun i => c.reads (i + 1) }
    match c.reads 0 with
    | .ready k =>
      if c.input = [] then (.error .eof, next)
      else
        let m := min (k + 1) left
        (.ok (c.input.take m), { next with input := c.input.drop m })
    | .intr => (.error .intr, next)
    | .again => (.error .again, next)
    | .fatal => (.error .fatal, next)

/-- One call of `write` or `SSL_write`; the number of bytes it took. -/
def Conn.write (c : Conn) (bs : List UInt8) : Except Pause ℕ × Conn :=
  if c.refuses bs.length then (.error .fatal, c)
  else
    let next := { c with writes := fun i => c.writes (i + 1) }
    match c.writes 0 with
    | .ready k =>
      let m := min (k + 1) bs.length
      (.ok m, { next with output := c.output ++ bs.take m })
    | .intr => (.error .intr, next)
    | .again => (.error .again, next)
    | .fatal => (.error .fatal, next)

/-- The loop of `readn` and of the TLS branch of `conn_readn`: the result, the
bytes stored in the buffer, and the connection. -/
def fill (retry : Pause → Bool) (code : Pause → ℕ → ℤ) (n : ℕ) :
    ℕ → Conn → List UInt8 → Option (ℤ × List UInt8 × Conn)
  | 0, c, buf => if n ≤ buf.length then some (n, buf, c) else none
  | calls + 1, c, buf =>
    if n ≤ buf.length then some (n, buf, c)
    else
      match c.read (n - buf.length) with
      | (.ok bs, c) => fill retry code n calls c (buf ++ bs)
      | (.error e, c) =>
        if retry e then fill retry code n calls c buf else some (code e buf.length, buf, c)

def readn (calls : ℕ) (c : Conn) (n : ℕ) : Option (ℤ × List UInt8 × Conn) :=
  fill (fun e => e = .intr) (fun e got => if e = .eof then got else -1) n calls c []

def connReadn (calls : ℕ) (c : Conn) (n : ℕ) : Option (ℤ × List UInt8 × Conn) :=
  if c.tls then fill (fun e => e = .intr ∨ e = .again) (fun _ _ => -1) n calls c []
  else readn calls c n

/-- The loop of `writen` and of the TLS branch of `conn_writen`. -/
def drain (retry : Pause → Bool) (n : ℕ) : ℕ → Conn → List UInt8 → Option (ℤ × Conn)
  | 0, c, bs => if bs = [] then some (n, c) else none
  | calls + 1, c, bs =>
    if bs = [] then some (n, c)
    else
      match c.write bs with
      | (.ok m, c) => drain retry n calls c (bs.drop m)
      | (.error e, c) => if retry e then drain retry n calls c bs else some (-1, c)

def writen (calls : ℕ) (c : Conn) (bs : List UInt8) : Option (ℤ × Conn) :=
  drain (fun e => e = .intr) bs.length calls c bs

def connWriten (calls : ℕ) (c : Conn) (bs : List UInt8) : Option (ℤ × Conn) :=
  if c.tls then drain (fun e => e = .intr ∨ e = .again) bs.length calls c bs
  else writen calls c bs

/-! ### Whatever the calls meet -/

section Any
variable {retry : Pause → Bool} {code : Pause → ℕ → ℤ} {n calls : ℕ} {c : Conn}

theorem not_refuses (hr : c.tls = true → n < 2 ^ 31) {left : ℕ} (hl : left ≤ n) :
    ¬ c.refuses left := by
  rintro ⟨htls, hbig⟩
  have hn := hr htls
  rw [Nat.mod_eq_of_lt (by omega)] at hbig
  omega

/-- A call takes at most `left` bytes off the stream, or none and says why. -/
theorem read_cases (c : Conn) (left : ℕ) :
    (∃ bs c', c.read left = (.ok bs, c') ∧ bs.length ≤ left ∧ c.input = bs ++ c'.input ∧
        c'.tls = c.tls) ∨
      (∃ e c', c.read left = (.error e, c') ∧ c.input = c'.input ∧ c'.tls = c.tls) := by
  unfold Conn.read
  split
  · exact Or.inr ⟨_, _, rfl, rfl, rfl⟩
  · simp only
    split
    · split
      · exact Or.inr ⟨_, _, rfl, rfl, rfl⟩
      · refine Or.inl ⟨_, _, rfl, ?_, (List.take_append_drop _ _).symm, rfl⟩
        rw [List.length_take]
        omega
    · exact Or.inr ⟨_, _, rfl, rfl, rfl⟩
    · exact Or.inr ⟨_, _, rfl, rfl, rfl⟩
    · exact Or.inr ⟨_, _, rfl, rfl, rfl⟩

/-- The loop never stores more than the `n` bytes it was asked for. The bytes stored
and the bytes left over are the bytes of the stream, and unless all `n` are stored
the result is an error code. -/
theorem fill_spec {buf : List UInt8} {r : ℤ × List UInt8 × Conn} (hb : buf.length ≤ n)
    (h : fill retry code n calls c buf = some r) :
    buf ++ c.input = r.2.1 ++ r.2.2.input ∧ r.2.2.tls = c.tls ∧
      (r.2.1.length = n ∨ r.2.1.length < n ∧ ∃ e, r.1 = code e r.2.1.length) := by
  induction calls generalizing c buf with
  | zero =>
    rw [fill] at h
    split at h
    · rename_i hle
      cases h
      exact ⟨rfl, rfl, Or.inl (Nat.le_antisymm hb hle)⟩
    · cases h
  | succ calls ih =>
    rw [fill] at h
    split at h
    · rename_i hle
      cases h
      exact ⟨rfl, rfl, Or.inl (Nat.le_antisymm hb hle)⟩
    · rename_i hlt
      rcases read_cases c (n - buf.length) with ⟨bs, c', hr, hlen, hin, htls⟩ | ⟨e, c', hr, hin, htls⟩
      · rw [hr] at h
        have hroom : (buf ++ bs).length ≤ n := by
          rw [List.length_append]
          omega
        obtain ⟨hin', htls', hrc⟩ := ih hroom h
        rw [hin, ← List.append_assoc]
        exact ⟨hin', htls'.trans htls, hrc⟩
      · rw [hr] at h
        rw [hin, ← htls]
        simp only at h
        split at h
        · exact ih hb h
        · cases h
          exact ⟨rfl, rfl, Or.inr ⟨Nat.lt_of_not_le hlt, e, rfl⟩⟩

theorem connReadn_length {r : ℤ × List UInt8 × Conn} (h : connReadn calls c n = some r) :
    r.2.1.length ≤ n ∧ (r.1 = n → r.2.1.length = n) := by
  unfold connReadn readn at h
  split at h
  · obtain ⟨_, _, hlen | ⟨hlt, e, hrc⟩⟩ := fill_spec (Nat.zero_le n) h
    · exact ⟨Nat.le_of_eq hlen, fun _ => hlen⟩
    · refine ⟨Nat.le_of_lt hlt, fun hn => ?_⟩
      omega
  · obtain ⟨_, _, hlen | ⟨hlt, e, hrc⟩⟩ := fill_spec (Nat.zero_le n) h
    · exact ⟨Nat.le_of_eq hlen, fun _ => hlen⟩
    · refine ⟨Nat.le_of_lt hlt, fun hn => ?_⟩
      split at hrc <;> omega

theorem connReadn_input {r : ℤ × List UInt8 × Conn} (h : connReadn calls c n = some r) :
    c.input = r.2.1 ++ r.2.2.input := by
  unfold connReadn readn at h
  split at h
  · exact (fill_spec (Nat.zero_le n) h).1
  · exact (fill_spec (Nat.zero_le n) h).1

end Any

/-! ### On a connection without timeouts

Every read delivers a non-empty chunk of any size until the stream ends, and
every write takes a non-empty chunk. -/

def Conn.SteadyIn (c : Conn) : Prop := ∀ i, ∃ k, c.reads i = .ready k

def Conn.SteadyOut (c : Conn) : Prop := ∀ i, ∃ k, c.writes i = .ready k

section Steady
variable {retry : Pause → Bool} {code : Pause → ℕ → ℤ} {n calls : ℕ} {c : Conn}

theorem read_eof (hs : c.SteadyIn) {left : ℕ} (hr : ¬ c.refuses left) (he : c.input = []) :
    c.read left = (.error .eof, { c with reads := fun i => c.reads (i + 1) }) := by
  obtain ⟨k, hk⟩ := hs 0
  unfold Conn.read
  rw [if_neg hr]
  simp only [hk, he, if_true]

theorem read_chunk (hs : c.SteadyIn) {left : ℕ} (hr : ¬ c.refuses left) (hl : 0 < left)
    (hne : c.input ≠ []) :
    ∃ m, 0 < m ∧ m ≤ left ∧ c.read left = (.ok (c.input.take m),
      { c with reads := fun i => c.reads (i + 1), input := c.input.drop m }) := by
  obtain ⟨k, hk⟩ := hs 0
  refine ⟨min (k + 1) left, by omega, by omega, ?_⟩
  unfold Conn.read
  rw [if_neg hr]
  simp only [hk, if_neg hne]

/-- A first chunk of at most `left` bytes and what the loop still asks for. -/
theorem chunk_then {l : List UInt8} {m left : ℕ} (hm : m ≤ left) :
    l.take m ++ (l.drop m).take (left - (l.take m).length) = l.take left ∧
      (l.drop m).drop (left - (l.take m).length) = l.drop left := by
  by_cases hle : m ≤ l.length
  · have hl : left = m + (left - m) := by omega
    rw [List.length_take_of_le hle, List.drop_drop]
    constructor
    · conv_rhs => rw [hl, List.take_add]
    · rw [← hl]
  · rw [List.drop_of_length_le (by omega), List.take_of_length_le (l := l) (by omega),
      List.take_of_length_le (l := l) (by omega), List.drop_of_length_le (l := l) (by omega),
      List.take_nil, List.drop_nil, List.append_nil]
    exact ⟨rfl, rfl⟩

theorem fill_done {buf : List UInt8} (hle : n ≤ buf.length) :
    fill retry code n calls c buf = some ((n : ℤ), buf, c) := by
  cases calls with
  | zero => rw [fill, if_pos hle]
  | succ calls => rw [fill, if_pos hle]

/-- The loop takes the next `n` bytes off the stream, however they are split, or
all there are. -/
theorem fill_steady (retry : Pause → Bool) (code : Pause → ℕ → ℤ) (hretry : retry .eof = false)
    (hs : c.SteadyIn) (buf : List UInt8) (hr : c.tls = true → n < 2 ^ 31)
    (hc : n ≤ calls + buf.length) :
    ∃ c', fill retry code n calls c buf = some
        (if n ≤ buf.length + c.input.length then (n : ℤ)
          else code .eof (buf.length + c.input.length),
          buf ++ c.input.take (n - buf.length), c') ∧
      c'.input = c.input.drop (n - buf.length) ∧ c'.tls = c.tls ∧ c'.SteadyIn := by
  induction calls generalizing c buf with
  | zero =>
    have hz : n - buf.length = 0 := by omega
    rw [fill_done (by omega), if_pos (by omega), hz, List.take_zero, List.append_nil,
      List.drop_zero]
    exact ⟨c, rfl, rfl, rfl, hs⟩
  | succ calls ih =>
    by_cases hle : n ≤ buf.length
    · have hz : n - buf.length = 0 := by omega
      rw [fill_done hle, if_pos (by omega), hz, List.take_zero, List.append_nil, List.drop_zero]
      exact ⟨c, rfl, rfl, rfl, hs⟩
    · have hnr : ¬ c.refuses (n - buf.length) := not_refuses hr (Nat.sub_le _ _)
      rw [fill, if_neg hle]
      by_cases he : c.input = []
      · rw [read_eof hs hnr he]
        simp only [hretry, he, List.take_nil, List.drop_nil, List.length_nil, Nat.add_zero,
          List.append_nil, if_neg hle]
        exact ⟨_, rfl, rfl, rfl, fun i => hs (i + 1)⟩
      · obtain ⟨m, hm, hml, hread⟩ := read_chunk hs hnr (by omega) he
        have hpos : 0 < c.input.length := List.length_pos_iff.mpr he
        have htake : (c.input.take m).length = min m c.input.length := List.length_take
        have hdrop : (c.input.drop m).length = c.input.length - m := List.length_drop
        obtain ⟨c', hfill, hin, htls, hs'⟩ := ih
          (c := { c with reads := fun i => c.reads (i + 1), input := c.input.drop m })
          (fun i => hs (i + 1)) (buf ++ c.input.take m) hr (by rw [List.length_append]; omega)
        obtain ⟨htaken, hleft⟩ := chunk_then (l := c.input) hml
        have hsum : (buf ++ c.input.take m).length + (c.input.drop m).length =
            buf.length + c.input.length := by
          rw [List.length_append]
          omega
        have hrem : n - (buf ++ c.input.take m).length =
            n - buf.length - (c.input.take m).length := by
          rw [List.length_append]
          omega
        simp only [hsum, hrem, List.append_assoc, htaken, hleft] at hfill hin
        rw [hread]
        exact ⟨c', hfill, hin, htls, hs'⟩

/-- What `conn_readn` returns on a connection without timeouts. -/
theorem connReadn_steady (hs : c.SteadyIn) (n : ℕ) (hr : c.tls = true → n < 2 ^ 31)
    (hc : n ≤ calls) :
    ∃ rc c', connReadn calls c n = some (rc, c.input.take n, c') ∧
      (rc = n ↔ n ≤ c.input.length) ∧ c'.input = c.input.drop n ∧ c'.tls = c.tls ∧
      c'.SteadyIn := by
  unfold connReadn readn
  split
  · obtain ⟨c', hfill, hrest⟩ := fill_steady (fun e => e = .intr ∨ e = .again) (fun _ _ => -1)
      rfl hs [] hr hc
    rw [hfill]
    refine ⟨_, c', rfl, ?_, hrest⟩
    simp only [List.length_nil, Nat.zero_add]
    split
    · exact iff_of_true rfl ‹_›
    · exact iff_of_false (by omega) ‹_›
  · obtain ⟨c', hfill, hrest⟩ := fill_steady (fun e => e = .intr)
      (fun e got => if e = .eof then got else -1) rfl hs [] hr hc
    rw [hfill]
    refine ⟨_, c', rfl, ?_, hrest⟩
    simp only [List.length_nil, Nat.zero_add, if_true]
    split
    · exact iff_of_true rfl ‹_›
    · exact iff_of_false (by omega) ‹_›

/-- A count that is negative as an `int` fails at the first `SSL_read`. -/
theorem connReadn_refused (htls : c.tls = true) (hn : 2 ^ 31 ≤ n % 2 ^ 32) (hc : 0 < calls) :
    connReadn calls c n = some (-1, [], c) := by
  obtain ⟨k, rfl⟩ : ∃ k, calls = k + 1 := ⟨calls - 1, by omega⟩
  have hpos : ¬ n ≤ ([] : List UInt8).length := by
    rw [List.length_nil]
    omega
  have href : c.refuses (n - ([] : List UInt8).length) := ⟨htls, hn⟩
  unfold connReadn
  rw [if_pos htls, fill, if_neg hpos]
  unfold Conn.read
  rw [if_pos href]
  rfl

theorem drain_done {bs : List UInt8} (h : bs = []) :
    drain retry n calls c bs = some ((n : ℤ), c) := by
  cases calls with
  | zero => rw [drain, if_pos h]
  | succ calls => rw [drain, if_pos h]

/-- The loop writes all bytes in order, however they are split. -/
theorem drain_steady (hs : c.SteadyOut) (bs : List UInt8) (hr : bs.length < 2 ^ 31)
    (hc : bs.length ≤ calls) :
    ∃ c', drain retry n calls c bs = some ((n : ℤ), c') ∧ c'.output = c.output ++ bs ∧
      c'.SteadyOut := by
  induction calls generalizing c bs with
  | zero =>
    obtain rfl : bs = [] := List.length_eq_zero_iff.mp (by omega)
    rw [drain_done rfl]
    exact ⟨c, rfl, (List.append_nil _).symm, hs⟩
  | succ calls ih =>
    by_cases he : bs = []
    · subst he
      rw [drain_done rfl]
      exact ⟨c, rfl, (List.append_nil _).symm, hs⟩
    · have hpos : 0 < bs.length := List.length_pos_iff.mpr he
      have hnr : ¬ c.refuses bs.length := not_refuses (fun _ => hr) (Nat.le_refl _)
      obtain ⟨k, hk⟩ := hs 0
      have hdrop : (bs.drop (min (k + 1) bs.length)).length = bs.length - min (k + 1) bs.length :=
        List.length_drop
      obtain ⟨c', hdrain, hout, hs'⟩ := ih
        (c := { c with
          writes := fun i => c.writes (i + 1)
          output := c.output ++ bs.take (min (k + 1) bs.length) })
        (fun i => hs (i + 1)) (bs.drop (min (k + 1) bs.length)) (by omega) (by omega)
      rw [drain, if_neg he]
      unfold Conn.write
      rw [if_neg hnr]
      simp only [hk]
      refine ⟨c', hdrain, ?_, hs'⟩
      rw [hout, List.append_assoc, List.take_append_drop]

theorem connWriten_steady (hs : c.SteadyOut) (bs : List UInt8) (hr : bs.length < 2 ^ 31)
    (hc : bs.length ≤ calls) :
    ∃ c', connWriten calls c bs = some ((bs.length : ℤ), c') ∧ c'.output = c.output ++ bs ∧
      c'.SteadyOut := by
  unfold connWriten writen
  split
  · exact drain_steady hs bs hr hc
  · exact drain_steady hs bs hr hc

end Steady

end MiniTcg.Wire
