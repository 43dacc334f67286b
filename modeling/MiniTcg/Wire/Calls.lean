import Mathlib.Data.Nat.Find
import MiniTcg.Wire.Net

/-!
# The loops of `net.c`, call by call

What a read or write loop does is decided by the outcomes of its calls. They move
all the bytes, or one of them ends the loop before that, or neither happens and
the loop does not return.
-/
namespace MiniTcg.Wire

/-- The number of bytes a call can move. -/
def Outcome.bytes : Outcome → ℕ
  | .ready k => k + 1
  | _ => 0

/-- The number of bytes the first calls can move. -/
def offered (o : ℕ → Outcome) : ℕ → ℕ
  | 0 => 0
  | i + 1 => offered o i + (o i).bytes

/-- Why a call with this outcome moves nothing. -/
def Outcome.pause? : Outcome → Option Pause
  | .ready _ => none
  | .intr => some .intr
  | .again => some .again
  | .fatal => some .fatal

/-- The outcome ends the loop: on a TLS connection only an error does, on a plain
one a timeout as well. -/
def Outcome.ends (tls : Bool) : Outcome → Bool
  | .ready _ | .intr => false
  | .again => !tls
  | .fatal => true

theorem pause_none {o : Outcome} (h : o.pause? = none) : ∃ k, o = .ready k := by
  cases o with
  | ready k => exact ⟨k, rfl⟩
  | intr => cases h
  | again => cases h
  | fatal => cases h

theorem pause_some {o : Outcome} {e : Pause} (h : o.pause? = some e) :
    (o = .intr ∧ e = .intr) ∨ (o = .again ∧ e = .again) ∨ (o = .fatal ∧ e = .fatal) := by
  cases o with
  | ready k => cases h
  | intr =>
    cases h
    exact Or.inl ⟨rfl, rfl⟩
  | again =>
    cases h
    exact Or.inr (Or.inl ⟨rfl, rfl⟩)
  | fatal =>
    cases h
    exact Or.inr (Or.inr ⟨rfl, rfl⟩)

theorem bytes_pause {o : Outcome} {e : Pause} (h : o.pause? = some e) : o.bytes = 0 := by
  obtain ⟨rfl, -⟩ | ⟨rfl, -⟩ | ⟨rfl, -⟩ := pause_some h
  · rfl
  · rfl
  · rfl

theorem ready_of_bytes {o : Outcome} (h : 0 < o.bytes) : ∃ k, o = .ready k := by
  cases hp : o.pause? with
  | none => exact pause_none hp
  | some e =>
    rw [bytes_pause hp] at h
    omega

theorem ends_pause {o : Outcome} {tls : Bool} (h : o.ends tls = true) :
    ∃ e, o.pause? = some e ∧ e ≠ .eof := by
  cases o with
  | ready k => cases h
  | intr => cases h
  | again => exact ⟨.again, rfl, by decide⟩
  | fatal => exact ⟨.fatal, rfl, by decide⟩

section Outcomes
variable {tls : Bool} {o : ℕ → Outcome} {n i j : ℕ}

theorem offered_mono (h : i ≤ j) : offered o i ≤ offered o j := by
  induction h with
  | refl => exact Nat.le_refl _
  | step _ ih => exact ih.trans (Nat.le_add_right _ _)

theorem offered_shift (o : ℕ → Outcome) (i m : ℕ) :
    offered o (i + m) = offered o i + offered (fun j => o (i + j)) m := by
  induction m with
  | zero => rfl
  | succ m ih => rw [← Nat.add_assoc, offered, ih, offered, Nat.add_assoc]

/-- The calls move `n` bytes before one of them ends the loop. -/
def Moves (tls : Bool) (o : ℕ → Outcome) (n : ℕ) : Prop :=
  ∃ i, n ≤ offered o i ∧ ∀ j < i, (o j).ends tls = false

/-- A call ends the loop before `n` bytes are moved. -/
def Breaks (tls : Bool) (o : ℕ → Outcome) (n : ℕ) : Prop :=
  ∃ i, (o i).ends tls = true ∧ offered o i < n

/-- The loop goes on for ever. -/
def Hangs (tls : Bool) (o : ℕ → Outcome) (n : ℕ) : Prop :=
  ∀ i, (o i).ends tls = false ∧ offered o i < n

theorem moves_or_breaks_or_hangs (tls : Bool) (o : ℕ → Outcome) (n : ℕ) :
    Moves tls o n ∨ Breaks tls o n ∨ Hangs tls o n := by
  classical
  by_cases hb : Breaks tls o n
  · exact Or.inr (Or.inl hb)
  · have hgo : ∀ i, offered o i < n → (o i).ends tls = false := by
      intro i hi
      rw [Bool.eq_false_iff]
      exact fun he => hb ⟨i, he, hi⟩
    by_cases hm : ∃ i, n ≤ offered o i
    · refine Or.inl ⟨Nat.find hm, Nat.find_spec hm, fun j hj => hgo j ?_⟩
      exact Nat.lt_of_not_le (Nat.find_min hm hj)
    · have hshort : ∀ i, offered o i < n := fun i => Nat.lt_of_not_le fun hi => hm ⟨i, hi⟩
      exact Or.inr (Or.inr fun i => ⟨hgo i (hshort i), hshort i⟩)

theorem Moves.not_breaks (h : Moves tls o n) : ¬ Breaks tls o n := by
  obtain ⟨i, hi, hgo⟩ := h
  rintro ⟨j, he, hj⟩
  have hlt : j < i := by
    by_contra hle
    have hmono := offered_mono (o := o) (Nat.le_of_not_lt hle)
    omega
  rw [hgo j hlt] at he
  cases he

theorem Hangs.not_breaks (h : Hangs tls o n) : ¬ Breaks tls o n := by
  rintro ⟨i, he, _⟩
  rw [(h i).1] at he
  cases he

/-- The call that moves the last byte. -/
theorem Moves.last (h : Moves tls o n) (hn : 0 < n) :
    ∃ i, (∀ j < i, (o j).ends tls = false) ∧ offered o i < n ∧ n ≤ offered o (i + 1) := by
  classical
  obtain ⟨m, hm, hgo⟩ := h
  have hex : ∃ i, n ≤ offered o i := ⟨m, hm⟩
  have hpos : Nat.find hex ≠ 0 := by
    intro hz
    have hle := Nat.find_spec hex
    rw [hz, offered] at hle
    omega
  obtain ⟨i, hi⟩ := Nat.exists_eq_succ_of_ne_zero hpos
  refine ⟨i, fun j hj => hgo j ?_, Nat.lt_of_not_le (Nat.find_min hex (by omega)), ?_⟩
  · have hle := Nat.find_min' hex hm
    omega
  · have hle := Nat.find_spec hex
    rw [hi] at hle
    exact hle

/-- That call moves bytes. -/
theorem ready_of_last (hlt : offered o i < n) (hlast : n ≤ offered o (i + 1)) :
    ∃ k, o i = .ready k := by
  rw [offered] at hlast
  exact ready_of_bytes (by omega)

/-- The first `m` calls move `n` bytes, and fewer do not. -/
def Through (o : ℕ → Outcome) (n m : ℕ) : Prop := n ≤ offered o m ∧ ∀ j < m, offered o j < n

theorem Moves.through (h : Moves tls o n) :
    ∃ m, Through o n m ∧ ∀ j < m, (o j).ends tls = false := by
  classical
  obtain ⟨i, hi, hgo⟩ := h
  have hex : ∃ m, n ≤ offered o m := ⟨i, hi⟩
  refine ⟨Nat.find hex, ⟨Nat.find_spec hex, fun j hj => ?_⟩, fun j hj => ?_⟩
  · exact Nat.lt_of_not_le (Nat.find_min hex hj)
  · exact hgo j (Nat.lt_of_lt_of_le hj (Nat.find_min' hex hi))

/-- The first call that ends the loop. -/
theorem Breaks.first (h : Breaks tls o n) :
    ∃ i, (∀ j < i, (o j).ends tls = false) ∧ (o i).ends tls = true ∧ offered o i < n := by
  classical
  obtain ⟨m, hm, hlt⟩ := h
  have hex : ∃ i, (o i).ends tls = true := ⟨m, hm⟩
  refine ⟨Nat.find hex, fun j hj => ?_, Nat.find_spec hex, ?_⟩
  · exact Bool.eq_false_iff.mpr (Nat.find_min hex hj)
  · exact Nat.lt_of_le_of_lt (offered_mono (Nat.find_min' hex hm)) hlt

end Outcomes

/-! ### Reading -/

section Read
variable {retry : Pause → Bool} {code : Pause → ℕ → ℤ} {n i calls : ℕ} {c : Conn} {buf : List UInt8}

/-- The loop tries again after exactly the outcomes that do not end it. -/
def Retries (retry : Pause → Bool) (tls : Bool) : Prop :=
  ∀ o e, Outcome.pause? o = some e → retry e = !o.ends tls

theorem retries_tls : Retries (fun e => e = .intr ∨ e = .again) true := by
  intro o e he
  obtain ⟨rfl, rfl⟩ | ⟨rfl, rfl⟩ | ⟨rfl, rfl⟩ := pause_some he
  · rfl
  · rfl
  · rfl

theorem retries_plain : Retries (fun e => e = .intr) false := by
  intro o e he
  obtain ⟨rfl, rfl⟩ | ⟨rfl, rfl⟩ | ⟨rfl, rfl⟩ := pause_some he
  · rfl
  · rfl
  · rfl

theorem Retries.again {tls : Bool} {o : Outcome} {e : Pause} (h : Retries retry tls)
    (he : o.pause? = some e) (hgo : o.ends tls = false) : retry e = true := by
  rw [h o e he, hgo]
  rfl

theorem Retries.stops {tls : Bool} {o : Outcome} {e : Pause} (h : Retries retry tls)
    (he : o.pause? = some e) (hends : o.ends tls = true) : retry e = false := by
  rw [h o e he, hends]
  rfl

/-- The connection after so many calls that moved all they could. -/
def Conn.readOn (c : Conn) (i : ℕ) : Conn :=
  { c with reads := fun j => c.reads (i + j), input := c.input.drop (offered c.reads i) }

theorem drop_ne_nil {bs : List UInt8} (hlt : i < bs.length) : bs.drop i ≠ [] := by
  rw [← List.length_pos_iff, List.length_drop]
  omega

theorem read_ready {left k : ℕ} (hr : ¬ c.refuses left) (hk : c.reads 0 = .ready k)
    (hne : c.input ≠ []) :
    c.read left = (.ok (c.input.take (min (k + 1) left)),
      { c with reads := fun i => c.reads (i + 1), input := c.input.drop (min (k + 1) left) }) := by
  unfold Conn.read
  rw [if_neg hr]
  simp only [hk, if_neg hne]

theorem read_pause {left : ℕ} {e : Pause} (hr : ¬ c.refuses left)
    (he : (c.reads 0).pause? = some e) :
    c.read left = (.error e, { c with reads := fun i => c.reads (i + 1) }) := by
  unfold Conn.read
  rw [if_neg hr]
  obtain ⟨ho, rfl⟩ | ⟨ho, rfl⟩ | ⟨ho, rfl⟩ := pause_some he
  · simp only [ho]
  · simp only [ho]
  · simp only [ho]

/-- One more call that moves bytes. -/
theorem fill_ready {k : ℕ} (hr : c.tls = true → n < 2 ^ 31) (hk : c.reads i = .ready k)
    (hlt : offered c.reads i < n) (hin : offered c.reads i < c.input.length) :
    fill retry code n (calls + 1) (c.readOn i) (c.input.take (offered c.reads i)) =
      fill retry code n calls
        { c with
          reads := fun j => c.reads (i + 1 + j)
          input := c.input.drop (min (offered c.reads (i + 1)) n) }
        (c.input.take (min (offered c.reads (i + 1)) n)) := by
  have hstored : (c.input.take (offered c.reads i)).length = offered c.reads i :=
    List.length_take_of_le (Nat.le_of_lt hin)
  have hnr : ¬ (c.readOn i).refuses (n - offered c.reads i) :=
    not_refuses (c := c.readOn i) hr (Nat.sub_le _ _)
  have hne : (c.readOn i).input ≠ [] := drop_ne_nil hin
  have hoff : offered c.reads (i + 1) = offered c.reads i + (k + 1) := by
    rw [offered, hk]
    rfl
  have hmin : offered c.reads i + min (k + 1) (n - offered c.reads i) =
      min (offered c.reads (i + 1)) n := by omega
  rw [fill, hstored, if_neg (by omega), read_ready hnr hk hne]
  simp only [Conn.readOn, List.drop_drop, ← List.take_add, hmin]
  simp only [Nat.add_assoc, Nat.add_comm 1]

/-- One more call that moves nothing. -/
theorem fill_pause {e : Pause} (hr : c.tls = true → n < 2 ^ 31) (he : (c.reads i).pause? = some e)
    (hlt : offered c.reads i < n) (hin : offered c.reads i ≤ c.input.length) :
    fill retry code n (calls + 1) (c.readOn i) (c.input.take (offered c.reads i)) =
      if retry e then
        fill retry code n calls (c.readOn (i + 1)) (c.input.take (offered c.reads (i + 1)))
      else some (code e (offered c.reads i), c.input.take (offered c.reads i), c.readOn (i + 1)) := by
  have hstored : (c.input.take (offered c.reads i)).length = offered c.reads i :=
    List.length_take_of_le hin
  have hnr : ¬ (c.readOn i).refuses (n - offered c.reads i) :=
    not_refuses (c := c.readOn i) hr (Nat.sub_le _ _)
  have hoff : offered c.reads (i + 1) = offered c.reads i := by
    rw [offered, bytes_pause he, Nat.add_zero]
  rw [fill, hstored, if_neg (by omega), read_pause hnr he]
  simp only [Conn.readOn, hoff, Nat.add_assoc, Nat.add_comm 1]

/-- While no call ends the loop and bytes are missing, it stores what the calls
offer. -/
theorem fill_on (hretry : Retries retry c.tls) (hr : c.tls = true → n < 2 ^ 31)
    (hgo : ∀ j < i, (c.reads j).ends c.tls = false) (hlt : offered c.reads i < n)
    (hin : offered c.reads i ≤ c.input.length) :
    fill retry code n (calls + i) c [] =
      fill retry code n calls (c.readOn i) (c.input.take (offered c.reads i)) := by
  induction i generalizing calls with
  | zero =>
    simp only [Conn.readOn, offered, Nat.add_zero, Nat.zero_add, List.drop_zero, List.take_zero]
  | succ i ih =>
    have hle : offered c.reads i ≤ offered c.reads (i + 1) := Nat.le_add_right _ _
    rw [← Nat.add_assoc, Nat.add_right_comm,
      ih (fun j hj => hgo j (by omega)) (by omega) (by omega)]
    cases hp : (c.reads i).pause? with
    | none =>
      obtain ⟨k, hk⟩ := pause_none hp
      have hoff : offered c.reads (i + 1) = offered c.reads i + (k + 1) := by
        rw [offered, hk]
        rfl
      rw [fill_ready hr hk (by omega) (by omega), Nat.min_eq_left (Nat.le_of_lt hlt)]
      rfl
    | some e =>
      have hretried := hretry.again hp (hgo i (Nat.lt_succ_self i))
      rw [fill_pause hr hp (by omega) (by omega), if_pos hretried]

theorem fill_hangs (hretry : Retries retry c.tls) (hr : c.tls = true → n < 2 ^ 31)
    (h : Hangs c.tls c.reads n) (hin : ∀ i, offered c.reads i ≤ c.input.length) (calls : ℕ) :
    fill retry code n calls c [] = none := by
  have hstored : (c.input.take (offered c.reads calls)).length = offered c.reads calls :=
    List.length_take_of_le (hin calls)
  have hshort := (h calls).2
  rw [← Nat.zero_add calls, fill_on hretry hr (fun j _ => (h j).1) hshort (hin calls), fill, hstored,
    if_neg (by omega)]

theorem fill_breaks (hretry : Retries retry c.tls) (hr : c.tls = true → n < 2 ^ 31)
    (h : Breaks c.tls c.reads n) (hin : n ≤ c.input.length) (code : Pause → ℕ → ℤ) :
    ∃ calls e, e ≠ .eof ∧ ∃ got buf c',
      fill retry code n calls c [] = some (code e got, buf, c') := by
  obtain ⟨i, hgo, hends, hlt⟩ := h.first
  obtain ⟨e, hp, he⟩ := ends_pause hends
  have hstop := hretry.stops hp hends
  have hrun : fill retry code n (1 + i) c [] = some (code e (offered c.reads i),
      c.input.take (offered c.reads i), c.readOn (i + 1)) := by
    rw [fill_on hretry hr hgo hlt (by omega), fill_pause hr hp hlt (by omega), hstop]
    rfl
  exact ⟨_, e, he, _, _, _, hrun⟩

/-- The loop leaves the connection after the last call it needs. -/
theorem fill_through {m : ℕ} (hretry : Retries retry c.tls) (hr : c.tls = true → n < 2 ^ 31)
    (h : Through c.reads n m) (hgo : ∀ j < m, (c.reads j).ends c.tls = false)
    (hin : n ≤ c.input.length) :
    ∃ calls, fill retry code n calls c [] = some ((n : ℤ), c.input.take n,
      { c with reads := fun j => c.reads (m + j), input := c.input.drop n }) := by
  obtain ⟨hlast, hshort⟩ := h
  cases m with
  | zero =>
    obtain rfl : n = 0 := Nat.le_zero.mp hlast
    refine ⟨0, ?_⟩
    simp only [fill, List.length_nil, Nat.le_refl, if_true, List.take_zero, List.drop_zero,
      Nat.zero_add]
  | succ i =>
    have hlt := hshort i (Nat.lt_succ_self i)
    obtain ⟨k, hk⟩ := ready_of_last hlt hlast
    refine ⟨1 + i, ?_⟩
    rw [fill_on hretry hr (fun j hj => hgo j (by omega)) hlt (by omega),
      fill_ready hr hk hlt (by omega), Nat.min_eq_right hlast, fill, List.length_take_of_le hin,
      if_pos (Nat.le_refl n)]

/-- More calls do not change the result. -/
theorem fill_mono {r : ℤ × List UInt8 × Conn} (h : fill retry code n calls c buf = some r) (m : ℕ) :
    fill retry code n (calls + m) c buf = some r := by
  induction calls generalizing c buf with
  | zero =>
    rw [fill] at h
    split at h
    · rename_i hle
      rw [fill_done hle]
      exact h
    · cases h
  | succ calls ih =>
    rw [fill] at h
    rw [Nat.add_right_comm, fill]
    split at h
    · rename_i hle
      rw [if_pos hle]
      exact h
    · rename_i hle
      rw [if_neg hle]
      cases hr : c.read (n - buf.length) with
      | mk res c' =>
        rw [hr] at h
        cases res with
        | ok bs => exact ih h
        | error e =>
          simp only at h ⊢
          split at h
          · rename_i hagain
            rw [if_pos hagain]
            exact ih h
          · rename_i hstop
            rw [if_neg hstop]
            exact h

/-- `conn_readn` is the loop, on a TLS connection and on a plain one. -/
theorem connReadn_fill (c : Conn) : ∃ retry code, Retries retry c.tls ∧
    (∀ e got, e ≠ .eof → code e got = -1) ∧
      ∀ calls n, connReadn calls c n = fill retry code n calls c [] := by
  unfold connReadn readn
  cases c.tls with
  | true =>
    exact ⟨fun e => e = .intr ∨ e = .again, fun _ _ => -1, retries_tls, fun _ _ _ => rfl,
      fun _ _ => rfl⟩
  | false =>
    exact ⟨fun e => e = .intr, fun e got => if e = .eof then got else -1, retries_plain,
      fun e got he => if_neg he, fun _ _ => rfl⟩

theorem connReadn_mono {r : ℤ × List UInt8 × Conn} (h : connReadn calls c n = some r) (m : ℕ) :
    connReadn (calls + m) c n = some r := by
  obtain ⟨retry, code, _, _, hfill⟩ := connReadn_fill c
  rw [hfill] at h ⊢
  exact fill_mono h m

/-- Any two numbers of calls that are enough give the same result. -/
theorem connReadn_agree {calls' : ℕ} {r r' : ℤ × List UInt8 × Conn}
    (h : connReadn calls c n = some r) (h' : connReadn calls' c n = some r') : r = r' := by
  have hm := connReadn_mono h calls'
  rw [Nat.add_comm, connReadn_mono h' calls] at hm
  exact (Option.some.inj hm).symm

theorem connReadn_through {m : ℕ} (hr : c.tls = true → n < 2 ^ 31) (h : Through c.reads n m)
    (hgo : ∀ j < m, (c.reads j).ends c.tls = false) (hin : n ≤ c.input.length) :
    ∃ calls, connReadn calls c n = some ((n : ℤ), c.input.take n,
      { c with reads := fun j => c.reads (m + j), input := c.input.drop n }) := by
  obtain ⟨retry, code, hretry, _, hfill⟩ := connReadn_fill c
  simp only [hfill]
  exact fill_through hretry hr h hgo hin

theorem connReadn_moves (hr : c.tls = true → n < 2 ^ 31) (h : Moves c.tls c.reads n)
    (hin : n ≤ c.input.length) :
    ∃ calls i, connReadn calls c n = some ((n : ℤ), c.input.take n,
      { c with reads := fun j => c.reads (i + j), input := c.input.drop n }) := by
  obtain ⟨m, hm, hgo⟩ := h.through
  obtain ⟨calls, hrun⟩ := connReadn_through hr hm hgo hin
  exact ⟨calls, m, hrun⟩

theorem connReadn_breaks (hr : c.tls = true → n < 2 ^ 31) (h : Breaks c.tls c.reads n)
    (hin : n ≤ c.input.length) : ∃ calls buf c', connReadn calls c n = some (-1, buf, c') := by
  obtain ⟨retry, code, hretry, hcode, hfill⟩ := connReadn_fill c
  simp only [hfill]
  obtain ⟨calls, e, he, got, buf, c', hrun⟩ := fill_breaks hretry hr h hin code
  rw [hcode e got he] at hrun
  exact ⟨calls, buf, c', hrun⟩

theorem connReadn_hangs (hr : c.tls = true → n < 2 ^ 31) (h : Hangs c.tls c.reads n)
    (hin : ∀ i, offered c.reads i ≤ c.input.length) (calls : ℕ) : connReadn calls c n = none := by
  obtain ⟨retry, code, hretry, _, hfill⟩ := connReadn_fill c
  rw [hfill]
  exact fill_hangs hretry hr h hin calls

end Read

/-! ### Writing -/

section Write
variable {retry : Pause → Bool} {n i calls : ℕ} {c : Conn} {bs : List UInt8}

def Conn.writeOn (c : Conn) (i : ℕ) (bs : List UInt8) : Conn :=
  { c with
    writes := fun j => c.writes (i + j)
    output := c.output ++ bs.take (offered c.writes i) }

theorem write_ready {k : ℕ} (hr : ¬ c.refuses bs.length) (hk : c.writes 0 = .ready k) :
    c.write bs = (.ok (min (k + 1) bs.length), { c with
      writes := fun i => c.writes (i + 1)
      output := c.output ++ bs.take (min (k + 1) bs.length) }) := by
  unfold Conn.write
  rw [if_neg hr]
  simp only [hk]

theorem write_pause {e : Pause} (hr : ¬ c.refuses bs.length) (he : (c.writes 0).pause? = some e) :
    c.write bs = (.error e, { c with writes := fun i => c.writes (i + 1) }) := by
  unfold Conn.write
  rw [if_neg hr]
  obtain ⟨ho, rfl⟩ | ⟨ho, rfl⟩ | ⟨ho, rfl⟩ := pause_some he
  · simp only [ho]
  · simp only [ho]
  · simp only [ho]

/-- One more call that moves bytes. -/
theorem drain_ready {k : ℕ} (hr : c.tls = true → bs.length < 2 ^ 31) (hk : c.writes i = .ready k)
    (hlt : offered c.writes i < bs.length) :
    drain retry n (calls + 1) (c.writeOn i bs) (bs.drop (offered c.writes i)) =
      drain retry n calls (c.writeOn (i + 1) bs) (bs.drop (offered c.writes (i + 1))) := by
  have hnr : ¬ (c.writeOn i bs).refuses (bs.drop (offered c.writes i)).length :=
    not_refuses (c := c.writeOn i bs) hr (by rw [List.length_drop]; omega)
  have hoff : offered c.writes (i + 1) = offered c.writes i + (k + 1) := by
    rw [offered, hk]
    rfl
  have hleft : (bs.drop (offered c.writes i)).drop
      (min (k + 1) (bs.drop (offered c.writes i)).length) = bs.drop (offered c.writes (i + 1)) := by
    rw [← List.drop_eq_drop_min, List.drop_drop, hoff]
  rw [drain, if_neg (drop_ne_nil hlt), write_ready hnr hk, ← List.take_eq_take_min]
  simp only [hleft]
  simp only [Conn.writeOn, List.append_assoc, ← List.take_add, hoff, Nat.add_assoc, Nat.add_comm 1]

/-- One more call that moves nothing. -/
theorem drain_pause {e : Pause} (hr : c.tls = true → bs.length < 2 ^ 31)
    (he : (c.writes i).pause? = some e) (hlt : offered c.writes i < bs.length) :
    drain retry n (calls + 1) (c.writeOn i bs) (bs.drop (offered c.writes i)) =
      if retry e then
        drain retry n calls (c.writeOn (i + 1) bs) (bs.drop (offered c.writes (i + 1)))
      else some (-1, c.writeOn (i + 1) bs) := by
  have hnr : ¬ (c.writeOn i bs).refuses (bs.drop (offered c.writes i)).length :=
    not_refuses (c := c.writeOn i bs) hr (by rw [List.length_drop]; omega)
  have hoff : offered c.writes (i + 1) = offered c.writes i := by
    rw [offered, bytes_pause he, Nat.add_zero]
  rw [drain, if_neg (drop_ne_nil hlt), write_pause hnr he]
  simp only [Conn.writeOn, hoff, Nat.add_assoc, Nat.add_comm 1]

/-- While no call ends the loop and bytes are left, it writes what the calls take. -/
theorem drain_on (hretry : Retries retry c.tls) (hr : c.tls = true → bs.length < 2 ^ 31)
    (hgo : ∀ j < i, (c.writes j).ends c.tls = false) (hlt : offered c.writes i < bs.length) :
    drain retry n (calls + i) c bs =
      drain retry n calls (c.writeOn i bs) (bs.drop (offered c.writes i)) := by
  induction i generalizing calls with
  | zero =>
    simp only [Conn.writeOn, offered, Nat.add_zero, Nat.zero_add, List.drop_zero, List.take_zero,
      List.append_nil]
  | succ i ih =>
    have hle : offered c.writes i ≤ offered c.writes (i + 1) := Nat.le_add_right _ _
    rw [← Nat.add_assoc, Nat.add_right_comm, ih (fun j hj => hgo j (by omega)) (by omega)]
    cases hp : (c.writes i).pause? with
    | none =>
      obtain ⟨k, hk⟩ := pause_none hp
      rw [drain_ready hr hk (by omega)]
    | some e =>
      have hretried := hretry.again hp (hgo i (Nat.lt_succ_self i))
      rw [drain_pause hr hp (by omega), if_pos hretried]

theorem drain_hangs (hretry : Retries retry c.tls) (hr : c.tls = true → bs.length < 2 ^ 31)
    (h : Hangs c.tls c.writes bs.length) (calls : ℕ) : drain retry n calls c bs = none := by
  rw [← Nat.zero_add calls, drain_on hretry hr (fun j _ => (h j).1) (h calls).2, drain,
    if_neg (drop_ne_nil (h calls).2)]

theorem drain_breaks (hretry : Retries retry c.tls) (hr : c.tls = true → bs.length < 2 ^ 31)
    (h : Breaks c.tls c.writes bs.length) : ∃ calls c', drain retry n calls c bs = some (-1, c') := by
  obtain ⟨i, hgo, hends, hlt⟩ := h.first
  obtain ⟨e, hp, _⟩ := ends_pause hends
  have hstop := hretry.stops hp hends
  have hrun : drain retry n (1 + i) c bs = some (-1, c.writeOn (i + 1) bs) := by
    rw [drain_on hretry hr hgo hlt, drain_pause hr hp hlt, hstop]
    rfl
  exact ⟨_, _, hrun⟩

theorem drain_moves (hretry : Retries retry c.tls) (hr : c.tls = true → bs.length < 2 ^ 31)
    (h : Moves c.tls c.writes bs.length) :
    ∃ calls c', drain retry n calls c bs = some ((n : ℤ), c') ∧ c'.output = c.output ++ bs := by
  by_cases hz : bs.length = 0
  · obtain rfl := List.length_eq_zero_iff.mp hz
    exact ⟨0, c, drain_done rfl, (List.append_nil _).symm⟩
  · obtain ⟨i, hgo, hlt, hlast⟩ := h.last (Nat.pos_of_ne_zero hz)
    obtain ⟨k, hk⟩ := ready_of_last hlt hlast
    have hrun : drain retry n (1 + i) c bs = some ((n : ℤ), c.writeOn (i + 1) bs) := by
      rw [drain_on hretry hr hgo hlt, drain_ready hr hk hlt]
      exact drain_done (List.drop_eq_nil_of_le hlast)
    refine ⟨_, _, hrun, ?_⟩
    show c.output ++ bs.take _ = c.output ++ bs
    rw [List.take_of_length_le hlast]

theorem drain_mono {r : ℤ × Conn} (h : drain retry n calls c bs = some r) (m : ℕ) :
    drain retry n (calls + m) c bs = some r := by
  induction calls generalizing c bs with
  | zero =>
    rw [drain] at h
    split at h
    · rename_i hnil
      rw [drain_done hnil]
      exact h
    · cases h
  | succ calls ih =>
    rw [drain] at h
    rw [Nat.add_right_comm, drain]
    split at h
    · rename_i hnil
      rw [if_pos hnil]
      exact h
    · rename_i hnil
      rw [if_neg hnil]
      cases hw : c.write bs with
      | mk res c' =>
        rw [hw] at h
        cases res with
        | ok m => exact ih h
        | error e =>
          simp only at h ⊢
          split at h
          · rename_i hagain
            rw [if_pos hagain]
            exact ih h
          · rename_i hstop
            rw [if_neg hstop]
            exact h

/-- `conn_writen` is the loop, on a TLS connection and on a plain one. -/
theorem connWriten_drain (c : Conn) : ∃ retry, Retries retry c.tls ∧
    ∀ calls bs, connWriten calls c bs = drain retry bs.length calls c bs := by
  unfold connWriten writen
  cases c.tls with
  | true => exact ⟨fun e => e = .intr ∨ e = .again, retries_tls, fun _ _ => rfl⟩
  | false => exact ⟨fun e => e = .intr, retries_plain, fun _ _ => rfl⟩

/-- Any two numbers of calls that are enough give the same result. -/
theorem connWriten_agree {calls' : ℕ} {r r' : ℤ × Conn} (h : connWriten calls c bs = some r)
    (h' : connWriten calls' c bs = some r') : r = r' := by
  obtain ⟨retry, _, hdrain⟩ := connWriten_drain c
  rw [hdrain] at h h'
  have hm := drain_mono h calls'
  rw [Nat.add_comm, drain_mono h' calls] at hm
  exact (Option.some.inj hm).symm

theorem connWriten_moves (hr : c.tls = true → bs.length < 2 ^ 31)
    (h : Moves c.tls c.writes bs.length) :
    ∃ calls c', connWriten calls c bs = some ((bs.length : ℤ), c') ∧ c'.output = c.output ++ bs := by
  obtain ⟨retry, hretry, hdrain⟩ := connWriten_drain c
  simp only [hdrain]
  exact drain_moves hretry hr h

theorem connWriten_breaks (hr : c.tls = true → bs.length < 2 ^ 31)
    (h : Breaks c.tls c.writes bs.length) : ∃ calls c', connWriten calls c bs = some (-1, c') := by
  obtain ⟨retry, hretry, hdrain⟩ := connWriten_drain c
  simp only [hdrain]
  exact drain_breaks hretry hr h

theorem connWriten_hangs (hr : c.tls = true → bs.length < 2 ^ 31)
    (h : Hangs c.tls c.writes bs.length) (calls : ℕ) : connWriten calls c bs = none := by
  obtain ⟨retry, hretry, hdrain⟩ := connWriten_drain c
  rw [hdrain]
  exact drain_hangs hretry hr h calls

end Write

end MiniTcg.Wire
