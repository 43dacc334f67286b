import Mathlib.Algebra.BigOperators.Group.List.Basic
import Mathlib.Data.List.Induction
import Mathlib.Algebra.Order.Ring.Nat

/-!
# Numbers of a fixed width in network byte order

`encode w n` is the low `w` bytes of `n`, most significant first. On strings of
`w` bytes it is the inverse of `decode`. `OneOff` relates two strings that differ in
one byte, and says what this does to the sum of the bytes.
-/
namespace MiniTcg.Bytes

def decode (bs : List UInt8) : ℕ := bs.foldl (fun acc b => acc * 256 + b.toNat) 0

def encode : ℕ → ℕ → List UInt8
  | 0, _ => []
  | w + 1, n => encode w (n / 256) ++ [UInt8.ofNat n]

@[simp] theorem encode_length (w n : ℕ) : (encode w n).length = w := by
  induction w generalizing n with
  | zero => rfl
  | succ w ih => rw [encode, List.length_append, ih, List.length_singleton]

theorem decode_append (bs : List UInt8) (b : UInt8) :
    decode (bs ++ [b]) = decode bs * 256 + b.toNat := by
  unfold decode
  rw [List.foldl_append]
  rfl

theorem decode_lt (bs : List UInt8) : decode bs < 256 ^ bs.length := by
  induction bs using List.reverseRecOn with
  | nil => exact Nat.one_pos
  | append_singleton bs b ih =>
    have hb := b.toNat_lt
    rw [decode_append, List.length_append, List.length_singleton, pow_succ]
    omega

theorem decode_encode {w n : ℕ} (h : n < 256 ^ w) : decode (encode w n) = n := by
  induction w generalizing n with
  | zero =>
    rw [pow_zero] at h
    obtain rfl : n = 0 := by omega
    rfl
  | succ w ih =>
    have hq : n / 256 < 256 ^ w := by
      rw [pow_succ] at h
      exact Nat.div_lt_of_lt_mul (by rwa [Nat.mul_comm])
    have hb : (UInt8.ofNat n).toNat = n % 256 := by simp
    rw [encode, decode_append, ih hq, hb]
    omega

theorem encode_decode (bs : List UInt8) : encode bs.length (decode bs) = bs := by
  induction bs using List.reverseRecOn with
  | nil => rfl
  | append_singleton bs b ih =>
    have hb := b.toNat_lt
    have hq : (decode bs * 256 + b.toNat) / 256 = decode bs := by omega
    have hr : UInt8.ofNat (decode bs * 256 + b.toNat) = b := by
      apply UInt8.toNat_inj.mp
      simp only [UInt8.toNat_ofNat']
      omega
    rw [List.length_append, List.length_singleton, decode_append, encode, hq, hr, ih]

theorem encode_inj {w n m : ℕ} (hn : n < 256 ^ w) (hm : m < 256 ^ w)
    (h : encode w n = encode w m) : n = m := by
  rw [← decode_encode hn, h, decode_encode hm]

/-! ### One byte changed -/

/-- The sum of the bytes. -/
def weight (bs : List UInt8) : ℕ := (bs.map UInt8.toNat).sum

/-- The two strings differ in exactly one byte. -/
def OneOff (bs bs' : List UInt8) : Prop :=
  ∃ u b b' v, b ≠ b' ∧ bs = u ++ b :: v ∧ bs' = u ++ b' :: v

theorem weight_append (bs cs : List UInt8) : weight (bs ++ cs) = weight bs + weight cs := by
  unfold weight
  rw [List.map_append, List.sum_append]

theorem weight_cons (b : UInt8) (bs : List UInt8) : weight (b :: bs) = b.toNat + weight bs := by
  unfold weight
  rw [List.map_cons, List.sum_cons]

theorem weight_le (bs : List UInt8) : weight bs ≤ 255 * bs.length := by
  induction bs with
  | nil => exact Nat.zero_le _
  | cons b bs ih =>
    have hb := b.toNat_lt
    rw [weight_cons, List.length_cons]
    omega

theorem weight_pos {bs : List UInt8} (h : 0 < decode bs) : 0 < weight bs := by
  induction bs using List.reverseRecOn with
  | nil => exact h
  | append_singleton bs b ih =>
    rw [decode_append] at h
    rw [weight_append, weight_cons]
    by_cases hb : 0 < b.toNat
    · omega
    · have := ih (by omega)
      omega

theorem OneOff.length_eq {bs bs' : List UInt8} (h : OneOff bs bs') : bs.length = bs'.length := by
  obtain ⟨u, b, b', v, _, rfl, rfl⟩ := h
  rw [List.length_append, List.length_append, List.length_cons, List.length_cons]

theorem OneOff.ne {bs bs' : List UInt8} (h : OneOff bs bs') : bs ≠ bs' := by
  obtain ⟨u, b, b', v, hne, rfl, rfl⟩ := h
  intro heq
  exact hne (List.cons.inj (List.append_cancel_left heq)).1

/-- The changed byte moves the sum, by at most 255. -/
theorem OneOff.weight {bs bs' : List UInt8} (h : OneOff bs bs') :
    weight bs ≠ weight bs' ∧ weight bs ≤ weight bs' + 255 ∧ weight bs' ≤ weight bs + 255 := by
  obtain ⟨u, b, b', v, hne, rfl, rfl⟩ := h
  have hval : b.toNat ≠ b'.toNat := fun heq => hne (UInt8.toNat_inj.mp heq)
  have hb := b.toNat_lt
  have hb' := b'.toNat_lt
  rw [weight_append, weight_append, weight_cons, weight_cons]
  omega

/-- The changed byte lies in the one part or in the other. -/
theorem OneOff.append {x x' y y' : List UInt8} (hl : x.length = x'.length)
    (h : OneOff (x ++ y) (x' ++ y')) : (OneOff x x' ∧ y = y') ∨ (x = x' ∧ OneOff y y') := by
  obtain ⟨u, b, b', v, hne, hxy, hxy'⟩ := h
  rcases List.append_eq_append_iff.mp hxy with ⟨w, rfl, rfl⟩ | ⟨w, rfl, hw⟩
  · right
    rw [List.append_assoc] at hxy'
    obtain ⟨rfl, rfl⟩ := List.append_inj hxy' hl.symm
    exact ⟨rfl, w, b, b', v, hne, rfl, rfl⟩
  · cases w with
    | nil =>
      right
      rw [List.nil_append] at hw
      rw [List.append_nil] at hl ⊢
      obtain ⟨rfl, rfl⟩ := List.append_inj hxy' hl.symm
      exact ⟨rfl, [], b, b', v, hne, hw.symm, rfl⟩
    | cons d w =>
      left
      rw [List.cons_append] at hw
      obtain ⟨rfl, rfl⟩ := List.cons.inj hw
      have hcut : x' ++ y' = (u ++ b' :: w) ++ y := by rw [hxy', List.append_assoc, List.cons_append]
      have hlen : x'.length = (u ++ b' :: w).length := by
        rw [← hl, List.length_append, List.length_append, List.length_cons, List.length_cons]
      obtain ⟨rfl, rfl⟩ := List.append_inj hcut hlen
      exact ⟨⟨u, b, b', w, hne, rfl, rfl⟩, rfl⟩

theorem OneOff.cons {b b' : UInt8} {y y' : List UInt8} (h : OneOff (b :: y) (b' :: y')) :
    (b ≠ b' ∧ y = y') ∨ (b = b' ∧ OneOff y y') := by
  have hone : ([b] : List UInt8).length = [b'].length := rfl
  rcases OneOff.append hone h with ⟨hb, hy⟩ | ⟨hb, hy⟩
  · exact Or.inl ⟨fun heq => hb.ne (by rw [heq]), hy⟩
  · exact Or.inr ⟨(List.cons.inj hb).1, hy⟩

/-- A four-byte number below 512 that one changed byte makes smaller: the sum
falls with it, and by little. -/
theorem OneOff.smaller {bs bs' : List UInt8} (h : OneOff bs bs') (hl : bs.length = 4)
    (hlt : decode bs' < decode bs) (hsmall : decode bs ≤ 511) :
    Bytes.weight bs' < Bytes.weight bs ∧
      Bytes.weight bs + 255 * (decode bs - decode bs') < Bytes.weight bs' + 65535 := by
  have hl' : bs'.length = 4 := h.length_eq.symm.trans hl
  obtain ⟨b₃, b₂, b₁, b₀, rfl⟩ := List.length_eq_four.mp hl
  obtain ⟨c₃, c₂, c₁, c₀, rfl⟩ := List.length_eq_four.mp hl'
  have hb₀ := b₀.toNat_lt
  have hc₀ := c₀.toNat_lt
  simp only [decode, List.foldl_cons, List.foldl_nil, weight_cons] at hlt hsmall ⊢
  rcases h.cons with ⟨_, htail⟩ | ⟨rfl, h1⟩
  · cases htail
    omega
  rcases h1.cons with ⟨_, htail⟩ | ⟨rfl, h2⟩
  · cases htail
    omega
  rcases h2.cons with ⟨_, htail⟩ | ⟨rfl, h3⟩
  · cases htail
    omega
  rcases h3.cons with ⟨_, htail⟩ | ⟨rfl, h4⟩
  · omega
  · exact absurd rfl h4.ne

end MiniTcg.Bytes
