import Mathlib.Tactic.Common
import Mathlib.Data.Int.Notation

/-!
# Narrowing integer conversions

C computes in `int` and stores the result into a narrower field. The two
conversions below take the unbounded result and keep its low bits, as a C
compiler with two's complement does. The lemmas say when the stored value is
the result itself.
-/
namespace MiniTcg.Narrow

/-- `(int16_t)x`. -/
def i16 (x : ℤ) : Int16 := Int16.ofInt x

/-- `(uint8_t)x`. -/
def u8 (x : ℤ) : UInt8 := UInt8.ofInt x

def FitsI16 (x : ℤ) : Prop := -32768 ≤ x ∧ x ≤ 32767
def FitsU8 (x : ℤ) : Prop := 0 ≤ x ∧ x ≤ 255

instance (x : ℤ) : Decidable (FitsI16 x) := inferInstanceAs (Decidable (_ ∧ _))
instance (x : ℤ) : Decidable (FitsU8 x) := inferInstanceAs (Decidable (_ ∧ _))

theorem i16_bounds (v : Int16) : FitsI16 v.toInt := by
  have hl := v.le_toInt
  have hu := v.toInt_lt
  constructor <;> omega

theorem u8_bounds (v : UInt8) : v.toNat ≤ 255 := by
  have h := v.toNat_lt
  omega

/-- A result that fits is stored as it is. -/
theorem toInt_i16 {x : ℤ} (h : FitsI16 x) : (i16 x).toInt = x :=
  Int16.toInt_ofInt_of_le (by have := h.1; omega) (by have := h.2; omega)

theorem toNat_u8 {x : ℤ} (h : FitsU8 x) : ((u8 x).toNat : ℤ) = x := by
  obtain ⟨hl, hu⟩ := h
  have hm : x % 2 ^ 8 = x := Int.emod_eq_of_lt hl (by omega)
  have ht : (u8 x).toNat = x.toNat := by
    simp only [u8, UInt8.ofInt, UInt8.toNat_ofNat', hm]
    omega
  omega

/-- The stored value equals the unbounded one exactly when that one fits. -/
theorem i16_exact_iff (x : ℤ) : (i16 x).toInt = x ↔ FitsI16 x :=
  ⟨fun h => h ▸ i16_bounds (i16 x), toInt_i16⟩

theorem u8_exact_iff (x : ℤ) : ((u8 x).toNat : ℤ) = x ↔ FitsU8 x := by
  refine ⟨fun h => ?_, toNat_u8⟩
  have hb := u8_bounds (u8 x)
  constructor <;> omega

@[simp] theorem toInt_zero16 : (0 : Int16).toInt = 0 := rfl

end MiniTcg.Narrow
