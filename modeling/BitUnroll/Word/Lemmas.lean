import Mathlib.Tactic.Ring
import BitUnroll.Word.Basic

/-!
# Values of words

The unsigned value of bits lies below two to the power of their number, and the bits of a number
have as their value that number's remainder. The same holds of words under an assignment.

## Main statements

* `Bits.toNat_lt`, `Word.toNat_lt`: the range of the unsigned value.
* `Bits.toNat_ofInt`, `Word.toNat_ofInt`: the value of a constant.
-/

namespace BitUnroll

namespace Bits

theorem toNat_lt (b : Bits) : b.toNat < 2 ^ b.length := by
  induction b with
  | nil => simp
  | cons bit rest ih =>
    have := bit.toNat_lt
    simp only [toNat_cons, List.length_cons, Nat.pow_succ]
    omega

/-- The remainder by twice a number, from the last bit and the remainder of the rest. -/
theorem emod_two_mul (n : Int) {m : Int} (hm : 0 < m) :
    n % (2 * m) = n % 2 + 2 * (n / 2 % m) := by
  have hn := Int.mul_ediv_add_emod n 2
  have hq := Int.mul_ediv_add_emod (n / 2) m
  have hlow := Int.emod_nonneg n (by decide : (2 : Int) ≠ 0)
  have hhigh := Int.emod_lt_of_pos n (by decide : (0 : Int) < 2)
  have hlow' := Int.emod_nonneg (n / 2) (Int.ne_of_gt hm)
  have hhigh' := Int.emod_lt_of_pos (n / 2) hm
  have hsum : n = (n % 2 + 2 * (n / 2 % m)) + 2 * m * (n / 2 / m) := by
    rw [Int.mul_assoc]
    omega
  rw [hsum, Int.add_mul_emod_self_left, ← hsum]
  exact Int.emod_eq_of_lt (by omega) (by omega)

/-- The bits of a number have that number as their value, modulo `2 ^ width`. -/
theorem toNat_ofInt (width : Nat) (n : Int) : ((ofInt width n).toNat : Int) = n % 2 ^ width := by
  induction width generalizing n with
  | zero => simp [ofInt]
  | succ width ih =>
    have hpow : (2 : Int) ^ (width + 1) = 2 * 2 ^ width := by rw [Int.pow_succ, Int.mul_comm]
    have hbit : ((n % 2 == 1).toNat : Int) = n % 2 := by
      rcases Int.emod_two_eq n with h | h <;> simp [h]
    simp only [ofInt, toNat_cons]
    push_cast
    rw [ih, hbit, hpow, emod_two_mul n (Int.pow_pos (by decide))]

end Bits

namespace Word

theorem toNat_lt (w : Word) (v : Valuation) : w.toNat v < 2 ^ w.length := by
  simpa [toNat] using (w.bits v).toNat_lt

/-- The constant word of a number has that number as its value, modulo `2 ^ width`. -/
theorem toNat_ofInt {v : Valuation} (hv : v 0 = true) (width : Nat) (n : Int) :
    ((ofInt width n).toNat v : Int) = n % 2 ^ width := by
  rw [toNat, bits_ofInt hv, Bits.toNat_ofInt]

end Word

end BitUnroll
