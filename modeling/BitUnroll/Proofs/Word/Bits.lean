import BitUnroll.Word.Lemmas
import Mathlib.Data.Int.ModEq
import Mathlib.Data.List.Induction
import Mathlib.Tactic.Ring

/-!
# Arithmetic of bits

What the operations on lists of bits do to the numbers that the lists stand for: putting lists in a
row, cutting and extending them, negating all bits, moving them up, and comparing two lists from
the most significant bit on.

## Main statements

* `Bits.ofInt_congr`: the bits of a number are a matter of its remainder.
* `Bits.ofInt_value`: extension and truncation keep the value, modulo the width.
* `Bits.toInt_eq_bmod`, `Bits.toInt_ofInt`: the signed value as a balanced remainder.
* `Bits.less_iff`: comparing bits from the most significant one on compares numbers.
* `Bits.toInt_lt_iff`, `Bits.value_lt_eq_iff`: the signed order beside the unsigned one.
-/

namespace BitUnroll

namespace Bits

/-- The bits of a number, from its last bit and the bits of the rest. -/
theorem ofInt_bit (width : Nat) (b : Bool) (n : Int) :
    ofInt (width + 1) (b.toNat + 2 * n) = b :: ofInt width n := by
  have hdiv : ((b.toNat : Int) + 2 * n) / 2 = n := by cases b <;> simp; omega
  have hmod : ((b.toNat : Int) + 2 * n) % 2 = b.toNat := by cases b <;> simp
  rw [ofInt, hdiv, hmod]
  cases b <;> rfl

/-- The bits of a number are a matter of its remainder. -/
theorem ofInt_congr {width : Nat} {m n : Int} (h : m % 2 ^ width = n % 2 ^ width) :
    ofInt width m = ofInt width n := by
  induction width generalizing m n with
  | zero => rfl
  | succ width ih =>
    have hpow : (2 : Int) ^ (width + 1) = 2 * 2 ^ width := by rw [Int.pow_succ, Int.mul_comm]
    have hpos : (0 : Int) < 2 ^ width := Int.pow_pos (by decide)
    rw [hpow, emod_two_mul m hpos, emod_two_mul n hpos] at h
    have hlast : m % 2 = n % 2 := by omega
    have hrest : m / 2 % 2 ^ width = n / 2 % 2 ^ width := by omega
    rw [ofInt, ofInt, hlast, ih hrest]

theorem ofInt_zero (width : Nat) : ofInt width 0 = List.replicate width false := by
  induction width with
  | zero => rfl
  | succ width ih =>
    rw [show (0 : Int) = (false.toNat : Int) + 2 * 0 by rfl, ofInt_bit, ih, List.replicate_succ]

theorem ofInt_neg_one (width : Nat) : ofInt width (-1) = List.replicate width true := by
  induction width with
  | zero => rfl
  | succ width ih =>
    rw [show (-1 : Int) = (true.toNat : Int) + 2 * (-1) by rfl, ofInt_bit, ih,
      List.replicate_succ]

/-- Each bit of a number is the remainder of a shifted number. -/
theorem getElem?_ofInt {width i : Nat} (h : i < width) (n : Int) :
    (ofInt width n)[i]? = some (n / 2 ^ i % 2 == 1) := by
  induction width generalizing i n with
  | zero => omega
  | succ width ih =>
    cases i with
    | zero => simp [ofInt]
    | succ i =>
      rw [ofInt, List.getElem?_cons_succ, ih (Nat.lt_of_succ_lt_succ h), Int.pow_succ',
        Int.ediv_ediv_of_nonneg (by decide)]

/-- The bits beyond the range of a number repeat its sign. -/
theorem getElem?_ofInt_of_le {width limit i : Nat} (h : i < width) (hi : limit ≤ i) {n : Int}
    (hlow : -2 ^ limit ≤ n) (hhigh : n < 2 ^ limit) :
    (ofInt width n)[i]? = some (decide (n < 0)) := by
  have hpow : (2 : Int) ^ limit ≤ 2 ^ i := by exact_mod_cast Nat.pow_le_pow_right (by decide) hi
  rw [getElem?_ofInt h]
  by_cases hn : n < 0
  · have hquotient : n / 2 ^ i = -1 := by
      rw [Int.ediv_eq_iff_of_pos] <;> omega
    simp [hn, hquotient]
  · rw [Int.ediv_eq_zero_of_lt (by omega) (by omega)]
    simp [hn]

/-- Cutting or extending bits keeps their value, as far as the width goes. -/
theorem ofInt_value (width : Nat) (signed : Bool) (b : Bits) :
    ofInt width (b.value signed) =
      b.take width ++ List.replicate (width - b.length) (signed && b.getLastD false) := by
  induction b generalizing width with
  | nil => cases signed <;> simp [value, toInt, ofInt_zero]
  | cons bit rest ih =>
    cases width with
    | zero => simp [ofInt]
    | succ width =>
      cases signed with
      | false =>
        have h := ih width
        simp only [value, Bool.false_eq_true, if_false, Bool.false_and] at h ⊢
        rw [toNat_cons, Nat.cast_add, Nat.cast_mul, Nat.cast_two, ofInt_bit, h]
        simp
      | true =>
        cases rest with
        | nil => cases bit <;> simp [value, toInt, ofInt_zero, ofInt_neg_one, List.replicate_succ]
        | cons bit' rest =>
          have h := ih width
          simp only [value, if_true, Bool.true_and] at h ⊢
          rw [toInt, ofInt_bit, h]
          · simp
          · simp

theorem ofInt_toNat (b : Bits) : ofInt b.length b.toNat = b := by
  have h := ofInt_value b.length false b
  simpa [value] using h

theorem take_eq_ofInt {width : Nat} {b : Bits} (h : width ≤ b.length) :
    b.take width = ofInt width b.toNat := by
  have hvalue := ofInt_value width false b
  simpa [value, Nat.sub_eq_zero_of_le h] using hvalue.symm

/-- Bits that are taken where a truth value is true. -/
theorem map_and_take {width : Nat} {b : Bits} (h : width ≤ b.length) (p : Bool) :
    (b.take width).map (p && ·) = ofInt width (b.toNat * p.toNat) := by
  cases p
  · simp [ofInt_zero, List.map_const', h]
  · simp [take_eq_ofInt h]

/-- Moving bits up multiplies by a power of two. -/
theorem ofInt_two_pow_mul (width shift : Nat) (n : Int) :
    ofInt width (2 ^ shift * n) =
      List.replicate (min shift width) false ++ ofInt (width - shift) n := by
  induction shift generalizing width with
  | zero => simp
  | succ shift ih =>
    cases width with
    | zero => simp [ofInt]
    | succ width =>
      have hpow : (2 : Int) ^ (shift + 1) * n = (false.toNat : Int) + 2 * (2 ^ shift * n) := by
        simp [Int.pow_succ]
        ring
      rw [hpow, ofInt_bit, ih, Nat.add_min_add_right, List.replicate_succ, Nat.add_sub_add_right]
      rfl

theorem toNat_append (a b : Bits) : toNat (a ++ b) = a.toNat + 2 ^ a.length * b.toNat := by
  induction a with
  | nil => simp
  | cons bit a ih =>
    rw [List.cons_append, toNat_cons, toNat_cons, ih, List.length_cons, Nat.pow_succ]
    ring

/-- The last bit of signed bits counts negative. -/
theorem toInt_concat (a : Bits) (b : Bool) :
    toInt (a ++ [b]) = (a.toNat : Int) - 2 ^ a.length * b.toNat := by
  induction a with
  | nil => simp [toInt]
  | cons bit a ih =>
    rw [List.cons_append, toInt, ih, toNat_cons, List.length_cons, Int.pow_succ]
    · push_cast
      ring
    · simp

/-- The signed value of bits is the balanced remainder of their unsigned value. -/
theorem toInt_eq_bmod (b : Bits) : b.toInt = (b.toNat : Int).bmod (2 ^ b.length) := by
  rcases List.eq_nil_or_concat b with rfl | ⟨a, p, rfl⟩
  · rfl
  · have hlow := toNat_lt a
    have hcast : (2 : Int) ^ a.length = (2 ^ a.length : Nat) := by push_cast; rfl
    rw [List.concat_eq_append, toInt_concat, toNat_append, List.length_append,
      List.length_singleton, Nat.pow_succ', hcast]
    generalize 2 ^ a.length = m at *
    cases p with
    | false => rw [Int.bmod_eq_of_le] <;> simp; omega
    | true => rw [← Int.sub_bmod_right, Int.bmod_eq_of_le] <;> simp <;> omega

/-- The signed value of the bits of a number is the number's balanced remainder. -/
theorem toInt_ofInt (width : Nat) (n : Int) : (ofInt width n).toInt = n.bmod (2 ^ width) := by
  rw [toInt_eq_bmod, toNat_ofInt, length_ofInt]
  exact_mod_cast Int.emod_bmod n (2 ^ width)

/-- Both values of bits are equal, as far as the width goes. -/
theorem toInt_modEq_toNat (b : Bits) : b.toInt ≡ b.toNat [ZMOD 2 ^ b.length] := by
  rw [toInt_eq_bmod]
  exact_mod_cast Int.bmod_emod (x := b.toNat) (m := 2 ^ b.length)

/-- The values of bits and of their negations make up the largest number of the width. -/
theorem toNat_complement (b : Bits) : toNat (b.map (!·)) + b.toNat + 1 = 2 ^ b.length := by
  induction b with
  | nil => rfl
  | cons bit rest ih =>
    rw [List.map_cons, toNat_cons, toNat_cons, List.length_cons, Nat.pow_succ, ← ih]
    cases bit <;> simp <;> omega

/-! ## Comparison -/

/-- Whether the first of these pairs of bits to differ has a zero on the left. -/
def less : List (Bool × Bool) → Bool
  | [] => false
  | (p, q) :: rest => (!p && q) || ((p == q) && less rest)

/-- Comparing bits from the most significant one on compares the unsigned values. -/
theorem less_iff (ps : List (Bool × Bool)) :
    less ps.reverse = decide (toNat (ps.map (·.1)) < toNat (ps.map (·.2))) := by
  induction ps using List.reverseRecOn with
  | nil => rfl
  | append_singleton ps last ih =>
    obtain ⟨p, q⟩ := last
    have hleft := toNat_lt (ps.map (·.1))
    have hright := toNat_lt (ps.map (·.2))
    rw [List.length_map] at hleft hright
    rw [List.reverse_concat, less, ih, List.map_append, List.map_append, toNat_append,
      toNat_append, List.length_map, List.length_map, Bool.eq_iff_iff]
    cases p <;> cases q <;> simp <;> omega

/-- With negated sign bits it compares the signed values. -/
theorem less_signed_iff (ps : List (Bool × Bool)) (p q : Bool) :
    less ((!p, !q) :: ps.reverse) =
      decide (toInt (ps.map (·.1) ++ [p]) < toInt (ps.map (·.2) ++ [q])) := by
  have hleft := toNat_lt (ps.map (·.1))
  have hright := toNat_lt (ps.map (·.2))
  rw [List.length_map] at hleft hright
  rw [less, less_iff, toInt_concat, toInt_concat, List.length_map, List.length_map,
    Bool.eq_iff_iff]
  have hpow : ((2 ^ ps.length : Nat) : Int) = 2 ^ ps.length := by simp
  cases p <;> cases q <;> simp <;> omega

/-- The signed order is the unsigned one, turned round where the sign bits differ. -/
theorem toInt_lt_iff {a b : Bits} (h : a.length = b.length) :
    decide (a.toInt < b.toInt) =
      (a.getLastD false ^^ b.getLastD false ^^ decide (a.toNat < b.toNat)) := by
  rcases List.eq_nil_or_concat a with rfl | ⟨a, p, rfl⟩ <;>
    rcases List.eq_nil_or_concat b with rfl | ⟨b, q, rfl⟩
  · rfl
  · simp at h
  · simp at h
  · have hlength : a.length = b.length := by simpa using h
    have hleft := toNat_lt a
    have hright := toNat_lt b
    have hcast : (2 : Int) ^ b.length = (2 ^ b.length : Nat) := by push_cast; rfl
    rw [List.concat_eq_append, List.concat_eq_append, toInt_concat, toInt_concat, toNat_append,
      toNat_append, List.getLastD_concat, List.getLastD_concat, hlength, hcast, Bool.eq_iff_iff]
    rw [hlength] at hleft
    cases p <;> cases q <;> simp <;> omega

/-- The signed and the unsigned order agree exactly where the sign bits do. -/
theorem value_lt_eq_iff {a b : Bits} (h : a.length = b.length) (signed signed' : Bool) :
    (decide (a.value signed < b.value signed) = decide (a.value signed' < b.value signed')) ↔
      signed = signed' ∨ a.getLastD false = b.getLastD false := by
  have horder := toInt_lt_iff h
  cases signed <;> cases signed' <;> simp only [value, if_true, Bool.false_eq_true, if_false,
    Int.ofNat_lt, horder] <;> cases a.getLastD false <;> cases b.getLastD false <;> simp

end Bits

end BitUnroll
