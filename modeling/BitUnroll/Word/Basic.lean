import BitUnroll.Logic.Literal

/-!
# Bits and words

Lists of truth values as numbers, the least significant bit first: the unsigned value, in which
every bit counts positive, and the two's complement value, in which the last one counts negative. A
word is a list of literals in the same order, and under an assignment it has the values of its bits.

## Main definitions

* `Bits.toNat`, `Bits.toInt`: the two values.
* `Bits.ofInt`: the bits of a number.
* `Word.toNat`, `Word.toInt`: the values of a word.
* `Word.ofInt`: the constant word of a number.
* `Word.resize`: extension or truncation to a width.
-/

namespace BitUnroll

/-! ## Bits -/

/-- Truth values in a row, the least significant first. -/
abbrev Bits := List Bool

namespace Bits

/-- The unsigned value. -/
def toNat : Bits → Nat
  | [] => 0
  | b :: rest => b.toNat + 2 * toNat rest

/-- The two's complement value. -/
def toInt : Bits → Int
  | [] => 0
  | [b] => -b.toNat
  | b :: rest => b.toNat + 2 * toInt rest

/-- The value of signed or unsigned bits. -/
def value (signed : Bool) (b : Bits) : Int := if signed then b.toInt else b.toNat

/-- The two's complement bits of a number. -/
def ofInt : Nat → Int → Bits
  | 0, _ => []
  | width + 1, n => (n % 2 == 1) :: ofInt width (n / 2)

@[simp] theorem toNat_nil : toNat [] = 0 := rfl

@[simp] theorem toNat_cons (b : Bool) (rest : Bits) :
    toNat (b :: rest) = b.toNat + 2 * toNat rest := rfl

@[simp] theorem length_ofInt (width : Nat) (n : Int) : (ofInt width n).length = width := by
  induction width generalizing n with
  | zero => rfl
  | succ width ih => simp [ofInt, ih]

end Bits

/-! ## Words -/

/-- The bits of a word, the least significant first. -/
abbrev Word := List Literal

namespace Word

/-- The values of the bits of a word. -/
def bits (w : Word) (v : Valuation) : Bits := w.map (·.eval v)

/-- The unsigned value of a word under an assignment. -/
def toNat (w : Word) (v : Valuation) : Nat := (w.bits v).toNat

/-- The two's complement value of a word under an assignment. -/
def toInt (w : Word) (v : Valuation) : Int := (w.bits v).toInt

/-- The constant word of a number. -/
def ofInt (width : Nat) (n : Int) : Word := (Bits.ofInt width n).map .ofBool

/-- The word of zero. -/
def zero (width : Nat) : Word := List.replicate width .bottom

/-- The word with every bit negated. -/
def complement (w : Word) : Word := w.map (- ·)

/-- The bit that extension repeats: the last one for signed words, zero otherwise. -/
def extension (signed : Bool) (w : Word) : Literal :=
  if signed then w.getLastD .bottom else .bottom

/-- The word cut or extended to a width. -/
def resize (w : Word) (width : Nat) (signed : Bool) : Word :=
  w.take width ++ List.replicate (width - w.length) (w.extension signed)

/-- The bits from number `lower` to number `upper`, both included. -/
def slice (w : Word) (upper lower : Nat) : Word := (w.drop lower).take (upper + 1 - lower)

@[simp] theorem toNat_nil (v : Valuation) : toNat [] v = 0 := rfl

@[simp] theorem toNat_cons (l : Literal) (w : Word) (v : Valuation) :
    toNat (l :: w) v = (l.eval v).toNat + 2 * toNat w v := rfl

@[simp] theorem length_bits (w : Word) (v : Valuation) : (w.bits v).length = w.length := by
  simp [bits]

@[simp] theorem length_ofInt (width : Nat) (n : Int) : (ofInt width n).length = width := by
  simp [ofInt]

@[simp] theorem length_zero (width : Nat) : (zero width).length = width := by simp [zero]

@[simp] theorem length_complement (w : Word) : w.complement.length = w.length := by
  simp [complement]

@[simp] theorem length_resize (w : Word) (width : Nat) (signed : Bool) :
    (w.resize width signed).length = width := by
  simp only [resize, List.length_append, List.length_take, List.length_replicate]
  omega

/-- The constants of bits have these bits. -/
theorem bits_map_ofBool {v : Valuation} (hv : v 0 = true) (ps : Bits) :
    bits (ps.map .ofBool) v = ps := by
  simp [bits, Function.comp_def, Literal.eval_ofBool hv]

/-- The constant word of a number has the bits of that number. -/
theorem bits_ofInt {v : Valuation} (hv : v 0 = true) (width : Nat) (n : Int) :
    (ofInt width n).bits v = Bits.ofInt width n := bits_map_ofBool hv _

end Word

end BitUnroll
