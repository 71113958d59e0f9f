import BitUnroll.Logic.Circuit
import BitUnroll.Word.Basic

/-!
# Arithmetic on words

Circuits for the arithmetic of words, built from the gates of `Circuit` in a fixed order. An
operation on two words is only defined where they have one length; `Word.Gated` carries the
lengths where they differ.

## Main definitions

* `Word.add`, `Word.sub`, `Word.negate`: ripple-carry addition.
* `Word.mul`: shift-and-add multiplication.
* `Word.equal`, `Word.lessThan`: comparison.
* `Word.mux`, `Word.bitwise`: bit by bit.
-/

namespace BitUnroll

namespace Word

/-- The lengths of two words that should have been the same. -/
structure LengthMismatch where
  left : Nat
  right : Nat
  deriving DecidableEq, Repr

/-- Circuit building that words of different lengths stop. -/
abbrev Gated := ExceptT LengthMismatch Build

/-- Goes on only with words of one length. -/
def aligned {α : Type} (a b : Word) (x : Build α) : Gated α := do
  if a.length ≠ b.length then throw ⟨a.length, b.length⟩
  x

/-! ## Bit by bit -/

/-- One gate for each pair of bits, from the least significant pair on. -/
def zipGates (f : Literal → Literal → Build Literal) : Word → Word → Build Word
  | x :: a, y :: b => do
    let z ← f x y
    return z :: (← zipGates f a b)
  | _, _ => return []

/-- A gate applied bit by bit. -/
def bitwise (f : Literal → Literal → Build Literal) (a b : Word) : Gated Word :=
  aligned a b (zipGates f a b)

/-- The choice of `a` where the condition is true and of `b` where it is false. -/
def mux (condition : Literal) (a b : Word) : Gated Word :=
  aligned a b (zipGates (Circuit.select condition) a b)

/-! ## Sums -/

/-- The sum and the carry of three bits. -/
def fullAdder (x y carry : Literal) : Build (Literal × Literal) := do
  let half ← Circuit.xor x y
  let sum ← Circuit.xor half carry
  let both ← Circuit.and x y
  let passed ← Circuit.and carry half
  return (sum, ← Circuit.or both passed)

/-- The sum of two words and a carry, without the last carry. -/
def ripple : Literal → Word → Word → Build Word
  | carry, x :: a, y :: b => do
    let (sum, carry) ← fullAdder x y carry
    return sum :: (← ripple carry a b)
  | _, _, _ => return []

/-- Addition with a carry. -/
def add (a b : Word) (carry : Literal) : Gated Word := aligned a b (ripple carry a b)

/-- Subtraction, as the addition of the complement and one. -/
def sub (a b : Word) : Gated Word := add a b.complement .top

/-- Negation, as subtraction from zero. -/
def negate (a : Word) : Gated Word := sub (zero a.length) a

/-! ## Products -/

/-- The word `a` moved up by `shift` places and taken where `bit` is true. -/
def product (a : Word) (shift : Nat) (bit : Literal) : Build Word := do
  return zero (min shift a.length) ++ (← (a.take (a.length - shift)).mapM (Circuit.and bit))

/-- Adds the products of `a` with the bits of `b`, the first of which has place `shift`. -/
def sumProducts (a : Word) : Nat → Word → Word → Gated Word
  | _, sum, [] => return sum
  | shift, sum, bit :: b => do
    let term ← product a shift bit
    sumProducts a (shift + 1) (← add sum term .bottom) b

/-- Multiplication, cut to the width of the factors. -/
def mul (a b : Word) : Gated Word := do
  aligned a b (return ())
  sumProducts a 0 (zero a.length) b

/-! ## Comparisons -/

/-- Whether two words have the same bits. -/
def equal (a b : Word) : Gated Literal :=
  aligned a b do Circuit.andAll (← zipGates Circuit.iff a b)

/-- For pairs of bits from the most significant on: that the first pair to differ is this one,
with a zero on the left. `agree` says that the pairs before agree. -/
def lessTerms : Literal → List (Literal × Literal) → Build (List Literal)
  | _, [] => return []
  | agree, (x, y) :: rest => do
    let less ← Circuit.and (-x) y
    let term ← Circuit.and agree less
    let same ← Circuit.iff x y
    let agree ← Circuit.and agree same
    return term :: (← lessTerms agree rest)

/-- The pairs of bits of two words from the most significant on. The sign bits of signed words
are negated, which turns the signed order into the unsigned one. -/
def orderPairs (signed : Bool) (a b : Word) : List (Literal × Literal) :=
  match (a.zip b).reverse with
  | (x, y) :: rest => if signed then (-x, -y) :: rest else (x, y) :: rest
  | [] => []

/-- Whether the value of `a` is below that of `b`. -/
def lessThan (a b : Word) (signed : Bool) : Gated Literal :=
  aligned a b do Circuit.orAll (← lessTerms .top (orderPairs signed a b))

end Word

end BitUnroll
