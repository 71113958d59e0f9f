/-!
# Blank characters and numerals

The parts of a text that are no names. Blank characters separate words: they are those with the
Unicode property `White_Space`. Core's `Char.isWhitespace` knows only the ASCII ones without the
form feed and the vertical tab, so the property is tabulated here.

An unsigned numeral is an optional `+` and at least one ASCII digit; it is refused with the first
fault met from the left, and a character that is no digit counts before the size of the number read
so far. A signed numeral may start with `-` as well.

## Main definitions

* `Text.isBlank`: the blank characters.
* `Text.readNat`, `Text.readInt?`: readers of unsigned and signed numerals.
-/

namespace BitUnroll.Text

/-! ## Blank characters -/

/-- The closed code point ranges of the property `White_Space`, in increasing order. -/
def blankRanges : List (Nat × Nat) :=
  [(0x09, 0x0d), (0x20, 0x20), (0x85, 0x85), (0xa0, 0xa0), (0x1680, 0x1680), (0x2000, 0x200a),
    (0x2028, 0x2029), (0x202f, 0x202f), (0x205f, 0x205f), (0x3000, 0x3000)]

/-- Whether a character has the property `White_Space`. -/
def isBlank (c : Char) : Bool :=
  blankRanges.any fun (low, high) => low ≤ c.toNat && c.toNat ≤ high

/-- Every character that core calls whitespace is blank. -/
theorem isBlank_of_isWhitespace {c : Char} (h : c.isWhitespace = true) : isBlank c = true := by
  simp only [Char.isWhitespace, Bool.or_eq_true, decide_eq_true_eq] at h
  rcases h with ((rfl | rfl) | rfl) | rfl <;> decide

/-- The property has twenty-five members. -/
theorem blankRanges_card :
    blankRanges.foldl (fun n (low, high) => n + (high + 1 - low)) 0 = 25 := by
  decide

/-! ## Numerals -/

/-- Why a text is no unsigned numeral. -/
inductive NumeralError where
  | empty
  | invalidDigit
  | tooLarge
  deriving DecidableEq, Repr

/-- The wording of a numeral fault. -/
def NumeralError.message : NumeralError → String
  | .empty => "cannot parse integer from empty string"
  | .invalidDigit => "invalid digit found in string"
  | .tooLarge => "number too large to fit in target type"

/-- The counts that a script can give, widths and timeframes, have sixty-four bits and stay below
this one. -/
def countLimit : Nat := 0x10000000000000000

/-- The numbers that a script can give have a hundred and twenty-eight bits, one of them for the
sign, and stay below this one. -/
def intLimit : Nat := 0x80000000000000000000000000000000

/-- The value of an ASCII digit. -/
def digit? (c : Char) : Option Nat :=
  if '0' ≤ c ∧ c ≤ '9' then some (c.toNat - '0'.toNat) else none

/-- The number that digits are. There is at least one. -/
def nat? : List Char → Option Nat
  | [] => none
  | digits => digits.foldlM (fun acc c => (digit? c).map (acc * 10 + ·)) 0

/-- Reads digits after a number `acc`, refusing any number of `bound` or more. -/
def readDigits (bound : Nat) : Nat → List Char → Except NumeralError Nat
  | acc, [] => .ok acc
  | acc, c :: rest =>
    match digit? c with
    | none => .error .invalidDigit
    | some d =>
      if acc * 10 + d < bound then readDigits bound (acc * 10 + d) rest else .error .tooLarge

/-- Reads an unsigned numeral below `bound`. A sign with nothing after it is an invalid digit,
and so is the sign `-`. -/
def readNat (bound : Nat) (s : String) : Except NumeralError Nat :=
  match s.toList with
  | [] => .error .empty
  | ['+'] => .error .invalidDigit
  | '+' :: digits => readDigits bound 0 digits
  | digits => readDigits bound 0 digits

/-- Reads a numeral from `-bound` up to `bound - 1`. -/
def readInt? (bound : Nat) (s : String) : Option Int :=
  match s.toList with
  | [] | ['+'] | ['-'] => none
  | '-' :: digits => (readDigits (bound + 1) 0 digits).toOption.map fun n => -(n : Int)
  | '+' :: digits => (readDigits bound 0 digits).toOption.map Int.ofNat
  | digits => (readDigits bound 0 digits).toOption.map Int.ofNat

end BitUnroll.Text
