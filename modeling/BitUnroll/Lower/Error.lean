import BitUnroll.Expr.Basic
import BitUnroll.Frame

/-!
# Why an expression cannot be lowered

The causes for which an expression is refused, with their wording.
-/

namespace BitUnroll

/-- What an expression is lowered to. -/
inductive Context where
  | boolean
  | bitvector
  deriving DecidableEq, Repr

/-- The name of a context in texts. -/
def Context.name : Context → String
  | .boolean => "boolean"
  | .bitvector => "bitvector"

/-- Why an expression is refused. -/
inductive LoweringError where
  /-- A truth value was wanted and the word has another number of bits than one. -/
  | expectedOneBit
  /-- The offset of a delay is no number of timeframes. -/
  | delayOffset
  /-- An end of a range of delays is no number of timeframes. -/
  | delayRange
  | timeframeOverflow (overflow : Frame.Overflow)
  | unsupported (kind : Kind) (context : Context)
  | operands (kind : Kind) (expected got : Nat)
  | widthMismatch (expected got : Nat)
  /-- A word was wanted of something whose type has no bits; the text says of what. -/
  | zeroWidth (text : String)
  | outOfRange (index : Int) (width : Nat)
  | nonConstant (kind : Kind)
  deriving DecidableEq, Repr

/-- The wording of a refusal. -/
def LoweringError.message : LoweringError → String
  | .expectedOneBit => "expected one-bit result"
  | .delayOffset => "failed to convert sva_cycle_delay offset"
  | .delayRange => "failed to convert sva_cycle_delay offsets"
  | .timeframeOverflow overflow =>
    "timeframe " ++ toString overflow.base ++ " shifted by " ++ toString overflow.offset ++
      " overflows"
  | .unsupported kind context =>
    "unsupported expression `" ++ kind.id ++ "' in " ++ context.name ++ " context"
  | .operands kind expected got =>
    "`" ++ kind.id ++ "' expects " ++ toString expected ++ " operand(s), got " ++ toString got
  | .widthMismatch expected got =>
    "operand width mismatch: expected " ++ toString expected ++ ", got " ++ toString got
  | .zeroWidth text => "`" ++ text ++ "' has no fixed bit width"
  | .outOfRange index width =>
    "bit index " ++ toString index ++ " out of range for width " ++ toString width
  | .nonConstant kind => "`" ++ kind.id ++ "' requires a constant operand"

end BitUnroll
