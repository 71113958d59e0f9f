import BitUnroll.Logic.Literal

/-!
# Resolvers

Where the bits of state variables come from when they were handed out beforehand. A resolver
answers one question, which literal is bit `bit` of variable `name` in a timeframe, and it never
hands out new literals: a question that it cannot answer is a `Miss`, which is a fault of whoever
filled it and no property of the expression at hand.
-/

namespace BitUnroll

/-- The two timeframes of a single transition. -/
inductive Phase where
  | current
  | next
  deriving DecidableEq, Repr

namespace Phase

/-- The phase with a number. -/
def ofTimeframe? : Nat → Option Phase
  | 0 => some .current
  | 1 => some .next
  | _ => none

/-- The name of a phase in texts. -/
def name : Phase → String
  | .current => "Current"
  | .next => "Next"

end Phase

/-- A question that a resolver cannot answer. -/
inductive Miss where
  | timeframe (name : String) (bit timeframe : Nat)
  | phase (phase : Phase) (name : String) (bit : Nat)
  | notAPhase (name : String) (timeframe : Nat)
  deriving DecidableEq, Repr

/-- The wording of a miss. -/
def Miss.message : Miss → String
  | .timeframe name bit t =>
    "bmc map has no literal for `" ++ name ++ "' bit " ++ toString bit ++ " in timeframe " ++
      toString t
  | .phase p name bit =>
    "var map has no " ++ p.name ++ " literal for `" ++ name ++ "' bit " ++ toString bit
  | .notAPhase name t =>
    "var map cannot resolve `" ++ name ++ "' in timeframe " ++ toString t ++
      ", only current and next exist"

/-- The literals of state variables, by name, bit and timeframe. -/
structure Resolver where
  /-- Whether there are timeframes beyond the current and the next one. -/
  multiStep : Bool
  resolve : String → Nat → Nat → Except Miss Literal

end BitUnroll
