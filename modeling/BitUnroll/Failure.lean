import BitUnroll.Lower.Error
import BitUnroll.SExpr.Reader
import BitUnroll.Sat.Solver
import BitUnroll.Script.Error
import BitUnroll.Text

/-!
# Failures

A failure is a cause with the contexts that it went through, the outermost first. Its chain is the
list of all their texts, which ends in the text of the cause.
-/

namespace BitUnroll

open Text (NumeralError)

/-- What an unrolling encodes. -/
inductive Goal where
  | init
  | trans
  /-- A constraint of a script, numbered from one. -/
  | constraint (number : Nat)
  | conversion (name : String)
  deriving DecidableEq, Repr

/-- The name of a goal in texts. -/
def Goal.text : Goal → String
  | .init => "init"
  | .trans => "trans"
  | .constraint number => "constraint #" ++ toString number
  | .conversion name => "conversion `" ++ name ++ "'"

/-- Where a failure went through. -/
inductive FailureContext where
  | command (command : SExpr)
  | typeWidth (type : SExpr)
  | timeframe (text : SExpr)
  | encoding (goal : Goal) (frame : Frame)
  | converting (name : String)
  | checking
  | processing
  | readingFile
  | timeframeCount (text : String)
  deriving Repr

/-- The wording of a context. -/
def FailureContext.message : FailureContext → String
  | .command c => "in command " ++ c.render
  | .typeWidth type => "bad width in type " ++ type.render
  | .timeframe t => "bad timeframe " ++ t.render
  | .encoding goal frame => "failed to encode " ++ goal.text ++ " at " ++ frame.render
  | .converting name => "failed to convert `" ++ name ++ "'"
  | .checking => "SAT check failed"
  | .processing => "failed to process script"
  | .readingFile => "failed to read input file"
  | .timeframeCount text => "invalid timeframe count `" ++ text ++ "'"

/-- What a failure comes from. -/
inductive Cause where
  | reading (error : SyntaxError)
  | script (error : ScriptError)
  | numeral (error : NumeralError)
  | lowering (error : LoweringError)
  | solver (error : SolverError)
  | noTimeframes
  /-- A goal reads a timeframe beyond the allocated ones. -/
  | reach (goal : Goal) (timeframe allocated : Nat)
  | missingFile
  | missingCount
  deriving Repr

/-- The wording of a cause. -/
def Cause.message : Cause → String
  | .reading error => error.message
  | .script error => error.message
  | .numeral error => error.message
  | .lowering error => error.message
  | .solver error => error.message
  | .noTimeframes => "at least one timeframe is required"
  | .reach goal timeframe allocated =>
    goal.text ++ " reaches timeframe " ++ toString timeframe ++ ", but only " ++
      toString allocated ++ " timeframe(s) are allocated"
  | .missingFile => "No such file or directory (os error 2)"
  | .missingCount => "--timeframes expects a number"

/-- A cause with its contexts, the outermost first. -/
structure Failure where
  contexts : List FailureContext := []
  cause : Cause
  deriving Repr

namespace Failure

/-- A cause without contexts. -/
def of (cause : Cause) : Failure := ⟨[], cause⟩

/-- A failure within one more context. -/
def within (context : FailureContext) (f : Failure) : Failure := ⟨context :: f.contexts, f.cause⟩

/-- The texts of a failure, from the outermost context to the cause. -/
def chain (f : Failure) : List String :=
  f.contexts.map FailureContext.message ++ [f.cause.message]

/-- The outermost text. -/
def message (f : Failure) : String :=
  match f.contexts with
  | [] => f.cause.message
  | context :: _ => context.message

/-- The refusal of an expression that a failure comes from. -/
def lowering? (f : Failure) : Option LoweringError :=
  match f.cause with
  | .lowering error => some error
  | _ => none

end Failure

end BitUnroll
