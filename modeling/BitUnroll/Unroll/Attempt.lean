import BitUnroll.Failure
import BitUnroll.Lower.Expr
import BitUnroll.Message
import BitUnroll.Symbols.Unrolled

/-!
# Attempts

Computations of a whole run. A run may fail, may end the program with a status, or may stop on a
broken contract; the messages that it printed are kept in each case.

A run lowers expressions over a map of their variables, and there are two ways to go on where one is
refused. Either the run fails, within a context that the caller gives. Or the text of the refusal is
printed as an error and the program ends; the entry points for this way are told the timeframes of
current and next values one by one, and over the map for a transition they are told none, as there
are only its two phases. In both ways the circuit keeps what was added before.

## Main definitions

* `Halt`: why a run ends early.
* `Attempt`: the computations.
* `Step`: attempts that extend the state of lowering.
* `Lower.orFail`, `Lower.orExit`: the two ways to go on after a refusal.
* `Unrolled.requireOrExit` and others, `TransitionMap.requireOrExit` and others: the entry points
  that end the program.
-/

namespace BitUnroll

/-- Why a run ends early. -/
inductive Halt where
  | failed (failure : Failure)
  | exited (status : Nat)
  | crashed (crash : Crash)
  deriving Repr

/-- Computations that print messages and may end early. -/
abbrev Attempt := ExceptT Halt (StateM MessageLog)

namespace Attempt

variable {α : Type}

/-- Ends a run with a failure. -/
def fail (f : Failure) : Attempt α := throw (.failed f)

/-- Goes on with the result of reading a script. -/
def ofElab : Except Failure α → Attempt α
  | .ok a => return a
  | .error f => fail f

/-- Prints an error and ends the program with status one. -/
def exitWith (text : String) : Attempt α := do
  modify (·.print .error text)
  throw (.exited 1)

/-- Goes on with the result of lowering. A refused expression is a failure within a context. -/
def orFail (context : FailureContext) : Except Fault α → Attempt α
  | .ok a => return a
  | .error (.refused e) => fail ⟨[context], .lowering e⟩
  | .error (.crashed c) => throw (.crashed c)

/-- Goes on with the result of lowering. A refused expression ends the program. -/
def orExit : Except Fault α → Attempt α
  | .ok a => return a
  | .error (.refused e) => exitWith e.message
  | .error (.crashed c) => throw (.crashed c)

end Attempt

/-! ## Lowering within a run -/

/-- Attempts that extend the state of lowering. -/
abbrev Step := StateT Lowering Attempt

namespace Lower

variable {α : Type}

/-- Lowers, and goes on with the result or the fault. -/
def settle (x : Lower α) (go : Except Fault α → Attempt α) : Step α := fun s => do
  match x.run.run s with
  | (result, s) => return (← go result, s)

/-- Lowers an expression whose refusal is a failure within a context. -/
def orFail (x : Lower α) (context : FailureContext) : Step α := x.settle (.orFail context)

/-- Lowers an expression whose refusal ends the program. -/
def orExit (x : Lower α) : Step α := x.settle .orExit

end Lower

namespace Unrolled

variable (map : Unrolled) (types : TypeTable) (e : Expr) (current next : Nat)

/-- Makes an expression true. -/
def requireOrExit : Step Unit := (e.require ⟨types, .mapped map.resolver⟩ ⟨current, next⟩).orExit

/-- Lowers an expression to its truth value. -/
def toLiteralOrExit : Step Literal :=
  (e.toLiteral ⟨types, .mapped map.resolver⟩ ⟨current, next⟩).orExit

/-- Lowers an expression to its word. -/
def toWordOrExit : Step Word := (e.toWord ⟨types, .mapped map.resolver⟩ ⟨current, next⟩).orExit

end Unrolled

namespace TransitionMap

variable (map : TransitionMap) (types : TypeTable) (e : Expr)

/-- Makes an expression true over the two phases of a transition. -/
def requireOrExit : Step Unit := (e.require ⟨types, .mapped map.resolver⟩ .phases).orExit

/-- Lowers an expression over the two phases of a transition to its truth value. -/
def toLiteralOrExit : Step Literal := (e.toLiteral ⟨types, .mapped map.resolver⟩ .phases).orExit

/-- Lowers an expression over the two phases of a transition to its word. -/
def toWordOrExit : Step Word := (e.toWord ⟨types, .mapped map.resolver⟩ .phases).orExit

end TransitionMap

end BitUnroll
