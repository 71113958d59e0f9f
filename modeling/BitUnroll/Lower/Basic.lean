import BitUnroll.Lower.Error
import BitUnroll.Symbols.Transition
import BitUnroll.Types
import BitUnroll.Word.Arithmetic

/-!
# Lowering computations

Lowering an expression extends a circuit, may hand out literals to names, and may stop. What was
added before it stopped stays. The state also notes each question that was put to a resolver.

## Main definitions

* `Fault`: why lowering stops, because the expression is refused or because of a crash, which is
  a fault of the caller.
* `Lowering`: the state.
* `Lower`: the computations.
* `Symbols`: where the bits of variables come from.
-/

namespace BitUnroll

/-- A contract that a caller broke. -/
inductive Crash where
  | missing (miss : Miss)
  | unequalWords (lengths : Word.LengthMismatch)
  | missingOperand
  | missingBit
  deriving DecidableEq, Repr

/-- Why lowering stops. -/
inductive Fault where
  | refused (error : LoweringError)
  | crashed (crash : Crash)
  deriving DecidableEq, Repr

/-- A question to a resolver. -/
structure Read where
  name : String
  bit : Nat
  timeframe : Nat
  deriving DecidableEq, Repr

/-- The state of lowering: the circuit, the literals handed out to names, and the questions put to
a resolver, in order. -/
structure Lowering where
  circuit : Circuit
  bound : Std.TreeMap NamedBit Literal NamedBit.order := ∅
  reads : Array Read := #[]

/-- Computations that extend the state of lowering and may stop. -/
abbrev Lower := ExceptT Fault (StateM Lowering)

namespace Lower

variable {α : Type}

/-- Refuses an expression. -/
def refuse (e : LoweringError) : Lower α := throw (.refused e)

/-- Stops because a contract was broken. -/
def crash (c : Crash) : Lower α := throw (.crashed c)

/-- Extends the circuit. -/
def build (x : Build α) : Lower α := .mk fun
  | ⟨circuit, bound, reads⟩ =>
    let (a, circuit) := x circuit
    (.ok a, ⟨circuit, bound, reads⟩)

/-- Extends the circuit with an operation on words, which should have one length. -/
def gated (x : Word.Gated α) : Lower α := do
  match ← build x.run with
  | .ok a => return a
  | .error lengths => crash (.unequalWords lengths)

/-- The state of a name's bit, if it has a literal. -/
def bound? (name : String) (bit : Nat) : Lower (Option Literal) := do
  return (← get).bound[(⟨name, bit⟩ : NamedBit)]?

/-- Lets a literal stand for a name's bit. -/
def bind (name : String) (bit : Nat) (l : Literal) : Lower Unit :=
  modify fun s => { s with bound := s.bound.insert ⟨name, bit⟩ l }

/-- The literal of a name's bit, a fresh one where there is none yet. -/
def demand (name : String) (bit : Nat) : Lower Literal := do
  match ← bound? name bit with
  | some l => return l
  | none =>
    let l ← build Circuit.fresh
    bind name bit l
    return l

/-- Puts a question to a resolver and notes it. -/
def ask (r : Resolver) (name : String) (bit timeframe : Nat) : Lower Literal := do
  modify fun s => { s with reads := s.reads.push ⟨name, bit, timeframe⟩ }
  match r.resolve name bit timeframe with
  | .ok l => return l
  | .error miss => crash (.missing miss)

/-- A frame moved forward. -/
def shift (f : Frame) (offset : Nat) : Lower Frame :=
  match f.shift offset with
  | .ok g => return g
  | .error overflow => refuse (.timeframeOverflow overflow)

/-- Refuses a number of bits other than the expected one. -/
def sameWidth (expected got : Nat) : Lower Unit :=
  if expected = got then return () else refuse (.widthMismatch expected got)

/-- The only bit of a word. -/
def oneBit : Word → Lower Literal
  | [l] => return l
  | _ => refuse .expectedOneBit

end Lower

/-! ## Symbols -/

/-- Where the bits of variables come from: a resolver, or fresh literals on first use. -/
inductive Symbols where
  | mapped (resolver : Resolver)
  | onDemand

namespace Symbols

/-- Whether operators on timeframes can be lowered. -/
def multiStep : Symbols → Bool
  | .mapped r => r.multiStep
  | .onDemand => false

/-- Whether variables are always read with all their bits. -/
def readsWhole : Symbols → Bool
  | .mapped _ => true
  | .onDemand => false

/-- The name under which literals for the next value of a variable are kept, where there are no
timeframes. -/
def primed (name : String) : String := name ++ "'"

/-- One bit of a variable in one of the timeframes of a frame. -/
def bit (symbols : Symbols) (phase : Phase) (frame : Frame) (name : String) (i : Nat) :
    Lower Literal :=
  match symbols, phase with
  | .mapped r, .current => Lower.ask r name i frame.current
  | .mapped r, .next => Lower.ask r name i frame.next
  | .onDemand, .current => Lower.demand name i
  | .onDemand, .next => Lower.demand (primed name) i

/-- The bits of a variable from a number on. -/
def wordFrom (symbols : Symbols) (phase : Phase) (frame : Frame) (name : String) :
    Nat → Nat → Lower Word
  | _, 0 => return []
  | i, count + 1 => do
    let l ← symbols.bit phase frame name i
    return l :: (← wordFrom symbols phase frame name (i + 1) count)

/-- The first bits of a variable. -/
def word (symbols : Symbols) (phase : Phase) (frame : Frame) (name : String) (width : Nat) :
    Lower Word :=
  symbols.wordFrom phase frame name 0 width

end Symbols

end BitUnroll
