import BitUnroll.Script.Basic
import BitUnroll.Unroll.Attempt

/-!
# Encodings

The unrolling of a script's selected transition system over a number of timeframes. Variables get
literals in every timeframe; then the condition on the first state, the condition on each
transition and the script's constraints are made true, in this order, and the conversions are
lowered to words.

Whatever would read a timeframe beyond the last one is refused before it is lowered. Delays move the
frame; a range of delays is as far as its last offset, and an empty one reads nothing. Bounds that
are no numbers of timeframes are left to lowering, which refuses them.

## Main definitions

* `Expr.reach?`: the latest timeframe that an expression reads when it is lowered in a frame.
* `Config`: how to unroll.
* `Encoding`: the circuit, the literals of the variables and the converted words.
* `Script.unroll`: the encoding of a script.
-/

namespace BitUnroll

/-! ## Reach -/

namespace Frame

/-- A timeframe moved forward, but no further than the last one. -/
def clamp (base offset : Nat) : Nat := min (base + offset) (limit - 1)

/-- Both timeframes moved forward, but no further than the last one. -/
def shiftClamped (f : Frame) (offset : Nat) : Frame :=
  ⟨clamp f.current offset, clamp f.next offset⟩

end Frame

/-- The later of two timeframes, either of which may be missing. -/
def later? : Option Nat → Option Nat → Option Nat
  | none, b => b
  | a, none => a
  | some a, some b => some (max a b)

namespace Expr

/-- The greatest offset of a delay, zero if it is no number of timeframes. There is none for an
empty range. -/
def lastOffset? (first last : Expr) : Option Nat :=
  if last.isNil then some (first.delayOffset?.getD 0)
  else
    match first.delayOffset?, last.delayOffset? with
    | some a, some b => if a < b then some (b - 1) else none
    | _, _ => some 0

mutual

/-- The latest timeframe that an expression reads, if it reads any. -/
def reach? : Expr → Frame → Option Nat
  | .node (.symbol _) _ _, f => some f.current
  | .node (.nextSymbol _) _ _, f => some f.next
  | .node (.temporal .delay) _ [first, last, body], f =>
    match lastOffset? first last with
    | some offset => reach? body (f.shiftClamped offset)
    | none => none
  | .node _ _ es, f => reachAll? es f

/-- The latest timeframe that one of some expressions reads. -/
def reachAll? : List Expr → Frame → Option Nat
  | [], _ => none
  | e :: es, f => later? (reach? e f) (reachAll? es f)

end

end Expr

/-! ## Unrolling -/

/-- How a script is unrolled, and whether the result is solved. -/
structure Config where
  timeframes : Nat := 2
  solve : Bool := false
  options : GateOptions := {}
  deriving DecidableEq, Repr

/-- The word of a conversion. -/
structure Converted where
  name : String
  expr : Expr
  word : Word
  deriving Repr

/-- An unrolled script. -/
structure Encoding where
  circuit : Circuit
  map : Unrolled
  conversions : List Converted

/-- What becomes of a refused expression: a failure for the caller, or a message and the end of
the program. -/
inductive OnRefusal where
  | propagate
  | exit
  deriving DecidableEq, Repr

/-- An unrolling at work: the named types, the literals of the variables, the number of
timeframes, and what becomes of refused expressions. -/
structure Unrolling where
  types : TypeTable
  map : Unrolled
  timeframes : Nat
  onRefusal : OnRefusal

namespace Unrolling

variable {α : Type}

/-- What expressions are lowered with. -/
def setting (u : Unrolling) : Setting := ⟨u.types, .mapped u.map.resolver⟩

/-- Refuses an expression that reads a timeframe beyond the last one. -/
def checkReach (u : Unrolling) (goal : Goal) (e : Expr) (frame : Frame) : Attempt Unit :=
  match e.reach? frame with
  | some t => if u.timeframes ≤ t then .fail (.of (.reach goal t u.timeframes)) else return ()
  | none => return ()

/-- Lowers an expression that stays within the timeframes, in one of the two ways. -/
def lower (u : Unrolling) (goal : Goal) (e : Expr) (frame : Frame) (returning fatal : Step α) :
    Step α := do
  u.checkReach goal e frame
  match u.onRefusal with
  | .propagate => returning
  | .exit => fatal

/-- Makes an expression true. -/
def require (u : Unrolling) (goal : Goal) (e : Expr) (frame : Frame) : Step Unit :=
  u.lower goal e frame ((e.require u.setting frame).orFail (.encoding goal frame))
    (u.map.requireOrExit u.types e frame.current frame.next)

/-- Lowers a conversion to its word. -/
def convert (u : Unrolling) (c : Conversion) : Step Converted := do
  let word ← u.lower (.conversion c.name) c.expr c.frame
    ((c.expr.toWord u.setting c.frame).orFail (.converting c.name))
    (u.map.toWordOrExit u.types c.expr c.frame.current c.frame.next)
  return ⟨c.name, c.expr, word⟩

/-- Makes constraints true, numbered from `number` on. -/
def requireFrom (u : Unrolling) : Nat → List Constraint → Step Unit
  | _, [] => return ()
  | number, c :: rest => do
    u.require (.constraint number) c.expr c.frame
    requireFrom u (number + 1) rest

/-- All that a script asks of its selected transition system. -/
def encode (u : Unrolling) (ts : TransitionSystem) (s : Script) : Step (List Converted) := do
  u.require .init ts.init (.step 0)
  (List.range (u.timeframes - 1)).forM fun t => u.require .trans ts.trans (.step t)
  u.requireFrom 1 s.constraints.toList
  s.conversions.toList.mapM u.convert

end Unrolling

/-- The encoding of a script over the timeframes of a configuration. -/
def Script.unroll (s : Script) (config : Config) (onRefusal : OnRefusal) : Attempt Encoding := do
  if config.timeframes = 0 then Attempt.fail (.of .noTimeframes)
  let ts ← Attempt.ofElab s.system
  let (map, circuit) :=
    (Unrolled.allocate (ts.varWidths s.types) config.timeframes).run (.initial config.options)
  let u : Unrolling := ⟨s.types, map, config.timeframes, onRefusal⟩
  let (conversions, lowered) ← (u.encode ts s).run { circuit := circuit }
  return ⟨lowered.circuit, map, conversions⟩

/-- The encoding of a script. A refused expression is a failure. -/
def Script.encode (s : Script) (config : Config) : Attempt Encoding := s.unroll config .propagate

end BitUnroll
