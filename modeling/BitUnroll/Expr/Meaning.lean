import BitUnroll.Expr.Basic
import BitUnroll.Frame
import BitUnroll.Types
import BitUnroll.Word.Basic

/-!
# The meaning of expressions

A trace gives each bit of each state variable a value in each timeframe. Over a trace and in a
frame, an expression has a truth value and bits, in numbers and truth values alone and without a
circuit. A node whose kind gives bits by nature is true if those bits are a single one; the bits
of any other node are its truth value. Nodes with a wrong number of operands, which mean nothing,
are false and have no bits.

## Main definitions

* `Trace`: the values of state variables.
* `Expr.truthAt`, `Expr.bitsAt`: the meaning of an expression in a frame.
-/

namespace BitUnroll

/-- The values of the bits of state variables: by name, bit and timeframe. -/
abbrev Trace := String → Nat → Nat → Bool

/-- An expression with its truth value and its bits in any frame. -/
structure Meaning where
  expr : Expr
  truth : Frame → Bool
  bits : Frame → Bits

namespace Meaning

/-- The number that a constant stands for, zero for anything else. -/
def index (m : Meaning) : Nat := (m.expr.toInteger?.getD 0).toNat

/-- The truth function of a connective. -/
def connective : Connective → List Bool → Bool
  | .and, ps => ps.all id
  | .or, ps => ps.any id
  | .xor, ps => ps.foldl (· ^^ ·) false

/-- An operator on bits of one width. Arithmetic is modulo two to the power of that width. -/
def binary : WordOp → Bits → Bits → Bits
  | .and, a, b => a.zipWith (· && ·) b
  | .or, a, b => a.zipWith (· || ·) b
  | .xor, a, b => a.zipWith (· ^^ ·) b
  | .add, a, b => .ofInt a.length (a.toNat + b.toNat)
  | .sub, a, b => .ofInt a.length (a.toNat - b.toNat)
  | .mul, a, b => .ofInt a.length (a.toNat * b.toNat)

/-- The order relation on numbers. -/
def relation : Relation → Int → Int → Bool
  | .lt, x, y => x < y
  | .le, x, y => x ≤ y
  | .gt, x, y => y < x
  | .ge, x, y => y ≤ x

/-- The truth value of a body some timeframes later, or at some offset of a range, which ends
before its second bound. -/
def delay (first last body : Meaning) (f : Frame) : Bool :=
  if last.expr.isNil then body.truth (f.later first.index)
  else (List.range' first.index (last.index - first.index)).any fun k => body.truth (f.later k)

/-- The truth value of an operator on timeframes. -/
def temporal : Temporal → List Meaning → Frame → Bool
  | .overlapped, [a, b], f | .nonOverlapped, [a, b], f => !a.truth f || b.truth f
  | .concat, [a, b], f => a.truth f && b.truth f
  | .delay, [first, last, body], f => delay first last body f
  | _, _, _ => false

/-- Whether two operands are equal, as truth values if the first one is Boolean, else as bits. -/
def equality (types : TypeTable) (a b : Meaning) (f : Frame) : Bool :=
  if types.isBool a.expr.ty then a.truth f == b.truth f else a.bits f == b.bits f

/-- The truth value of a node whose kind gives one by nature. -/
def logical (types : TypeTable) (kind : Kind) (ops : List Meaning) (f : Frame) : Bool :=
  match kind, ops with
  | .truth value, _ => value
  | .not, [a] => !a.truth f
  | .connective op, ops => connective op (ops.map (·.truth f))
  | .implies, [a, b] => !a.truth f || b.truth f
  | .equality negated, [a, b] => negated ^^ equality types a b f
  | .ite, [c, a, b] => if c.truth f then a.truth f else b.truth f
  | .relation op, [a, b] =>
    let signed := types.isSigned a.expr.ty
    relation op ((a.bits f).value signed) ((b.bits f).value signed)
  | .extractBit, [a, i] => (a.bits f).getD i.index false
  | .temporal op, ops => temporal op ops f
  | _, _ => false

/-- The bits of a node whose kind gives them by nature, or of a conditional. -/
def wordy (types : TypeTable) (trace : Trace) (e : Expr) (ops : List Meaning) (f : Frame) : Bits :=
  let width := types.width e.ty
  match e.kind, ops with
  | .symbol name, _ => (List.range width).map fun i => trace name i f.current
  | .nextSymbol name, _ => (List.range width).map fun i => trace name i f.next
  | .constant n, _ => .ofInt width n
  | .complement, [a] => (a.bits f).map (!·)
  | .negate, [a] => .ofInt (a.bits f).length (-(a.bits f).toNat)
  | .binary op, [a, b] => binary op (a.bits f) (b.bits f)
  | .ite, [c, a, b] => if c.truth f then a.bits f else b.bits f
  | .extractBits, [a, last, first] =>
    ((a.bits f).drop first.index).take (last.index + 1 - first.index)
  | .concat, ops => (ops.reverse.map (·.bits f)).flatten
  | .cast, [a] => .ofInt width ((a.bits f).value (types.isSigned a.expr.ty))
  | _, _ => []

/-- The truth value of a node. A Boolean constant is true unless it is zero. -/
def truthOf (types : TypeTable) (trace : Trace) (e : Expr) (ops : List Meaning) (f : Frame) :
    Bool :=
  match e.kind with
  | .constant n =>
    if types.isBool e.ty then n != 0 else wordy types trace e ops f == [true]
  | kind =>
    if kind.isWord then wordy types trace e ops f == [true] else logical types kind ops f

/-- The bits of a node. -/
def bitsOf (types : TypeTable) (trace : Trace) (e : Expr) (ops : List Meaning) (f : Frame) :
    Bits :=
  if e.kind.isWord || (e.kind == .ite && !types.isBool e.ty) then wordy types trace e ops f
  else [logical types e.kind ops f]

end Meaning

namespace Expr

mutual

/-- The meaning of an expression over a trace. -/
def meaning (types : TypeTable) (trace : Trace) : Expr → Meaning
  | .node kind ty es =>
    let ops := meanings types trace es
    ⟨.node kind ty es, Meaning.truthOf types trace (.node kind ty es) ops,
      Meaning.bitsOf types trace (.node kind ty es) ops⟩

/-- The meanings of expressions over a trace. -/
def meanings (types : TypeTable) (trace : Trace) : List Expr → List Meaning
  | [] => []
  | e :: es => meaning types trace e :: meanings types trace es

end

/-- The truth value of an expression in a frame of a trace. -/
def truthAt (e : Expr) (types : TypeTable) (trace : Trace) (f : Frame) : Bool :=
  (e.meaning types trace).truth f

/-- The bits of an expression in a frame of a trace. -/
def bitsAt (e : Expr) (types : TypeTable) (trace : Trace) (f : Frame) : Bits :=
  (e.meaning types trace).bits f

theorem meanings_eq_map (types : TypeTable) (trace : Trace) (es : List Expr) :
    meanings types trace es = es.map (meaning types trace) := by
  induction es with
  | nil => rfl
  | cons e es ih => simp [meanings, ih]

@[simp] theorem expr_meaning (types : TypeTable) (trace : Trace) (e : Expr) :
    (e.meaning types trace).expr = e := by
  cases e
  rfl

/-- A conjunction is true if its conjuncts are. -/
theorem truthAt_of_conjunction {types : TypeTable} {trace : Trace} {f : Frame} {e : Expr}
    (he : e.kind = .connective .and) :
    e.truthAt types trace f = e.operands.all (·.truthAt types trace f) := by
  obtain ⟨kind, ty, es⟩ := e
  obtain rfl : kind = .connective .and := he
  show ((meanings types trace es).map (·.truth f)).all id = _
  rw [meanings_eq_map, List.map_map, List.all_map]
  rfl

end Expr

end BitUnroll
