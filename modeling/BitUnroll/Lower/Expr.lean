import BitUnroll.Lower.Basic

/-!
# Lowering expressions

An expression can be lowered to a literal, its truth value, or to a word. Each kind of node has
one of the two by nature: an operator on words gives a word, and its truth value is the only bit of
that word; an operator on truth values gives a literal, and the word of that one bit where the
type is Boolean. A conditional is whichever is asked for. Operands are lowered from the left,
except those of a concatenation, and each is lowered in the frame of its node, except the body of
a delay.

Memory is left out: no word is too long to be written down. In particular a concatenation does not
set room aside for the number of bits that its type declares, which can be more than there is.

## Main definitions

* `Operand`: an expression with its two ways of being lowered.
* `Expr.lower`: both ways, for any expression.
* `Expr.require`: lowering an expression that is to be true.
-/

namespace BitUnroll

/-- What lowering depends on: the named types and the source of symbols. -/
structure Setting where
  types : TypeTable
  symbols : Symbols

/-- An expression with the computations that lower it in a frame. -/
structure Operand where
  expr : Expr
  truth : Frame → Lower Literal
  word : Frame → Lower Word

/-- Whether a kind of node is a variable. -/
def Kind.isSymbol : Kind → Bool
  | .symbol _ | .nextSymbol _ => true
  | _ => false

/-- The number of timeframes that an offset stands for. -/
def Expr.delayOffset? (e : Expr) : Option Nat :=
  match e.toInteger? with
  | some n => if 0 ≤ n ∧ n < Frame.limit then some n.toNat else none
  | none => none

namespace Lower

/-! ## Operands -/

/-- The only operand. -/
def one (kind : Kind) : List Operand → Lower Operand
  | [a] => return a
  | ops => refuse (.operands kind 1 ops.length)

/-- The two operands. -/
def two (kind : Kind) : List Operand → Lower (Operand × Operand)
  | [a, b] => return (a, b)
  | ops => refuse (.operands kind 2 ops.length)

/-- The three operands. -/
def three (kind : Kind) : List Operand → Lower (Operand × Operand × Operand)
  | [a, b, c] => return (a, b, c)
  | ops => refuse (.operands kind 3 ops.length)

/-- The first operand, which should be there. -/
def leading : List Operand → Lower Operand
  | a :: _ => return a
  | [] => crash .missingOperand

/-- The words of two operands, which should have one width. -/
def wordPair (kind : Kind) (ops : List Operand) (frame : Frame) : Lower (Word × Word) := do
  let (a, b) ← two kind ops
  let x ← a.word frame
  let y ← b.word frame
  sameWidth x.length y.length
  return (x, y)

/-- A bit of a word, which should be there. -/
def bitOf (w : Word) (i : Nat) : Lower Literal :=
  match w[i]? with
  | some l => return l
  | none => crash .missingBit

/-- The bits of a word from number `lower` to number `upper`, which should be there. -/
def slice (w : Word) (upper lower : Nat) : Lower Word :=
  if lower ≤ upper + 1 ∧ upper < w.length then return w.slice upper lower else crash .missingBit

/-- The number of a bit of a word of some width. -/
def constantIndex (e : Expr) (kind : Kind) (width : Nat) : Lower Nat :=
  match e.toInteger? with
  | none => refuse (.nonConstant kind)
  | some n => if 0 ≤ n ∧ n < width then return n.toNat else refuse (.outOfRange n width)

/-! ## Operators on timeframes -/

/-- The truth values of the body of a delay at a number of offsets, from the first one on. -/
def delays (body : Operand) (frame : Frame) : Nat → Nat → Lower (List Literal)
  | _, 0 => return []
  | offset, count + 1 => do
    let l ← body.truth (← shift frame offset)
    return l :: (← delays body frame (offset + 1) count)

/-- A body some timeframes later, or at some offset of a range. A range ends before its second
bound. -/
def delay (first last body : Operand) (frame : Frame) : Lower Literal :=
  if last.expr.isNil then
    match first.expr.delayOffset? with
    | none => refuse .delayOffset
    | some offset => do body.truth (← shift frame offset)
  else
    match first.expr.delayOffset?, last.expr.delayOffset? with
    | some first, some last => do
      build (Circuit.orAll (← delays body frame first (last - first)))
    | _, _ => refuse .delayRange

/-- The truth value of an operator on timeframes. Both sides of either implication and of a
sequence are read in the frame of the operator. -/
def temporal (op : Temporal) (ops : List Operand) (frame : Frame) : Lower Literal :=
  match op, ops with
  | .overlapped, [a, b] | .nonOverlapped, [a, b] => do
    let x ← a.truth frame
    let y ← b.truth frame
    build (Circuit.implies x y)
  | .concat, [a, b] => do
    let x ← a.truth frame
    let y ← b.truth frame
    build (Circuit.and x y)
  | .delay, [first, last, body] => delay first last body frame
  | _, _ => refuse (.unsupported (.temporal op) .boolean)

/-! ## Operators on truth values -/

/-- The gate of a connective. -/
def connective : Connective → List Literal → Build Literal
  | .and => Circuit.andAll
  | .or => Circuit.orAll
  | .xor => Circuit.xorAll

/-- Whether two operands are equal, as truth values if the first one is Boolean, else as words. -/
def equality (s : Setting) (kind : Kind) (ops : List Operand) (frame : Frame) :
    Lower Literal := do
  let (a, b) ← two kind ops
  if s.types.isBool a.expr.ty then
    let x ← a.truth frame
    let y ← b.truth frame
    build (Circuit.iff x y)
  else
    let (x, y) ← wordPair kind ops frame
    gated (x.equal y)

/-- Whether two words are in a relation. -/
def relation (op : Relation) (a b : Word) (signed : Bool) : Lower Literal :=
  match op with
  | .lt => gated (a.lessThan b signed)
  | .gt => gated (b.lessThan a signed)
  | .le => do return -(← gated (b.lessThan a signed))
  | .ge => do return -(← gated (a.lessThan b signed))

/-- One bit of a word. Of a variable only that bit is read. -/
def extractBit (s : Setting) (ops : List Operand) (frame : Frame) : Lower Literal := do
  let (a, index) ← two .extractBit ops
  let width := s.types.width a.expr.ty
  let i ← constantIndex index.expr .extractBit width
  match a.expr.kind with
  | .symbol name => s.symbols.bit .current frame name i
  | _ =>
    let w ← a.word frame
    sameWidth width w.length
    bitOf w i

/-- The truth value of a node whose kind gives a literal by nature. -/
def logical (s : Setting) (kind : Kind) (ops : List Operand) (frame : Frame) : Lower Literal :=
  match kind with
  | .truth value => return .ofBool value
  | .not => do return -(← (← one kind ops).truth frame)
  | .connective op => do build (connective op (← ops.mapM (·.truth frame)))
  | .implies => do
    let (a, b) ← two kind ops
    let x ← a.truth frame
    let y ← b.truth frame
    build (Circuit.implies x y)
  | .equality negated => do
    let same ← equality s kind ops frame
    return if negated then -same else same
  | .ite => do
    let (c, a, b) ← three kind ops
    let z ← c.truth frame
    let x ← a.truth frame
    let y ← b.truth frame
    build (Circuit.select z x y)
  | .relation op => do
    let (x, y) ← wordPair kind ops frame
    let a ← leading ops
    relation op x y (s.types.isSigned a.expr.ty)
  | .extractBit => extractBit s ops frame
  | .temporal op =>
    if s.symbols.multiStep then temporal op ops frame
    else refuse (.unsupported kind .boolean)
  | _ => refuse (.unsupported kind .boolean)

/-! ## Operators on words -/

/-- The circuit of an operator on two words. -/
def wordOp : WordOp → Word → Word → Word.Gated Word
  | .and => Word.bitwise Circuit.and
  | .or => Word.bitwise Circuit.or
  | .xor => Word.bitwise Circuit.xor
  | .add => fun a b => Word.add a b .bottom
  | .sub => Word.sub
  | .mul => Word.mul

/-- Adjacent bits of a word. -/
def extractBits (width : Nat) (ops : List Operand) (frame : Frame) : Lower Word := do
  let (a, last, first) ← three .extractBits ops
  let w ← a.word frame
  let upper ← constantIndex last.expr .extractBits w.length
  let lower ← constantIndex first.expr .extractBits w.length
  if upper < lower then
    refuse (.outOfRange lower (upper + 1))
  else
    sameWidth width (upper - lower + 1)
    slice w upper lower

/-- The word of a node whose kind gives a word by nature, or of a conditional. -/
def wordy (s : Setting) (e : Expr) (ops : List Operand) (frame : Frame) : Lower Word :=
  let width := s.types.width e.ty
  match e.kind with
  | .symbol name =>
    if width = 0 then refuse (.zeroWidth name) else s.symbols.word .current frame name width
  | .nextSymbol name =>
    if width = 0 then refuse (.unsupported e.kind .bitvector)
    else s.symbols.word .next frame name width
  | .constant n =>
    if width = 0 then refuse (.zeroWidth (toString n)) else return Word.ofInt width n
  | .complement => do return (← (← one e.kind ops).word frame).complement
  | .negate => do gated (← (← one e.kind ops).word frame).negate
  | .binary op => do
    let (x, y) ← wordPair e.kind ops frame
    sameWidth width x.length
    gated (wordOp op x y)
  | .ite => do
    let (c, a, b) ← three e.kind ops
    let z ← c.truth frame
    let x ← a.word frame
    let y ← b.word frame
    sameWidth x.length y.length
    gated (Word.mux z x y)
  | .extractBits => extractBits width ops frame
  | .concat => do
    let w := (← ops.reverse.mapM (·.word frame)).flatten
    sameWidth width w.length
    return w
  | .cast => do
    let a ← one e.kind ops
    let w ← a.word frame
    if width = 0 then refuse (.zeroWidth e.render)
    else return w.resize width (s.types.isSigned a.expr.ty)
  | _ => refuse (.unsupported e.kind .bitvector)

/-! ## Nodes -/

/-- The truth value of a node. A Boolean constant is true unless it is zero; the truth value of any
other word is its only bit, if the type has one bit or a variable is read as a whole. -/
def truthOf (s : Setting) (e : Expr) (ops : List Operand) (frame : Frame) : Lower Literal :=
  match e.kind with
  | .constant n =>
    if s.types.isBool e.ty then return .ofBool (n != 0) else ofWord
  | kind => if kind.isWord then ofWord else logical s kind ops frame
where
  /-- The truth value of a node that gives a word. -/
  ofWord : Lower Literal :=
    if (e.kind.isSymbol && s.symbols.readsWhole) || s.types.width e.ty == 1 then do
      oneBit (← wordy s e ops frame)
    else refuse (.unsupported e.kind .boolean)

/-- The word of a node. -/
def wordOf (s : Setting) (e : Expr) (ops : List Operand) (frame : Frame) : Lower Word :=
  if e.kind.isWord || (e.kind == .ite && !s.types.isBool e.ty) then wordy s e ops frame
  else if s.types.isBool e.ty then do return [← logical s e.kind ops frame]
  else refuse (.unsupported e.kind .bitvector)

end Lower

namespace Expr

mutual

/-- An expression with both ways of being lowered. -/
def lower (s : Setting) : Expr → Operand
  | .node kind ty es =>
    let ops := lowerAll s es
    ⟨.node kind ty es, Lower.truthOf s (.node kind ty es) ops,
      Lower.wordOf s (.node kind ty es) ops⟩

/-- Expressions with both ways of being lowered. -/
def lowerAll (s : Setting) : List Expr → List Operand
  | [] => []
  | e :: es => lower s e :: lowerAll s es

end

/-- The truth value of an expression. -/
def toLiteral (s : Setting) (e : Expr) (frame : Frame) : Lower Literal := (e.lower s).truth frame

/-- The word of an expression. -/
def toWord (s : Setting) (e : Expr) (frame : Frame) : Lower Word := (e.lower s).word frame

/-! ## Requirements -/

/-- Whether one of the first bits of a name has a literal. -/
def anyBound (name : String) (width : Nat) : Lower Bool := do
  let bound := (← get).bound
  return (List.range width).any fun i => (bound[(⟨name, i⟩ : NamedBit)]?).isSome

/-- Lets the bits of a word stand for the bits of a name, from a number on. -/
def bindFrom (name : String) : Nat → Word → Lower Unit
  | _, [] => return ()
  | i, l :: rest => do
    Lower.bind name i l
    bindFrom name (i + 1) rest

/-- Makes the bits of two words equal, as far as both go. -/
def requireEqualBits : Word → Word → Lower Unit
  | x :: a, y :: b => do
    Lower.build (Circuit.requireEqual x y)
    requireEqualBits a b
  | _, _ => return ()

/-- Makes a variable without literals equal to an expression by letting the expression's bits
stand for its own. If the expression has another width, or mentions the variable, the bits are
made equal by clauses. Returns whether any of this was possible. -/
def bindSymbol (s : Setting) (lhs rhs : Expr) (frame : Frame) : Lower Bool := do
  let .symbol name := lhs.kind | return false
  let width := s.types.width lhs.ty
  if width = 0 then return false
  if ← anyBound name width then return false
  let w ← rhs.toWord s frame
  if w.length ≠ width || (← anyBound name width) then
    let own ← lhs.toWord s frame
    Lower.sameWidth own.length w.length
    requireEqualBits own w
  else
    bindFrom name 0 w
  return true

/-- Tries to make the first two operands of an expression equal without a gate for the equality.
With a resolver every bit has its literal already. -/
def requireEquality (s : Setting) (e : Expr) (frame : Frame) : Lower Bool :=
  match s.symbols, e.operands with
  | .mapped _, _ => return false
  | .onDemand, lhs :: rhs :: _ => bindSymbol s lhs rhs frame
  | .onDemand, _ => Lower.crash .missingOperand

/-- Makes the truth value of an expression true. -/
def requireTruth (s : Setting) (e : Expr) (frame : Frame) : Lower Unit := do
  Lower.build (Circuit.require (← e.toLiteral s frame))

mutual

/-- Makes an expression true: each operand of a conjunction, an equality by itself if it can be,
and anything else by its truth value. -/
def require (s : Setting) : Expr → Frame → Lower Unit
  | .node (.connective .and) _ es, frame => requireAll s es frame
  | .node (.equality false) ty [lhs, rhs], frame => do
    if ← requireEquality s (.node (.equality false) ty [lhs, rhs]) frame then return ()
    requireTruth s (.node (.equality false) ty [lhs, rhs]) frame
  | e, frame => requireTruth s e frame

/-- Makes expressions true, in order. -/
def requireAll (s : Setting) : List Expr → Frame → Lower Unit
  | [], _ => return ()
  | e :: es, frame => do
    require s e frame
    requireAll s es frame

end

end Expr

end BitUnroll
